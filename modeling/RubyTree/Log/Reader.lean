import RubyTree.Log.Event
import RubyTree.Log.QuotedText
import RubyTree.Text.Identifier

/-!
# Reading the Event Log

The log has one event per line: `#`, the number, the name, the line and the
column divided by a colon, and the arguments in brackets. Spaces may stand
between any two of these, and nothing else may. An event ends its line, and no
token spans two lines, so all that can be wrong with an event is wrong at one
line.

A value is read in two steps. Its extent is found first, then what follows is
checked to end a value, and only then is its content decoded. Content that does
not decode is therefore noticed only if the log goes on as it should.

## Main definitions

* `Lexeme`: A value whose content has not been decoded.
* `readArg`, `readArgs`: Arguments.
* `readEvent`: One line of the log.
* `readLog`: The whole log.
-/

namespace RubyTree

namespace Log

/-- Spaces may be skipped anywhere between tokens. -/
def skip (cs : List Char) : List Char :=
  cs.dropWhile (· = ' ')

/-- A decimal digit of a number in the log. -/
def isFigure (c : Char) : Bool :=
  '0' ≤ c && c ≤ '9'

/-- One or more digits, and the rest. -/
def figures? (cs : List Char) : Option (List Char × List Char) :=
  match cs.takeWhile isFigure with
  | [] => none
  | ds => some (ds, cs.dropWhile isFigure)

/-- A character an event name may go on with. -/
def continuesName (c : Char) : Bool :=
  Text.startsIdentifier c || isFigure c

/-- A name of letters, digits and underscores, and the rest. -/
def plainName? : List Char → Option (List Char × List Char)
  | c :: cs =>
    if Text.startsIdentifier c then
      some (c :: cs.takeWhile continuesName, cs.dropWhile continuesName)
    else none
  | [] => none

/-- A name with an optional `@` in front, and the rest. -/
def name? : List Char → Option (List Char × List Char)
  | '@' :: cs => (plainName? cs).map fun (name, rest) => ('@' :: name, rest)
  | cs => plainName? cs

/-- A value without parts, of which only the extent is known. -/
inductive Lexeme where
  | ref (figures : List Char)
  | quoted (inner : List Char)
  | symbol (inner : List Char)
  | integer (sign : Bool) (figures : List Char)
  | word (value : Atom)

/-- The value without parts at the start of a text. -/
def lexeme? : List Char → Option (Lexeme × List Char)
  | '#' :: cs => (figures? cs).map fun (ds, rest) => (.ref ds, rest)
  | '"' :: cs => (QuotedText.span? cs).map fun (inner, rest) => (.quoted inner, rest)
  | ':' :: '"' :: cs => (QuotedText.span? cs).map fun (inner, rest) => (.symbol inner, rest)
  | '-' :: cs => (figures? cs).map fun (ds, rest) => (.integer true ds, rest)
  | '+' :: cs => (figures? cs).map fun (ds, rest) => (.integer false ds, rest)
  | 'n' :: 'i' :: 'l' :: rest => some (.word .null, rest)
  | 't' :: 'r' :: 'u' :: 'e' :: rest => some (.word (.bool true), rest)
  | 'f' :: 'a' :: 'l' :: 's' :: 'e' :: rest => some (.word (.bool false), rest)
  | cs => (figures? cs).map fun (ds, rest) => (.integer false ds, rest)

/-- The number that digits name. -/
def natural (ds : List Char) : Except Error Nat :=
  match Numeral.readDigits? 10 ds with
  | some n => return n
  | none => throw .noValue

/-- The code points a quoted text says. -/
def quotedText (inner : List Char) : Except Error (List Nat) :=
  match QuotedText.decode? inner with
  | some points => return points
  | none => throw .badQuotedText

/-- The argument a lexeme denotes. -/
def Lexeme.decode : Lexeme → Except Error Arg
  | ref ds => do return .ref (← natural ds)
  | quoted inner => do return .atom (.ofPoints (← quotedText inner))
  | symbol inner => do return .atom (.sym (Text.shownPoints (← quotedText inner)))
  | integer negative ds => do
    let n ← natural ds
    return .atom (.int (if negative then -(n : Int) else n))
  | word a => return .atom a

/-- Whether a value may end here. -/
def endsValue : List Char → Bool
  | c :: _ => c = ',' || c = ')' || c = ']'
  | [] => false

mutual

/-- The argument at the start of a text, and what follows it and its spaces. -/
def readArg (line : Nat) : Nat → List Char → Except Error (Arg × List Char)
  | 0, _ => throw (.malformedLog line)
  | fuel + 1, '[' :: cs => do
    let (items, rest) ← readArgs line ']' fuel (skip cs)
    let rest := skip rest
    if endsValue rest then return (.list items, rest) else throw (.malformedLog line)
  | _ + 1, cs =>
    match lexeme? cs with
    | some (lexeme, rest) =>
      let rest := skip rest
      -- Decoding comes last, so that a log that breaks off here is reported as such.
      if endsValue rest then do return (← lexeme.decode, rest)
      else throw (.malformedLog line)
    | none => throw (.malformedLog line)

/-- Arguments divided by commas up to a closing bracket, and what follows it. -/
def readArgs (line : Nat) (close : Char) : Nat → List Char → Except Error (List Arg × List Char)
  | 0, _ => throw (.malformedLog line)
  | _ + 1, [] => throw (.malformedLog line)
  | fuel + 1, c :: cs =>
    if c = close then return ([], cs)
    else do
      let (arg, rest) ← readArg line fuel (c :: cs)
      let (args, rest) ← readMoreArgs line close fuel rest
      return (arg :: args, rest)

/-- What follows an argument: the closing bracket, or a comma and another one. -/
def readMoreArgs (line : Nat) (close : Char) :
    Nat → List Char → Except Error (List Arg × List Char)
  | 0, _ => throw (.malformedLog line)
  | _ + 1, [] => throw (.malformedLog line)
  | fuel + 1, c :: cs =>
    if c = close then return ([], cs)
    else if c = ',' then do
      let (arg, rest) ← readArg line fuel (skip cs)
      let (args, rest) ← readMoreArgs line close fuel rest
      return (arg :: args, rest)
    else throw (.malformedLog line)

end

/-- The head of an event up to its opening bracket: number, name, line and column. -/
def head? (cs : List Char) : Option ((List Char × List Char × List Char × List Char) × List Char) :=
  match cs with
  | '#' :: cs => do
    let (id, cs) ← figures? cs
    let (name, cs) ← name? (skip cs)
    let (line, cs) ← figures? (skip cs)
    match cs with
    | ':' :: cs => do
      let (column, cs) ← figures? cs
      match skip cs with
      | '(' :: cs => return ((id, name, line, column), skip cs)
      | _ => none
    | _ => none
  | _ => none

/-- What follows the end of the line. -/
def lineEnd? : List Char → Option (List Char)
  | '\n' :: cs => some cs
  | '\r' :: '\n' :: cs => some cs
  | _ => none

/-- Whether an event may end here: at the end of the log, or before another one. -/
def endsEvent : List Char → Bool
  | [] => true
  | '#' :: c :: _ => isFigure c
  | _ => false

/-- The event at the start of a text, which is line `number` of the log, and the
    lines after it. -/
def readEvent (number : Nat) (cs : List Char) : Except Error (Event × List Char) :=
  match head? cs with
  | none => throw (.malformedLog number)
  | some ((id, name, line, column), rest) => do
    -- A bracket takes two steps, one for the list and one for the value it is.
    let (args, rest) ← readArgs number ')' (2 * rest.length + 1) rest
    match lineEnd? (skip rest) with
    | none => throw (.malformedLog number)
    | some rest =>
      let rest := skip rest
      if endsEvent rest then
        let event : Event :=
          { id := ← natural id
            name := String.ofList name
            line := ← natural line
            column := ← natural column
            args }
        return (event, rest)
      -- The event is whole and its line has ended; what is wrong is on the next one.
      else throw (.malformedLog (number + 1))

/-- The events of a text of at most `fuel` lines, the first of which is line
    `number` of the log. -/
def readFrom : Nat → Nat → List Char → Except Error (List Event)
  | 0, _, _ => return []
  | fuel + 1, number, cs =>
    match skip cs with
    | [] => return []
    | c :: cs => do
      let (event, rest) ← readEvent number (c :: cs)
      return event :: (← readFrom fuel (number + 1) rest)

end Log

/-- The events a log records. Every event takes at least one character. -/
def readLog (log : String) : Except Error (List Event) :=
  Log.readFrom (log.toList.length + 1) 1 log.toList

end RubyTree
