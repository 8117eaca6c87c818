import RubyTree.Literal.Escape

/-!
# Quoted Texts in the Log

Texts stand between double quotes in the event log, and a backslash hides the
character after it. Where a text ends is found first, by pairing each backslash
with the next character; what it says is read afterwards, and may turn out to be
invalid: a control character must be escaped, and of the escapes only eight
single letters and code units of four hexadecimal digits exist. Two code units
that form a surrogate pair are one character; one of them by itself is allowed,
and stays half of a character.

## Main definitions

* `QuotedText.span?`: The inside of a quoted text, and what follows it.
* `QuotedText.decode?`: What the inside says, as code points.
-/

namespace RubyTree

namespace QuotedText

/-- The characters before the closing quote, and those after it. A text ends on
    the line it starts on. -/
def span? : List Char → Option (List Char × List Char)
  | [] => none
  | [c] => if c = '"' then some ([], []) else none
  | c :: d :: cs =>
    if c = '"' then some ([], d :: cs)
    else if c = '\n' then none
    else if c = '\\' then
      if d = '\n' then none
      else (span? cs).map fun (inner, rest) => (c :: d :: inner, rest)
    else (span? (d :: cs)).map fun (inner, rest) => (c :: inner, rest)

/-- The escapes of one letter. -/
def letters : List (Char × Char) :=
  [('"', '"'), ('\\', '\\'), ('/', '/'), ('b', '\x08'), ('f', '\x0c'), ('n', '\n'), ('r', '\r'),
   ('t', '\t')]

/-- The code unit that four hexadecimal digits name. -/
def unit? (cs : List Char) : Option Nat :=
  if cs.length = 4 && cs.all Escape.isHex then some (Escape.valueIn 16 cs) else none

/-- The low code unit that follows a high one, if it does, and the rest. -/
def lowUnit? : List Char → Option (Nat × List Char)
  | '\\' :: 'u' :: a :: b :: c :: d :: cs =>
    match unit? [a, b, c, d] with
    | some n => if Text.isLow n then some (n, cs) else none
    | none => none
  | _ => none

/-- Reads the inside of a quoted text of at most `fuel` characters. -/
def decodeFrom : Nat → List Char → Option (List Nat)
  | 0, _ => some []
  | _ + 1, [] => some []
  | fuel + 1, '\\' :: 'u' :: cs => do
    let n ← unit? (cs.take 4)
    let rest := cs.drop 4
    match if Text.isHigh n then lowUnit? rest else none with
    | some (low, rest) => return Text.joinSurrogates n low :: (← decodeFrom fuel rest)
    | none => return n :: (← decodeFrom fuel rest)
  | fuel + 1, '\\' :: c :: cs => do
    return (← letters.lookup c).toNat :: (← decodeFrom fuel cs)
  | fuel + 1, c :: cs =>
    if c = '\\' ∨ c.toNat < 0x20 then none
    else do return c.toNat :: (← decodeFrom fuel cs)

/-- The code points that the inside of a quoted text says, if it is valid. -/
def decode? (cs : List Char) : Option (List Nat) :=
  decodeFrom cs.length cs

end QuotedText

end RubyTree
