import RubyTree.Error
import RubyTree.Number.Numeral
import RubyTree.Text.Surrogate

/-!
# Backslash Escapes

The full set of escapes, as in a double-quoted string. A backslash starts the
longest escape that fits, tried in a fixed order: octal, hexadecimal, one code
point, several code points in braces, control and meta characters in their
spellings, and last any single character, which stands for itself unless it is
one of nine letters. Only the last kind accepts a line break. A backslash at the
very end is no escape and stands for itself.

Escapes denote octets rather than characters, so the result is UTF-8 only if
the octets happen to be.

## Main definitions

* `Escape`: What an escape denotes.
* `Escape.read?`: The escape after a backslash, and the rest of the text.
* `Escape.octets`: The octets an escape denotes.
* `unescapeOctets`: A text with its escapes decoded, as octets.
* `unescape`: The same as text.
* `unescapeChar`: A character literal, which may be binary.
* `refuseHalf`: What is wrong with a text that holds half of a character.
-/

namespace RubyTree

/-- What an escape denotes: an octet, some code points, or the character after
    the backslash. -/
inductive Escape where
  | octet (value : Nat)
  | points (values : List Nat)
  | char (value : Char)
  deriving DecidableEq, Repr

namespace Escape

open Numeral (digitIn? ofDigits)

/-- A hexadecimal digit. -/
def isHex (c : Char) : Bool :=
  ('0' ≤ c && c ≤ '9') || ('a' ≤ c && c ≤ 'f') || ('A' ≤ c && c ≤ 'F')

def isOctal (c : Char) : Bool :=
  '0' ≤ c && c ≤ '7'

/-- The blanks that may divide code points. -/
def isSpacer (c : Char) : Bool :=
  c = ' ' || c = '\t'

/-- The digits at the start of a text, at most `most` of them. -/
def digitRun (p : Char → Bool) (most : Nat) (cs : List Char) : List Char :=
  (cs.take most).takeWhile p

/-- The value of digits in a base. -/
def valueIn (base : Nat) (cs : List Char) : Nat :=
  ofDigits base (cs.filterMap (digitIn? base))

/-- One to three octal digits. -/
def octal? (cs : List Char) : Option (Escape × List Char) :=
  let run := digitRun isOctal 3 cs
  if run.isEmpty then none else some (.octet (valueIn 8 run % 256), cs.drop run.length)

/-- An `x` and one or two hexadecimal digits. -/
def hexadecimal? : List Char → Option (Escape × List Char)
  | 'x' :: cs =>
    let run := digitRun isHex 2 cs
    if run.isEmpty then none else some (.octet (valueIn 16 run), cs.drop run.length)
  | _ => none

/-- A `u` and four hexadecimal digits. -/
def point? : List Char → Option (Escape × List Char)
  | 'u' :: cs =>
    let run := digitRun isHex 4 cs
    if run.length = 4 then some (.points [valueIn 16 run], cs.drop 4) else none
  | _ => none

/-- The words of a text, which spacers divide. -/
def words : List Char → List (List Char)
  | [] => []
  | [c] => if isSpacer c then [] else [[c]]
  | c :: d :: cs =>
    if isSpacer c then words (d :: cs)
    else if isSpacer d then [c] :: words (d :: cs)
    else match words (d :: cs) with
      | [] => [[c]]
      | w :: ws => (c :: w) :: ws

/-- A `u` and, in braces, one or more code points of up to six hexadecimal digits. -/
def points? : List Char → Option (Escape × List Char)
  | 'u' :: '\x7b' :: cs =>
    let inner := cs.takeWhile fun c => isHex c || isSpacer c
    let ws := words inner
    match cs.drop inner.length with
    | '\x7d' :: rest =>
      if !ws.isEmpty && ws.all (·.length ≤ 6) then some (.points (ws.map (valueIn 16)), rest)
      else none
    | _ => none
  | _ => none

/-- A control character keeps the low five bits and the top one. -/
def control (b : Nat) : Nat :=
  if b = '?'.toNat then 127 else b &&& 0b10011111

/-- A meta character has the top bit set. -/
def withMeta (b : Nat) : Nat :=
  b ||| 0b10000000

/-- The spellings of control and meta characters, in the order they are tried. -/
def modifiers : List (List Char × (Nat → Nat)) :=
  [ (['M', '-', '\\', 'C', '-'], fun b => withMeta (control b)),
    (['C', '-', '\\', 'M', '-'], fun b => withMeta (control b)),
    (['M', '-', '\\', 'c'], fun b => withMeta (control b)),
    (['c', '\\', 'M', '-'], fun b => withMeta (control b)),
    (['C', '-'], control),
    (['c'], control),
    (['M', '-'], withMeta) ]

/-- The character after a spelling, if the text starts with that and a
    character other than a line break follows. -/
def afterMark? (mark cs : List Char) : Option (Char × List Char) :=
  if mark.isPrefixOf cs then
    match cs.drop mark.length with
    | c :: rest => if c = '\n' then none else some (c, rest)
    | [] => none
  else none

/-- A control or meta character, made from the low eight bits of its base. -/
def modified? (cs : List Char) : Option (Escape × List Char) :=
  modifiers.findSome? fun (mark, change) =>
    (afterMark? mark cs).map fun (c, rest) => (.octet (change (c.toNat % 256)), rest)

/-- The letters that stand for another character. -/
def letters : List (Char × Nat) :=
  [('a', 0x07), ('b', 0x08), ('e', 0x1B), ('f', 0x0C), ('n', 0x0A), ('r', 0x0D), ('s', 0x20),
   ('t', 0x09), ('v', 0x0B)]

/-- Any single character. -/
def single? : List Char → Option (Escape × List Char)
  | [] => none
  | c :: cs =>
    match letters.lookup c with
    | some b => some (.octet b, cs)
    | none => some (.char c, cs)

/-- The escape after a backslash, and what follows it. -/
def read? (cs : List Char) : Option (Escape × List Char) :=
  (octal? cs).or <| (hexadecimal? cs).or <| (point? cs).or <| (points? cs).or <|
    (modified? cs).or <| single? cs

/-- The octets an escape denotes. -/
def octets : Escape → Except Error (List UInt8)
  | octet b => return [b.toUInt8]
  | char c => return Text.Utf8.encodeChar c
  | points ns =>
    if ns.any (0x10FFFF < ·) then throw .noValue
    else if ns.any Text.isSurrogate then throw .surrogate
    else return Text.Utf8.encode (ns.map Char.ofNat)

end Escape

/-- Decodes the escapes of a text of at most `fuel` characters. -/
def unescapeFrom : Nat → List Char → Except Error (List UInt8)
  | 0, _ => return []
  | _ + 1, [] => return []
  | fuel + 1, '\\' :: cs =>
    match Escape.read? cs with
    | some (e, rest) => do return (← e.octets) ++ (← unescapeFrom fuel rest)
    | none => do return Text.Utf8.encodeChar '\\' ++ (← unescapeFrom fuel cs)
  | fuel + 1, c :: cs => do return Text.Utf8.encodeChar c ++ (← unescapeFrom fuel cs)

/-- The octets of a text with its escapes decoded. Each step takes at least one
    character, so the length of the text is enough. -/
def unescapeOctets (cs : List Char) : Except Error (List UInt8) :=
  unescapeFrom cs.length cs

/-- A text with its escapes decoded; octets that are not UTF-8 are an error in
    the source. -/
def unescape (cs : List Char) : Except Error (List Char) := do
  let bs ← unescapeOctets cs
  match Text.Utf8.decode bs with
  | some cs => return cs
  | none => throw (.invalidContent bs)

/-- The error of a text with half of a character, given what stands before
    that: the half has no octets, unless something is wrong before it. -/
def refuseHalf {α : Type} (before : List Char) : Except Error α := do
  let _ ← unescapeOctets before
  throw .surrogate

/-- A decoded character literal is a text, or binary if it is not UTF-8. -/
def unescapeChar (cs : List Char) : Except Error (List Char ⊕ List UInt8) := do
  let bs ← unescapeOctets cs
  return match Text.Utf8.decode bs with
    | some cs => .inl cs
    | none => .inr bs

end RubyTree
