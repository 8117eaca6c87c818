import RubyTree.Number.Shortest
import RubyTree.Text.Quoted

/-!
# Atoms

The values without parts. Recorded events carry nothing, truth values, integers,
texts and symbols; the numbers of other kinds and binary text are what literals
denote. Symbols and texts are different values with the same content: every
comparison and every look-up goes by the text alone, while a printed tree keeps
them apart.

A text is made of characters. The one exception is a text that a log spells by
code units, which may hold halves of characters: it is kept by its code points,
and serves as the text it is shown as wherever it need not be encoded.

A broken raw tree may hold values of still other kinds. Nothing is made of them:
they are handed on as they are, and all that is known of one is how it is shown
and whether it can be looked up.

Each atom has two textual forms. Shown, a text stands for itself; quoted, it is
between quotes and a symbol has a colon in front.

## Main definitions

* `Foreign`: A value that is only handed on.
* `Atom`: The values without parts.
* `Atom.isKey`: Whether a value can be looked up.
* `Atom.isZero`, `Atom.isEmpty`: The values that count as zero and as absent.
* `Atom.text?`: The content of a text or a symbol.
* `Atom.ofPoints`: The text with these code points.
* `Atom.joinTexts?`: Texts joined into one.
* `Atom.plus?`: The sum with a natural number.
* `Atom.quoted`, `Atom.display`: The two textual forms.
-/

namespace RubyTree

/-- A value of a kind that trees are not made from. -/
structure Foreign where
  /-- The value itself, in the notation it was given in. -/
  written : String
  shown : String
  /-- Whether it can be looked up. -/
  isKey : Bool
  deriving DecidableEq, Repr

/-- A value without parts. -/
inductive Atom where
  | null
  | bool (value : Bool)
  | int (value : Int)
  | str (text : String)
  | sym (name : String)
  /-- A text with halves of characters, by its code points. -/
  | torn (points : List Nat)
  | real (value : Binary64)
  | complex (re im : Binary64)
  | rational (value : Rat)
  | octets (value : List UInt8)
  | foreign (value : Foreign)
  deriving DecidableEq, Repr

namespace Atom

/-- Whether the value can be looked up among others. -/
def isKey : Atom → Bool
  | foreign v => v.isKey
  | _ => true

/-- The numbers that are zero; a truth value counts as one or zero. -/
def isZero : Atom → Bool
  | bool b => !b
  | int i => i == 0
  | real x => x.isZero
  | complex re im => re.isZero && im.isZero
  | rational q => q == 0
  | _ => false

/-- The atoms that count as absent where a field is optional. -/
def isEmpty : Atom → Bool
  | null => true
  | str t => t == ""
  | sym n => n == ""
  | torn points => points.isEmpty
  | octets bs => bs.isEmpty
  | a => a.isZero

/-- The content of a text or a symbol. -/
def text? : Atom → Option String
  | str t => some t
  | sym n => some n
  | torn points => some (Text.shownPoints points)
  | _ => none

/-- Whether the value is a text, a symbol, or binary text. -/
def isTextual : Atom → Bool
  | octets _ => true
  | a => a.text?.isSome

/-- The code points of a text or a symbol. -/
def points? : Atom → Option (List Nat)
  | torn points => some points
  | a => a.text?.map fun t => t.toList.map Char.toNat

/-- The text with these code points. -/
def ofPoints (points : List Nat) : Atom :=
  if points.any Text.isSurrogate then torn points
  else str (String.ofList (points.map Char.ofNat))

/-- What stands before the first half of a character, if there is one. -/
def beforeHalf? : Atom → Option (List Char)
  | torn points => Text.beforeHalf? points
  | _ => none

/-- Texts joined into one. -/
def joinTexts? (atoms : List Atom) : Option Atom :=
  if atoms.any (·.beforeHalf?.isSome) then
    (atoms.mapM points?).map fun parts => torn parts.flatten
  else (atoms.mapM text?).map fun texts => str (String.join texts)

/-- The sum of a number and a natural number; a truth value counts as one or
    zero. -/
def plus? (n : Nat) : Atom → Option Atom
  | bool b => some (int ((if b then 1 else 0) + n))
  | int i => some (int (i + n))
  | real x => some (real (x.plus n))
  | complex re im => some (complex (re.plus n) (im.plus 0))
  | rational q => some (rational (q + n))
  | _ => none

/-- A rational as the two numbers it is made of. -/
def quotedRational (q : Rat) : String :=
  "Fraction(" ++ toString q.num ++ ", " ++ toString q.den ++ ")"

/-- An atom as messages name it. -/
def quoted : Atom → String
  | null => "None"
  | bool b => if b then "True" else "False"
  | int i => toString i
  | str t => Text.quoted t
  | sym n => ":" ++ n
  | torn points => Text.quotedPoints points
  | real x => x.print
  | complex re im => printComplex re im
  | rational q => quotedRational q
  | octets bs => Text.quotedOctets bs
  | foreign v => v.shown

/-- A rational as a name made from it reads. -/
def displayRational (q : Rat) : String :=
  if q.den = 1 then toString q.num else toString q.num ++ "/" ++ toString q.den

/-- An atom as a name made from it reads. -/
def display : Atom → String
  | rational q => displayRational q
  | a => a.text?.getD a.quoted

end Atom

end RubyTree
