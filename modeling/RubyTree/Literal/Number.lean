import RubyTree.Error
import RubyTree.Number.Numeral

/-!
# Number Literals

The values of Ruby's number literals. Underscores may stand anywhere and are
dropped. An integer has a sign, then the mark of its base after a zero, in
either case, or a bare zero for base eight; a rational ends in `r` and may have
a point; an imaginary number ends in `i` and is any of the others before that.

## Main definitions

* `markedBase?`: The base that the two characters of a mark name.
* `integerLiteral`: The value of an integer literal.
* `rationalLiteral`: The value of a rational literal, without its `r`.
* `RealNumber`, `realLiteral`: The value before the `i` of an imaginary literal.
* `imaginaryPart`: That value as a double.
-/

namespace RubyTree

/-- A text without underscores. -/
def dropUnderscores (cs : List Char) : List Char :=
  cs.filter (· != '_')

/-- The base that a mark names. -/
def markedBase? : List Char → Option Nat
  | ['0', 'x'] => some 16
  | ['0', 'b'] => some 2
  | ['0', 'o'] => some 8
  | ['0', 'd'] => some 10
  | _ => none

/-- The value of digits in small letters, by the mark of their base. -/
def readMarked? (cs : List Char) : Option Int :=
  match markedBase? (cs.take 2) with
  | some base => Numeral.readInt? base (cs.drop 2)
  | none =>
    match cs with
    | '0' :: d :: ds => Numeral.readInt? 8 (d :: ds)
    | _ => Numeral.readInt? 10 cs

/-- The value of an integer literal. -/
def integerLiteral (cs : List Char) : Except Error Int :=
  let (negative, digits) := Numeral.signed ((dropUnderscores cs).map Char.toLower)
  match readMarked? digits with
  | some i => return if negative then -i else i
  | none => throw .noValue

/-- The value of a float literal. -/
def floatLiteral (cs : List Char) : Except Error Binary64 :=
  match Numeral.readReal? (dropUnderscores cs) with
  | some x => return x
  | none => throw .noValue

/-- The value of a rational literal, given without its last letter. -/
def rationalLiteral (cs : List Char) : Except Error Rat :=
  let cs := dropUnderscores cs
  if cs.contains '.' then
    match Numeral.readRat? cs with
    | some q => return q
    | none => throw .noValue
  else do return (← integerLiteral cs : Int)

/-- A real number in one of the forms a literal can have. -/
inductive RealNumber where
  | integer (value : Int)
  | float (value : Binary64)
  | rational (value : Rat)
  deriving DecidableEq, Repr

/-- The number as a value. -/
def RealNumber.toAtom : RealNumber → Atom
  | .integer i => .int i
  | .float x => .real x
  | .rational q => .rational q

/-- The value of a literal that is not imaginary. A point or an exponent makes
    it a float, unless the letter is a digit of a marked base. -/
def realLiteral (cs : List Char) : Except Error RealNumber :=
  if cs.getLast? = some 'r' then .rational <$> rationalLiteral cs.dropLast
  else
    let body := ((dropUnderscores cs).map Char.toLower).dropWhile fun c => c = '+' || c = '-'
    if (markedBase? (body.take 2)).isNone && body.any fun c => c = '.' || c = 'e' then
      .float <$> floatLiteral cs
    else .integer <$> integerLiteral cs

/-- A real number as the imaginary part of a complex one. -/
def imaginaryPart : RealNumber → Except Error Binary64
  | .integer i => match Binary64.ofInt? i with
    | some x => return x
    | none => throw .tooLarge
  | .float x => return x
  | .rational q => match Binary64.ofRat? q with
    | some x => return x
    | none => throw .tooLarge

end RubyTree
