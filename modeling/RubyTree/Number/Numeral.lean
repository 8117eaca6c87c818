import RubyTree.Number.Binary64
import RubyTree.Text.Blank
import RubyTree.Text.Digit

/-!
# Number Texts

Readers for three kinds of number text. An integer text has blanks around it, a
sign, perhaps the mark of its base, and digits; a rational text is a decimal
with a point and perhaps an exponent; a real text is the same with the point
optional, and also names infinity and NaN. Digits of any script are accepted,
as are letters for the digits past nine.

A text with more than 4300 digits is refused unless its base is a power of two,
which bounds the time a hostile text can cost. For the same reason a number that
has more digits than that in base ten is not written out.

## Main definitions

* `digitIn?`: The value of a digit in a base.
* `ofDigits`: The value of a list of digits.
* `isWritable`: Whether a number can be written out.
* `readInt?`: An integer text.
* `Decimal`: A decimal text taken apart.
* `readRat?`: A decimal text as an exact rational.
* `readReal?`: A decimal text as a double.
* `readSpacedReal?`: The same, with underscores between digits.
-/

namespace RubyTree

namespace Numeral

open Text

/-- The most digits an integer text may have in a base that is no power of two. -/
def digitLimit : Nat := 4300

/-- Whether a number can be written out in base ten. -/
def isWritable (n : Nat) : Bool :=
  n < tenPow digitLimit

/-- The value of a digit below `base`, letters counting from ten. -/
def digitIn? (base : Nat) (c : Char) : Option Nat :=
  let value :=
    match digitValue? c with
    | some d => some d
    | none =>
      if 'a' ≤ c ∧ c ≤ 'z' then some (c.toNat - 'a'.toNat + 10)
      else if 'A' ≤ c ∧ c ≤ 'Z' then some (c.toNat - 'A'.toNat + 10)
      else none
  value.filter (· < base)

/-- The positional value of digits, the most significant first. -/
def ofDigits (base : Nat) (ds : List Nat) : Nat :=
  ds.foldl (fun n d => base * n + d) 0

/-- Whether the text starts with a minus, and what follows the sign. -/
def signed : List Char → Bool × List Char
  | '-' :: cs => (true, cs)
  | '+' :: cs => (false, cs)
  | cs => (false, cs)

/-- The letter that marks a base after a zero. -/
def baseMark? : Nat → Option Char
  | 2 => some 'b'
  | 8 => some 'o'
  | 16 => some 'x'
  | _ => none

/-- A text without the mark of its base, if it has one. The zero of a mark may
    be of any script, like the digits after it. -/
def dropMark (base : Nat) : List Char → List Char
  | zero :: c :: cs =>
    if digitValue? zero = some 0 ∧ baseMark? base = some c.toLower then cs else zero :: c :: cs
  | cs => cs

/-- The natural number written with these digits, if there are any and not too many. -/
def readDigits? (base : Nat) (cs : List Char) : Option Nat := do
  let ds ← cs.mapM (digitIn? base)
  let small := (baseMark? base).isSome || ds.length ≤ digitLimit
  if ds.isEmpty || !small then none else some (ofDigits base ds)

/-- The integer a text names in a base. -/
def readInt? (base : Nat) (cs : List Char) : Option Int := do
  let (negative, cs) := signed (trimList isNumeralBlank cs)
  let n ← readDigits? base (dropMark base cs)
  return if negative then -(n : Int) else n

/-- The digits at the start of a text, and the rest. -/
def spanDigits (cs : List Char) : List Char × List Char :=
  (cs.takeWhile fun c => (digitValue? c).isSome, cs.dropWhile fun c => (digitValue? c).isSome)

/-- A decimal taken apart into runs of digits. -/
structure Decimal where
  negative : Bool
  /-- The digits before the point. -/
  whole : List Char
  /-- The digits after the point. -/
  fraction : List Char
  /-- Whether the exponent is below zero. -/
  shrinks : Bool
  /-- The digits of the exponent, none if it is not written. -/
  power : List Char

/-- The value of a run of decimal digits that may be empty. -/
def ofFigures (cs : List Char) : Nat :=
  ofDigits 10 (cs.filterMap digitValue?)

/-- The exponent at the end of a decimal: whether it is below zero, and its
    digits. There need not be one. -/
def readExponent? : List Char → Option (Bool × List Char)
  | [] => some (false, [])
  | c :: cs =>
    let (negative, cs) := signed cs
    if c.toLower = 'e' && !cs.isEmpty && cs.all fun c => (digitValue? c).isSome then
      some (negative, cs)
    else none

/-- A decimal: an optional sign, digits with at most one point among them, at
    least one digit, and an optional exponent. -/
def Decimal.read? (cs : List Char) : Option Decimal := do
  let (negative, cs) := signed cs
  let (whole, cs) := spanDigits cs
  let (fraction, cs) := match cs with
    | '.' :: cs => spanDigits cs
    | cs => ([], cs)
  let (shrinks, power) ← readExponent? cs
  if whole.isEmpty && fraction.isEmpty then none
  else some { negative, whole, fraction, shrinks, power }

/-- The power of ten that a decimal is multiplied by. -/
def Decimal.exponent (d : Decimal) : Int :=
  let n := ofFigures d.power
  if d.shrinks then -(n : Int) else n

/-- The exact value of a decimal. -/
def Decimal.toRat (d : Decimal) : Rat :=
  let magnitude := ofFigures (d.whole ++ d.fraction)
  let num : Int := if d.negative then -(magnitude : Int) else magnitude
  match d.exponent with
  | .ofNat k => mkRat (num * (tenPow k : Nat)) (tenPow d.fraction.length)
  | .negSucc k => mkRat num (tenPow (d.fraction.length + (k + 1)))

/-- The double nearest to a decimal. -/
def Decimal.toBinary64 (d : Decimal) : Binary64 :=
  let figures := ((d.whole ++ d.fraction).filterMap digitValue?).dropWhile (· == 0)
  .ofDecimal d.negative (ofDigits 10 figures) figures.length (d.exponent - d.fraction.length)

/-- The exact value of a decimal text, none of whose runs of digits may be too
    long. -/
def readRat? (cs : List Char) : Option Rat := do
  let d ← Decimal.read? (trimList isBlank cs)
  if [d.whole, d.fraction, d.power].all (·.length ≤ digitLimit) then some d.toRat else none

/-- Infinity and NaN by name, in any case. -/
def readSpecial? (cs : List Char) : Option Binary64 :=
  let (negative, cs) := signed cs
  let word := String.ofList (cs.map Char.toLower)
  if word = "inf" ∨ word = "infinity" then some (.ofFields negative Binary64.infinityBits)
  else if word = "nan" then some (.ofFields negative Binary64.nan.unsigned)
  else none

/-- The double nearest to a decimal text. -/
def readReal? (cs : List Char) : Option Binary64 :=
  let cs := trimList isNumeralBlank cs
  (readSpecial? cs).or ((Decimal.read? cs).map Decimal.toBinary64)

/-- Takes out underscores that stand between two digits; `none` if one stands
    elsewhere. The flag says whether the character before is a digit. -/
def dropSpacers? : Bool → List Char → Option (List Char)
  | _, [] => some []
  | afterDigit, '_' :: c :: cs =>
    if afterDigit && (digitValue? c).isSome then
      (dropSpacers? true cs).map (c :: ·)
    else none
  | _, c :: cs =>
    if c = '_' then none
    else (dropSpacers? (digitValue? c).isSome cs).map (c :: ·)

/-- The double nearest to a decimal text in which digits may be grouped by
    single underscores. -/
def readSpacedReal? (cs : List Char) : Option Binary64 := do
  readReal? (← dropSpacers? false (trimList isNumeralBlank cs))

end Numeral

end RubyTree
