import RubyTree.Number.Power

/-!
# Double-Precision Numbers

A float literal denotes the double nearest to its decimal value. The numbers
are kept as their 64 bits and every operation is exact integer arithmetic, so
nothing depends on how a machine rounds.

Rounding works on a quotient of naturals. With the exponent chosen so that the
significand has 53 bits, or the least exponent for small values, the bits are
the biased exponent times `2 ^ 52` plus the significand: the significand's top
bit carries into the exponent field, which also makes a significand rounded up
to `2 ^ 53` come out right.

## Main definitions

* `Binary64`: A double, as its bits.
* `scale`: The finite value as a significand and a power of two.
* `ofQuotient`: The double nearest to a quotient, ties to even.
* `ofDecimal`: The double nearest to a decimal number.
* `toRat?`: A finite value as a rational.
* `plus`: The sum with a natural number.
-/

namespace RubyTree

/-- A double-precision number, given by its bits. -/
structure Binary64 where
  bits : UInt64
  deriving DecidableEq, Repr

namespace Binary64

/-- The bits of infinity: all ones in the exponent field. -/
def infinityBits : Nat := 0x7FF0000000000000

/-- The sign bit as a number. -/
def signBit : Nat := 0x8000000000000000

def negative (x : Binary64) : Bool :=
  signBit ≤ x.bits.toNat

/-- The bits without the sign. -/
def unsigned (x : Binary64) : Nat :=
  x.bits.toNat % signBit

def isNaN (x : Binary64) : Bool :=
  infinityBits < x.unsigned

def isInfinite (x : Binary64) : Bool :=
  x.unsigned = infinityBits

def isFinite (x : Binary64) : Bool :=
  x.unsigned < infinityBits

/-- The number with the given sign and unsigned bits. -/
def ofFields (negative : Bool) (unsigned : Nat) : Binary64 :=
  ⟨(unsigned + if negative then signBit else 0).toUInt64⟩

def nan : Binary64 := ofFields false 0x7FF8000000000000

/-- A finite number is `m * 2 ^ (e - 1074)` for the pair `(m, e)`. -/
def scale (x : Binary64) : Nat × Nat :=
  let field := x.unsigned / twoPow 52
  let fraction := x.unsigned % twoPow 52
  if field = 0 then (fraction, 0) else (twoPow 52 + fraction, field - 1)

/-- The quotient rounded to a natural number, a half going to the even neighbour. -/
def divHalfEven (num den : Nat) : Nat :=
  let q := num / den
  let r := num % den
  if 2 * r < den then q
  else if den < 2 * r then q + 1
  else q + q % 2

/-- The greatest `k` with `2 ^ k * den ≤ num * 2 ^ 1074`, or `0`. For a quotient
    that is not tiny this is the place of its top bit, counted from the last
    place of the smallest double. -/
def topBit (num den : Nat) : Nat :=
  let scaled := num * twoPow 1074
  -- The answer is the distance of the two top bits, or one less.
  let k := scaled.log2 - den.log2
  if twoPow k * den ≤ scaled then k else k - 1

/-- The unsigned bits of the double nearest to `num / den`; infinity if that is
    past the largest finite double. -/
def roundBits (num den : Nat) : Nat :=
  let e := topBit num den - 52
  let m := divHalfEven (num * twoPow 1074) (den * twoPow e)
  -- The top bit of `m` counts one into the exponent field, and so does a carry out of
  -- the rounding, which is why `m` is added and not put beside `e`.
  min (e * twoPow 52 + m) infinityBits

/-- The double nearest to `num / den`, with a sign; ties go to the even one. -/
def ofQuotient (negative : Bool) (num den : Nat) : Binary64 :=
  ofFields negative (roundBits num den)

/-- The double nearest to an integer, or `none` if it is past the largest. -/
def ofInt? (i : Int) : Option Binary64 :=
  let x := ofQuotient (i < 0) i.natAbs 1
  if x.isFinite then some x else none

/-- The double nearest to a rational, or `none` if it is past the largest. -/
def ofRat? (q : Rat) : Option Binary64 :=
  let x := ofQuotient (q.num < 0) q.num.natAbs q.den
  if x.isFinite then some x else none

/-- Powers of ten past this need not be computed: a number with its first digit
    that far from the point is infinite or zero. -/
def decimalReach : Int := 400

/-- The double nearest to `digits * 10 ^ exponent`, where `digits` was written
    with `count` figures. -/
def ofDecimal (negative : Bool) (digits count : Nat) (exponent : Int) : Binary64 :=
  if digits = 0 then ofFields negative 0
  else if decimalReach < exponent + count then ofFields negative infinityBits
  else if exponent + count < -decimalReach then ofFields negative 0
  else match exponent with
    | .ofNat k => ofQuotient negative (digits * tenPow k) 1
    | .negSucc k => ofQuotient negative digits (tenPow (k + 1))

/-- The value of a finite double. -/
def toRat? (x : Binary64) : Option Rat :=
  if x.isFinite then
    let (m, e) := x.scale
    let magnitude := mkRat (m * twoPow e) (twoPow 1074)
    some (if x.negative then -magnitude else magnitude)
  else none

/-- Zero, of either sign. -/
def isZero (x : Binary64) : Bool :=
  x.unsigned = 0

/-- The double nearest to the sum with a natural number. A sum of zero is
    positive. -/
def plus (x : Binary64) (n : Nat) : Binary64 :=
  match x.toRat? with
  | some q =>
    let sum := q + n
    ofQuotient (sum.num < 0) sum.num.natAbs sum.den
  | none => x

/-- Greater than zero, infinity included and NaN not. -/
def isPositive (x : Binary64) : Bool :=
  !x.negative && !x.isNaN && x.unsigned != 0

end Binary64

end RubyTree
