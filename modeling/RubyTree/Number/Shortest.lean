import RubyTree.Number.Binary64

/-!
# Printed Doubles

A double is printed with the fewest decimal digits that read back as the same
double; of those the nearest to its value is taken, and of two equally near the
one with an even last digit. The search tries one digit, then two, and so on:
on each grid only the two neighbours of the value can be the answer, and
seventeen digits always suffice.

Writing is a separate choice. The point is written out for values whose first
digit stands at most four places after it or sixteen before it, all others have
an exponent of at least two figures, and a whole number keeps `.0`, except as
part of a complex number.

## Main definitions

* `Digits`: Decimal digits and the place of the point.
* `Digits.ofBinary64`: The shortest digits of a double.
* `Binary64.print`: A double as text.
* `printComplex`: A complex number as text.
-/

namespace RubyTree

/-- The number `0.d₁d₂… * 10 ^ point`, where `digits` is `d₁d₂…` read as a
    natural with `count` figures. -/
structure Digits where
  digits : Nat
  count : Nat
  point : Int
  deriving DecidableEq, Repr

namespace Digits

/-- A positive rational `num / den`, and how far to either side of it the reals
    still round to the same double; the bounds share the denominator. The ends
    themselves round back if `closed`. -/
structure Target where
  num : Nat
  den : Nat
  below : Nat
  above : Nat
  closed : Bool

/-- The finite, nonzero double with the given scale. The gap below a power of
    two is half the gap above it, except at the bottom of the range. -/
def Target.ofScale (m e : Nat) : Target :=
  let near := m = twoPow 52 ∧ e ≠ 0
  { num := 4 * m * twoPow e
    den := 4 * twoPow 1074
    below := (if near then 1 else 2) * twoPow e
    above := 2 * twoPow e
    closed := m % 2 = 0 }

/-- Whether `num' / den'` reads back as the target. -/
def Target.accepts (t : Target) (num den : Nat) : Bool :=
  let value := num * t.den
  let low := (t.num - t.below) * den
  let high := (t.num + t.above) * den
  if t.closed then low ≤ value && value ≤ high else low < value && value < high

/-- The least `p` with `num < den * 10 ^ p`, searched upwards from `p`. -/
def pointFrom (num den : Nat) : Nat → Int → Int
  | 0, p => p
  | fuel + 1, p =>
    let fits : Bool := match p with
      | .ofNat k => num < den * tenPow k
      | .negSucc k => num * tenPow (k + 1) < den
    if fits then p else pointFrom num den fuel (p + 1)

/-- The two neighbours of the target on the grid of `count` digits, the nearer
    one first; the even one first if they are equally near. -/
def neighbours (t : Target) (point : Int) (count : Nat) : List (Nat × Nat × Nat) :=
  -- The target counted in units of `10 ^ shift`, the last of the `count` digits.
  let shift := point - count
  let (num, den) := match shift with
    | .ofNat k => (t.num, t.den * tenPow k)
    | .negSucc k => (t.num * tenPow (k + 1), t.den)
  let q := num / den
  let r := num % den
  let value n : Nat × Nat × Nat := match shift with
    | .ofNat k => (n, n * tenPow k, 1)
    | .negSucc k => (n, n, tenPow (k + 1))
  if r = 0 then [value q]
  else if 2 * r < den ∨ (2 * r = den ∧ q % 2 = 0) then [value q, value (q + 1)]
  else [value (q + 1), value q]

/-- The shortest digits that read back, trying grids from `count` digits on. -/
def search (t : Target) (point : Int) : Nat → Nat → Digits
  | 0, count => ⟨0, count, point⟩
  | fuel + 1, count =>
    match (neighbours t point count).find? fun (_, num, den) => t.accepts num den with
    -- Rounding up may carry through all digits: `9.9` goes to `10`, which is one digit.
    | some (n, _) => if n = tenPow count then ⟨1, 1, point + 1⟩ else ⟨n, count, point⟩
    | none => search t point fuel (count + 1)

/-- The shortest digits of a finite, nonzero double. -/
def ofBinary64 (x : Binary64) : Digits :=
  let (m, e) := x.scale
  let t := Target.ofScale m e
  -- The smallest double is above `10 ^ (-324)`, the largest below `10 ^ 309`, and 17
  -- digits tell any two of them apart.
  search t (pointFrom t.num t.den 640 (-324)) 17 1

end Digits

/-- How a number is laid out: whether a whole number keeps a point. -/
structure Layout where
  wholePoint : Bool

namespace Layout

/-- A number by itself: `1.0`. -/
def alone : Layout := ⟨true⟩

/-- A number as part of another: `1`. -/
def part : Layout := ⟨false⟩

/-- The exponent mark, a sign and at least two figures. -/
def exponent (e : Int) : List Char :=
  let figures := (Nat.repr e.natAbs).toList
  let padded := if figures.length < 2 then '0' :: figures else figures
  'e' :: (if e < 0 then '-' else '+') :: padded

/-- Digits with the point in its place. -/
def write (l : Layout) (d : Digits) : List Char :=
  let figures := (Nat.repr d.digits).toList
  let p := d.point
  if p ≤ -4 ∨ 16 < p then
    let mantissa := match figures with
      | [] => []
      | [c] => [c]
      | c :: cs => c :: '.' :: cs
    mantissa ++ exponent (p - 1)
  else if p ≤ 0 then
    '0' :: '.' :: List.replicate p.natAbs '0' ++ figures
  else
    let whole := p.toNat
    if whole < figures.length then figures.take whole ++ '.' :: figures.drop whole
    else
      let padded := figures ++ List.replicate (whole - figures.length) '0'
      if l.wholePoint then padded ++ ['.', '0'] else padded

end Layout

namespace Binary64

/-- A double as text. -/
def write (l : Layout) (x : Binary64) : List Char :=
  if x.isNaN then "nan".toList
  else
    let body :=
      if x.isInfinite then "inf".toList
      else if x.unsigned = 0 then if l.wholePoint then ['0', '.', '0'] else ['0']
      else l.write (Digits.ofBinary64 x)
    if x.negative then '-' :: body else body

/-- A double as text, by itself. -/
def print (x : Binary64) : String :=
  String.ofList (x.write .alone)

end Binary64

/-- A complex number as text: the imaginary part alone if the real part is
    positive zero, else both in brackets. -/
def printComplex (re im : Binary64) : String :=
  let imaginary := im.write .part ++ ['j']
  if re.bits = 0 then String.ofList imaginary
  else
    let sign := if im.negative && !im.isNaN then [] else ['+']
    String.ofList ('(' :: re.write .part ++ sign ++ imaginary ++ [')'])

end RubyTree
