/-!
# Powers of Two and Ten

The scales of binary and decimal numbers. A double is a natural number times a
power of two, and a decimal is one times a power of ten, so both are kept as
natural numbers and exact at any size.

## Main definitions

* `twoPow`, `tenPow`: The powers.
-/

namespace RubyTree

/-- The power of two with this exponent. -/
abbrev twoPow (k : Nat) : Nat := Nat.pow 2 k

/-- The power of ten with this exponent. -/
abbrev tenPow (k : Nat) : Nat := Nat.pow 10 k

end RubyTree
