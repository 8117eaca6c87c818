import RubyTree.Tree

/-!
# Equality of Trees

Two trees are the same if their tags and children are, whatever their lines and
comments. Leaves are compared by value: a symbol is the same as its text, and
numbers of different kinds are the same if they are the same number, where a
truth value counts as one or zero. NaN is not the same as anything.

A tree can be looked up among others only if its leaves and tags can.

## Main definitions

* `Quantity`: A real number or an infinity.
* `Atom.same`, `Raw.same`, `Tree.same`: Equality by value.
* `Tree.isKey`: Whether a tree can be looked up.
-/

namespace RubyTree

/-- A real number or an infinity. -/
inductive Quantity where
  | finite (value : Rat)
  | infinite (negative : Bool)
  deriving DecidableEq

namespace Binary64

/-- The quantity a double stands for, if it is a number. -/
def quantity? (x : Binary64) : Option Quantity :=
  if x.isNaN then none
  else match x.toRat? with
    | some q => some (.finite q)
    | none => some (.infinite x.negative)

end Binary64

namespace Atom

/-- The real and the imaginary part of an atom that is a number. -/
def parts? : Atom → Option (Quantity × Quantity)
  | bool b => some (.finite (if b then 1 else 0), .finite 0)
  | int i => some (.finite i, .finite 0)
  | real x => x.quantity?.map (·, .finite 0)
  | complex re im => do return (← re.quantity?, ← im.quantity?)
  | rational q => some (.finite q, .finite 0)
  | _ => none

/-- Equality by value: by text, by the octets, as numbers, or both absent.
    Values that are only handed on are the same if they are shown alike. -/
def same : Atom → Atom → Bool
  | null, null => true
  | octets a, octets b => a == b
  | foreign a, foreign b => a.shown == b.shown
  | a, b =>
    match a.text?, b.text? with
    | some s, some t => s == t
    | none, none =>
      match a.parts?, b.parts? with
      | some p, some q => p == q
      | _, _ => false
    | _, _ => false

end Atom

namespace Raw

mutual

/-- Equality by value. -/
def same : Raw → Raw → Bool
  | atom a, atom b => a.same b
  | list as, list bs => sameAll as bs
  | _, _ => false

/-- Equality item by item. -/
def sameAll : List Raw → List Raw → Bool
  | [], [] => true
  | a :: as, b :: bs => a.same b && sameAll as bs
  | _, _ => false

end

end Raw

namespace Tree

mutual

/-- Equality by tag and children. -/
def same : Tree → Tree → Bool
  | leaf a, leaf b => a.same b
  | node tag _ as, node tag' _ bs => tag.same tag' && sameAll as bs
  | _, _ => false

/-- Equality tree by tree. -/
def sameAll : List Tree → List Tree → Bool
  | [], [] => true
  | a :: as, b :: bs => a.same b && sameAll as bs
  | _, _ => false

end

mutual

/-- Whether the tree can be looked up. -/
def isKey : Tree → Bool
  | leaf v => v.isKey
  | node tag _ children => tag.isKey && areKeys children

/-- Whether each tree can be looked up. -/
def areKeys : List Tree → Bool
  | [] => true
  | t :: ts => t.isKey && areKeys ts

end

end Tree

end RubyTree
