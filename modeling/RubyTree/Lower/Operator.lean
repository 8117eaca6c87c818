import RubyTree.Literal.Capture
import RubyTree.Lower.Pattern
import RubyTree.Lower.Quote

/-!
# Operators

Logical operators are nodes of their own and most others are calls. A match with
a regular expression literal on its left binds the named groups of the literal.

## Main definitions

* `logicalTag?`: The node of a logical operator.
* `lowerMatch`: A match by `=~`.
* `lowerBinary`, `lowerUnary`: Operations.
* `lowerSingle`, `lowerDouble`: Nodes with one and two operands.
-/

namespace RubyTree

namespace LowerM

/-- The node of a logical operator. -/
def logicalTag? : String → Option String
  | "&&" => some "and"
  | "||" => some "or"
  | "and" => some "and"
  | "or" => some "or"
  | _ => none

/-- A match; the named groups of a literal on the left become local variables. -/
def lowerMatch (left right : Tree) : LowerM Tree := do
  match ← staticSource? left with
  | none => return .bare "send" [left, .sym "=~", right]
  | some source =>
    (groupNames source).forM bindLocal
    return .bare "match_with_lvasgn" [left, right]

/-- An operator, which has to be looked up. -/
def operatorOf (r : Raw) : LowerM Raw :=
  if r.isKey then return r else throw .shape

def lowerBinary (go : Visit) (fs : Fields) : LowerM Tree := do
  let op ← operatorOf (fs.get 1)
  if op.text? == some "=~" then
    let left ← go (fs.get 0)
    return ← lowerMatch left (← go (fs.get 2))
  match op.text?.bind logicalTag? with
  | some tag =>
    let left ← go (fs.get 0)
    return .bare tag [left, ← go (fs.get 2)]
  | none =>
    if op.text? == some "=>" then
      let left ← lowerPattern go (fs.get 0)
      return .bare "match_as" [left, ← lowerPattern go (fs.get 2)]
    let left ← go (fs.get 0)
    return .bare "send" [left, .sym op.display, ← go (fs.get 2)]

def lowerUnary (go : Visit) (fs : Fields) : LowerM Tree := do
  let value ← go (fs.get 1)
  let op ← operatorOf (fs.get 0)
  let name := if op.text? == some "not" then "!" else op.display
  return .bare "send" [value, .sym name]

/-- A node with one operand. -/
def lowerSingle (tag : String) (go : Visit) (fs : Fields) : LowerM Tree :=
  return .bare tag [← go (fs.get 0)]

/-- A node with two operands. -/
def lowerDouble (tag : String) (go : Visit) (fs : Fields) : LowerM Tree := do
  let left ← go (fs.get 0)
  return .bare tag [left, ← go (fs.get 1)]

end LowerM

end RubyTree
