import RubyTree.Lower.Field
import RubyTree.Text.Upper
import RubyTree.Tree.Equality

/-!
# Arrays and Hashes

The elements of an array or hash are the children of what its only field holds.
A pair without a value reads the variable, constant or method that its key
names.

## Main definitions

* `lowerCollection`: An array or a hash.
* `lowerEach`, `lowerPair`: Keyword arguments and the pairs of a hash.
* `shorthandValue`: The value of a pair that has only a key.
-/

namespace RubyTree

namespace LowerM

/-- An array or hash with the children of its only field. -/
def lowerCollection (tag : String) (go : Visit) (fs : Fields) : LowerM Tree := do
  let elements := fs.get 0
  if elements.isEmpty then return .bare tag []
  return .bare tag (← childrenOf (← go elements))

/-- A node with every element of its only field as a child. -/
def lowerEach (tag : String) (go : Visit) (fs : Fields) : LowerM Tree :=
  return .bare tag (← visitAll go (fs.get 0))

/-- The value of a pair that has only a key. A label that starts with a capital
    is a constant; otherwise what stands for the name is looked up. -/
def shorthandValue (key : Raw) (t : Tree) : LowerM Tree := do
  let name ← firstChild t
  let capital := (name.text?.bind (·.toList.head?)).any Text.isUpper
  if key.hasTag "@label" && capital then
    return .placed t.line? "const" [.null, .sym (← nameFrom name)]
  if !name.isKey then throw .shape
  let read ← isLocal name
  let symbol := Tree.sym (← nameFrom name)
  if read then return .placed t.line? "lvar" [symbol]
  return .placed t.line? "send" [.null, symbol]

/-- A pair of a hash. -/
def lowerPair (go : Visit) (fs : Fields) : LowerM Tree := do
  let key ← go (fs.get 0)
  if (fs.get 1).isNull then return .bare "pair" [key, ← shorthandValue (fs.get 0) key]
  return .bare "pair" [key, ← go (fs.get 1)]

end LowerM

end RubyTree
