import RubyTree.Lower.Scope
import RubyTree.Tree.Print

/-!
# Fields of a Node

How the fields of a raw node and the parts of a lowered one are read. A missing
field is absent rather than wrong; a field of the wrong kind is an error where
its content is needed.

## Main definitions

* `Fields.get`: A field by its place.
* `nameOf`, `nameIn`: The name in a token.
* `nameFrom`: The name a lowered value gives.
* `isTagged`, `childrenOf`, `firstChild`: Parts that have to be there.
* `isAmong`: Whether a tag is one of several.
* `visitAll`: Every element of a field that is a list.
* `argumentList`: The arguments in a field.
-/

namespace RubyTree

/-- The fields of a raw node, without its tag. -/
abbrev Fields := List Raw

namespace Fields

/-- The field at a place, absent if the node ends before it. -/
def get (fs : Fields) (i : Nat) : Raw :=
  fs.getD i .null

end Fields

namespace LowerM

/-- The name in the second item of a token. -/
def nameIn (token : Raw) : LowerM String :=
  return (← require (token.item? 1)).display

/-- The name in a token, or a bare name. -/
def nameOf (token : Raw) : LowerM String :=
  match token.text? with
  | some name => return name
  | none => nameIn token

/-- The name that a lowered value gives, which has to be written out. -/
def nameFrom (t : Tree) : LowerM String :=
  return (← ofExcept t.written).display

/-- A name that is the text of a token without its last character. -/
def clippedName (text : Raw) : LowerM String :=
  return (← require text.dropLast?).display

/-- The text of a literal token. -/
def literalText (fs : Fields) : LowerM (List Char) :=
  return (← require (fs.get 0).text?).toList

/-- Whether a lowered node has this tag. -/
def isTagged (tag : String) : Tree → LowerM Bool
  | .leaf _ => throw .shape
  | t => return t.hasTag tag

/-- Whether a tag is one of these, among which it has to be looked up. -/
def isAmong (tags : List String) (tag : Raw) : LowerM Bool :=
  if tag.isKey then return tag.text?.any tags.contains else throw .shape

/-- The children of a lowered node. -/
def childrenOf (t : Tree) : LowerM (List Tree) :=
  require t.children?

/-- The first child of a lowered node. -/
def firstChild (t : Tree) : LowerM Tree := do
  require (← childrenOf t).head?

/-- A lowered node with more children. -/
def addChildren (t : Tree) (more : List Tree) : LowerM Tree :=
  return t.withChildren ((← childrenOf t) ++ more)

/-- The elements of a field that may be absent. -/
def elementsOf (r : Raw) : LowerM (List Raw) :=
  if r.isEmpty then return [] else require r.elements?

/-- Lowers every element of a field. -/
def visitAll (go : Visit) (r : Raw) : LowerM (List Tree) := do
  (← elementsOf r).mapM go

/-- The arguments in a field: those of an argument list, or a single one. -/
def argumentList (go : Visit) (r : Raw) : LowerM (List Tree) := do
  match ← go r with
  | .null => return []
  | .leaf _ => throw .shape
  | .node tag mark children =>
    if ← isAmong ["arglist", "mrhs"] tag then return children
    return [.node tag mark children]

end LowerM

end RubyTree
