import RubyTree.Raw

/-!
# Syntax Trees

The finished tree: nodes with a tag and ordered children, where a child is
another node or a value. A node may have a line, which is filled in late, and
comments, which only constructs that can be documented carry.

A tag is a text and a line is a number, both without exception as long as the
tokens are sound. A keyword by itself is a node tagged with what its token
holds, and a line is what the position of a token starts with, so a broken
token may bring any value into their place.

A node that stands in several places of a tree is numbered, and the number is
the same in all of them: what is found out about the node in one place holds in
the others.

## Main definitions

* `Mark`: The line, the comments and the number of a node.
* `Tree`: Nodes and leaves.
* `Tree.bare`, `Tree.placed`: A node without and with a line.
* `Tree.tag?`, `Tree.children?`, `Tree.line?`: The parts of a node.
* `Tree.withLine`: A node moved to a line, if there is one.
* `Tree.unmarked`: A tree as it is compared, without lines and comments.
* `Tree.size`: The number of nodes and leaves.
-/

namespace RubyTree

/-- What a node carries besides its tag and children. -/
structure Mark where
  line : Option Raw := none
  comments : Option Raw := none
  /-- The number of a node that stands in several places. -/
  shared : Option Nat := none
  deriving Repr

/-- A syntax tree. -/
inductive Tree where
  | leaf (value : Raw)
  | node (tag : Raw) (mark : Mark) (children : List Tree)
  deriving Repr

namespace Tree

/-- The absent child. -/
@[match_pattern] abbrev null : Tree := leaf .null

@[match_pattern] abbrev flag (b : Bool) : Tree := leaf (.bool b)

@[match_pattern] abbrev int (i : Int) : Tree := leaf (.int i)

@[match_pattern] abbrev str (t : String) : Tree := leaf (.str t)

@[match_pattern] abbrev sym (n : String) : Tree := leaf (.sym n)

/-- A node without a line. -/
def bare (tag : String) (children : List Tree) : Tree :=
  node (.str tag) {} children

/-- A node at a line, if there is one. -/
def placed (line : Option Raw) (tag : String) (children : List Tree) : Tree :=
  node (.str tag) { line } children

def tag? : Tree → Option Raw
  | node tag _ _ => some tag
  | leaf _ => none

def children? : Tree → Option (List Tree)
  | node _ _ children => some children
  | leaf _ => none

def line? : Tree → Option Raw
  | node _ mark _ => mark.line
  | leaf _ => none

/-- Whether the tree is a node with this tag. -/
def hasTag (t : String) : Tree → Bool
  | node (.str tag) _ _ => tag == t
  | _ => false

def isNull : Tree → Bool
  | null => true
  | _ => false

/-- The content of a leaf that is a text or a symbol. -/
def text? : Tree → Option String
  | leaf r => r.text?
  | node _ _ _ => none

/-- The node moved to the line, if there is one. -/
def withLine : Option Raw → Tree → Tree
  | some line, node tag mark children => node tag { mark with line := some line } children
  | _, tree => tree

/-- The node with other children; a leaf has none to change. -/
def withChildren (children : List Tree) : Tree → Tree
  | node tag mark _ => node tag mark children
  | leaf v => leaf v

/-- The node under another tag. -/
def withTag (tag : String) : Tree → Tree
  | node _ mark children => node (.str tag) mark children
  | leaf v => leaf v

mutual

/-- The tree without lines, comments and numbers. -/
def unmarked : Tree → Tree
  | leaf v => leaf v
  | node tag _ children => node tag {} (unmarkedAll children)

/-- The trees without lines, comments and numbers. -/
def unmarkedAll : List Tree → List Tree
  | [] => []
  | t :: ts => t.unmarked :: unmarkedAll ts

end

mutual

/-- The number of nodes and leaves. -/
def size : Tree → Nat
  | leaf _ => 1
  | node _ _ children => sizeAll children + 1

/-- The number of nodes and leaves in all the trees. -/
def sizeAll : List Tree → Nat
  | [] => 0
  | t :: ts => t.size + sizeAll ts

end

end Tree

end RubyTree
