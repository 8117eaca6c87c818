import RubyTree.Tree

/-!
# Lines of a Tree

Only some nodes are built with a line. Two passes fill in the rest: the first
goes up and gives a node the line of its first child that has one, the second
goes down and gives what is still without a line that of its parent. A line
that is set is never changed.

## Main definitions

* `Tree.raiseLines`: The upward pass.
* `Tree.lowerLines`: The downward pass, from a line for the root.
* `Tree.fillLines`: Both passes.
-/

namespace RubyTree

namespace Tree

mutual

/-- Gives a node without a line the first line among its children. -/
def raiseLines : Tree → Tree
  | leaf v => leaf v
  | node tag mark children =>
    let children := raiseAll children
    node tag { mark with line := mark.line.or (children.findSome? line?) } children

/-- The upward pass over each tree. -/
def raiseAll : List Tree → List Tree
  | [] => []
  | t :: ts => t.raiseLines :: raiseAll ts

end

mutual

/-- Gives a node without a line the line handed down to it. -/
def lowerLines (handed : Option Raw) : Tree → Tree
  | leaf v => leaf v
  | node tag mark children =>
    let line := mark.line.or handed
    node tag { mark with line } (lowerAll line children)

/-- The downward pass over each tree. -/
def lowerAll (handed : Option Raw) : List Tree → List Tree
  | [] => []
  | t :: ts => t.lowerLines handed :: lowerAll handed ts

end

/-- Fills in every line that can be known. -/
def fillLines (t : Tree) : Tree :=
  t.raiseLines.lowerLines none

end Tree

end RubyTree
