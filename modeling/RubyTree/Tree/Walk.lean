import RubyTree.Tree

/-!
# Walking a Tree

The nodes of a tree from top to bottom and left to right, with the inside of
some nodes left out: a node below the root whose tag is to be skipped is listed
and its children are not. The root's own tag does not matter.

The walk keeps a stack of trees still to visit. Each step takes one tree off
it and puts at most that tree's children on, so as many steps as there are nodes
and leaves empty it.

A tag has to be looked up among those to be skipped, so a walk that comes upon
one below the root that cannot be looked up fails.

## Main definitions

* `Tree.visit`: The nodes reached from a stack in a number of steps.
* `Tree.walk`: The nodes of a tree.
* `Tree.walk?`: The same, if every tag can be looked up.
-/

namespace RubyTree

namespace Tree

/-- The nodes reached in `steps` steps from the trees on the stack. -/
def visit (skip : List String) : Nat → List Tree → List Tree
  | 0, _ => []
  | _ + 1, [] => []
  | steps + 1, leaf _ :: stack => visit skip steps stack
  | steps + 1, node tag mark children :: stack =>
    node tag mark children ::
      visit skip steps (if tag.text?.any skip.contains then stack else children ++ stack)

/-- The node and every descendant, except what lies inside descendants with a
    skipped tag. -/
def walk (skip : List String) : Tree → List Tree
  | leaf _ => []
  | node tag mark children => node tag mark children :: visit skip (sizeAll children) children

/-- The same nodes, if the tags below the root can be looked up. -/
def walk? (skip : List String) (t : Tree) : Option (List Tree) :=
  let nodes := t.walk skip
  if nodes.tail.all fun u => u.tag?.all Raw.isKey then some nodes else none

end Tree

end RubyTree
