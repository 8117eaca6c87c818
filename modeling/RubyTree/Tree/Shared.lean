import RubyTree.Tree.Lines

/-!
# Lines of Shared Nodes

A numbered node stands in several places of a tree and still has one line. The
downward pass may reach it with a different line in each place, so the place it
reaches first decides: the line the node gets there is remembered under its
number, and is its line in every other place.

The upward pass needs no such care, since what it gives a node depends on what
is below the node alone, and that is the same in all places.

## Main definitions

* `SharedLines`: The lines of the numbered nodes reached so far.
* `Tree.lowerShared`: The downward pass with those lines remembered.
* `Tree.fillShared`: Both passes.
-/

namespace RubyTree

/-- The lines of the numbered nodes reached so far, by their numbers. -/
abbrev SharedLines := List (Nat × Option Raw)

namespace SharedLines

/-- The line of a node that a line is handed down to: the one it has elsewhere,
    if it was reached before. -/
def lineOf (known : SharedLines) (mark : Mark) (handed : Option Raw) : Option Raw :=
  match mark.shared.bind (List.lookup · known) with
  | some line => line
  | none => mark.line.or handed

/-- Remembers the line of a numbered node. -/
def note (known : SharedLines) (mark : Mark) (line : Option Raw) : SharedLines :=
  match mark.shared with
  | some number => (number, line) :: known
  | none => known

end SharedLines

namespace Tree

mutual

/-- Gives a node its line, and those below it theirs. -/
def lowerShared (handed : Option Raw) (known : SharedLines) : Tree → Tree × SharedLines
  | leaf v => (leaf v, known)
  | node tag mark children =>
    let line := known.lineOf mark handed
    let (children, known) := lowerSharedAll line (known.note mark line) children
    (node tag { mark with line } children, known)

/-- The downward pass over each tree, the first one first. -/
def lowerSharedAll (handed : Option Raw) (known : SharedLines) :
    List Tree → List Tree × SharedLines
  | [] => ([], known)
  | t :: ts =>
    let (t, known) := t.lowerShared handed known
    let (ts, known) := lowerSharedAll handed known ts
    (t :: ts, known)

end

/-- Fills in every line that can be known, where a shared node has one line. -/
def fillShared (t : Tree) : Tree :=
  (t.raiseLines.lowerShared none []).1

end Tree

end RubyTree
