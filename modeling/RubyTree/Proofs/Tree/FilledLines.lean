import RubyTree.Proofs.Tree.Unlined
import RubyTree.Proofs.Tree.Walk

/-!
# The Line of Every Node

What the two passes over lines leave, in one formula. The first set line of a walk
over a tree is the line of its root after the upward pass. If there is none, the
downward pass brings the line of the nearest node above that has one.

A place in a tree is a path from the root, which says at each node which child to go
to. The two passes do not move anything, so a path leads to the same place before
and after. The formula is proved by induction on the path, for every line handed down
to the root: one step down a path hands the line of the node that is passed to its
child.

That going over a tree again changes nothing rests on one fact: the first line of a
filled node is its own line, so it finds no other one the second time and hands down
the same. If it has none, there is none below either.

## Main definitions

* `Tree.firstLine`: The first set line of a walk.
* `Tree.at?`: The tree at the end of a path.
* `Tree.above`: The nodes on the way there, from the nearest one up.
* `Tree.filled`: Both passes, with a line handed down to the root.

## Theorems

* `Tree.line_raiseLines`: The upward pass finds the first line of a walk.
* `Tree.filled_node`: What both passes do to a node.
* `Tree.at_filled`: The node at the end of a path after both passes.
* `Tree.filled_filled`: Both passes again change nothing.
* `Tree.fillLines_exact`: The line of every node.
-/

namespace RubyTree

namespace Tree

/-- The first set line of a walk over the tree. -/
def firstLine (t : Tree) : Option Raw :=
  (t.walk []).findSome? line?

/-- The tree at the end of a path, which tells the child to go to at each node. -/
def at? : List Nat → Tree → Option Tree
  | [], t => some t
  | i :: path, t => (t.children?.bind fun children => children[i]?).bind (at? path)

/-- The nodes that a path passes before its end, the last of them first. -/
def above : List Nat → Tree → List Tree
  | [], _ => []
  | i :: path, t =>
    ((t.children?.bind fun children => children[i]?).elim [] (above path)) ++ [t]

theorem raiseAll_eq_map (ts : List Tree) : raiseAll ts = ts.map raiseLines := by
  induction ts with
  | nil => rfl
  | cons t ts ih => rw [raiseAll, ih, List.map_cons]

theorem lowerAll_eq_map (handed : Option Raw) (ts : List Tree) :
    lowerAll handed ts = ts.map (lowerLines handed) := by
  induction ts with
  | nil => rfl
  | cons t ts ih => rw [lowerAll, ih, List.map_cons]

theorem findSome?_congr {f g : Tree → Option Raw} {ts : List Tree} (h : ∀ t ∈ ts, f t = g t) :
    ts.findSome? f = ts.findSome? g := by
  rw [← List.head?_filterMap, ← List.head?_filterMap, List.filterMap_congr h]

theorem findSome?_cons_eq_or (f : Tree → Option Raw) (t : Tree) (ts : List Tree) :
    (t :: ts).findSome? f = (f t).or (ts.findSome? f) := by
  rw [List.findSome?_cons]
  cases f t <;> rfl

section FirstLine

variable {tag : Raw} {mark : Mark} {children : List Tree} {t : Tree}

@[simp] theorem firstLine_leaf (v : Raw) : (leaf v).firstLine = none := rfl

theorem findSome?_nodesAll (ts : List Tree) :
    (nodesAll ts).findSome? line? = ts.findSome? firstLine := by
  induction ts with
  | nil => rfl
  | cons t ts ih =>
    rw [nodesAll, List.findSome?_append, ih, findSome?_cons_eq_or, firstLine, walk_nil]

/-- The first line of a node is its own, or else that of the first child that has one. -/
theorem firstLine_node : (node tag mark children).firstLine =
    mark.line.or (children.findSome? firstLine) := by
  rw [firstLine, walk_nil, nodes, findSome?_cons_eq_or, findSome?_nodesAll, line?]

theorem firstLine_of_line {line : Raw} (h : t.line? = some line) : t.firstLine = some line := by
  cases t with
  | leaf v => cases h
  | node tag mark children => rw [firstLine_node, show mark.line = some line from h, Option.some_or]

theorem firstLine_eq_none : t.firstLine = none ↔ ∀ u ∈ t.walk [], u.line? = none :=
  List.findSome?_eq_none_iff

/-- The upward pass finds the first line of a walk. -/
theorem line_raiseLines (t : Tree) : t.raiseLines.line? = t.firstLine := by
  induction t using induct with
  | leaf v => rfl
  | node tag mark children ih =>
    have hchildren : (raiseAll children).findSome? line? = children.findSome? firstLine := by
      rw [raiseAll_eq_map, List.findSome?_map]
      exact findSome?_congr ih
    rw [raiseLines, line?, hchildren, firstLine_node]

end FirstLine

/-- Both passes, with a line handed down to the root. -/
def filled (handed : Option Raw) (t : Tree) : Tree :=
  t.raiseLines.lowerLines handed

section Filled

variable {handed : Option Raw} {tag : Raw} {mark : Mark} {children : List Tree}

@[simp] theorem filled_leaf (v : Raw) : (leaf v).filled handed = leaf v := rfl

/-- A node gets its first line or what is handed down, and hands that on. -/
theorem filled_node : (node tag mark children).filled handed =
    node tag { mark with line := (node tag mark children).firstLine.or handed }
      (children.map (filled ((node tag mark children).firstLine.or handed))) := by
  have hline := line_raiseLines (node tag mark children)
  rw [raiseLines, line?] at hline
  rw [filled, raiseLines, lowerLines]
  dsimp only at hline ⊢
  rw [hline, lowerAll_eq_map, raiseAll_eq_map, List.map_map]
  rfl

theorem unlined_lowerLines (t : Tree) : (t.lowerLines handed).unlined = t.unlined := by
  induction t using induct generalizing handed with
  | leaf v => rfl
  | node tag mark children ih =>
    rw [lowerLines, lowerAll_eq_map, unlined, unlined, unlinedAll_eq_map, unlinedAll_eq_map,
      List.map_map]
    congr 1
    exact List.map_congr_left fun c hc => ih c hc

theorem unlined_filled (t : Tree) : (t.filled handed).unlined = t.unlined := by
  rw [filled, unlined_lowerLines, unlined_raiseLines]

/-- If there is no line at all, nothing is filled in. -/
theorem filled_none_of_firstLine (t : Tree) (h : t.firstLine = none) : t.filled none = t := by
  induction t using induct with
  | leaf v => rfl
  | node tag mark children ih =>
    have hparts := h
    rw [firstLine_node, Option.or_eq_none_iff, List.findSome?_eq_none_iff] at hparts
    have hchildren : children.map (filled none) = children := by
      rw [List.map_congr_left fun c hc => ih c hc (hparts.2 c hc), List.map_id']
    rw [filled_node, h, Option.or_none, hchildren, ← hparts.1]

/-- The first line of a filled node is its own line. -/
theorem firstLine_filled_node : ((node tag mark children).filled handed).firstLine =
    (node tag mark children).firstLine.or handed := by
  cases hline : (node tag mark children).firstLine.or handed with
  | some line =>
    refine firstLine_of_line ?_
    rw [filled_node, hline, line?]
  | none =>
    obtain ⟨hfirst, rfl⟩ := Option.or_eq_none_iff.1 hline
    rw [filled_none_of_firstLine _ hfirst, hfirst]

/-- Both passes again, with the same line for the root, change nothing. -/
theorem filled_filled (t : Tree) : (t.filled handed).filled handed = t.filled handed := by
  induction t using induct generalizing handed with
  | leaf v => rfl
  | node tag mark children ih =>
    have hfirst : ((node tag mark children).filled handed).firstLine.or handed =
        (node tag mark children).firstLine.or handed := by
      rw [firstLine_filled_node, Option.or_assoc, Option.or_self]
    rw [filled_node] at hfirst ⊢
    rw [filled_node, hfirst, List.map_map, List.map_congr_left]
    exact fun c hc => ih c hc

end Filled

section Path

variable {path : List Nat} {t : Tree} {tag : Raw} {mark : Mark} {children : List Tree}

/-- The node at the end of a path has its first line, or else the first one of the
    nearest node above, or else what is handed down to the root. -/
theorem at_filled (handed : Option Raw) (h : t.at? path = some (node tag mark children)) :
    ∃ below, (t.filled handed).at? path = some (node tag { mark with
      line := ((node tag mark children).firstLine.or ((t.above path).findSome? firstLine)).or
        handed } below) := by
  -- A step down the path makes the line of the node passed the one handed down.
  induction path generalizing t handed with
  | nil =>
    obtain rfl := Option.some.inj h
    rw [filled_node, above, List.findSome?_nil, Option.or_none]
    exact ⟨_, rfl⟩
  | cons i path ih =>
    cases t with
    | leaf v => cases h
    | node rootTag rootMark rootChildren =>
      rw [at?, children?, Option.bind_some] at h
      cases hc : rootChildren[i]? with
      | none =>
        rw [hc] at h
        cases h
      | some c =>
        rw [hc, Option.bind_some] at h
        obtain ⟨below, hbelow⟩ := ih ((node rootTag rootMark rootChildren).firstLine.or handed) h
        refine ⟨below, ?_⟩
        rw [filled_node, at?, children?, Option.bind_some, List.getElem?_map, hc, Option.map_some,
          Option.bind_some, hbelow, above, children?, Option.bind_some, hc, Option.elim_some,
          List.findSome?_append, List.findSome?_singleton]
        simp only [Option.or_assoc]

/-- Neither a node nor those above it have a first line only if the root has none. -/
theorem firstLine_or_above_eq_none {u : Tree} (h : t.at? path = some u) :
    u.firstLine.or ((t.above path).findSome? firstLine) = none ↔ t.firstLine = none := by
  induction path generalizing t with
  | nil =>
    obtain rfl := Option.some.inj h
    rw [above, List.findSome?_nil, Option.or_none]
  | cons i path ih =>
    cases t with
    | leaf v => cases h
    | node tag mark children =>
      obtain ⟨c, hc, hpath⟩ := Option.bind_eq_some_iff.1 h
      rw [above, hc, Option.elim_some, List.findSome?_append, List.findSome?_singleton,
        ← Option.or_assoc, Option.or_eq_none_iff, ih hpath]
      refine and_iff_right_of_imp fun hnone => ?_
      -- The child the path goes to has no line if its parent finds none below.
      rw [firstLine_node, Option.or_eq_none_iff, List.findSome?_eq_none_iff] at hnone
      exact hnone.2 c (List.mem_of_getElem? hc)

end Path

/-- Both passes in one formula. The line of a node is the first one of a walk from it,
    or else the first one of the nearest node above that has one. It is missing only if
    no node of the tree had a line; a line that was set stays. Nothing but lines
    changes, the upward pass finds the first line of a walk over the whole tree, and
    both passes again change nothing. -/
theorem fillLines_exact (t : Tree) :
    (∀ path tag mark children, t.at? path = some (node tag mark children) →
      ∃ line below, t.fillLines.at? path = some (node tag { mark with line } below) ∧
        line = (node tag mark children).firstLine.or ((t.above path).findSome? firstLine) ∧
        (mark.line ≠ none → line = mark.line) ∧
        (line = none ↔ ∀ u ∈ t.walk [], u.line? = none)) ∧
    t.fillLines.unlined = t.unlined ∧
    t.raiseLines.line? = (t.walk []).findSome? line? ∧
    t.fillLines.fillLines = t.fillLines := by
  refine ⟨?_, unlined_filled t, line_raiseLines t, filled_filled t⟩
  -- Nothing stands above the root, so only the path to the place has lines to give.
  intro path tag mark children h
  obtain ⟨below, hbelow⟩ := at_filled none h
  rw [Option.or_none] at hbelow
  refine ⟨_, below, hbelow, rfl, fun hset => ?_, ?_⟩
  · obtain ⟨line, hline⟩ := Option.ne_none_iff_exists'.1 hset
    rw [firstLine_of_line (t := node tag mark children) hline, Option.some_or, hline]
  · rw [firstLine_or_above_eq_none h, firstLine_eq_none]

/-- A node gets a line from the other side of the tree, past a parent that has none
    below it. -/
theorem fillLines_past_parent :
    let t := bare "masgn" [bare "mlhs" [bare "splat" []], leaf (.int 1),
      bare "array" [placed (some (.int 3)) "nil" []]]
    t.at? [0, 0] = some (bare "splat" []) ∧
      ∃ below, t.fillLines.at? [0, 0] = some (placed (some (.int 3)) "splat" below) := by
  intro t
  have hpath : t.at? [0, 0] = some (bare "splat" []) := rfl
  obtain ⟨line, below, hfilled, rfl, -⟩ := (fillLines_exact t).1 _ _ _ _ hpath
  exact ⟨hpath, below, hfilled⟩

end Tree

end RubyTree
