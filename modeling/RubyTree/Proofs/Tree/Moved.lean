import RubyTree.Tree.Shared

/-!
# Trees on Other Lines

A tree is moved by adding a number to the line of each node that has one. Nodes
are not the only place for a line, since `__LINE__` is a value as well. It cannot
be told from other integers, so where a tree is to be moved such a value has to be
marked, which is done by wrapping it into a list. Moving a tree unwraps it.

Filling in lines does not look at them. It only hands them on, from a child to its
parent and back, so it does not matter whether a tree is moved before or after.

## Main definitions

* `Raw.lineBelow`, `Raw.valueBelow`: A line, and a value that may be a marked line.
* `Tree.downBy`: A tree so many lines further down.

## Theorems

* `raiseLines_downBy`, `lowerShared_downBy`: The two passes on a tree that was moved.
* `fillShared_downBy`: Both of them.
-/

namespace RubyTree

namespace Raw

/-- A line so many lines further down, no longer marked. -/
def lineBelow (k : Int) : Raw → Raw
  | int l => int (l + k)
  | list [int l] => int (l + k)
  | r => r

/-- The value of a leaf, in which a marked line is one so many lines further down. -/
def valueBelow (k : Int) : Raw → Raw
  | list [int l] => int (l + k)
  | r => r

end Raw

namespace SharedLines

/-- The remembered lines, each so many lines further down. -/
def downBy (k : Int) (known : SharedLines) : SharedLines :=
  known.map fun (number, line) => (number, line.map (Raw.lineBelow k))

theorem lookup_downBy (k : Int) (number : Nat) (known : SharedLines) :
    (known.downBy k).lookup number =
      (known.lookup number).map (Option.map (Raw.lineBelow k)) := by
  unfold downBy
  induction known with
  | nil => rfl
  | cons entry known ih =>
    obtain ⟨n, line⟩ := entry
    rw [List.map_cons, List.lookup_cons, List.lookup_cons]
    split
    · rfl
    · exact ih

end SharedLines

/-- What a node carries, its line so many lines further down. -/
def Mark.downBy (k : Int) (mark : Mark) : Mark :=
  { mark with line := mark.line.map (Raw.lineBelow k) }

theorem SharedLines.note_downBy (k : Int) (known : SharedLines) (mark : Mark) (line : Option Raw) :
    (known.downBy k).note (mark.downBy k) (line.map (Raw.lineBelow k)) =
      (known.note mark line).downBy k := by
  unfold note Mark.downBy
  dsimp only
  cases mark.shared with
  | none => rfl
  | some number => rfl

theorem SharedLines.lineOf_downBy (k : Int) (known : SharedLines) (mark : Mark)
    (handed : Option Raw) :
    (known.downBy k).lineOf (mark.downBy k) (handed.map (Raw.lineBelow k)) =
      (known.lineOf mark handed).map (Raw.lineBelow k) := by
  have hfound : mark.shared.bind (fun number => (known.downBy k).lookup number) =
      (mark.shared.bind fun number => known.lookup number).map (Option.map (Raw.lineBelow k)) := by
    cases mark.shared with
    | none => rfl
    | some number => exact lookup_downBy k number known
  -- A line that is known already is taken, and it has moved with the table.
  unfold lineOf Mark.downBy
  dsimp only
  rw [hfound]
  cases mark.shared.bind fun number => known.lookup number with
  | none => exact Option.map_or.symm
  | some line => rfl

namespace Tree

mutual

/-- A tree so many lines further down. -/
def downBy (k : Int) : Tree → Tree
  | leaf v => leaf (v.valueBelow k)
  | node tag mark children => node tag (mark.downBy k) (downAll k children)

/-- Trees so many lines further down. -/
def downAll (k : Int) : List Tree → List Tree
  | [] => []
  | t :: ts => t.downBy k :: downAll k ts

end

variable (k : Int)

theorem line?_downBy (t : Tree) : (t.downBy k).line? = t.line?.map (Raw.lineBelow k) := by
  cases t with
  | leaf v => rfl
  | node tag mark children => rfl

theorem findSome?_downAll (ts : List Tree) :
    (downAll k ts).findSome? line? = (ts.findSome? line?).map (Raw.lineBelow k) := by
  induction ts with
  | nil => rfl
  | cons t ts ih =>
    rw [downAll, List.findSome?_cons, List.findSome?_cons, line?_downBy, ih]
    cases t.line? with
    | none => rfl
    | some line => rfl

mutual

theorem raiseLines_downBy : (t : Tree) → (t.downBy k).raiseLines = t.raiseLines.downBy k
  | leaf v => rfl
  | node tag mark children => by
    rw [downBy, raiseLines, raiseLines, downBy, raiseAll_downAll children, findSome?_downAll]
    unfold Mark.downBy
    rw [Option.map_or]

theorem raiseAll_downAll : (ts : List Tree) → raiseAll (downAll k ts) = downAll k (raiseAll ts)
  | [] => rfl
  | t :: ts => by
    rw [downAll, raiseAll, raiseLines_downBy t, raiseAll_downAll ts, raiseAll, downAll]

end

mutual

theorem lowerShared_downBy (handed : Option Raw) (known : SharedLines) : (t : Tree) →
    (t.downBy k).lowerShared (handed.map (Raw.lineBelow k)) (known.downBy k) =
      ((t.lowerShared handed known).1.downBy k, (t.lowerShared handed known).2.downBy k)
  | leaf v => rfl
  | node tag mark children => by
    rw [downBy, lowerShared, lowerShared, SharedLines.lineOf_downBy, SharedLines.note_downBy]
    dsimp only
    rw [lowerSharedAll_downAll _ _ children]
    rfl

theorem lowerSharedAll_downAll (handed : Option Raw) (known : SharedLines) : (ts : List Tree) →
    lowerSharedAll (handed.map (Raw.lineBelow k)) (known.downBy k) (downAll k ts) =
      (downAll k (lowerSharedAll handed known ts).1, (lowerSharedAll handed known ts).2.downBy k)
  | [] => rfl
  | t :: ts => by
    rw [downAll, lowerSharedAll, lowerSharedAll, lowerShared_downBy _ _ t]
    dsimp only
    rw [lowerSharedAll_downAll _ _ ts, downAll]

end

/-- Lines may be filled in before or after a tree is moved. -/
theorem fillShared_downBy (t : Tree) : (t.downBy k).fillShared = t.fillShared.downBy k := by
  unfold fillShared
  rw [raiseLines_downBy]
  exact congrArg Prod.fst (lowerShared_downBy k none [] t.raiseLines)

end Tree

end RubyTree
