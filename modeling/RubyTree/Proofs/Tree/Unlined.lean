import Mathlib.Data.List.Forall2
import RubyTree.Proofs.Tree.Finished
import RubyTree.Tree.Shared

/-!
# Trees without Lines

Filling in lines leaves everything else as it was. To say so, both trees are
stripped of their lines and compared. The downward pass carries the lines of
shared nodes along, so its statement is for every such list.

Whether a tree is finished does not depend on its lines, and so the tree whose
lines are filled in is finished if the first one was.

## Main definitions

* `Tree.unlined`: A tree with all its lines left out.

## Theorems

* `Tree.unlined_raiseLines`, `Tree.unlined_lowerShared`: Each pass changes only lines.
* `Tree.unlined_fillShared`: Both passes together change only lines.
* `Finished.unlined_iff`: A tree is finished if it is without its lines.
* `Finished.fillShared`: Filling in lines keeps a tree finished.
-/

namespace RubyTree

namespace Tree

mutual

/-- A tree with all its lines left out. -/
def unlined : Tree → Tree
  | leaf v => leaf v
  | node tag mark children => node tag { mark with line := none } (unlinedAll children)

/-- Each tree with all its lines left out. -/
def unlinedAll : List Tree → List Tree
  | [] => []
  | t :: ts => t.unlined :: unlinedAll ts

end

theorem unlinedAll_eq_map (ts : List Tree) : unlinedAll ts = ts.map unlined := by
  induction ts with
  | nil => rfl
  | cons t ts ih => rw [unlinedAll, ih, List.map_cons]

mutual

theorem unlined_raiseLines : (t : Tree) → t.raiseLines.unlined = t.unlined
  | leaf v => rfl
  | node tag mark children => by
    rw [raiseLines, unlined, unlined, unlinedAll_raiseAll children]

theorem unlinedAll_raiseAll : (ts : List Tree) → unlinedAll (raiseAll ts) = unlinedAll ts
  | [] => rfl
  | t :: ts => by
    rw [raiseAll, unlinedAll, unlinedAll, unlined_raiseLines t, unlinedAll_raiseAll ts]

end

mutual

theorem unlined_lowerShared (handed : Option Raw) (known : SharedLines) :
    (t : Tree) → (t.lowerShared handed known).1.unlined = t.unlined
  | leaf v => rfl
  | node tag mark children => by
    rw [lowerShared, unlined, unlined, unlinedAll_lowerSharedAll _ _ children]

theorem unlinedAll_lowerSharedAll (handed : Option Raw) (known : SharedLines) :
    (ts : List Tree) → unlinedAll (lowerSharedAll handed known ts).1 = unlinedAll ts
  | [] => rfl
  | t :: ts => by
    rw [lowerSharedAll, unlinedAll, unlinedAll, unlined_lowerShared handed known t,
      unlinedAll_lowerSharedAll handed _ ts]

end

/-- Filling in lines changes nothing else. -/
theorem unlined_fillShared (t : Tree) : t.fillShared.unlined = t.unlined := by
  rw [fillShared, unlined_lowerShared, unlined_raiseLines]

/-- Leaving out lines neither makes a leaf of a node nor changes a leaf. -/
theorem unlined_eq_leaf {t : Tree} {v : Raw} : t.unlined = .leaf v ↔ t = .leaf v := by
  cases t with
  | leaf v' => rfl
  | node tag mark children => simp only [unlined, reduceCtorEq]

/-- A negation of nothing has no lines to leave out. -/
theorem hasOperand_unlinedAll (tag : String) (children : List Tree) :
    hasOperand tag (unlinedAll children) = hasOperand tag children := by
  have heq : unlinedAll children = [.null, .sym "!"] ↔ children = [.null, .sym "!"] := by
    rw [unlinedAll_eq_map]
    match children with
    | [] | [_] | _ :: _ :: _ :: _ => simp
    | [receiver, name] => simp [null, sym, unlined_eq_leaf]
  rw [← Bool.not_inj_iff, Bool.eq_iff_iff, Bool.not_eq_true', Bool.not_eq_true',
    hasOperand_eq_false, hasOperand_eq_false, heq]

end Tree

theorem finished_of_forall₂ {slot : Slot} {ts us : List Tree}
    (hfit : List.Forall₂ (fun u t => ∀ slot, Finished slot t → Finished slot u) us ts)
    (h : ∀ t ∈ ts, Finished slot t) : ∀ u ∈ us, Finished slot u := by
  induction hfit with
  | nil => exact h
  | cons hu _ ih =>
    rw [List.forall_mem_cons] at h ⊢
    exact ⟨hu slot h.1, ih h.2⟩

/-- Children may be replaced by others that fit wherever they do. -/
theorem FinishedAll.replace {form : List Child} {ts us : List Tree} (h : FinishedAll form ts)
    (hfit : List.Forall₂ (fun u t => ∀ slot, Finished slot t → Finished slot u) us ts) :
    FinishedAll form us := by
  match h with
  | .nil =>
    cases hfit
    exact .nil
  | .one hhead hrest =>
    cases hfit with
    | cons hu hus => exact .one (hu _ hhead) (hrest.replace hus)
  | .left hrest => exact .left (hrest.replace hfit)
  | .maybe hhead hrest =>
    cases hfit with
    | cons hu hus => exact .maybe (hu _ hhead) (hrest.replace hus)
  | .many hall hrest =>
    rename_i as ts
    -- The replaced children are cut where the first ones were.
    have hfront := List.forall₂_take_append us as ts hfit
    have hback := List.forall₂_drop_append us as ts hfit
    rw [← List.take_append_drop as.length us]
    exact .many (finished_of_forall₂ hfront hall) (hrest.replace hback)

namespace Finished

mutual

/-- A tree is finished if it is without its lines. -/
theorem unlined_iff {slot : Slot} : (t : Tree) → (Finished slot t.unlined ↔ Finished slot t)
  | .leaf v => Iff.rfl
  | .node tag mark children => by
    have hchildren : ∀ t ∈ children, ∀ s, Finished s t.unlined ↔ Finished s t :=
      unlinedAll_iff children
    -- The form of the node stays; what is said of the children is exchanged one by one.
    constructor
    · intro h
      cases h with
      | node hform hslot hoperand hall =>
        rw [Tree.hasOperand_unlinedAll] at hoperand
        refine .node hform hslot hoperand (hall.replace ?_)
        rw [Tree.unlinedAll_eq_map, List.forall₂_map_right_iff, List.forall₂_same]
        exact fun t ht s => (hchildren t ht s).1
    · intro h
      cases h with
      | node hform hslot hoperand hall =>
        rw [← Tree.hasOperand_unlinedAll] at hoperand
        refine .node hform hslot hoperand (hall.replace ?_)
        rw [Tree.unlinedAll_eq_map, List.forall₂_map_left_iff, List.forall₂_same]
        exact fun t ht s => (hchildren t ht s).2

theorem unlinedAll_iff :
    (ts : List Tree) → ∀ t ∈ ts, ∀ slot, Finished slot t.unlined ↔ Finished slot t
  | [] => fun t ht => nomatch ht
  | u :: us => by
    intro t ht slot
    cases ht with
    | head => exact unlined_iff u
    | tail _ ht => exact unlinedAll_iff us t ht slot

end

/-- Filling in lines keeps a tree finished. -/
theorem fillShared {slot : Slot} {t : Tree} (h : Finished slot t) : Finished slot t.fillShared := by
  -- Both trees are the same without their lines.
  have hbare : Finished slot t.fillShared.unlined := by
    rw [Tree.unlined_fillShared]
    exact (unlined_iff t).2 h
  exact (unlined_iff t.fillShared).1 hbare

end Finished

end RubyTree
