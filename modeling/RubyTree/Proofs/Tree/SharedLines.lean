import RubyTree.Proofs.Tree.FilledLines
import RubyTree.Tree.Shared

/-!
# Shared Nodes That Agree

A node that stands in several places has one line in all of them. If every place
is given a node of its own, each may get another line. When they do not, it makes
no difference whether the node is shared.

So the question is about trees without sharing: whether, after both passes, the
places with the same number have the same line. The downward pass that remembers
lines then finds nothing in its memory but what it would give anyway.

## Main definitions

* `SharedLines.Agree`: No number has two lines.
* `Tree.places`: The numbers in a tree, each with the line of its place.
* `Tree.unshared`: The tree with a node of its own in every place.

## Theorems

* `Tree.lowerShared_eq`: The downward pass, if the places agree.
* `Tree.fillShared_eq`: Both passes, if the places agree.
* `Tree.unshared_filled`: The passes do not look at numbers.
* `Tree.unshared_fillShared`: If the places agree, the tree with a node of its own in every
  place gets the same lines.
-/

namespace RubyTree

namespace SharedLines

/-- No number has two lines. -/
def Agree (known : SharedLines) : Prop :=
  ∀ number line line', (number, line) ∈ known → (number, line') ∈ known → line = line'

theorem Agree.mono {known known' : SharedLines} (h : Agree known) (hsub : known' ⊆ known) :
    Agree known' :=
  fun number line line' hline hline' => h number line line' (hsub hline) (hsub hline')

/-- Lines agree if those of each part do and the parts have no number in common. -/
theorem agree_append {known known' : SharedLines} (h : Agree known) (h' : Agree known')
    (hapart : ∀ number line line', (number, line) ∈ known → (number, line') ∉ known') :
    Agree (known ++ known') := by
  intro number line line' hline hline'
  rcases List.mem_append.1 hline with hline | hline <;>
    rcases List.mem_append.1 hline' with hline' | hline'
  · exact h number line line' hline hline'
  · exact absurd hline' (hapart number line line' hline)
  · exact absurd hline (hapart number line' line hline')
  · exact h' number line line' hline hline'

/-- What is remembered of a node is what it is given now. -/
theorem lineOf_eq {known : SharedLines} {mark : Mark} {handed : Option Raw}
    (h : ∀ number line, mark.shared = some number → (number, line) ∈ known →
      line = mark.line.or handed) : known.lineOf mark handed = mark.line.or handed := by
  unfold lineOf
  split
  · rename_i line hfound
    obtain ⟨number, hnumber, hlookup⟩ := Option.bind_eq_some_iff.1 hfound
    obtain ⟨before, after, rfl, -⟩ := List.lookup_eq_some_iff.1 hlookup
    exact h number line hnumber (by simp)
  · rfl

end SharedLines

namespace Tree

open SharedLines (Agree)

mutual

/-- The tree with a node of its own in every place. -/
def unshared : Tree → Tree
  | leaf v => leaf v
  | node tag mark children => node tag { mark with shared := none } (unsharedAll children)

/-- The trees with a node of its own in every place. -/
def unsharedAll : List Tree → List Tree
  | [] => []
  | t :: ts => t.unshared :: unsharedAll ts

end

mutual

/-- The numbers in a tree, each with the line of its place. -/
def places : Tree → SharedLines
  | leaf _ => []
  | node _ mark children => (mark.shared.map (·, mark.line)).toList ++ placesAll children

/-- The numbers in the trees, those of the first one first. -/
def placesAll : List Tree → SharedLines
  | [] => []
  | t :: ts => t.places ++ placesAll ts

end

theorem unsharedAll_eq_map (ts : List Tree) : unsharedAll ts = ts.map unshared := by
  induction ts with
  | nil => rfl
  | cons t ts ih => rw [unsharedAll, ih, List.map_cons]

theorem note_eq (known : SharedLines) (mark : Mark) (line : Option Raw) :
    known.note mark line = (mark.shared.map (·, line)).toList ++ known := by
  unfold SharedLines.note
  cases mark.shared <;> rfl

mutual

/-- If the places agree, nothing is remembered that makes a difference. -/
theorem lowerShared_eq {handed : Option Raw} {known : SharedLines} :
    (t : Tree) → Agree (known ++ (t.lowerLines handed).places) →
      t.lowerShared handed known =
        (t.lowerLines handed, (t.lowerLines handed).places.reverse ++ known)
  | leaf v, _ => rfl
  | node tag mark children, h => by
    rw [lowerLines, places] at h
    -- A line that is remembered for this number is one of the places, which all agree.
    have hline : known.lineOf mark handed = mark.line.or handed := by
      refine SharedLines.lineOf_eq fun number line hnumber hknown => ?_
      exact h number _ _ (List.mem_append_left _ hknown) (by simp [hnumber])
    have hchildren : Agree (known.note mark (mark.line.or handed) ++
        placesAll (lowerAll (mark.line.or handed) children)) := by
      rw [note_eq]
      exact h.mono (by grind)
    rw [lowerShared, hline]
    dsimp only
    rw [lowerSharedAll_eq children hchildren, lowerLines, places, note_eq]
    cases mark.shared <;> simp

theorem lowerSharedAll_eq {handed : Option Raw} {known : SharedLines} :
    (ts : List Tree) → Agree (known ++ placesAll (lowerAll handed ts)) →
      lowerSharedAll handed known ts =
        (lowerAll handed ts, (placesAll (lowerAll handed ts)).reverse ++ known)
  | [], _ => rfl
  | t :: ts, h => by
    rw [lowerAll, placesAll] at h
    have hfirst : Agree (known ++ (t.lowerLines handed).places) := h.mono (by grind)
    have hrest : Agree (((t.lowerLines handed).places.reverse ++ known) ++
        placesAll (lowerAll handed ts)) := h.mono (by grind)
    rw [lowerSharedAll, lowerShared_eq t hfirst]
    dsimp only
    rw [lowerSharedAll_eq ts hrest, lowerAll, placesAll, List.reverse_append, List.append_assoc]

end

/-- If the places agree, sharing makes no difference. -/
theorem fillShared_eq {t : Tree} (h : Agree t.fillLines.places) : t.fillShared = t.fillLines := by
  have hshared : t.raiseLines.lowerShared none [] =
      (t.fillLines, t.fillLines.places.reverse ++ []) := lowerShared_eq t.raiseLines h
  rw [fillShared, hshared]

theorem firstLine_unshared (t : Tree) : t.unshared.firstLine = t.firstLine := by
  induction t using induct with
  | leaf v => rfl
  | node tag mark children ih =>
    have hchildren : (unsharedAll children).findSome? firstLine = children.findSome? firstLine := by
      rw [unsharedAll_eq_map, List.findSome?_map]
      exact findSome?_congr ih
    rw [unshared, firstLine_node, firstLine_node, hchildren]

/-- The passes do not look at numbers. -/
theorem unshared_filled {handed : Option Raw} (t : Tree) :
    (t.filled handed).unshared = t.unshared.filled handed := by
  induction t using induct generalizing handed with
  | leaf v => rfl
  | node tag mark children ih =>
    have hfirst := firstLine_unshared (node tag mark children)
    rw [unshared] at hfirst
    rw [filled_node, unshared, unshared, filled_node, hfirst, unsharedAll_eq_map,
      unsharedAll_eq_map, List.map_map, List.map_map]
    congr 1
    exact List.map_congr_left fun c hc => ih c hc

theorem placesAll_eq_nil {ts : List Tree} (h : ∀ t ∈ ts, t.places = []) : placesAll ts = [] := by
  induction ts with
  | nil => rfl
  | cons t ts ih =>
    rw [List.forall_mem_cons] at h
    rw [placesAll, h.1, ih h.2, List.append_nil]

theorem places_unshared (t : Tree) : t.unshared.places = [] := by
  induction t using induct with
  | leaf v => rfl
  | node tag mark children ih =>
    rw [unshared, places, unsharedAll_eq_map, placesAll_eq_nil (List.forall_mem_map.2 ih)]
    rfl

/-- Where nothing is shared, nothing is remembered. -/
theorem fillShared_unshared (t : Tree) : t.unshared.fillShared = t.unshared.fillLines := by
  have hplaces : t.unshared.fillLines.places = [] := by
    have hfilled : t.fillLines.unshared = t.unshared.fillLines := unshared_filled t
    rw [← hfilled, places_unshared]
  refine fillShared_eq fun _ _ _ hline _ => ?_
  rw [hplaces] at hline
  exact absurd hline List.not_mem_nil

/-- Filling in the lines of a tree whose places agree is filling in those of the
    tree with a node of its own in every place. -/
theorem unshared_fillShared {t : Tree} (h : Agree t.fillLines.places) :
    t.fillShared.unshared = t.unshared.fillShared := by
  rw [fillShared_eq h, fillShared_unshared]
  exact unshared_filled t

end Tree

end RubyTree
