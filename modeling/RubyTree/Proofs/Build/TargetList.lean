import RubyTree.Proofs.Build.Shows
import RubyTree.Proofs.Build.Step

/-!
# Lists of Targets

The targets on the left of a multiple assignment come one at a time. Those before
a splat are added to one list. Those after it are recorded in two ways: as a list
of their own that is added at once, or one after the other, each added to what
stands before it. The builder cannot add to the list in the second case, since a
splat has closed it, so every target makes one more node.

Nothing is changed but lists that are made here, so it does not matter what the
targets are or whether they have parts in common.

## Main definitions

* `targetList`, `targetsWithSplat`: The targets up to the splat.
* `targetsAtOnce`, `targetsOneByOne`: The targets after the splat, in both ways.
* `Builds`: The builder gives a value that is a raw tree.
* `Raw.targetsAtOnce`, `Raw.targetsOneByOne`: The raw trees of all targets.

## Theorems

* `runIn_targetList`: A list of targets is one new list.
* `builds_targetsAtOnce`, `builds_targetsOneByOne`: The raw trees the builder gives.
-/

namespace RubyTree

namespace Raw

/-- Targets and a splat. -/
def targetsWithSplat (before : List Raw) (splat : Raw) : Raw :=
  .list [.str "mlhs_add_star", .list (.str "mlhs" :: before), splat]

/-- Targets, a splat, and a list of targets after it. -/
def targetsAtOnce (before : List Raw) (splat : Raw) (after : List Raw) : Raw :=
  .list [.str "mlhs_add_post", targetsWithSplat before splat, .list (.str "mlhs" :: after)]

/-- Targets, a splat, and targets after it that are added one by one. -/
def targetsOneByOne (before : List Raw) (splat : Raw) (after : List Raw) : Raw :=
  after.foldl (fun targets r => .list [.str "mlhs_add_post", targets, r])
    (targetsWithSplat before splat)

end Raw

namespace BuildM

/-- The events for a list of targets. -/
def targetList (targets : List Item) : BuildM Item := do
  targets.foldlM (fun list v => build "mlhs_add" [list, v]) (← build "mlhs_new" [])

/-- The events for targets up to a splat. -/
def targetsWithSplat (before : List Item) (splat : Item) : BuildM Item := do
  build "mlhs_add_star" [← targetList before, splat]

/-- The events for targets of which those after the splat are a list. -/
def targetsAtOnce (before : List Item) (splat : Item) (after : List Item) : BuildM Item := do
  let targets ← targetsWithSplat before splat
  build "mlhs_add_post" [targets, ← targetList after]

/-- The events for targets of which those after the splat come one by one. -/
def targetsOneByOne (before : List Item) (splat : Item) (after : List Item) : BuildM Item := do
  after.foldlM (fun targets v => build "mlhs_add" [targets, v]) (← targetsWithSplat before splat)

/-- The step succeeds with a value that is this raw tree. -/
def Builds (x : BuildM Item) (b : Builder) (r : Raw) : Prop :=
  ∃ v c, x.runIn b = (.ok v, c) ∧ c.arena.freeze? v = some r

end BuildM

namespace Builder

open Arena (Shows)

variable {b : Builder} {P : Nat → Prop} {r : Raw} {v : Item} {rs : List Raw} {items : List Item}

theorem setItems_push (b : Builder) (items items' : List Item) :
    (b.push items).setItems (.list b.arena.lists.size) items' = b.push items' := by
  have hlists : (b.arena.lists.push items).setIfInBounds b.arena.lists.size items' =
      b.arena.lists.push items' := by
    rw [← Array.toList_inj]
    simp
  exact congrArg (fun lists => { b with arena := { lists } }) hlists

/-- A new list leaves what a value shows as it is. -/
theorem shows_push (h : b.arena.Shows P r v) (items : List Item) :
    (b.push items).arena.Shows P r v :=
  h.transfer fun id _ hid hstored => ⟨hid, items?_push (v := .list id) hstored items⟩

/-- A new list shows what its items show. -/
theorem shows_push_self (h : List.Forall₂ (b.arena.Shows fun _ => True) rs items) :
    (b.push items).arena.Shows (fun _ => True) (.list rs) (.list b.arena.lists.size) :=
  .list trivial (items?_push_self b items) (h.imp fun _ _ hr => shows_push hr items)

end Builder

namespace BuildM

open Arena (Shows)

variable {b : Builder} {before after items : List Item} {splat : Item} {rs us : List Raw} {r : Raw}

/-- A list of targets is one new list. -/
theorem runIn_targetList (b : Builder) (targets : List Item) :
    (targetList targets).runIn b =
      (.ok (.list b.arena.lists.size), b.push (.str "mlhs" :: targets)) := by
  -- The list has the targets that were added so far.
  have hloop : ∀ done targets : List Item,
      (targets.foldlM (fun list v => build "mlhs_add" [list, v])
        (.list b.arena.lists.size) : BuildM Item).runIn (b.push (.str "mlhs" :: done)) =
      (.ok (.list b.arena.lists.size), b.push (.str "mlhs" :: (done ++ targets))) := by
    intro done targets
    induction targets generalizing done with
    | nil =>
      rw [List.append_nil]
      rfl
    | cons v targets ih =>
      have hitems := Builder.items?_push_self b (.str "mlhs" :: done)
      have hadd : (build "mlhs_add" [.list b.arena.lists.size, v]).runIn
          (b.push (.str "mlhs" :: done)) =
          (.ok (.list b.arena.lists.size), b.push (.str "mlhs" :: (done ++ [v]))) := by
        show (Effect.addTarget _ _).runIn _ = _
        unfold Effect.addTarget
        rw [runIn_bind, runIn_tagOf, Arena.tag?, hitems]
        show (Effect.addItem _ _).runIn _ = _
        unfold Effect.addItem
        rw [runIn_bind, runIn_append, hitems]
        show (_, (b.push _).setItems _ _) = _
        rw [Builder.setItems_push]
        rfl
      rw [List.foldlM_cons, runIn_bind, hadd]
      dsimp only
      rw [ih, List.append_assoc]
      rfl
  exact hloop [] targets

theorem builds_of_shows {x : BuildM Item} {v : Item} {c : Builder} (hrun : x.runIn b = (.ok v, c))
    (h : c.arena.Shows (fun _ => True) r v) : Builds x b r :=
  ⟨v, c, hrun, Arena.freeze?_of_shows h⟩

/-- The events up to a splat succeed, and leave what other values show as it is. -/
theorem runIn_targetsWithSplat
    (hbefore : List.Forall₂ (b.arena.Shows fun _ => True) rs before)
    (hsplat : b.arena.Shows (fun _ => True) r splat) :
    ∃ v c, (targetsWithSplat before splat).runIn b = (.ok v, c) ∧
      c.arena.Shows (fun _ => True) (Raw.targetsWithSplat rs r) v ∧ c.arena.tag? v ≠ some "mlhs" ∧
      ∀ r v, b.arena.Shows (fun _ => True) r v → c.arena.Shows (fun _ => True) r v := by
  -- Each node is pushed on the arena that the one before it has left.
  have hlist := Builder.shows_push_self (.cons (.atom (.str "mlhs")) hbefore)
  have hsplat' := Builder.shows_push hsplat (.str "mlhs" :: before)
  have hnode := Builder.shows_push_self
    (.cons (.atom (.str "mlhs_add_star")) (.cons hlist (.cons hsplat' .nil)))
  refine ⟨_, _, ?_, hnode, ?_, fun r v hr => Builder.shows_push (Builder.shows_push hr _) _⟩
  · unfold targetsWithSplat
    rw [runIn_bind, runIn_targetList]
    rfl
  · rw [hnode.stands.tag?_eq]
    exact fun htag => nomatch Option.some.inj htag

/-- Targets after a splat as a list of their own. -/
theorem builds_targetsAtOnce (hbefore : List.Forall₂ (b.arena.Shows fun _ => True) rs before)
    (hsplat : b.arena.Shows (fun _ => True) r splat)
    (hafter : List.Forall₂ (b.arena.Shows fun _ => True) us after) :
    Builds (targetsAtOnce before splat after) b (Raw.targetsAtOnce rs r us) := by
  obtain ⟨v, c, hrun, hv, -, hkeep⟩ := runIn_targetsWithSplat hbefore hsplat
  have hlist := Builder.shows_push_self
    (.cons (.atom (.str "mlhs")) (hafter.imp fun _ _ hr => hkeep _ _ hr))
  have hv' := Builder.shows_push hv (.str "mlhs" :: after)
  refine builds_of_shows ?_ (Builder.shows_push_self
    (.cons (.atom (.str "mlhs_add_post")) (.cons hv' (.cons hlist .nil))))
  unfold targetsAtOnce
  rw [runIn_bind, hrun]
  dsimp only
  rw [runIn_bind, runIn_targetList]
  rfl

/-- Targets after a splat one by one. -/
theorem builds_targetsOneByOne (hbefore : List.Forall₂ (b.arena.Shows fun _ => True) rs before)
    (hsplat : b.arena.Shows (fun _ => True) r splat)
    (hafter : List.Forall₂ (b.arena.Shows fun _ => True) us after) :
    Builds (targetsOneByOne before splat after) b (Raw.targetsOneByOne rs r us) := by
  -- What the targets are added to is never a plain list, so each makes a new node.
  have hloop : ∀ (us : List Raw) (after : List Item) (c : Builder) (targets : Raw) (v : Item),
      List.Forall₂ (c.arena.Shows fun _ => True) us after →
      c.arena.Shows (fun _ => True) targets v → c.arena.tag? v ≠ some "mlhs" →
      Builds (after.foldlM (fun targets v => build "mlhs_add" [targets, v]) v) c
        (us.foldl (fun targets r => .list [.str "mlhs_add_post", targets, r]) targets) := by
    intro us
    induction us with
    | nil =>
      intro after c targets v hafter hv _
      cases hafter
      exact builds_of_shows rfl hv
    | cons r us ih =>
      intro after c targets v hafter hv htag
      obtain ⟨w, after, hr, hrest, rfl⟩ := List.forall₂_cons_left_iff.1 hafter
      have hnode := Builder.shows_push_self
        (.cons (.atom (.str "mlhs_add_post")) (.cons hv (.cons hr .nil)))
      have hadd : (build "mlhs_add" [v, w]).runIn c =
          (.ok (.list c.arena.lists.size), c.push [.str "mlhs_add_post", v, w]) := by
        show (Effect.addTarget _ _).runIn _ = _
        unfold Effect.addTarget
        rw [runIn_bind, runIn_tagOf]
        dsimp only
        rw [if_neg (by simpa using htag)]
        rfl
      obtain ⟨x, d, hrun, hx⟩ := ih after (c.push [.str "mlhs_add_post", v, w]) _ _
        (hrest.imp fun _ _ hr => Builder.shows_push hr _) hnode
        (by rw [hnode.stands.tag?_eq]; exact fun htag => nomatch Option.some.inj htag)
      refine ⟨x, d, ?_, hx⟩
      rw [List.foldlM_cons, runIn_bind, hadd]
      exact hrun
  obtain ⟨v, c, hrun, hv, htag, hkeep⟩ := runIn_targetsWithSplat hbefore hsplat
  obtain ⟨w, d, hrun', hw⟩ := hloop us after c _ v (hafter.imp fun _ _ hr => hkeep _ _ hr) hv htag
  refine ⟨w, d, ?_, hw⟩
  unfold targetsOneByOne
  rw [runIn_bind, hrun]
  exact hrun'

end BuildM

end RubyTree
