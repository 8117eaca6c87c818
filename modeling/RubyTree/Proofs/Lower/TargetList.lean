import Mathlib.Data.List.Induction
import RubyTree.Proofs.Build.TargetList
import RubyTree.Proofs.Lower.ScopeRestored
import RubyTree.Proofs.Lower.Soundness

/-!
# Targets After a Splat

A raw tree has the targets after a splat in one of two forms, and both are nodes
of the same tag: a list of targets to be added, or a single target. Lowering tells
the forms apart by what the added part is lowered to. If that is a list, its
targets are added, and otherwise the part itself.

A target in parentheses is a list of its own and is lowered to one. Added as part
of a list it is one of the targets there and stays whole. Added by itself it is
taken for a list of targets, and its parentheses are lost: `a, *b, (c, d) = x`
comes out as `a, *b, c, d = x`. For all other targets the two forms agree: there
is one child for each target, in the order of the source.

## Main definitions

* `Listable`: What may stand in a list of targets.
* `lowerTarget`, `lowerSplat`: One target, and a splat with or without one.
* `targetsInOrder`: One child for each target, in order.
* `targetsSpread`: The same, without the parentheses of targets after the splat.

## Theorems

* `bind_comm_of_target`: A target is made before or after another one is lowered.
* `lower_targetList`: A list of targets has one child for each.
* `lower_targetsAtOnce`, `lower_targetsOneByOne`: The two forms.
* `targets_after_splat`: The events for both forms, and what they are lowered to.
* `oneByOne_loses_parentheses`: A list after a splat, in both forms.
-/

namespace RubyTree

namespace LowerM

open Raw (node token)

/-- What may stand in a list of targets: a target, or a list in turn, with or
    without parentheses. The flag says that it is a list. The targets after a splat
    come in either form, at every depth. -/
inductive Listable : Bool → Raw → Prop where
  | target {r : Raw} (h : Shaped (.target false) r) : Listable false r
  | list {r : Raw} (h : Listable true r) : Listable false r
  | paren {isList : Bool} {r : Raw} (h : Listable isList r) :
      Listable isList (node "mlhs_paren" [r])
  | targets {rs : List Raw} (h : ∀ r ∈ rs, Listable false r) : Listable true (node "mlhs" rs)
  | splat {targets r : Raw} (h : Listable true targets)
      (hr : Shaped (.optional (.target false)) r) :
      Listable true (node "mlhs_add_star" [targets, r])
  | after {targets r : Raw} {isList : Bool} (h : Listable true targets) (hr : Listable isList r) :
      Listable true (node "mlhs_add_post" [targets, r])

/-- A target, turned into one after it was lowered. -/
def lowerTarget (r : Raw) : LowerM Tree := do
  targetOf (← lower r)

/-- A splat, which may have no target. -/
def lowerSplat (r : Raw) : LowerM Tree := do
  match ← lower r with
  | .null => return .bare "splat" []
  | t => return .bare "splat" [← targetOf t]

/-- One child for each target, in the order of the source. -/
def targetsInOrder (before : List Raw) (splat : Raw) (after : List Raw) : LowerM Tree := do
  let ts ← before.mapM lowerTarget
  let t ← lowerSplat splat
  let us ← after.mapM lowerTarget
  return .bare "mlhs" (ts ++ t :: us)

/-- The targets in a list of them, or the target itself. -/
def listedTargets : Tree → List Tree
  | .node (.str "mlhs") _ children => children
  | t => [t]

/-- The same, where targets of lists after the splat are not kept apart. -/
def targetsSpread (before : List Raw) (splat : Raw) (after : List Raw) : LowerM Tree := do
  let ts ← before.mapM lowerTarget
  let t ← lowerSplat splat
  let us ← after.mapM lowerTarget
  return .bare "mlhs" (ts ++ t :: us.flatMap listedTargets)

section Targets

variable {t : Tree} {r : Raw} {rs : List Raw}

theorem withLine_node (tag : Raw) (mark : Mark) (children : List Tree) (line : Option Raw) :
    ∃ mark', (Tree.node tag mark children).withLine line = .node tag mark' children := by
  cases line with
  | none => exact ⟨mark, rfl⟩
  | some line => exact ⟨_, rfl⟩

theorem hasTag_withLine (t : Tree) (line : Option Raw) (tag : String) :
    (t.withLine line).hasTag tag = t.hasTag tag := by
  cases t with
  | leaf v => cases line <;> rfl
  | node name mark children =>
    obtain ⟨mark', hmark⟩ := withLine_node name mark children line
    rw [hmark]
    cases name with
    | list items => rfl
    | atom x => cases x <;> rfl

/-- A list of targets is turned into itself. -/
theorem targetOf_list (mark : Mark) (children : List Tree) :
    ∃ mark', targetOf (.node (.str "mlhs") mark children) =
      pure (.node (.str "mlhs") mark' children) := by
  obtain ⟨mark', hmark⟩ := withLine_node (.str "mlhs") mark children mark.line
  refine ⟨mark', ?_⟩
  rw [← hmark]
  rfl

/-- What a target becomes depends on the scope only by whether it is that of a
    method, and it never becomes a list. -/
theorem runIn_targetOf_target (h : Target t) :
    ∃ inside outside : Tree, inside.hasTag "mlhs" = false ∧ outside.hasTag "mlhs" = false ∧
      ∀ options scope, (targetOf t).runIn options scope =
        (.ok (if scope.inMethod then inside else outside), scope) := by
  -- Most targets become the same inside of a method and outside.
  have hsame : ∀ u : Tree, assignTo t none = pure u → u.hasTag "mlhs" = false →
      ∃ inside outside : Tree, inside.hasTag "mlhs" = false ∧ outside.hasTag "mlhs" = false ∧
        ∀ options scope, (targetOf t).runIn options scope =
          (.ok (if scope.inMethod then inside else outside), scope) := by
    intro u hassign htag
    refine ⟨u.withLine t.line?, u.withLine t.line?, ?_, ?_, fun options scope => ?_⟩
    · rw [hasTag_withLine, htag]
    · rw [hasTag_withLine, htag]
    · unfold targetOf
      rw [hassign, ite_self]
      rfl
  cases h with
  | ofVariable h =>
    cases h with
    | @simple tag mark name htag =>
      simp only [pinnable, List.mem_cons, List.not_mem_nil, or_false] at htag
      obtain rfl | rfl | rfl | rfl := htag
      · exact hsame _ rfl rfl
      · exact hsame _ rfl rfl
      · exact hsame _ rfl rfl
      · -- A class variable is assigned in a method and declared outside of one.
        refine ⟨(Tree.node (.str "cvasgn") {} [.sym name]).withLine mark.line,
          (Tree.node (.str "cvdecl") {} [.sym name]).withLine mark.line, ?_, ?_, ?_⟩
        · rw [hasTag_withLine]
          rfl
        · rw [hasTag_withLine]
          rfl
        · intro options scope
          show (_, _) = _
          cases hmethod : scope.inMethod with
          | true => rfl
          | false => rfl
    | constant hroot => exact hsame _ rfl rfl
  | element hcollection hargs => exact hsame _ rfl rfl
  | field hreceiver hkind =>
    obtain rfl | rfl := hkind
    · exact hsame _ rfl rfl
    · exact hsame _ rfl rfl

theorem hasTag_of_target {u : Tree} (h : Target t) (hu : Returns (targetOf t) u) :
    u.hasTag "mlhs" = false := by
  obtain ⟨inside, outside, hinside, houtside, hrun⟩ := runIn_targetOf_target h
  obtain ⟨options, scope, after, hu⟩ := hu
  rw [hrun] at hu
  cases hu
  split
  · exact hinside
  · exact houtside

theorem listedTargets_of_target {u : Tree} (h : Target t) (hu : Returns (targetOf t) u) :
    listedTargets u = [u] := by
  have htag := hasTag_of_target h hu
  unfold listedTargets
  split
  · cases htag
  · rfl

/-- What a target of a list becomes depends on the scope only by whether it is
    that of a method. -/
theorem runIn_targetOf (h : Assignable t) :
    ∃ inside outside : Tree, ∀ options scope, (targetOf t).runIn options scope =
      (.ok (if scope.inMethod then inside else outside), scope) := by
  rcases h with h | h
  · obtain ⟨inside, outside, -, -, hrun⟩ := runIn_targetOf_target h
    exact ⟨inside, outside, hrun⟩
  · obtain ⟨mark, children, rfl⟩ := targets_node h
    obtain ⟨mark', hlist⟩ := targetOf_list mark children
    let same := Tree.node (.str "mlhs") mark' children
    refine ⟨same, same, fun options scope => ?_⟩
    rw [hlist, ite_self]
    rfl

/-- A target is turned into one before or after something else is lowered, since
    lowering leaves a method where it was. -/
theorem bind_comm_of_target {α β : Type} (h : Assignable t) {x : LowerM α}
    (hx : Yields x fun _ => True) (hrestores : Restores x) (f : α → Tree → LowerM β) :
    (do let a ← x; f a (← targetOf t)) = (do let u ← targetOf t; f (← x) u) := by
  obtain ⟨inside, outside, htarget⟩ := runIn_targetOf h
  refine ext_runIn fun options scope => ?_
  obtain ⟨a, after, hrun, -⟩ := hx options scope
  have hmethod : after.inMethod = scope.inMethod := by
    have hrestored := hrestores options scope
    rw [hrun] at hrestored
    exact hrestored.inMethod
  rw [runIn_bind, runIn_bind, hrun, htarget]
  dsimp only
  rw [runIn_bind, runIn_bind, hrun, htarget, hmethod]

theorem yields_of_listable {isList : Bool} (h : Listable isList r) :
    Yields (lower r) fun t => Assignable t ∧ (isList = true → Finished .targets t) := by
  have hlist : ∀ {r : Raw}, Sound (.targets false) r →
      Yields (lower r) fun t => Assignable t ∧ (true = true → Finished .targets t) := fun h =>
    Yields.mono h fun t ht => ⟨.inr ht.1, fun _ => ht.1⟩
  -- By how the list is written: each form adds to what the form inside of it gives.
  induction h with
  | target h => exact (sound_of_shaped h).mono fun t ht => ⟨.inl ht.1, nofun⟩
  | list _ ih => exact ih.mono fun t ht => ⟨ht.1, nofun⟩
  | paren _ ih => exact yields_node rfl ih
  | targets _ ih =>
    exact hlist (@sound_targets false _ fun r hr => (ih r hr).mono fun t ht => ⟨ht.1, nofun⟩)
  | splat _ hr ih =>
    exact hlist (@sound_targetsStar false _ _ (ih.mono fun t ht => ⟨ht.2 rfl, nofun⟩)
      (sound_of_shaped hr))
  | after _ _ ih ihafter =>
    refine hlist (yields_node rfl (ih.bind fun t ht => ihafter.bind fun u hu => ?_))
    have hadd := @addTargets_yields false t ⟨ht.2 rfl, nofun⟩
    split
    · rename_i mark children
      rcases hu.1 with hu | hu
      · -- A lone value after the splat would have to be a target, and that tag is none.
        exact absurd hu (not_target (by decide))
      · exact hadd fun v hv => ⟨(hu.children rfl).of_many v hv, nofun⟩
    · refine (targetOf_yields hu.1).bind fun v hv => hadd (List.forall_mem_singleton.2 ?_)
      exact ⟨hv.within rfl, nofun⟩

theorem assignable_of_item (h : Listable false r) : Yields (lower r) Assignable :=
  (yields_of_listable h).mono fun _ ht => ht.1

theorem restores_mapM_lower (rs : List Raw) : Restores (rs.mapM lower) := by
  induction rs with
  | nil => exact congruence_restores.pure _
  | cons r rs ih =>
    rw [List.mapM_cons]
    refine restores_bind (restores_lowerAt r.depth r) fun t _ => ?_
    exact restores_bind ih fun ts _ => congruence_restores.pure _

/-- Targets are turned into ones after all of them are lowered, or one by one. -/
theorem mapM_lowerTarget (h : ∀ r ∈ rs, Listable false r) :
    (do (← rs.mapM lower).mapM targetOf) = rs.mapM lowerTarget := by
  induction rs with
  | nil => rfl
  | cons r rs ih =>
    obtain ⟨hr, hrs⟩ := List.forall_mem_cons.1 h
    -- None of the raw targets fails, so no later step of lowering is skipped.
    have hall : Yields (rs.mapM lower) fun _ => True :=
      (Yields.mapM fun r hr => assignable_of_item (hrs r hr)).mono fun _ _ => trivial
    rw [List.mapM_cons, List.mapM_cons, ← ih hrs]
    simp only [lowerTarget, bind_assoc, pure_bind, List.mapM_cons]
    refine bind_congr_returned fun t ht => ?_
    -- Making a target changes no names, so it may come after the next ones are lowered.
    have hcomm := bind_comm_of_target ((assignable_of_item hr).of_returns ht) hall
      (restores_mapM_lower rs) fun ts u => do return u :: (← ts.mapM targetOf)
    exact hcomm

/-- A list of targets has one child for each, in order. -/
theorem lower_targetList (h : ∀ r ∈ rs, Listable false r) :
    lower (node "mlhs" rs) = do return .bare "mlhs" (← rs.mapM lowerTarget) := by
  rw [← mapM_lowerTarget h, lower_node]
  simp only [bind_assoc]
  rfl

theorem lower_targetsWithSplat (h : ∀ r ∈ rs, Listable false r) (splat : Raw) :
    lower (Raw.targetsWithSplat rs splat) = do
      let ts ← rs.mapM lowerTarget
      return .bare "mlhs" (ts ++ [← lowerSplat splat]) := by
  have hnode : lower (Raw.targetsWithSplat rs splat) =
      lowerTargetsStar lower [node "mlhs" rs, splat] := lower_node _ _
  rw [hnode]
  unfold lowerTargetsStar lowerSplat
  show (lower (node "mlhs" rs) >>= _) = _
  rw [lower_targetList h]
  simp only [bind_assoc, pure_bind]
  -- The targets run first on both sides; after them the splat decides how it is added.
  refine bind_congr_returned fun ts _ => bind_congr_returned fun t _ => ?_
  split
  · rfl
  · simp only [bind_assoc]
    rfl

/-- The targets after a splat as a list: one child for each of them. -/
theorem lower_targetsAtOnce {before after : List Raw}
    (hbefore : ∀ r ∈ before, Listable false r) (splat : Raw)
    (hafter : ∀ r ∈ after, Listable false r) :
    lower (Raw.targetsAtOnce before splat after) = targetsInOrder before splat after := by
  have hnode : lower (Raw.targetsAtOnce before splat after) =
      lowerTargetsPost lower [Raw.targetsWithSplat before splat, node "mlhs" after] :=
    lower_node _ _
  rw [hnode]
  unfold lowerTargetsPost targetsInOrder
  show (lower (Raw.targetsWithSplat before splat) >>= fun targets =>
    lower (node "mlhs" after) >>= _) = _
  rw [lower_targetsWithSplat hbefore, lower_targetList hafter]
  simp only [bind_assoc, pure_bind]
  -- The same steps on both sides, so only the way the lists are put together is left.
  refine bind_congr fun ts => bind_congr fun t => bind_congr fun us => ?_
  show (pure (.bare "mlhs" ((ts ++ [t]) ++ us)) : LowerM Tree) = _
  rw [List.append_assoc]
  rfl

/-- The targets after a splat one by one: a list among them is taken apart. -/
theorem lower_targetsOneByOne {before after : List Raw}
    (hbefore : ∀ r ∈ before, Listable false r) (splat : Raw)
    (hafter : ∀ r ∈ after, Listable false r) :
    lower (Raw.targetsOneByOne before splat after) = targetsSpread before splat after := by
  unfold targetsSpread
  -- The last target is added to what all those before it were lowered to.
  induction after using List.reverseRecOn with
  | nil =>
    show lower (Raw.targetsWithSplat before splat) = _
    rw [lower_targetsWithSplat hbefore]
    rfl
  | append_singleton after r ih =>
    obtain ⟨hafter, hr⟩ := List.forall_mem_append.1 hafter
    have hitem := assignable_of_item (hr r List.mem_cons_self)
    have hnode : lower (Raw.targetsOneByOne before splat (after ++ [r])) =
        lowerTargetsPost lower [Raw.targetsOneByOne before splat after, r] := by
      unfold Raw.targetsOneByOne
      rw [List.foldl_append]
      exact lower_node _ _
    rw [hnode]
    unfold lowerTargetsPost
    show (lower (Raw.targetsOneByOne before splat after) >>= fun targets =>
      lower r >>= _) = _
    rw [ih hafter]
    simp only [lowerTarget, List.mapM_append, List.mapM_cons, List.mapM_nil, bind_assoc, pure_bind]
    refine bind_congr fun ts => bind_congr fun t => bind_congr fun us =>
      bind_congr_returned fun u hu => ?_
    have hmore : ∀ more : List Tree,
        addChildren (.bare "mlhs" (ts ++ t :: us.flatMap listedTargets)) more =
          pure (.bare "mlhs" (ts ++ t :: (us.flatMap listedTargets ++ more))) := by
      intro more
      show (pure (.bare "mlhs" ((ts ++ t :: us.flatMap listedTargets) ++ more)) : LowerM Tree) = _
      rw [List.append_assoc, List.cons_append]
    simp only [List.flatMap_append, List.flatMap_singleton]
    rcases hitem.of_returns hu with htarget | hlist
    · obtain ⟨tag, htag, mark, children, rfl⟩ := htarget.tagged
      split
      · rename_i heq
        cases heq
        exact absurd htag (by decide)
      · simp only [hmore]
        refine bind_congr_returned fun w hw => ?_
        rw [listedTargets_of_target htarget hw]
    · obtain ⟨mark, children, rfl⟩ := targets_node hlist
      obtain ⟨mark', htarget⟩ := targetOf_list mark children
      rw [htarget, pure_bind]
      exact hmore children

/-- A list is one target, and what is no list is none. -/
def StaysOne (r : Raw) (t : Tree) : Prop :=
  (Listable true r → t.hasTag "mlhs") ∧
    (Shaped (.target false) r → t.hasTag "mlhs" = false)

theorem lowerTarget_yields (h : Listable false r) : Yields (lowerTarget r) (StaysOne r) := by
  have hitem := assignable_of_item h
  -- What a target becomes is asked in three ways, of which the last two need more than an item.
  have hlists : Yields (lower r) fun t => Listable true r → Finished .targets t := by
    by_cases hr : Listable true r
    · exact (yields_of_listable hr).mono fun _ ht _ => ht.2 rfl
    · exact hitem.mono fun _ _ hr' => absurd hr' hr
  have hplain : Yields (lower r) fun t => Shaped (.target false) r → Target t := by
    by_cases hr : Shaped (.target false) r
    · exact (sound_of_shaped hr).mono fun _ ht _ => ht.1
    · exact hitem.mono fun _ _ hr' => absurd hr' hr
  refine (hitem.and (hlists.and hplain)).bind fun t ⟨ht, hlist, htarget⟩ options scope => ?_
  obtain ⟨inside, outside, hrun⟩ := runIn_targetOf ht
  refine ⟨_, scope, hrun options scope, fun hr => ?_, fun hr => ?_⟩
  · obtain ⟨mark, children, rfl⟩ := targets_node (hlist hr)
    obtain ⟨mark', hsame⟩ := targetOf_list mark children
    have hrun' := hrun options scope
    rw [hsame, runIn_pure] at hrun'
    rw [← Except.ok.inj (Prod.mk.inj hrun').1]
    rfl
  · exact hasTag_of_target (htarget hr) ⟨options, scope, scope, hrun options scope⟩

theorem lowerSplat_yields (h : Shaped (.optional (.target false)) r) :
    Yields (lowerSplat r) (·.hasTag "splat") := by
  have hstar : Yields (lower r) fun t => t = .null ∨ Target t :=
    yields_optional (sound_of_shaped h) (.inl rfl) fun h => h.mono fun _ ht => .inr ht.1
  refine hstar.bind fun t ht => ?_
  rcases ht with rfl | ht
  · exact yields_pure rfl
  · obtain ⟨tag, -, mark, children, rfl⟩ := ht.tagged
    exact (targetOf_yields (.inl ht)).bind fun u _ => yields_pure rfl

/-- One result for each element of a list. -/
theorem Yields.mapM_forall₂ {α β : Type} {xs : List α} {f : α → LowerM β} {Q : α → β → Prop}
    (h : ∀ x ∈ xs, Yields (f x) (Q x)) : Yields (xs.mapM f) (List.Forall₂ Q xs) := by
  induction xs with
  | nil => exact yields_pure .nil
  | cons x xs ih =>
    obtain ⟨hx, hxs⟩ := List.forall_mem_cons.1 h
    rw [List.mapM_cons]
    exact hx.bind fun y hy => (ih hxs).bind fun ys hys => yields_pure (.cons hy hys)

/-- All targets stand side by side, and lists of them are still lists. -/
theorem targetsInOrder_yields {before after : List Raw}
    (hbefore : ∀ r ∈ before, Listable false r) (hr : Shaped (.optional (.target false)) r)
    (hafter : ∀ r ∈ after, Listable false r) :
    Yields (targetsInOrder before r after) fun t => ∃ ts star us,
      t = .bare "mlhs" (ts ++ star :: us) ∧ List.Forall₂ StaysOne before ts ∧
        star.hasTag "splat" ∧ List.Forall₂ StaysOne after us := by
  have hts := Yields.mapM_forall₂ fun r hr => lowerTarget_yields (hbefore r hr)
  have hus := Yields.mapM_forall₂ fun r hr => lowerTarget_yields (hafter r hr)
  refine hts.bind fun ts hts => (lowerSplat_yields hr).bind fun star hstar => ?_
  exact hus.bind fun us hus => yields_pure ⟨ts, star, us, rfl, hts, hstar, hus⟩

/-- If no target after the splat is a list, none is taken apart. -/
theorem targetsSpread_eq {before after : List Raw} (splat : Raw)
    (hafter : ∀ r ∈ after, Shaped (.target false) r) :
    targetsSpread before splat after = targetsInOrder before splat after := by
  refine bind_congr fun ts => bind_congr fun t => bind_congr_returned fun us hus => ?_
  have hone : us.flatMap listedTargets = us := by
    have hall : ∀ u ∈ us, listedTargets u = [u] := by
      intro u hu
      obtain ⟨r, hr, hu⟩ := returns_mapM hus u hu
      obtain ⟨t, ht, hu⟩ := returns_bind hu
      have htarget : Target t := ((sound_of_shaped (hafter r hr)).of_returns ht).1
      exact listedTargets_of_target htarget hu
    rw [List.flatMap_congr hall, List.flatMap_singleton']
  rw [hone]

end Targets

/-- The events for targets before a splat, the splat, and targets after it, which are
    added at once or one by one. Both give a raw tree. Lowering the first gives one
    child for each target, in the order of the source, and a list of targets in
    parentheses is one child. Lowering the second gives the same, unless there is a
    list after the splat: its targets take its place. -/
theorem targets_after_splat {b : Builder} {before after : List Item} {splat : Item}
    {rs us : List Raw} {r : Raw} (hbefore : before.mapM b.arena.freeze? = some rs)
    (hsplat : b.arena.freeze? splat = some r) (hafter : after.mapM b.arena.freeze? = some us)
    (hrs : ∀ x ∈ rs, Listable false x) (hr : Shaped (.optional (.target false)) r)
    (hus : ∀ x ∈ us, Listable false x) :
    ∃ atOnce oneByOne,
      BuildM.Builds (BuildM.targetsAtOnce before splat after) b atOnce ∧
      BuildM.Builds (BuildM.targetsOneByOne before splat after) b oneByOne ∧
      lower atOnce = targetsInOrder rs r us ∧
      lower oneByOne = targetsSpread rs r us ∧
      ((∀ x ∈ us, Shaped (.target false) x) → lower oneByOne = lower atOnce) ∧
      Yields (lower atOnce) fun t => ∃ ts star vs, t = .bare "mlhs" (ts ++ star :: vs) ∧
        List.Forall₂ StaysOne rs ts ∧ star.hasTag "splat" ∧ List.Forall₂ StaysOne us vs := by
  -- Items that can be frozen show what they are frozen to, which is what builders know.
  have hshows : ∀ {xs : List Item} {ys : List Raw}, xs.mapM b.arena.freeze? = some ys →
      List.Forall₂ (b.arena.Shows fun _ => True) ys xs := fun h =>
    (Arena.forall₂_of_mapM h).imp fun _ _ hx => Arena.shows_of_freezeAt hx
  have hstar := Arena.shows_of_freezeAt hsplat
  have hatOnce := lower_targetsAtOnce hrs r hus
  have honeByOne := lower_targetsOneByOne hrs r hus
  refine ⟨_, _, BuildM.builds_targetsAtOnce (hshows hbefore) hstar (hshows hafter),
    BuildM.builds_targetsOneByOne (hshows hbefore) hstar (hshows hafter), hatOnce, honeByOne,
    fun hplain => ?_, ?_⟩
  · rw [hatOnce, honeByOne, targetsSpread_eq r hplain]
  · rw [hatOnce]
    exact targetsInOrder_yields hrs hr hus

/-- A builder that has the targets `a`, `b` and `c`. -/
def threeTargets : Builder where
  filename := "(string)"
  line := 1
  arena := { lists := #[[.str "@ident", .str "a", .null], [.str "var_field", .list 0],
    [.str "@ident", .str "b", .null], [.str "var_field", .list 2],
    [.str "@ident", .str "c", .null], [.str "var_field", .list 4]] }

/-- The target of this name. -/
def namedTarget (name : String) : Raw :=
  node "var_field" [token "@ident" name .null]

theorem targets_after_splat_threeTargets :
    (∀ x ∈ [namedTarget "c"], Shaped (.target false) x) ∧ ∃ oneByOne,
      BuildM.Builds (BuildM.targetsOneByOne [.list 1] (.list 3) [.list 5]) threeTargets oneByOne ∧
      lower oneByOne =
        targetsInOrder [namedTarget "a"] (namedTarget "b") [namedTarget "c"] := by
  have htarget : ∀ name, Shaped (.target false) (namedTarget name) := fun name =>
    .varField .plainTarget
  have hitem : ∀ name, ∀ x ∈ [namedTarget name], Listable false x := fun name =>
    List.forall_mem_singleton.2 (.target (htarget name))
  have hplain : ∀ x ∈ [namedTarget "c"], Shaped (.target false) x :=
    List.forall_mem_singleton.2 (htarget "c")
  -- The table holds all three lists as the builder leaves them, so the rest is its reading.
  obtain ⟨atOnce, oneByOne, -, hbuilds, hatOnce, -, hequal, -⟩ :=
    @targets_after_splat threeTargets [.list 1] [.list 5] (.list 3) [namedTarget "a"]
      [namedTarget "c"] (namedTarget "b") rfl rfl rfl (hitem "a") (.present (htarget "b"))
      (hitem "c")
  exact ⟨hplain, oneByOne, hbuilds, (hequal hplain).trans hatOnce⟩

/-- The list of targets in `a, *b, (c, d)`. If the targets after the splat are added
    at once, the parenthesized one is a list of its own. If they are added one by one,
    the parentheses are lost, and `c` and `d` are taken for targets next to `a`. -/
theorem oneByOne_loses_parentheses :
    ((lower (Raw.targetsAtOnce [namedTarget "a"] (namedTarget "b")
      [node "mlhs_paren" [node "mlhs" [namedTarget "c", namedTarget "d"]]])).runIn {} {}).1.toOption
      = some (.bare "mlhs" [.bare "lvasgn" [.sym "a"],
          .bare "splat" [.bare "lvasgn" [.sym "b"]],
          .bare "mlhs" [.bare "lvasgn" [.sym "c"], .bare "lvasgn" [.sym "d"]]]) ∧
    ((lower (Raw.targetsOneByOne [namedTarget "a"] (namedTarget "b")
      [node "mlhs_paren" [node "mlhs" [namedTarget "c", namedTarget "d"]]])).runIn {} {}).1.toOption
      = some (.bare "mlhs" [.bare "lvasgn" [.sym "a"],
          .bare "splat" [.bare "lvasgn" [.sym "b"]],
          .bare "lvasgn" [.sym "c"], .bare "lvasgn" [.sym "d"]]) :=
  ⟨rfl, rfl⟩

end LowerM

end RubyTree
