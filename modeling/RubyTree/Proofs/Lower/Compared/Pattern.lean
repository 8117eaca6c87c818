import RubyTree.Proofs.Lower.Compared.Parameter

/-!
# Patterns in Two Runs

A pattern stays inside the node it starts in and visits everything else whole, so
patterns run in parallel by induction on their raw trees. The names they bind are
read off tokens, except that a key without a value is bound by the name that its
tree starts with.

## Theorems

* `Visited.lowerPattern`, `Visited.lowerGuarded`: Patterns.
* `Visited.lowerArrayPattern`, `Visited.lowerFindPattern`,
  `Visited.lowerHashPattern`: Patterns of parts.
* `Visited.lowerBinary`: Operators, among them those that are patterns.
-/

namespace RubyTree

open LowerM

namespace Change

variable {c : Change} {Q : Raw → Prop} {fs : Fields} {r : Raw} {t t' : Tree} {ts ts' : List Tree}

theorem parallel_bindName (name : String) {l l' : Option Raw} (hline : Option.Rel c.Lines l l') :
    c.Trees (bindName name l) (bindName name l') :=
  (parallel_bindLocal name).andThen fun _ _ _ =>
    parallel_pure (agree_placed hline (by decide) (.single (agree_leaf _)))

theorem parallel_matchVariable (h : c.Scanned r) :
    c.Trees (matchVariable (c.first r)) (matchVariable (c.second r)) := by
  unfold matchVariable
  rw [isNull_image, h.nameIn]
  split
  · exact parallel_pure (agree_bare (by decide) .nil)
  · refine (steady_nameIn _).parallel.andThen fun name _ hname => ?_
    subst hname
    exact parallel_bindName name h.line?

/-- Most nodes are patterns as they are. -/
theorem lowerPattern_of_hasTag {go : Visit}
    (h : ∀ tag ∈ ["binary", "var_field", "var_ref", "begin"], r.hasTag tag = false) :
    lowerPattern go r = go r := by
  unfold lowerPattern
  split
  · cases h "binary" (by decide)
  · cases h "var_field" (by decide)
  · cases h "var_ref" (by decide)
  · cases h "begin" (by decide)
  · rfl

theorem matchRest_variable (token : Raw) (rest : List Raw) :
    matchRest (.list (.str "var_field" :: token :: rest)) =
      if token.isNull then pure (.bare "match_rest" [])
      else do return .bare "match_rest" [← matchVariable token] := by
  change (if !token.isNull then (do return Tree.bare "match_rest" [← matchVariable token])
    else pure (Tree.bare "match_rest" [])) = _
  cases token.isNull with
  | false => rfl
  | true => rfl

theorem refusesRest_relocate {line : Bool → Raw → Raw} (r : Raw) :
    refusesRest (Raw.relocate line r) = refusesRest r := by
  by_cases htag : r.hasTag "var_field"
  · obtain ⟨fields, rfl⟩ := Raw.eq_of_hasTag htag
    rw [Raw.relocate_node, show Raw.positionField? "var_field" = none from rfl,
      Raw.relocateItems_none]
    cases fields with
    | nil => rfl
    | cons token rest => exact Raw.isText_relocate "nil" token
  · -- Elsewhere the tag alone decides.
    cases r with
    | atom a => rw [Raw.relocate_atom]
    | list items =>
      have hother : ∀ {items : List Raw}, (Raw.list items).hasTag "var_field" = false →
          refusesRest (.list items) = (Raw.list items).hasTag "nokw_param" := by
        intro items hitems
        unfold refusesRest
        split
        · cases ‹Raw.list _ = _›
        · cases ‹Raw.list _ = _›
          cases hitems
        · rfl
      have hfalse : (Raw.list items).hasTag "var_field" = false := by simpa using htag
      have hsame : (Raw.relocate line (.list items)).hasTag "nokw_param" = _ :=
        Raw.hasTag_relocate _ _
      have hrelocated : (Raw.relocate line (.list items)).hasTag "var_field" = false :=
        (Raw.hasTag_relocate _ _).trans hfalse
      rw [Raw.relocate] at hsame hrelocated ⊢
      rw [hother hrelocated, hother hfalse, hsame]

theorem lowerGuarded_node {go : Visit} {tag word : String} {fs : Fields}
    (h : guardTag? (.list (.str tag :: fs)) = some word) :
    lowerGuarded go (.list (.str tag :: fs)) = do
      let t ← lowerPattern go (fs.get 1)
      return (t, .bare word [← go (fs.get 0)]) := by
  have hitem : ∀ i, ((Raw.list (.str tag :: fs)).item? (i + 1)).getD .null = fs.get i := by
    intro i
    simp [Raw.item?, Raw.elements?, Fields.get]
  unfold lowerGuarded
  rw [h, hitem, hitem]

theorem guardTag?_eq_none (hif : r.hasTag "if_mod" = false)
    (hunless : r.hasTag "unless_mod" = false) : guardTag? r = none := by
  unfold guardTag?
  split
  · cases hif
  · cases hunless
  · rfl

namespace Visited

/-- A pattern stays inside the node it starts in: the two sides of an alternative
    are fields of it, and everything else is visited whole. -/
theorem lowerPattern (h : c.Visited Q) (r : Raw) (hr : Q r) :
    c.Trees (lowerPattern lower (c.first r)) (lowerPattern lower (c.second r)) := by
  have hfirst : ∀ (op : Raw) (text : String), (c.first op).isText text = op.isText text :=
    fun op text => Raw.isText_relocate text op
  have hsecond : ∀ (op : Raw) (text : String), (c.second op).isText text = op.isText text :=
    fun op text => Raw.isText_relocate text op
  have hvisit := h.visit hr
  -- By the recursion of the function, which goes into alternatives only.
  induction r using LowerM.lowerPattern.induct lower with
  | case1 => exact parallel_throw _
  | case2 head => exact parallel_throw _
  | case3 left op hop ih =>
    have hleft : Q left := h.item hr (by simp only [List.mem_cons, true_or, or_true])
    rw [first_node rfl, second_node rfl]
    simp only [List.map_cons, List.map_nil, LowerM.lowerPattern, hfirst, hsecond, hop, if_true]
    exact (ih hleft (h.visit hleft)).andThen fun _ _ _ => parallel_throw _
  | case4 left op hop =>
    rw [first_node rfl, second_node rfl] at hvisit ⊢
    simp only [List.map_cons, List.map_nil, LowerM.lowerPattern, hfirst, hsecond, hop,
      Bool.false_eq_true, if_false] at hvisit ⊢
    exact hvisit
  | case5 left op right tail hop ihl ihr =>
    have hleft : Q left := h.item hr (by simp only [List.mem_cons, true_or, or_true])
    have hright : Q right := h.item hr (by simp only [List.mem_cons, true_or, or_true])
    rw [first_node rfl, second_node rfl]
    simp only [List.map_cons, LowerM.lowerPattern, hfirst, hsecond, hop, if_true]
    refine (ihl hleft (h.visit hleft)).andThen fun _ _ ht => ?_
    exact (ihr hright (h.visit hright)).map fun _ _ hu => agree_bare (by decide) (.pair ht hu)
  | case6 left op right tail hbar hop ihl ihr =>
    have hleft : Q left := h.item hr (by simp only [List.mem_cons, true_or, or_true])
    have hright : Q right := h.item hr (by simp only [List.mem_cons, true_or, or_true])
    rw [first_node rfl, second_node rfl]
    simp only [List.map_cons, LowerM.lowerPattern, hfirst, hsecond, hbar, hop, Bool.false_eq_true,
      if_false, if_true]
    refine (ihl hleft (h.visit hleft)).andThen fun _ _ ht => ?_
    exact (ihr hright (h.visit hright)).map fun _ _ hu => agree_bare (by decide) (.pair ht hu)
  | case7 left op right tail hbar hop =>
    rw [first_node rfl, second_node rfl] at hvisit ⊢
    simp only [List.map_cons, LowerM.lowerPattern, hfirst, hsecond, hbar, hop,
      Bool.false_eq_true, if_false] at hvisit ⊢
    exact hvisit
  | case8 fields =>
    rw [first_node rfl, second_node rfl, LowerM.lowerPattern, LowerM.lowerPattern]
    change c.Trees (matchVariable (Fields.get _ 0)) (matchVariable (Fields.get _ 0))
    rw [get_first, get_second]
    exact parallel_matchVariable ((h.fits hr).variableName rfl)
  | case9 fields =>
    rw [first_node rfl, second_node rfl] at hvisit ⊢
    rw [LowerM.lowerPattern, LowerM.lowerPattern]
    refine hvisit.andThen fun t t' ht => ?_
    have hpinned : ["block", "numblock"].all (!pinnable.contains ·) := by decide
    have hpin := (parallel_isAmong hpinned ht).andThen (Q := c.Agree)
      (f := fun pinned => if pinned then pure (Tree.bare "pin" [t]) else pure t)
      (g := fun pinned => if pinned then pure (Tree.bare "pin" [t']) else pure t')
      fun pinned _ hpinned => by
        subst hpinned
        split
        · exact parallel_pure (agree_bare (by decide) (.single ht))
        · exact parallel_pure ht
    simpa only [bind_assoc] using hpin
  | case10 fields =>
    have hplace : Raw.positionField? "begin" = some 1 := rfl
    rw [first, second, Raw.relocate_node, Raw.relocate_node, hplace] at hvisit ⊢
    rw [LowerM.lowerPattern, LowerM.lowerPattern]
    exact hvisit.map fun _ _ ht => agree_bare (by decide) (.single ht)
  | case11 r hbinary hfield hvar hbegin =>
    have htags : ∀ tag ∈ ["binary", "var_field", "var_ref", "begin"], r.hasTag tag = false := by
      intro tag htag
      by_contra hr
      obtain ⟨fields, rfl⟩ := Raw.eq_of_hasTag (by simpa using hr)
      simp only [List.mem_cons, List.not_mem_nil, or_false] at htag
      rcases htag with rfl | rfl | rfl | rfl
      · exact hbinary fields rfl
      · exact hfield fields rfl
      · exact hvar fields rfl
      · exact hbegin fields rfl
    have hrelocated : ∀ line : Bool → Raw → Raw,
        LowerM.lowerPattern lower (Raw.relocate line r) = lower (Raw.relocate line r) := fun line =>
      lowerPattern_of_hasTag fun tag htag => (Raw.hasTag_relocate tag r).trans (htags tag htag)
    rw [first, second, hrelocated, hrelocated]
    exact hvisit

theorem patterns (h : c.Visited Q) (hr : Q r) :
    c.TreeLists (patterns lower (c.first r)) (patterns lower (c.second r)) := by
  refine h.overElements hr (fun x _ hx => h.lowerPattern x hx) fun text u htext hu => ?_
  rw [lowerPattern_of_hasTag fun tag _ => rfl, lower_str htext] at hu
  exact not_returns_throw hu

theorem withConstant (h : c.Visited Q) (hr : Q r) (ht : c.Agree t t') :
    c.Trees (withConstant lower (c.first r) t) (withConstant lower (c.second r) t') := by
  unfold LowerM.withConstant
  rw [isNull_image]
  split
  · exact parallel_pure ht
  · exact (h.visit hr).map fun _ _ hconst => agree_bare (by decide) (.pair hconst ht)

theorem matchRest (h : c.Visited Q) (hr : Q r) :
    c.Trees (matchRest (c.first r)) (matchRest (c.second r)) := by
  by_cases htag : r.hasTag "var_field"
  · obtain ⟨fields, rfl⟩ := Raw.eq_of_hasTag htag
    have hname := (h.fits hr).variableName rfl
    rw [first_node rfl, second_node rfl]
    -- The name may be missing, but then it is missing in both.
    cases fields with
    | nil => exact parallel_throw _
    | cons token rest =>
      rw [List.map_cons, List.map_cons, matchRest_variable, matchRest_variable, isNull_image]
      split
      · exact parallel_pure (agree_bare (by decide) .nil)
      · exact (parallel_matchVariable hname).map fun _ _ ht => agree_bare (by decide) (.single ht)
  · unfold LowerM.matchRest
    rw [first, second, Raw.hasTag_relocate, Raw.hasTag_relocate, if_neg htag, if_neg htag]
    exact parallel_pure (agree_bare (by decide) .nil)

theorem lowerArrayPattern (h : c.Visited Q) (hfs : fs.Within Q) :
    c.Trees (lowerArrayPattern lower (fs.map c.first))
      (lowerArrayPattern lower (fs.map c.second)) := by
  -- What follows is the same whether there is a splat or not.
  have hafter : ∀ {ts ts' us us' : List Tree}, c.AgreeAll ts ts' → c.AgreeAll us us' →
      c.Trees (do
          let after ← LowerM.patterns lower (c.first (fs.get 3))
          LowerM.withConstant lower (c.first (fs.get 0))
            (.bare "array_pattern" (ts ++ us ++ after)))
        (do
          let after ← LowerM.patterns lower (c.second (fs.get 3))
          LowerM.withConstant lower (c.second (fs.get 0))
            (.bare "array_pattern" (ts' ++ us' ++ after))) := by
    intro ts ts' us us' hts hus
    refine (h.patterns (h.get hfs 3)).andThen fun vs vs' hvs => ?_
    exact h.withConstant (h.get hfs 0) (agree_bare (by decide) ((hts.append hus).append hvs))
  unfold LowerM.lowerArrayPattern
  simp only [get_first, get_second]
  refine (h.patterns (h.get hfs 1)).andThen fun ts ts' hts => ?_
  rw [isNull_image]
  split
  · exact hafter hts .nil
  · simp only [pure_bind]
    exact (h.matchRest (h.get hfs 2)).andThen fun _ _ hrest => hafter hts (.single hrest)

theorem lowerFindPattern (h : c.Visited Q) (hfs : fs.Within Q) :
    c.Trees (lowerFindPattern lower (fs.map c.first))
      (lowerFindPattern lower (fs.map c.second)) := by
  unfold LowerM.lowerFindPattern
  simp only [get_first, get_second]
  refine (h.matchRest (h.get hfs 1)).andThen fun t t' ht => ?_
  refine (h.patterns (h.get hfs 2)).andThen fun us us' hus => ?_
  refine (h.matchRest (h.get hfs 3)).andThen fun v v' hv => ?_
  exact h.withConstant (h.get hfs 0)
    (agree_bare (by decide) (AgreeAll.append (.cons ht hus) (.single hv)))

theorem pairPattern (h : c.Visited Q) (hr : Q r)
    (hspells : ∀ key value, r.pair? = some (key, value) → value.isNull →
      c.Spells (fun _ => True) key) :
    c.Trees (pairPattern lower (c.first r)) (pairPattern lower (c.second r)) := by
  unfold LowerM.pairPattern
  obtain ⟨-, hfirst, hsecond⟩ | ⟨key, value, hpair, helements, hparts⟩ := pair_images (c := c) r
  · rw [hfirst, hsecond]
    exact parallel_throw _
  · obtain ⟨hkey, hvalue⟩ := h.both hr helements
    obtain ⟨hfirst, hsecond⟩ | ⟨⟨tag, rfl, htag⟩, here, hfirst, hsecond⟩ := hparts
    · rw [hfirst, hsecond]
      refine (h.visit hkey).bind fun t t' ht hret hret' => ?_
      rw [isNull_image]
      split
      · rename_i habsent
        rw [first, Raw.isNull_relocate] at habsent
        rw [firstChild_eq, firstChild_eq]
        refine (parallel_require ht.firstChild).bind fun n n' hn hnret hnret' => ?_
        -- A key without a value is read as the name it binds.
        have hlegible := (hspells key value hpair habsent).legible trivial trivial hret hret'
          (returns_require hnret) (returns_require hnret') hn
        rw [hn.nameFrom hlegible]
        refine (steady_nameFrom _).parallel.andThen fun name _ hname => ?_
        subst hname
        exact parallel_bindName name ht.line?
      · exact (h.lowerPattern value hvalue).map fun _ _ hu =>
          agree_bare (by decide) (.pair ht hu)
    · rw [hfirst, hsecond]
      change c.Trees (do let key ← lower (.str tag); _) (do let key ← lower (.str tag); _)
      rw [lower_str htag]
      exact parallel_throw _

theorem lowerHashPattern (h : c.Visited Q) (hfs : fs.Within Q)
    (hspells : ∀ key ∈ ((fs.get 1).elements?.getD []).filterMap (fun r =>
      r.pair?.bind fun (key, value) => if value.isNull then some key else none),
      c.Spells (fun _ => True) key) :
    c.Trees (lowerHashPattern lower (fs.map c.first))
      (lowerHashPattern lower (fs.map c.second)) := by
  have hpairs : c.TreeLists
      (do (← elementsOf (c.first (fs.get 1))).mapM (LowerM.pairPattern lower))
      (do (← elementsOf (c.second (fs.get 1))).mapM (LowerM.pairPattern lower)) := by
    refine h.overElements (h.get hfs 1) (fun x hx hQ => h.pairPattern hQ ?_) fun text u _ hu => ?_
    · intro key value hpair hvalue
      refine hspells key (List.mem_filterMap.2 ⟨x, hx, ?_⟩)
      rw [hpair]
      exact if_pos hvalue
    · -- A text that is taken for a pair has a letter for its key, which is not lowered.
      unfold LowerM.pairPattern at hu
      obtain ⟨⟨key, value⟩, hpair, hu⟩ := returns_bind hu
      obtain ⟨v, hv, -⟩ := returns_bind hu
      obtain ⟨⟨ch, rfl⟩, -⟩ := characters_of_pair (returns_require hpair)
      rw [lower_str (by simp [Char.toString])] at hv
      exact not_returns_throw hv
  have hafter : ∀ {ts ts' us us' : List Tree}, c.AgreeAll ts ts' → c.AgreeAll us us' →
      c.Trees (LowerM.withConstant lower (c.first (fs.get 0)) (.bare "hash_pattern" (ts ++ us)))
        (LowerM.withConstant lower (c.second (fs.get 0)) (.bare "hash_pattern" (ts' ++ us'))) :=
    fun hts hus => h.withConstant (h.get hfs 0) (agree_bare (by decide) (hts.append hus))
  -- Whether a rest is refused is read off the raw field, on which lines have no bearing.
  have hrefuses : refusesRest (c.second (fs.get 2)) = refusesRest (c.first (fs.get 2)) := by
    rw [first, second, refusesRest_relocate, refusesRest_relocate]
  unfold LowerM.lowerHashPattern
  simp only [get_first, get_second]
  refine hpairs.assoc fun ts ts' hts => ?_
  rw [hrefuses, isNull_image]
  split
  · exact hafter hts (.single (agree_bare (by decide) .nil))
  · split
    · exact hafter hts .nil
    · simp only [pure_bind]
      exact (h.matchRest (h.get hfs 2)).andThen fun _ _ hrest => hafter hts (.single hrest)

theorem lowerGuarded (h : c.Visited Q) (hr : Q r) :
    c.Parallel (fun p q => c.Agree p.1 q.1 ∧ c.Agree p.2 q.2) (lowerGuarded lower (c.first r))
      (lowerGuarded lower (c.second r)) := by
  -- The two words for a guard differ only in the tag of the guard.
  have hguard : ∀ {fs : Fields} {word : String}, fs.Within Q → word ∉ lookedInto →
      c.Parallel (fun p q => c.Agree p.1 q.1 ∧ c.Agree p.2 q.2)
        (do
          let t ← LowerM.lowerPattern lower (Fields.get (fs.map c.first) 1)
          return (t, .bare word [← lower (Fields.get (fs.map c.first) 0)]))
        (do
          let t ← LowerM.lowerPattern lower (Fields.get (fs.map c.second) 1)
          return (t, .bare word [← lower (Fields.get (fs.map c.second) 0)])) := by
    intro fs word hfs hword
    rw [get_first, get_second]
    refine (h.lowerPattern _ (h.get hfs 1)).andThen fun t t' ht => ?_
    exact (h.field hfs 0).map fun _ _ hu => ⟨ht, agree_bare hword (.single hu)⟩
  by_cases hif : r.hasTag "if_mod"
  · obtain ⟨fs, rfl⟩ := Raw.eq_of_hasTag hif
    rw [first_node rfl, second_node rfl, lowerGuarded_node rfl, lowerGuarded_node rfl]
    exact hguard (h.within hr) (by decide)
  by_cases hunless : r.hasTag "unless_mod"
  · obtain ⟨fs, rfl⟩ := Raw.eq_of_hasTag hunless
    rw [first_node rfl, second_node rfl, lowerGuarded_node rfl, lowerGuarded_node rfl]
    exact hguard (h.within hr) (by decide)
  · -- The tag stays, so there is a guard in both programs or in neither.
    have hnone : ∀ line : Bool → Raw → Raw, guardTag? (Raw.relocate line r) = none := by
      intro line
      refine guardTag?_eq_none ?_ ?_
      · rw [Raw.hasTag_relocate]
        simpa using hif
      · rw [Raw.hasTag_relocate]
        simpa using hunless
    unfold LowerM.lowerGuarded
    rw [first, second, hnone, hnone]
    exact (h.lowerPattern r hr).map fun _ _ ht => ⟨ht, agree_leaf _⟩

theorem lowerBinary (h : c.Visited Q) (hfs : fs.Within Q) :
    c.Trees (lowerBinary lower (fs.map c.first)) (lowerBinary lower (fs.map c.second)) := by
  have hlogical : ∀ {op : Option String} {tag : String}, op.bind logicalTag? = some tag →
      tag ∉ lookedInto := by
    intro op tag htag
    obtain ⟨op, -, htag⟩ := Option.bind_eq_some_iff.1 htag
    unfold logicalTag? at htag
    -- Neither of the two tags is looked into.
    split at htag
    all_goals cases htag
    all_goals decide
  unfold LowerM.lowerBinary
  rw [get_first, get_second, get_first, get_second, get_first, get_second]
  refine (parallel_operatorOf _).andThen fun op _ hop => ?_
  subst hop
  split
  · refine (h.visit (h.get hfs 0)).andThen fun t t' ht => ?_
    exact (h.visit (h.get hfs 2)).andThen fun u u' hu => parallel_lowerMatch ht hu
  · split
    · rename_i tag htag
      refine (h.visit (h.get hfs 0)).andThen fun t t' ht => ?_
      exact (h.visit (h.get hfs 2)).map fun u u' hu => agree_bare (hlogical htag) (.pair ht hu)
    · split
      · refine (h.lowerPattern _ (h.get hfs 0)).andThen fun t t' ht => ?_
        exact (h.lowerPattern _ (h.get hfs 2)).map fun u u' hu =>
          agree_bare (by decide) (.pair ht hu)
      · refine (h.visit (h.get hfs 0)).andThen fun t t' ht => ?_
        exact (h.visit (h.get hfs 2)).map fun u u' hu =>
          agree_bare (by decide) (.triple ht (agree_leaf _) hu)

end Visited

end Change

end RubyTree
