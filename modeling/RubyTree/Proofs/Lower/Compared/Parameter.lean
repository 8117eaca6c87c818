import RubyTree.Proofs.Lower.Compared.Target

/-!
# Parameters in Two Runs

A parameter is rebuilt from a lowered value, and its name is a child that is
handed on, so parameter lists run in parallel. A default is what stands second in
a pair; should the pair be a node with nothing but a position, then what stands
second is the position, which cannot be lowered in either program.

The name of a double-splat parameter is kept in the scope without its lines, and
all that is asked of it is which names are the same.

## Main definitions

* `Change.restOf?`: The name in a double-splat parameter.

## Theorems

* `parallel_asParameter`: A value as a parameter.
* `pair_images`: The two parts of a pair.
* `Visited.lowerParams`, `Visited.lowerBlockParams`: Parameter lists.
* `sameNames_restName`: The name of a double-splat parameter.
-/

namespace RubyTree

open LowerM

namespace Change

variable {c : Change} {Q : Raw → Prop} {fs : Fields} {r : Raw} {t t' : Tree} {ts ts' : List Tree}

section Parameters

theorem parallel_splatParameter {tag : String} (htag : tag ∉ lookedInto) (h : c.AgreeAll ts ts') :
    c.Trees (splatParameter tag ts) (splatParameter tag ts') := by
  cases h with
  | nil => exact parallel_pure (agree_bare htag .nil)
  | @cons t t' ts ts' ht _ =>
    unfold splatParameter
    split
    · cases ‹_ :: _ = []›
    · rename_i heq
      cases heq
      -- Nothing but absence agrees with an absent name, so both splats have none.
      cases ht.of_null
      exact parallel_pure (agree_bare htag .nil)
    · rename_i hnull heq
      cases heq
      split
      · cases ‹_ :: _ = []›
      · rename_i heq
        cases heq
        exact (hnull ht.to_null).elim
      · rename_i heq
        cases heq
        exact (parallel_firstChild ht).map fun _ _ hu => agree_placed ht.line? htag (.single hu)

/-- A parameter that needs no rebuilding. -/
theorem asParameter_of_ne {tag : Raw} {mark : Mark}
    (h : ∀ word ∈ ["lvar", "lvasgn", "mlhs", "splat", "kwsplat", "forwarded_args"],
      tag ≠ .str word) : asParameter (.node tag mark ts) = pure (.node tag mark ts) := by
  unfold asParameter
  split
  · cases ‹Tree.node _ _ _ = _›
  all_goals cases ‹Tree.node _ _ _ = _›
  · exact absurd rfl (h "lvar" (by decide))
  · exact absurd rfl (h "lvasgn" (by decide))
  · exact absurd rfl (h "mlhs" (by decide))
  · exact absurd rfl (h "splat" (by decide))
  · exact absurd rfl (h "kwsplat" (by decide))
  · exact absurd rfl (h "forwarded_args" (by decide))
  · rfl

/-- One step of rebuilding, given that it works for the targets in a list. -/
theorem parallel_asParameter_step (h : c.Agree t t')
    (hlist : ∀ ts ts', t.children? = some ts → c.AgreeAll ts ts' →
      c.TreeLists (asParameters ts) (asParameters ts')) :
    c.Trees (asParameter t) (asParameter t') := by
  cases h with
  | leaf _ => exact parallel_throw _
  | block hc hmark hcall hbody hts => exact parallel_pure (.block hc hmark hcall hbody hts)
  | @node tag mark mark' ts ts' hmark hkept hts =>
    have hargument : c.Trees (do return .placed mark.line "arg" [← require ts.head?])
        (do return .placed mark'.line "arg" [← require ts'.head?]) :=
      (parallel_require (AgreeAll.head? hts)).map fun _ _ hu =>
        agree_placed hmark.line (by decide) (.single hu)
    -- Only six kinds of node are rebuilt.
    by_cases htag : ∃ word ∈ ["lvar", "lvasgn", "mlhs", "splat", "kwsplat", "forwarded_args"],
        tag = .str word
    · obtain ⟨word, hword, rfl⟩ := htag
      unfold asParameter
      simp only [List.mem_cons, List.not_mem_nil, or_false] at hword
      rcases hword with rfl | rfl | rfl | rfl | rfl | rfl
      · exact hargument
      · exact hargument
      · exact (hlist ts ts' rfl hts).map fun _ _ hus => agree_placed hmark.line (by decide) hus
      · exact parallel_splatParameter (by decide) hts
      · exact parallel_splatParameter (by decide) hts
      · exact parallel_pure (agree_bare (by decide) .nil)
    · have hne : ∀ word ∈ ["lvar", "lvasgn", "mlhs", "splat", "kwsplat", "forwarded_args"],
          tag ≠ .str word := fun word hword heq => htag ⟨word, hword, heq⟩
      rw [asParameter_of_ne hne, asParameter_of_ne hne]
      exact parallel_pure (.node hmark hkept hts)

mutual

theorem parallel_asParameter : (t : Tree) → {t' : Tree} → c.Agree t t' →
    c.Trees (asParameter t) (asParameter t')
  | .leaf _, _, h => parallel_asParameter_step h fun _ _ hts => by cases hts
  | .node _ _ ts, _, h => parallel_asParameter_step h fun _ _ hts hts' => by
    cases hts
    exact parallel_asParameters ts hts'

theorem parallel_asParameters : (ts : List Tree) → {ts' : List Tree} → c.AgreeAll ts ts' →
    c.TreeLists (asParameters ts) (asParameters ts')
  | [], _, .nil => parallel_pure .nil
  | t :: ts, _, .cons h hs => by
    rw [asParameters, asParameters]
    exact (parallel_asParameter t h).andThen fun _ _ ht =>
      (parallel_asParameters ts hs).map fun _ _ hts => .cons ht hts

end

/-- The two parts of a pair in the two programs. The second part is a position if
    the pair is in fact a node with nothing but a position. -/
theorem pair_images (r : Raw) :
    r.pair? = none ∧ (c.first r).pair? = none ∧ (c.second r).pair? = none ∨
      ∃ a b, r.pair? = some (a, b) ∧ r.elements? = some [a, b] ∧
        ((c.first r).pair? = some (c.first a, c.first b) ∧
            (c.second r).pair? = some (c.second a, c.second b) ∨
          (∃ tag, a = .str tag ∧ tag ≠ "") ∧ ∃ here,
            (c.first r).pair? = some (a, (c.first b).reline (c.firstLine here)) ∧
            (c.second r).pair? = some (a, (c.second b).reline (c.secondLine here))) := by
  have hlength : ∀ {items : List Raw}, items.length ≠ 2 → (Raw.list items).pair? = none := by
    intro items h
    unfold Raw.pair?
    split
    · rename_i heq
      cases heq
      exact absurd rfl h
    · rfl
  unfold first second
  cases r with
  | atom a =>
    rw [Raw.relocate_atom, Raw.relocate_atom]
    unfold Raw.pair?
    split
    · rename_i x y hxy
      obtain ⟨x, rfl⟩ := Raw.exists_atom_of_mem hxy List.mem_cons_self
      obtain ⟨y, rfl⟩ := Raw.exists_atom_of_mem hxy (List.mem_cons_of_mem _ List.mem_cons_self)
      refine .inr ⟨_, _, rfl, hxy, .inl ?_⟩
      simp only [Raw.relocate_atom, and_self]
    · exact .inl ⟨rfl, rfl, rfl⟩
  | list items =>
    by_cases htwo : items.length = 2
    · obtain ⟨a, b, rfl⟩ := List.length_eq_two.1 htwo
      cases htag : (Raw.list [a, b]).tag? with
      | none =>
        rw [Raw.relocate_untagged htag, Raw.relocate_untagged htag]
        exact .inr ⟨a, b, rfl, rfl, .inl ⟨rfl, rfl⟩⟩
      | some word =>
        -- A node of two items can have its position in the second one.
        match a, htag with
        | .str tag, _ =>
          rw [Raw.relocate_node, Raw.relocate_node]
          cases hplace : Raw.positionField? tag with
          | none =>
            refine .inr ⟨_, b, rfl, rfl, .inl ?_⟩
            simp only [Raw.relocateItems, Raw.relocate_atom]
            exact ⟨rfl, rfl⟩
          | some place =>
            cases place with
            | zero =>
              have hnil : tag ≠ "" := by
                rintro rfl
                cases hplace
              refine .inr ⟨_, b, rfl, rfl, .inr ⟨⟨tag, rfl, hnil⟩, ?_⟩⟩
              refine ⟨Raw.isLineWord [.str tag, b], ?_⟩
              simp only [Raw.relocateItems]
              exact ⟨rfl, rfl⟩
            | succ place =>
              refine .inr ⟨_, b, rfl, rfl, .inl ?_⟩
              simp only [Raw.relocateItems, Raw.relocate_atom]
              exact ⟨rfl, rfl⟩
    · have hfirst : ∀ line : Bool → Raw → Raw, (Raw.relocate line (.list items)).pair? = none := by
        intro line
        rw [Raw.relocate]
        exact hlength (by rwa [Raw.length_relocateItems])
      exact .inl ⟨hlength htwo, hfirst _, hfirst _⟩

theorem isExtraComma_relocate {line : Bool → Raw → Raw} (r : Raw) :
    isExtraComma (Raw.relocate line r) = isExtraComma r := by
  cases r with
  | atom a => rw [Raw.relocate_atom]
  | list items =>
    have htag : (Raw.relocate line (.list items)).hasTag "excessed_comma" =
        (Raw.list items).hasTag "excessed_comma" := Raw.hasTag_relocate _ _
    rw [Raw.relocate] at htag ⊢
    exact htag

theorem isEmpty_reline (f : Raw → Raw) : (r : Raw) → (r.reline f).isEmpty = r.isEmpty
  | .atom _ => rfl
  | .list [] => rfl
  | .list (_ :: _) => rfl

/-- A text that is a pair has two characters. -/
theorem characters_of_pair {text : String} {a b : Raw} (h : (Raw.str text).pair? = some (a, b)) :
    (∃ ch : Char, a = .str ch.toString) ∧ ∃ ch : Char, b = .str ch.toString := by
  unfold Raw.pair? at h
  split at h
  · rename_i x y hxy
    cases h
    have hchars : (text.toList.map fun ch => Raw.str ch.toString) = [a, b] := Option.some.inj hxy
    have hmem : ∀ z ∈ [a, b], ∃ ch : Char, z = .str ch.toString := by
      intro z hz
      rw [← hchars] at hz
      obtain ⟨ch, -, rfl⟩ := List.mem_map.1 hz
      exact ⟨ch, rfl⟩
    exact ⟨hmem a List.mem_cons_self, hmem b (List.mem_cons_of_mem _ List.mem_cons_self)⟩
  · cases h

theorem not_returns_optional {text : String} (h : Returns (LowerM.optional lower (.str text)) t) :
    False := by
  unfold LowerM.optional at h
  obtain ⟨⟨name, value⟩, hpair, h⟩ := returns_bind h
  obtain ⟨symbol, -, h⟩ := returns_bind h
  obtain ⟨v, hv, -⟩ := returns_bind h
  obtain ⟨-, ch, rfl⟩ := characters_of_pair (returns_require hpair)
  rw [lower_str (by simp [Char.toString])] at hv
  exact not_returns_throw hv

theorem not_returns_keyword {text : String} (h : Returns (keyword lower (.str text)) t) :
    False := by
  unfold keyword at h
  obtain ⟨⟨label, value⟩, hpair, h⟩ := returns_bind h
  obtain ⟨token, htoken, -⟩ := returns_bind h
  obtain ⟨⟨ch, rfl⟩, -⟩ := characters_of_pair (returns_require hpair)
  have hitem := returns_require htoken
  simp [Raw.item?, Raw.elements?, Atom.text?, Char.toString] at hitem

namespace Visited

theorem positional (h : c.Visited Q) (hr : Q r) :
    c.TreeLists (positional lower (c.first r)) (positional lower (c.second r)) := by
  refine h.overElements hr (fun x _ hx => ?_) fun text u htext hu => ?_
  · exact (h.visit hx).andThen fun t t' ht => parallel_asParameter t ht
  · rw [lower_str htext] at hu
    obtain ⟨_, hthrow, -⟩ := returns_bind hu
    exact not_returns_throw hthrow

theorem both (h : c.Visited Q) (hr : Q r) {a b : Raw} (hpair : r.elements? = some [a, b]) :
    Q a ∧ Q b := by
  cases r with
  | atom w =>
    obtain ⟨x, rfl⟩ := Raw.exists_atom_of_mem hpair List.mem_cons_self
    obtain ⟨y, rfl⟩ := Raw.exists_atom_of_mem hpair (List.mem_cons_of_mem _ List.mem_cons_self)
    exact ⟨h.atom x, h.atom y⟩
  | list items =>
    cases hpair
    exact ⟨h.item hr List.mem_cons_self, h.item hr (List.mem_cons_of_mem _ List.mem_cons_self)⟩

/-- The value of a pair, which is lowered in parallel even if it is a position. -/
theorem pair (h : c.Visited Q) (hr : Q r) {R : Raw × Raw → Raw × Raw → Prop}
    (himages : ∀ a b v v', r.pair? = some (a, b) → Q a → v.isEmpty = v'.isEmpty →
      c.Trees (lower v) (lower v') → R (c.first a, v) (c.second a, v')) :
    Option.Rel R (c.first r).pair? (c.second r).pair? := by
  obtain ⟨-, hfirst, hsecond⟩ | ⟨a, b, hpair, helements, hparts⟩ := pair_images (c := c) r
  · rw [hfirst, hsecond]
    exact .none
  · obtain ⟨ha, hb⟩ := h.both hr helements
    obtain ⟨hfirst, hsecond⟩ | ⟨⟨tag, rfl, -⟩, here, hfirst, hsecond⟩ := hparts
    · rw [hfirst, hsecond]
      exact .some (himages a b _ _ hpair ha (isEmpty_image b).symm (h.visit hb))
    · rw [hfirst, hsecond]
      -- Then the second part is lowered as the position that it is.
      have hplace := himages _ b _ _ hpair ha ?_ (h.place hb here)
      · rw [first_atom, second_atom] at hplace
        exact .some hplace
      · rw [isEmpty_reline, isEmpty_reline, isEmpty_image]

theorem optional (h : c.Visited Q) (hr : Q r)
    (hname : ∀ name, r.pair?.map Prod.fst = some name → c.Scanned name) :
    c.Trees (LowerM.optional lower (c.first r)) (LowerM.optional lower (c.second r)) := by
  have hpair := h.pair hr (R := fun p q => ∃ a, c.Scanned a ∧ p.1 = c.first a ∧ q.1 = c.second a ∧
    c.Trees (lower p.2) (lower q.2)) fun a b v v' hab _ _ hv =>
      ⟨a, hname a (by rw [hab]; rfl), rfl, rfl, hv⟩
  unfold LowerM.optional
  refine (parallel_require hpair).andThen fun p q hpq => ?_
  obtain ⟨name, value⟩ := p
  obtain ⟨name', value'⟩ := q
  obtain ⟨a, ha, rfl, rfl, hvalue⟩ := hpq
  dsimp only
  rw [ha.nameOf]
  refine (steady_nameOf _).parallel.andThen fun n _ hn => ?_
  subst hn
  exact hvalue.map fun _ _ hv => agree_placed ha.line? (by decide) (.pair (agree_leaf _) hv)

theorem keyword (h : c.Visited Q) (hr : Q r)
    (hname : ∀ name, r.pair?.map Prod.fst = some name → c.Scanned name) :
    c.Trees (LowerM.keyword lower (c.first r)) (LowerM.keyword lower (c.second r)) := by
  -- A pair is taken apart alike in both programs, and only its value is lowered.
  have hpair := h.pair hr (R := fun p q => ∃ a, c.Scanned a ∧ p.1 = c.first a ∧ q.1 = c.second a ∧
    p.2.isEmpty = q.2.isEmpty ∧ c.Trees (lower p.2) (lower q.2)) fun a b v v' hab _ hempty hv =>
      ⟨a, hname a (by rw [hab]; rfl), rfl, rfl, hempty, hv⟩
  unfold LowerM.keyword
  refine (parallel_require hpair).andThen fun p q hpq => ?_
  obtain ⟨label, value⟩ := p
  obtain ⟨label', value'⟩ := q
  obtain ⟨a, ha, rfl, rfl, hempty, hvalue⟩ := hpq
  dsimp only at hempty ⊢
  rw [ha.item?, hempty]
  refine (steady_require _).parallel.andThen fun token _ htoken => ?_
  subst htoken
  refine (steady_clippedName _).parallel.andThen fun n _ hn => ?_
  subst hn
  split
  · exact parallel_pure (agree_placed ha.line? (by decide) (.single (agree_leaf _)))
  · exact hvalue.map fun _ _ hv => agree_placed ha.line? (by decide) (.pair (agree_leaf _) hv)

theorem special (h : c.Visited Q) (hr : Q r) :
    c.TreeLists (special lower (c.first r)) (special lower (c.second r)) := by
  have hgeneral : c.TreeLists
      (if (c.first r).isEmpty then return [] else return [← asParameter (← lower (c.first r))])
      (if (c.second r).isEmpty then return []
        else return [← asParameter (← lower (c.second r))]) := by
    rw [isEmpty_image]
    split
    · exact parallel_pure .nil
    · refine (h.visit hr).andThen fun t t' ht => ?_
      exact (parallel_asParameter t ht).map fun _ _ hu => .single hu
  unfold LowerM.special
  -- An atom is the same in both programs, so its special form is as well.
  cases r with
  | list items =>
    rw [first, second, Raw.relocate, Raw.relocate] at hgeneral ⊢
    exact hgeneral
  | atom a =>
    rw [first_atom, second_atom] at hgeneral ⊢
    split
    · exact parallel_pure (.single (agree_bare (by decide) .nil))
    · exact hgeneral

theorem lowerParams (h : c.Visited Q) (hfs : fs.Within Q)
    (hnames : ∀ name ∈ ((fs.get 1).elements?.getD [] ++ (fs.get 4).elements?.getD []).filterMap
      (fun r => r.pair?.map Prod.fst), c.Scanned name) :
    c.Trees (lowerParams lower (fs.map c.first)) (lowerParams lower (fs.map c.second)) := by
  -- The names stand in two of the fields, in pairs with their defaults.
  have hname : ∀ x ∈ (fs.get 1).elements?.getD [] ++ (fs.get 4).elements?.getD [],
      ∀ name, x.pair?.map Prod.fst = some name → c.Scanned name := fun x hx name hxname =>
    hnames name (List.mem_filterMap.2 ⟨x, hx, hxname⟩)
  have hoptionals : c.TreeLists
      (do (← elementsOf (c.first (fs.get 1))).mapM (LowerM.optional lower))
      (do (← elementsOf (c.second (fs.get 1))).mapM (LowerM.optional lower)) :=
    h.overElements (h.get hfs 1)
      (fun x hx hQ => h.optional hQ (hname x (List.mem_append_left _ hx)))
      fun _ _ _ => not_returns_optional
  have hkeywords : c.TreeLists
      (do (← elementsOf (c.first (fs.get 4))).mapM (LowerM.keyword lower))
      (do (← elementsOf (c.second (fs.get 4))).mapM (LowerM.keyword lower)) :=
    h.overElements (h.get hfs 4)
      (fun x hx hQ => h.keyword hQ (hname x (List.mem_append_right _ hx)))
      fun _ _ _ => not_returns_keyword
  have hrest : c.TreeLists
      (if isExtraComma (c.first (fs.get 2)) then pure []
        else LowerM.special lower (c.first (fs.get 2)))
      (if isExtraComma (c.second (fs.get 2)) then pure []
        else LowerM.special lower (c.second (fs.get 2))) := by
    have hcomma : isExtraComma (c.second (fs.get 2)) = isExtraComma (c.first (fs.get 2)) := by
      rw [first, second, isExtraComma_relocate, isExtraComma_relocate]
    rw [hcomma]
    split
    · exact parallel_pure .nil
    · exact h.special (h.get hfs 2)
  have hargs : ∀ {ts ts' : List Tree}, c.AgreeAll ts ts' →
      c.Agree (.bare "args" ts) (.bare "args" ts') := fun hts => agree_bare (by decide) hts
  -- All seven places in the order of the fields; what comes out is put together at the end.
  have hall := (h.positional (h.get hfs 0)).andThen fun _ _ hrequired =>
    hoptionals.andThen fun _ _ hoptional => hrest.andThen fun _ _ hmore =>
    (h.positional (h.get hfs 3)).andThen fun _ _ hpost => hkeywords.andThen fun _ _ hkeyword =>
    (h.special (h.get hfs 5)).andThen fun _ _ hkwrest =>
      (h.special (h.get hfs 6)).map fun _ _ hblock =>
      hargs ((((((hrequired.append hoptional).append hmore).append hpost).append hkeyword).append
        hkwrest).append hblock)
  unfold LowerM.lowerParams
  simpa only [get_first, get_second, bind_assoc, ite_bind] using hall

end Visited

theorem parallel_lowerNamedParam (hname : c.Scanned (fs.get 0)) {tag : String}
    (htag : tag ∉ lookedInto) :
    c.Trees (lowerNamedParam tag (fs.map c.first)) (lowerNamedParam tag (fs.map c.second)) := by
  unfold LowerM.lowerNamedParam
  dsimp only
  rw [get_first, get_second, isNull_image, hname.nameOf]
  split
  · exact parallel_pure (agree_bare htag .nil)
  · refine (steady_nameOf _).parallel.map fun name _ hn => ?_
    subst hn
    exact agree_placed hname.line? htag (.single (agree_leaf _))

end Parameters

section BlockParameters

theorem parallel_hasTrailingComma (r : Raw) :
    c.Parallel Eq (hasTrailingComma (c.first r)) (hasTrailingComma (c.second r)) := by
  by_cases htag : r.hasTag "params"
  · obtain ⟨fs, rfl⟩ := Raw.eq_of_hasTag htag
    rw [first_node rfl, second_node rfl]
    change c.Parallel Eq (do return isExtraComma (← require _))
      (do return isExtraComma (← require _))
    rw [Raw.item?_map, Raw.item?_map]
    cases fs[2]? with
    | none => exact parallel_throw _
    | some x =>
      refine parallel_pure ?_
      rw [first, second, isExtraComma_relocate, isExtraComma_relocate]
  · unfold hasTrailingComma
    rw [first, second, Raw.hasTag_relocate, Raw.hasTag_relocate, if_neg htag, if_neg htag]
    exact parallel_pure rfl

/-- Several parameters stay as they are. -/
theorem wrapLone_several (t u : Tree) (ts : List Tree) :
    wrapLone (t :: u :: ts) = pure (t :: u :: ts) := by
  unfold wrapLone
  split
  · cases ‹_ :: _ :: _ = [_]›
  · cases ‹_ :: _ :: _ = [_]›
  · cases ‹_ :: _ :: _ = [_]›
  · rfl

/-- Only a name and a list of names are wrapped. -/
theorem wrapLone_of_ne {tag : Raw} (harg : tag ≠ .str "arg") (hlist : tag ≠ .str "mlhs")
    (mark : Mark) (ts : List Tree) : wrapLone [.node tag mark ts] = pure [.node tag mark ts] := by
  unfold wrapLone
  split
  · cases ‹[Tree.node _ _ _] = _›
  · cases ‹[Tree.node _ _ _] = _›
    exact absurd rfl harg
  · cases ‹[Tree.node _ _ _] = _›
    exact absurd rfl hlist
  · rfl

/-- A lone parameter is wrapped in both or in neither. -/
theorem parallel_wrapLone (h : c.AgreeAll ts ts') : c.TreeLists (wrapLone ts) (wrapLone ts') := by
  -- Only a lone parameter is wrapped, and both sides have one or neither has.
  match h with
  | .nil => exact parallel_pure .nil
  | .cons h (.cons h' hrest) =>
    rw [wrapLone_several, wrapLone_several]
    exact parallel_pure (List.Forall₂.cons h (.cons h' hrest))
  | .cons h .nil =>
    cases h with
    | leaf _ => exact parallel_throw _
    | block hc hmark hcall hbody hts =>
      exact parallel_pure (.single (.block hc hmark hcall hbody hts))
    | @node tag mark mark' ts ts' hmark hkept hts =>
      by_cases harg : tag = .str "arg"
      · subst harg
        exact parallel_pure (.single (agree_placed hmark.line (by decide)
          (.single (.node hmark hkept hts))))
      by_cases hlist : tag = .str "mlhs"
      · subst hlist
        exact parallel_pure (.single (agree_placed hmark.line (by decide) hts))
      · rw [wrapLone_of_ne harg hlist, wrapLone_of_ne harg hlist]
        exact parallel_pure (.single (.node hmark hkept hts))

/-- Only a node by itself is wrapped, and a node whose only child is another node
    is not looked into. -/
theorem Kept.wrapLone {tag : Raw} {us : List Tree} (h : c.Kept tag ts)
    (hus : Returns (wrapLone ts) us) : c.Kept tag us := by
  by_cases hlone : ∃ tag' mark us, ts = [.node tag' mark us]
  · obtain ⟨tag', mark, us', rfl⟩ := hlone
    -- A lone node is no attribute, and it has no name for its first child.
    have hnone : ¬ IsAttribute [.node tag' mark us'] := by
      rintro ⟨_, _, _, _, heq, -⟩
      cases heq
    cases c with
    | moved k => exact fun htag => absurd (h htag) hnone
    | unnumbered =>
      obtain ⟨word, rfl, hword, hfield, hlocal⟩ := h
      refine ⟨word, rfl, hword, fun htag => absurd (hfield htag) hnone, fun htag => ?_⟩
      obtain ⟨name, rest, heq⟩ := hlocal htag
      cases heq
    | renumbered => trivial
  · unfold LowerM.wrapLone at hus
    split at hus
    · exact absurd hus not_returns_throw
    · exact absurd ⟨_, _, _, rfl⟩ hlone
    · exact absurd ⟨_, _, _, rfl⟩ hlone
    · rwa [← returns_pure hus]

theorem parallel_shadow (h : c.Scanned r) : c.Trees (shadow (c.first r)) (shadow (c.second r)) := by
  unfold shadow
  rw [h.nameOf]
  refine (steady_nameOf _).parallel.map fun name _ hn => ?_
  subst hn
  exact agree_placed h.line? (by decide) (.single (agree_leaf _))

/-- No name in a list is taken for a position. -/
theorem elements_relocate {line : Bool → Raw → Raw} (hline : Raw.Relines line)
    (h : ∀ x ∈ r.elements?.getD [], ∀ l rest, x ≠ .list (.int l :: rest)) :
    (Raw.relocate line r).elements? = r.elements?.map (·.map (Raw.relocate line)) := by
  have hitems : ∀ (here : Bool) (place : Option Nat) (items : List Raw),
      (∀ x ∈ items, ∀ l rest, x ≠ .list (.int l :: rest)) →
      Raw.relocateItems line here place items = items.map (Raw.relocate line) := by
    intro here place items
    induction items generalizing place with
    | nil => exact fun _ => by rw [Raw.relocateItems, List.map_nil]
    | cons x items ih =>
      intro hx
      have hrest := fun place => ih place fun y hy => hx y (List.mem_cons_of_mem _ hy)
      rw [List.map_cons]
      -- Only the item at the place of the position could change in another way.
      match place with
      | none => rw [Raw.relocateItems, hrest]
      | some 0 =>
        rw [Raw.relocateItems, hrest, Raw.reline_relocate hline here (hx x List.mem_cons_self)]
      | some (i + 1) => rw [Raw.relocateItems, hrest]
  cases r with
  | atom a =>
    rw [Raw.relocate_atom]
    cases helements : (Raw.atom a).elements? with
    | none => rfl
    | some items =>
      have hsame : ∀ x ∈ items, Raw.relocate line x = x := by
        intro x hx
        obtain ⟨a, rfl⟩ := Raw.exists_atom_of_mem helements hx
        exact Raw.relocate_atom a
      exact congrArg some (List.map_congr_left hsame |>.trans (List.map_id _)).symm
  | list items =>
    rw [Raw.relocate]
    exact congrArg some (hitems _ _ items h)

theorem Scanned.not_position (h : c.Scanned r) (hc : ∃ k, c = moved k) (l : Int)
    (rest : List Raw) : r ≠ .list (.int l :: rest) := by
  rintro rfl
  obtain ⟨k, rfl⟩ := hc
  cases h.1

/-- The names that are local to a block. -/
theorem parallel_shadows (hnames : ∀ name ∈ r.elements?.getD [], c.Scanned name) :
    c.TreeLists (do (← elementsOf (c.first r)).mapM shadow)
      (do (← elementsOf (c.second r)).mapM shadow) := by
  have himages : (c.first r).elements? = r.elements?.map (·.map c.first) ∧
      (c.second r).elements? = r.elements?.map (·.map c.second) := by
    -- Only a move changes the raw trees, and a token is no position.
    by_cases hc : ∃ k, c = moved k
    · have hno : ∀ x ∈ r.elements?.getD [], ∀ l rest, x ≠ .list (.int l :: rest) :=
        fun x hx => (hnames x hx).not_position hc
      exact ⟨elements_relocate c.relines_firstLine hno, elements_relocate c.relines_secondLine hno⟩
    · have hc : ∀ k, c ≠ moved k := fun k hk => hc ⟨k, hk⟩
      rw [funext (first_eq_self hc), funext (second_eq_self hc)]
      simp only [List.map_id', Option.map_id', and_self]
  unfold elementsOf
  rw [isEmpty_image, himages.1, himages.2]
  split
  · exact parallel_pure .nil
  · cases helements : r.elements? with
    | none => exact parallel_throw _
    | some items =>
      rw [helements] at hnames
      exact Parallel.mapM_map fun x hx => parallel_shadow (hnames x hx)

theorem Visited.lowerBlockParams (h : c.Visited Q) (hfs : fs.Within Q)
    (hnames : ∀ name ∈ (fs.get 1).elements?.getD [], c.Scanned name) :
    c.Trees (lowerBlockParams lower (fs.map c.first))
      (lowerBlockParams lower (fs.map c.second)) := by
  -- Shadowed names are put behind whatever children there are.
  have hmore : ∀ {u u' : Tree} {vs vs' : List Tree},
      (∀ us us', c.AgreeAll us us' →
        c.Agree (u.withChildren (vs ++ us)) (u'.withChildren (vs' ++ us'))) →
      c.Trees (do
          let shadows ← (← elementsOf (c.first (fs.get 1))).mapM shadow
          return u.withChildren (vs ++ shadows))
        (do
          let shadows ← (← elementsOf (c.second (fs.get 1))).mapM shadow
          return u'.withChildren (vs' ++ shadows)) := by
    intro u u' vs vs' hagree
    simpa only [bind_assoc] using (parallel_shadows hnames).map hagree
  unfold LowerM.lowerBlockParams
  simp only [get_first, get_second]
  refine (h.visit (h.get hfs 0)).andThen fun t t' ht => ?_
  cases ht with
  | leaf _ => exact parallel_throw _
  | block hc hmark hcall hbody hts =>
    refine (parallel_hasTrailingComma _).andThen fun comma _ hcomma => ?_
    subst hcomma
    simp only [wrapLone_several, pure_bind]
    split
    · exact hmore fun us us' hus => .block hc hmark hcall hbody (AgreeAll.append hts hus)
    · exact hmore fun us us' hus => .block hc hmark hcall hbody (AgreeAll.append hts hus)
  | node hmark hkept hts =>
    refine (parallel_hasTrailingComma _).andThen fun comma _ hcomma => ?_
    subst hcomma
    split
    · exact hmore fun us us' hus => .node hmark (hkept.append us) (AgreeAll.append hts hus)
    · refine (parallel_wrapLone hts).bind fun vs vs' hvs hret _ => ?_
      exact hmore fun us us' hus =>
        .node hmark ((hkept.wrapLone hret).append us) (AgreeAll.append hvs hus)

/-- The name in a double-splat parameter. -/
def restOf? : Tree → Option Tree
  | .node (.str "kwrestarg") _ (name :: _) => some name.unmarked
  | _ => none

theorem restName_node (tag : Raw) (mark : Mark) (ts : List Tree) :
    restName (.node tag mark ts) = (ts.findSome? restOf?).getD .null :=
  rfl

theorem sameNames_unmarked (h : c.Agree t t') : c.SameNames t.unmarked t'.unmarked := by
  intro n n' hn hlegible
  rw [Tree.same_unmarked, Tree.same_unmarked]
  exact hn.same_of_legible hlegible h

theorem Agree.restOf? (h : c.Agree t t') : Option.Rel c.SameNames (restOf? t) (restOf? t') := by
  unfold Change.restOf?
  split
  · obtain ⟨mark', ts', rfl, -, -, hts⟩ := h.node_of_tag (by decide)
    cases hts with
    | cons hname _ => exact .some (sameNames_unmarked hname)
  · rename_i hnone
    split
    · obtain ⟨mark, ts, rfl, -, -, hts⟩ := h.node_of_tag' (by decide)
      cases hts with
      | cons _ _ => exact absurd rfl (hnone _ _ _)
    · exact .none

/-- The name of the double-splat parameter, of which only its value matters. -/
theorem sameNames_restName (h : c.Agree t t') : c.SameNames (restName t) (restName t') := by
  have hnull : c.SameNames .null .null := sameNames_unmarked (agree_leaf .null)
  have hgetD : ∀ {o o' : Option Tree}, Option.Rel c.SameNames o o' →
      c.SameNames (o.getD .null) (o'.getD .null) := by
    intro o o' ho
    cases ho with
    | none => exact hnull
    | some ho => exact ho
  -- The first children that are such parameters stand at the same place in both.
  have hfind : ∀ {ts ts' : List Tree}, List.Forall₂ (fun t t' => Option.Rel c.SameNames
      (Change.restOf? t) (Change.restOf? t')) ts ts' →
      Option.Rel c.SameNames (ts.findSome? Change.restOf?) (ts'.findSome? Change.restOf?) := by
    intro ts ts' hts
    induction hts with
    | nil => exact .none
    | @cons t t' _ _ ht _ ih =>
      rw [List.findSome?_cons, List.findSome?_cons]
      generalize Change.restOf? t = o at ht ⊢
      generalize Change.restOf? t' = o' at ht ⊢
      cases ht with
      | none => exact ih
      | some ht => exact .some ht
  cases h with
  | leaf _ => exact hnull
  | node _ _ hts =>
    rw [restName_node, restName_node]
    exact hgetD (hfind (hts.imp fun _ _ ht => ht.restOf?))
  | block _ _ hcall hbody hts =>
    rw [restName_node, restName_node]
    exact hgetD (hfind (.cons hcall.restOf? (.cons .none (.cons hbody.restOf?
      (hts.imp fun _ _ ht => ht.restOf?)))))

end BlockParameters

end Change

end RubyTree
