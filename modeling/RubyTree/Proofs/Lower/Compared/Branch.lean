import RubyTree.Proofs.Lower.Compared.Pattern

/-!
# Bodies, Conditions and Loops in Two Runs

Bodies with rescue clauses, choices and loops run in parallel. Their clauses are
chains, in which each clause holds the next one, and are compared by induction on
the chain.

A rescue clause is taken apart by the places of its items alone. Its tag may be
that of any node, and then one of its fields is a position. Lowered like a field
a position fails in both programs, and as the next clause it is read past its
line; only a list of exceptions would be read item by item, which is what
`Raw.Clauses` rules out.

## Theorems

* `Visited.rescueClauses`, `Visited.lowerBody`: Bodies.
* `Visited.whenClauses`, `Visited.inClauses`, `Visited.lowerCase`: Choices.
* `parallel_conditionForm`, `Visited.lowerIf`: Conditions.
* `Visited.makeLoop`, `Visited.lowerFor`: Loops.
-/

namespace RubyTree

open LowerM

namespace Change

variable {c : Change} {Q : Raw → Prop} {fs : Fields} {r : Raw} {here : Bool} {t t' : Tree}
  {ts ts' : List Tree}

section Rescue

/-- A list with something in front, in the two programs. -/
theorem exists_place (head : Raw) (fs : Fields) : ∃ (here : Bool) (place : Option Nat),
    (place = some 0 → (Raw.list (head :: fs)).hasTag "void_stmt") ∧
      ∀ line, Raw.relocate line (.list (head :: fs)) =
        .list (Raw.relocate line head :: Raw.relocateItems line here place fs) := by
  cases htag : (Raw.list (head :: fs)).tag? with
  | none =>
    refine ⟨false, none, nofun, fun line => ?_⟩
    rw [Raw.relocate_untagged htag, Raw.relocateItems_none, List.map_cons]
  | some word =>
    -- Only the void statement has its position right behind the tag.
    match head, htag with
    | .str tag, _ =>
      refine ⟨Raw.isLineWord (.str tag :: fs), Raw.positionField? tag, fun hplace => ?_,
        fun line => ?_⟩
      · unfold Raw.positionField? at hplace
        split at hplace
        · cases hplace
        · split at hplace
          all_goals cases hplace
          rfl
      · rw [Raw.relocate_node, Raw.relocate_atom]

/-- A clause by the places of its items. -/
theorem rescueClauses_list {go : Visit} (head : Raw) (fs : Fields) :
    rescueClauses go (.list (head :: fs)) = do
      let clause ← rescueClause go (fs.get 0) (fs.get 1) (fs.get 2)
      match fs[3]? with
      | none => return [clause]
      | some next => return clause :: (← rescueClauses go next) := by
  match fs with
  | [] => rfl
  | [_] => rfl
  | [_, _] => rfl
  | [_, _, _] => rfl
  | _ :: _ :: _ :: next :: _ => rw [rescueClauses]; rfl

/-- What stands in front of a clause is not looked at. -/
theorem rescueClauses_reline {go : Visit} (line : Raw → Raw) :
    (r : Raw) → rescueClauses go (r.reline line) = rescueClauses go r
  | .atom _ => rfl
  | .list [] => rfl
  | .list (head :: fs) => by
    rw [Raw.reline, rescueClauses_list, rescueClauses_list]

/-- No list of exceptions is a position. -/
theorem Chain.not_void {head : Raw} {k : Int} (hc : c = moved k)
    (h : c.Chain (.list (head :: fs))) : (Raw.list (head :: fs)).hasTag "void_stmt" = false := by
  subst hc
  cases (show Raw.Clauses _ from h) with
  | last htag _ => exact htag
  | next htag _ _ => exact htag

/-- The rest of a chain is a chain. -/
theorem Chain.next {head next : Raw} (h : c.Chain (.list (head :: fs)))
    (hnext : fs[3]? = some next) : c.Chain next := by
  cases c with
  | unnumbered => trivial
  | renumbered => trivial
  | moved k =>
    have hfour : (head :: fs)[4]? = some next := hnext
    -- The clause that follows is the fourth field, and the chain goes on exactly there.
    cases (show Raw.Clauses _ from h) with
    | last _ hnone =>
      rw [hfour] at hnone
      cases hnone
    | next _ hsome h =>
      rw [hfour] at hsome
      cases hsome
      exact h

namespace Visited

/-- A field of a node that may be its position. -/
theorem slot (h : c.Visited Q) (hr : Q r) (here : Bool) (p : Prop) [Decidable p] :
    c.Trees (lower (if p then (c.first r).reline (c.firstLine here) else c.first r))
      (lower (if p then (c.second r).reline (c.secondLine here) else c.second r)) := by
  split
  · exact h.place hr here
  · exact h.visit hr

/-- The exceptions of a clause are absent, a node, or a plain list on both sides. -/
theorem exceptionList (h : c.Visited Q) (hr : Q r) :
    c.Trees (exceptionList lower (c.first r)) (exceptionList lower (c.second r)) := by
  have htag : (c.second r).tag? = (c.first r).tag? := by
    rw [first, second, Raw.tag?_relocate, Raw.tag?_relocate]
  unfold LowerM.exceptionList
  rw [isEmpty_image, htag]
  split
  · exact parallel_pure (agree_leaf _)
  · split
    · exact (h.argumentList hr).map fun _ _ hts => agree_bare (by decide) hts
    · exact (h.visitAll hr).map fun _ _ hts => agree_bare (by decide) hts

/-- A clause whose variable and statements are lowered in parallel. -/
theorem rescueClause (h : c.Visited Q) (hr : Q r) {v v' s s' : Raw}
    (hempty : v.isEmpty = v'.isEmpty) (hv : c.Trees (lower v) (lower v'))
    (hs : c.Trees (lower s) (lower s')) :
    c.Trees (rescueClause lower (c.first r) v s) (rescueClause lower (c.second r) v' s') := by
  -- Both ways end in the same three parts, the body read last.
  have hafter : ∀ {u u' w w' : Tree}, c.Agree u u' → c.Agree w w' →
      c.Trees (do return .bare "resbody" [u, w, ← LowerM.visitBody lower s])
        (do return .bare "resbody" [u', w', ← LowerM.visitBody lower s']) := by
    intro u u' w w' hu hw
    have hbody : c.Trees (LowerM.visitBody lower s) (LowerM.visitBody lower s') :=
      hs.map fun _ _ ht => ht.dropVoid
    exact hbody.map fun _ _ ht => agree_bare (by decide) (.triple hu hw ht)
  unfold LowerM.rescueClause
  refine (h.exceptionList hr).andThen fun u u' hu => ?_
  rw [hempty]
  split
  · exact hafter hu (agree_leaf _)
  · refine hv.andThen fun w w' hw => ?_
    exact (parallel_targetOf hw).andThen fun _ _ ht => hafter hu ht

/-- A chain that is no node ends on both sides. -/
theorem rescueClauses_atom (h : c.Visited Q) (a : Atom) :
    c.TreeLists (LowerM.rescueClauses lower (.atom a)) (LowerM.rescueClauses lower (.atom a)) := by
  unfold LowerM.rescueClauses
  split
  · exact parallel_pure .nil
  · refine (steady_require _).parallel.bind fun letters _ hsame hletters _ => ?_
    subst hsame
    -- A text that is taken for a clause has letters for its parts.
    have hletter : ∀ i, ∃ b, letters.getD i .null = .atom b := by
      intro i
      rw [List.getD_eq_getElem?_getD]
      cases hi : letters[i]? with
      | none => exact ⟨.null, rfl⟩
      | some x =>
        exact Raw.exists_atom_of_mem (returns_require hletters) (List.mem_of_getElem? hi)
    have hvisit : ∀ b : Atom, c.Trees (lower (.atom b)) (lower (.atom b)) := by
      intro b
      have hb := h.visit (h.atom b)
      rwa [first_atom, second_atom] at hb
    obtain ⟨e, he⟩ := hletter 1
    obtain ⟨v, hv⟩ := hletter 2
    obtain ⟨s, hs⟩ := hletter 3
    have hclause := h.rescueClause (h.atom e) (v := .atom v) rfl (hvisit v) (hvisit s)
    rw [first_atom, second_atom] at hclause
    rw [he, hv, hs]
    refine hclause.andThen fun t t' ht => ?_
    split
    · exact parallel_pure (.single ht)
    · exact parallel_throw _

/-- A chain of clauses, by recursion on the chain. -/
theorem rescueClauses (h : c.Visited Q) (r : Raw) (hr : Q r) (hchain : c.Chain r) :
    c.TreeLists (LowerM.rescueClauses lower (c.first r))
      (LowerM.rescueClauses lower (c.second r)) := by
  induction hdepth : r.depth using Nat.strongRecOn generalizing r with
  | ind depth ih =>
    match r with
    | .atom a =>
      rw [first_atom, second_atom]
      exact h.rescueClauses_atom a
    | .list [] =>
      rw [first_untagged rfl, second_untagged rfl]
      exact parallel_pure .nil
    | .list (head :: fs) =>
      have hfs : Fields.Within Q fs := h.within hr
      obtain ⟨here, place, hvoid, himage⟩ := exists_place head fs
      have hempty : ∀ i, (Fields.get (Raw.relocateItems c.firstLine here place fs) i).isEmpty =
          (Fields.get (Raw.relocateItems c.secondLine here place fs) i).isEmpty := by
        intro i
        rw [Raw.get_relocateItems, Raw.get_relocateItems]
        split
        · rw [isEmpty_reline, isEmpty_reline, Raw.isEmpty_relocate, Raw.isEmpty_relocate]
        · rw [Raw.isEmpty_relocate, Raw.isEmpty_relocate]
      have hslot : ∀ i, c.Trees
          (lower (Fields.get (Raw.relocateItems c.firstLine here place fs) i))
          (lower (Fields.get (Raw.relocateItems c.secondLine here place fs) i)) := by
        intro i
        rw [Raw.get_relocateItems, Raw.get_relocateItems]
        exact h.slot (h.get hfs i) here _
      -- The exceptions are no position, or else the position is not changed.
      have hexceptions : Fields.get (Raw.relocateItems c.firstLine here place fs) 0 =
            c.first (Fields.get fs 0) ∧
          Fields.get (Raw.relocateItems c.secondLine here place fs) 0 =
            c.second (Fields.get fs 0) := by
        rw [Raw.get_relocateItems, Raw.get_relocateItems]
        by_cases hplace : place = some 0
        · rw [if_pos hplace, if_pos hplace]
          cases c with
          | moved k =>
            rw [hchain.not_void rfl] at hvoid
            cases hvoid hplace
          | unnumbered | renumbered =>
            exact ⟨Raw.reline_eq_self (fun _ => rfl) _, Raw.reline_eq_self (fun _ => rfl) _⟩
        · rw [if_neg hplace, if_neg hplace]
          exact ⟨rfl, rfl⟩
      rw [first, second, himage, himage, rescueClauses_list, rescueClauses_list, hexceptions.1,
        hexceptions.2, Raw.getElem?_relocateItems, Raw.getElem?_relocateItems]
      refine (h.rescueClause (h.get hfs 0) (hempty 1) (hslot 1) (hslot 2)).andThen fun t t' ht => ?_
      cases hnext : fs[3]? with
      | none => exact parallel_pure (.single ht)
      | some next =>
        have hmem : next ∈ fs := List.mem_of_getElem? hnext
        have hrest := ih next.depth
          (hdepth ▸ Raw.depth_lt_of_mem (List.mem_cons_of_mem _ hmem)) next (hfs next hmem)
          (hchain.next hnext) rfl
        have hclauses : c.TreeLists
            (LowerM.rescueClauses lower (if place = some 3
              then (Raw.relocate c.firstLine next).reline (c.firstLine here)
              else Raw.relocate c.firstLine next))
            (LowerM.rescueClauses lower (if place = some 3
              then (Raw.relocate c.secondLine next).reline (c.secondLine here)
              else Raw.relocate c.secondLine next)) := by
          split
          · rw [rescueClauses_reline, rescueClauses_reline]
            exact hrest
          · exact hrest
        exact hclauses.map fun _ _ hts => .cons ht hts

/-- A body with its clauses, `else` and `ensure`. -/
theorem lowerBody (h : c.Visited Q) (hfs : fs.Within Q) (hchain : c.Chain (fs.get 1)) :
    c.Trees (lowerBody lower (fs.map c.first)) (lowerBody lower (fs.map c.second)) := by
  -- What `ensure` adds is added last, whichever of the branches made the body.
  have hafter : ∀ {t t' : Tree}, c.Agree t t' →
      c.Trees (if (c.first (fs.get 3)).isEmpty then return t
          else return .bare "ensure" [t, ← lower (c.first (fs.get 3))])
        (if (c.second (fs.get 3)).isEmpty then return t'
          else return .bare "ensure" [t', ← lower (c.second (fs.get 3))]) := by
    intro t t' ht
    rw [isEmpty_image]
    split
    · exact parallel_pure ht
    · exact (h.visit (h.get hfs 3)).map fun _ _ hu => agree_bare (by decide) (.pair ht hu)
  unfold LowerM.lowerBody
  simp only [get_first, get_second]
  refine (h.statementList (h.get hfs 0)).andThen fun ts ts' hts => ?_
  have hbody := agree_ofStatements hts
  rw [isEmpty_image (fs.get 1), isEmpty_image (fs.get 2)]
  split
  · refine (h.rescueClauses _ (h.get hfs 1) hchain).andThen fun us us' hus => ?_
    refine (h.visitBody (h.get hfs 2)).andThen fun v v' hv => ?_
    exact hafter (agree_bare (by decide) (AgreeAll.append (.cons hbody hus) (.single hv)))
  · split
    · refine (h.visitBody (h.get hfs 2)).andThen fun v v' hv => ?_
      refine hafter (agree_ofStatements (AgreeAll.append (agreeAll_toList hbody.present) ?_))
      exact .single (agree_bare (by decide) (.single hv))
    · exact hafter hbody

theorem lowerRescueModifier (h : c.Visited Q) (hfs : fs.Within Q) :
    c.Trees (lowerRescueModifier lower (fs.map c.first))
      (lowerRescueModifier lower (fs.map c.second)) := by
  unfold LowerM.lowerRescueModifier
  refine (h.field hfs 0).andThen fun t t' ht => ?_
  refine (h.field hfs 1).map fun u u' hu => ?_
  have hclause : c.Agree (.bare "resbody" [.null, .null, u]) (.bare "resbody" [.null, .null, u']) :=
    agree_bare (by decide) (.triple (agree_leaf _) (agree_leaf _) hu)
  exact agree_bare (by decide) (.triple ht hclause (agree_leaf _))

/-- A `begin` block takes its line from its second field. -/
theorem lowerBegin (h : c.Visited Q) (hfs : fs.Within Q) (hplace : c.Sited (fs.get 1)) :
    c.Trees (lowerBegin lower (c.firstAt here 1 fs)) (lowerBegin lower (c.secondAt here 1 fs)) := by
  have hline : Option.Rel c.Lines ((c.firstAt here 1 fs).get 1).positionLine?
    ((c.secondAt here 1 fs).get 1).positionLine? := hplace.get
  unfold LowerM.lowerBegin
  dsimp only
  rw [get_firstAt here (by decide), get_secondAt here (by decide)]
  rw [hasTag_image]
  split
  · exact (h.visit (h.get hfs 0)).map fun _ _ ht => agree_bare (by decide) (.single ht)
  · refine (h.visit (h.get hfs 0)).andThen fun t t' ht => ?_
    split
    · cases ht.of_null
      exact parallel_pure (agree_placed hline (by decide) .nil)
    · obtain ⟨mark', ts', rfl, -, -, hts⟩ := ht.node_of_tag (by decide)
      exact parallel_pure (agree_placed hline (by decide) hts)
    · -- What is neither null nor a `begin` in one tree is neither in the other.
      rename_i hnull hbegin
      split
      · exact absurd ht.to_null hnull
      · exact absurd rfl (ht.ne_of_tag (by decide) hbegin _ _)
      · exact parallel_pure (agree_placed hline (by decide) (.single ht))

end Visited

end Rescue

section Conditions

/-- Most conditions stay as they are. -/
theorem conditionForm_of_ne {tag : Raw} (hregexp : tag ≠ .str "regexp")
    (hirange : tag ≠ .str "irange") (herange : tag ≠ .str "erange") (mark : Mark)
    (ts : List Tree) : conditionForm (.node tag mark ts) = pure (.node tag mark ts) := by
  unfold conditionForm
  split
  · cases ‹Tree.node _ _ _ = _›
  · cases ‹Tree.node _ _ _ = _›
    exact absurd rfl hregexp
  · cases ‹Tree.node _ _ _ = _›
    exact absurd rfl hirange
  · cases ‹Tree.node _ _ _ = _›
    exact absurd rfl herange
  · rfl

/-- A condition has the same tag on both sides. -/
theorem parallel_conditionForm (h : c.Agree t t') :
    c.Trees (conditionForm t) (conditionForm t') := by
  cases h with
  | leaf _ => exact parallel_throw _
  | block hc hmark hcall hbody hts => exact parallel_pure (.block hc hmark hcall hbody hts)
  | @node tag mark mark' ts ts' hmark hkept hts =>
    -- Regular expressions and ranges are turned into other nodes.
    by_cases hregexp : tag = .str "regexp"
    · subst hregexp
      exact parallel_pure (agree_bare (by decide) (.single (.node hmark hkept hts)))
    by_cases hirange : tag = .str "irange"
    · subst hirange
      exact parallel_pure (agree_bare (by decide) hts)
    by_cases herange : tag = .str "erange"
    · subst herange
      exact parallel_pure (agree_bare (by decide) hts)
    · rw [conditionForm_of_ne hregexp hirange herange, conditionForm_of_ne hregexp hirange herange]
      exact parallel_pure (.node hmark hkept hts)

namespace Visited

theorem visitCondition (h : c.Visited Q) (hr : Q r) :
    c.Trees (visitCondition lower (c.first r)) (visitCondition lower (c.second r)) :=
  (h.visit hr).andThen fun _ _ ht => parallel_conditionForm ht

theorem visitBranch (h : c.Visited Q) (hr : Q r) :
    c.Trees (visitBranch lower (c.first r)) (visitBranch lower (c.second r)) := by
  unfold LowerM.visitBranch
  rw [isEmpty_image]
  split
  · exact parallel_pure (agree_leaf _)
  · exact h.visitBody hr

theorem lowerIf (h : c.Visited Q) (hfs : fs.Within Q) :
    c.Trees (lowerIf lower (fs.map c.first)) (lowerIf lower (fs.map c.second)) := by
  unfold LowerM.lowerIf
  simp only [get_first, get_second]
  refine (h.visitCondition (h.get hfs 0)).andThen fun t t' ht => ?_
  refine (h.visitBranch (h.get hfs 1)).andThen fun u u' hu => ?_
  exact (h.visitBranch (h.get hfs 2)).map fun v v' hv => agree_bare (by decide) (.triple ht hu hv)

theorem lowerUnless (h : c.Visited Q) (hfs : fs.Within Q) :
    c.Trees (lowerUnless lower (fs.map c.first)) (lowerUnless lower (fs.map c.second)) := by
  unfold LowerM.lowerUnless
  simp only [get_first, get_second]
  refine (h.visitCondition (h.get hfs 0)).andThen fun t t' ht => ?_
  refine (h.visitBranch (h.get hfs 2)).andThen fun u u' hu => ?_
  exact (h.visitBranch (h.get hfs 1)).map fun v v' hv => agree_bare (by decide) (.triple ht hu hv)

theorem lowerIfModifier (h : c.Visited Q) (hfs : fs.Within Q) :
    c.Trees (lowerIfModifier lower (fs.map c.first))
      (lowerIfModifier lower (fs.map c.second)) := by
  unfold LowerM.lowerIfModifier
  simp only [get_first, get_second]
  refine (h.visitCondition (h.get hfs 0)).andThen fun t t' ht => ?_
  exact (h.visit (h.get hfs 1)).map fun u u' hu =>
    agree_bare (by decide) (.triple ht hu (agree_leaf _))

theorem lowerUnlessModifier (h : c.Visited Q) (hfs : fs.Within Q) :
    c.Trees (lowerUnlessModifier lower (fs.map c.first))
      (lowerUnlessModifier lower (fs.map c.second)) := by
  unfold LowerM.lowerUnlessModifier
  simp only [get_first, get_second]
  refine (h.visitCondition (h.get hfs 0)).andThen fun t t' ht => ?_
  exact (h.visit (h.get hfs 1)).map fun u u' hu =>
    agree_bare (by decide) (.triple ht (agree_leaf _) hu)

theorem lowerTernary (h : c.Visited Q) (hfs : fs.Within Q) :
    c.Trees (lowerTernary lower (fs.map c.first)) (lowerTernary lower (fs.map c.second)) := by
  unfold LowerM.lowerTernary
  refine (h.field hfs 0).andThen fun t t' ht => ?_
  refine (h.field hfs 1).andThen fun u u' hu => ?_
  exact (h.field hfs 2).map fun v v' hv => agree_bare (by decide) (.triple ht hu hv)

end Visited

end Conditions

section Choices

/-- A chain of `when` clauses ends in a branch. -/
theorem whenClauses_of_hasTag {go : Visit} (h : r.hasTag "when" = false) :
    whenClauses go r = do return [← visitBranch go r] := by
  unfold whenClauses
  split
  · cases h
  · cases h
  · rfl

/-- A chain of `in` clauses ends in a branch. -/
theorem inClauses_of_hasTag {go : Visit} (h : r.hasTag "in" = false) :
    inClauses go r = do return [← visitBranch go r] := by
  unfold inClauses
  split
  · cases h
  · cases h
  · rfl

/-- A clause by the places of its fields. -/
theorem whenClauses_node {go : Visit} (fs : Fields) :
    whenClauses go (.list (.str "when" :: fs)) = do
    let clause ← whenClause go (fs.get 0) (fs.get 1)
    match fs[2]? with
    | none => return [clause, .null]
    | some next => return clause :: (← whenClauses go next) := by
  match fs with
  | [] => rfl
  | [_] => rfl
  | [_, _] => rfl
  | _ :: _ :: next :: _ => rw [whenClauses]; rfl

/-- One `in` clause, and the chain behind it if there is one. -/
theorem inClauses_node {go : Visit} (fs : Fields) : inClauses go (.list (.str "in" :: fs)) = do
    let clause ← inClause go (fs.get 0) (fs.get 1)
    match fs[2]? with
    | none => return [clause, .null]
    | some next => return clause :: (← inClauses go next) := by
  match fs with
  | [] => rfl
  | [_] => rfl
  | [_, _] => rfl
  | _ :: _ :: next :: _ => rw [inClauses]; rfl

/-- Lines do not matter for whether a clause is a pattern alone. -/
theorem parallel_isLonePattern (h : r.hasTag "in") :
    c.Parallel Eq (isLonePattern (c.first r)) (isLonePattern (c.second r)) := by
  obtain ⟨fs, rfl⟩ := Raw.eq_of_hasTag h
  -- A field is asked only whether it is null, which no image changes.
  have hnull : ∀ i : Nat, c.Parallel (fun a b => a.isNull = b.isNull)
      (require ((fs[i]?).map c.first)) (require ((fs[i]?).map c.second)) := by
    intro i
    cases fs[i]? with
    | none => exact parallel_throw _
    | some x => exact parallel_pure (isNull_image x).symm
  unfold isLonePattern
  rw [first_node rfl, second_node rfl]
  simp only [Raw.item?_map]
  refine (hnull 1).andThen fun a b hab => ?_
  rw [hab]
  split
  · exact parallel_pure rfl
  · exact (hnull 2).map fun _ _ hab => hab

namespace Visited

theorem whenClause (h : c.Visited Q) {values statements : Raw} (hv : Q values) (hs : Q statements) :
    c.Trees (whenClause lower (c.first values) (c.first statements))
      (whenClause lower (c.second values) (c.second statements)) := by
  unfold LowerM.whenClause
  refine (h.argumentList hv).andThen fun ts ts' hts => ?_
  exact (h.visitBody hs).map fun _ _ ht => agree_bare (by decide) (hts.append (.single ht))

theorem inClause (h : c.Visited Q) {pattern statements : Raw} (hp : Q pattern)
    (hs : Q statements) :
    c.Trees (inClause lower (c.first pattern) (c.first statements))
      (inClause lower (c.second pattern) (c.second statements)) := by
  unfold LowerM.inClause
  refine (h.lowerGuarded hp).andThen fun p q hpq => ?_
  exact (h.visitBody hs).map fun _ _ ht => agree_bare (by decide) (.triple hpq.1 hpq.2 ht)

/-- A chain of clauses with the same tag, and what is done otherwise at its end. -/
theorem clauses (h : c.Visited Q) {word : String} {clause : Raw → Raw → LowerM Tree}
    {chain : Raw → LowerM (List Tree)} (hplace : Raw.positionField? word = none)
    (hnode : ∀ fs : Fields, chain (.list (.str word :: fs)) = do
      let t ← clause (fs.get 0) (fs.get 1)
      match fs[2]? with
      | none => return [t, .null]
      | some next => return t :: (← chain next))
    (hlast : ∀ r : Raw, r.hasTag word = false → chain r = do return [← LowerM.visitBranch lower r])
    (hclause : ∀ a b, Q a → Q b →
      c.Trees (clause (c.first a) (c.first b)) (clause (c.second a) (c.second b)))
    (r : Raw) (hr : Q r) : c.TreeLists (chain (c.first r)) (chain (c.second r)) := by
  -- By the depth of the chain, as the next clause is a field of this one.
  induction hdepth : r.depth using Nat.strongRecOn generalizing r with
  | ind depth ih =>
    by_cases htag : r.hasTag word
    · obtain ⟨fs, rfl⟩ := Raw.eq_of_hasTag htag
      have hfs : Fields.Within Q fs := h.within hr
      rw [first_node hplace, second_node hplace, hnode, hnode, get_first, get_second, get_first,
        get_second, List.getElem?_map, List.getElem?_map]
      refine (hclause _ _ (h.get hfs 0) (h.get hfs 1)).andThen fun t t' ht => ?_
      cases hnext : fs[2]? with
      | none => exact parallel_pure (.pair ht (agree_leaf _))
      | some next =>
        have hmem : next ∈ fs := List.mem_of_getElem? hnext
        have hrest := ih next.depth (hdepth ▸ Raw.depth_lt_of_mem (List.mem_cons_of_mem _ hmem))
          next (hfs next hmem) rfl
        exact hrest.map fun _ _ hts => .cons ht hts
    · rw [hlast _ (by rw [first, Raw.hasTag_relocate]; simpa using htag),
        hlast _ (by rw [second, Raw.hasTag_relocate]; simpa using htag)]
      exact (h.visitBranch hr).map fun _ _ ht => .single ht

/-- A chain of `when` clauses, by recursion on the chain. -/
theorem whenClauses (h : c.Visited Q) (r : Raw) (hr : Q r) :
    c.TreeLists (whenClauses lower (c.first r)) (whenClauses lower (c.second r)) :=
  h.clauses rfl whenClauses_node (fun _ => whenClauses_of_hasTag) (fun _ _ => h.whenClause) r hr

/-- A chain of `in` clauses, by recursion on the chain. -/
theorem inClauses (h : c.Visited Q) (r : Raw) (hr : Q r) :
    c.TreeLists (inClauses lower (c.first r)) (inClauses lower (c.second r)) :=
  h.clauses rfl inClauses_node (fun _ => inClauses_of_hasTag) (fun _ _ => h.inClause) r hr

/-- A match on one line. -/
theorem oneLine (h : c.Visited Q) (hr : Q r) {word tag : String} (htag : tag ∉ lookedInto)
    (hword : r.hasTag word) (hplace : Raw.positionField? word = none) (ht : c.Agree t t') :
    c.Trees (do let (u, _) ← LowerM.lowerGuarded lower (← require ((c.first r).item? 1))
                return .bare tag [t, u])
      (do let (u, _) ← LowerM.lowerGuarded lower (← require ((c.second r).item? 1))
          return .bare tag [t', u]) := by
  obtain ⟨fs, rfl⟩ := Raw.eq_of_hasTag hword
  rw [first_node hplace, second_node hplace]
  cases fs with
  | nil => exact parallel_throw _
  | cons pattern rest =>
    have hpattern : Q pattern := h.within hr pattern List.mem_cons_self
    exact (h.lowerGuarded hpattern).andThen fun p q hpq =>
      parallel_pure (agree_bare htag (.pair ht hpq.1))

/-- The first clause has the same tag on both sides. -/
theorem lowerCase (h : c.Visited Q) (hfs : fs.Within Q) :
    c.Trees (lowerCase lower (fs.map c.first)) (lowerCase lower (fs.map c.second)) := by
  have hclauses : Q (fs.get 1) := h.get hfs 1
  unfold LowerM.lowerCase
  simp only [get_first, get_second]
  refine (h.visit (h.get hfs 0)).andThen fun t t' ht => ?_
  rw [hasTag_image, hasTag_image]
  split
  · rename_i hin
    rw [first, Raw.hasTag_relocate] at hin
    -- The pattern is alone in both programs or in neither.
    refine (parallel_isLonePattern hin).andThen fun lone _ hlone => ?_
    subst hlone
    split
    · exact h.oneLine hclauses (by decide) hin rfl ht
    · exact (h.inClauses _ hclauses).map fun _ _ hts => agree_bare (by decide) (.cons ht hts)
  · split
    · rename_i hassign
      rw [first, Raw.hasTag_relocate] at hassign
      exact h.oneLine hclauses (by decide) hassign rfl ht
    · exact (h.whenClauses _ hclauses).map fun _ _ hts => agree_bare (by decide) (.cons ht hts)

end Visited

end Choices

section Loops

/-- The same loop keyword and conditions that agree. -/
def Negations (c : Change) (word : String) (p q : String × Tree) : Prop :=
  p.1 = q.1 ∧ p.1 ∈ [word, oppositeLoop word] ∧ c.Agree p.2 q.2

/-- Only a call can be a negation. -/
theorem unnegated_of_ne {tag : Raw} (hsend : tag ≠ .str "send") (word : String) (mark : Mark)
    (ts : List Tree) : unnegated word (.node tag mark ts) = pure (word, .node tag mark ts) := by
  unfold unnegated
  split
  · cases ‹Tree.node _ _ _ = _›
  · cases ‹Tree.node _ _ _ = _›
    exact absurd rfl hsend
  · cases ‹Tree.node _ _ _ = _›
    exact absurd rfl hsend
  · rfl

/-- A negation is a call with one or two operands, and it is found by its name. -/
theorem parallel_unnegated (word : String) (h : c.Agree t t') :
    c.Parallel (c.Negations word) (unnegated word t) (unnegated word t') := by
  have hkeep : ∀ {t t' : Tree}, c.Agree t t' → c.Negations word (word, t) (word, t') := fun ht =>
    ⟨rfl, List.mem_cons_self, ht⟩
  have hturn : ∀ {t t' : Tree}, c.Agree t t' →
      c.Negations word (oppositeLoop word, t) (oppositeLoop word, t') := fun ht =>
    ⟨rfl, List.mem_cons_of_mem _ List.mem_cons_self, ht⟩
  cases h with
  | leaf _ => exact parallel_throw _
  | block hc hmark hcall hbody hts =>
    exact parallel_pure (hkeep (.block hc hmark hcall hbody hts))
  | @node tag mark mark' ts ts' hmark hkept hts =>
    by_cases hsend : tag = .str "send"
    · subst hsend
      -- A negation has just a receiver, or a receiver and an argument.
      match hts with
      | .nil => exact parallel_pure (hkeep (.node hmark hkept .nil))
      | .cons h₁ .nil => exact parallel_pure (hkeep (.node hmark hkept (.cons h₁ .nil)))
      | .cons h₁ (.cons h₂ (.cons h₃ (.cons h₄ hrest))) =>
        exact parallel_pure (hkeep (.node hmark hkept
          (.cons h₁ (.cons h₂ (.cons h₃ (.cons h₄ hrest))))))
      | .cons hreceiver (.cons hname .nil) =>
        rw [unnegated, unnegated, hname.text?]
        split
        · exact parallel_pure (hturn hreceiver)
        · exact parallel_pure (hkeep (.node hmark hkept (.cons hreceiver (.cons hname .nil))))
      | .cons hreceiver (.cons hname (.cons hargument .nil)) =>
        rw [unnegated, unnegated, hname.text?]
        split
        · exact parallel_pure (hturn (agree_placed hmark.line (by decide)
            (.triple hreceiver (agree_leaf _) hargument)))
        · exact parallel_pure (hkeep (.node hmark hkept
            (.cons hreceiver (.cons hname (.cons hargument .nil)))))
    · rw [unnegated_of_ne hsend, unnegated_of_ne hsend]
      exact parallel_pure (hkeep (.node hmark hkept hts))

/-- The body of a loop has the same tag on both sides. -/
theorem parallel_runsFirst (r : Raw) :
    c.Parallel Eq (runsFirst (c.first r)) (runsFirst (c.second r)) := by
  by_cases hcomment : r.hasTag "comment"
  · obtain ⟨fs, rfl⟩ := Raw.eq_of_hasTag hcomment
    rw [first_node rfl, second_node rfl]
    -- Under a comment it is the commented body that decides.
    change c.Parallel Eq (do let body : Raw ← require _; return body.hasTag "begin")
      (do let body : Raw ← require _; return body.hasTag "begin")
    rw [Raw.item?_map, Raw.item?_map]
    cases fs[1]? with
    | none => exact parallel_throw _
    | some x => exact parallel_pure (hasTag_image "begin" x).symm
  · unfold runsFirst
    dsimp only
    rw [hasTag_image, first, Raw.hasTag_relocate, if_neg hcomment, if_neg hcomment]
    exact parallel_pure (hasTag_image "begin" r).symm

/-- The tag of a loop. -/
theorem loopTag_notMem {word word' : String} (hword : word ∈ ["while", "until"])
    (h : word' ∈ [word, oppositeLoop word]) (checkFirst : Bool) :
    (if checkFirst then word' else word' ++ "_post") ∉ lookedInto := by
  simp only [List.mem_cons, List.not_mem_nil, or_false] at hword h
  rcases hword with rfl | rfl <;> rcases h with rfl | rfl <;> cases checkFirst <;> decide

namespace Visited

/-- A loop from conditions that agree and bodies that agree. -/
theorem makeLoop (h : c.Visited Q) (hr : Q r) {word : String} (hword : word ∈ ["while", "until"])
    (ht : c.Agree t t') (checkFirst : Bool) :
    c.Trees (makeLoop lower word (c.first r) t checkFirst)
      (makeLoop lower word (c.second r) t' checkFirst) := by
  unfold LowerM.makeLoop
  refine (h.visit hr).andThen fun u u' hu => ?_
  refine (parallel_unnegated word hu).andThen fun p q hpq => ?_
  obtain ⟨word₁, u₁⟩ := p
  obtain ⟨word₂, u₂⟩ := q
  obtain ⟨rfl, hmem, hu⟩ := hpq
  refine (parallel_conditionForm hu).map fun v v' hv => ?_
  exact agree_bare (loopTag_notMem hword hmem checkFirst) (.triple hv ht (agree_leaf _))

theorem lowerLoop (h : c.Visited Q) (hfs : fs.Within Q) {word : String}
    (hword : word ∈ ["while", "until"]) :
    c.Trees (lowerLoop word lower (fs.map c.first)) (lowerLoop word lower (fs.map c.second)) := by
  unfold LowerM.lowerLoop
  simp only [get_first, get_second]
  exact (h.visitBody (h.get hfs 1)).andThen fun _ _ ht => h.makeLoop (h.get hfs 0) hword ht true

theorem lowerLoopModifier (h : c.Visited Q) (hfs : fs.Within Q) {word : String}
    (hword : word ∈ ["while", "until"]) :
    c.Trees (lowerLoopModifier word lower (fs.map c.first))
      (lowerLoopModifier word lower (fs.map c.second)) := by
  unfold LowerM.lowerLoopModifier
  simp only [get_first, get_second]
  refine (parallel_runsFirst (fs.get 1)).andThen fun first _ hfirst => ?_
  subst hfirst
  exact (h.visit (h.get hfs 1)).andThen fun _ _ ht => h.makeLoop (h.get hfs 0) hword ht _

theorem lowerFor (h : c.Visited Q) (hfs : fs.Within Q) :
    c.Trees (lowerFor lower (fs.map c.first)) (lowerFor lower (fs.map c.second)) := by
  unfold LowerM.lowerFor
  simp only [get_first, get_second]
  refine (h.visit (h.get hfs 1)).andThen fun t t' ht => ?_
  refine (h.visit (h.get hfs 0)).andThen fun u u' hu => ?_
  refine (parallel_targetOf hu).andThen fun v v' hv => ?_
  exact (h.visitBody (h.get hfs 2)).map fun w w' hw => agree_bare (by decide) (.triple hv ht hw)

end Visited

end Loops

end Change

end RubyTree
