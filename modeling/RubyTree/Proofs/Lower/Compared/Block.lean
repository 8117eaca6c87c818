import RubyTree.Proofs.Lower.Compared.Branch

/-!
# Blocks and Definitions in Two Runs

A block without parameters of its own is looked through for numbered ones. Where
both runs number them they look through trees that agree and find the same. Where
one of them does not, all that matters is that looking through the body cannot
fail: every tag below is a text, and every local variable has a name in front,
which is what `Change.Kept` keeps track of. So one run ends up with a numbered
block and the other with a block that has no parameters.

Definitions lower their parts in a scope of their own and run in parallel as their
parts do.

## Theorems

* `parallel_highestNumbered`: The parameters a body reads.
* `exists_highestNumbered`: Looking through a body does not fail.
* `parallel_makeBlock`: A call with its block.
* `Visited.lowerBlockCall`, `Visited.lowerLambda`: Blocks.
* `Visited.lowerMethod`, `Visited.lowerClass`: Definitions.
-/

namespace RubyTree

open LowerM

namespace Change

variable {c : Change} {Q : Raw → Prop} {fs : Fields} {r : Raw} {here : Bool} {t t' : Tree}
  {ts ts' : List Tree}

section Walking

mutual

theorem size_agree (hc : c ≠ unnumbered) : (t : Tree) → {t' : Tree} → c.Agree t t' →
    t.size = t'.size
  | .leaf _, _, .leaf _ => rfl
  | .node _ _ ts, _, .node _ _ h => by
    rw [Tree.size, Tree.size, sizeAll_agree hc ts h]
  | .node _ _ _, _, .block h _ _ _ _ => absurd h hc

theorem sizeAll_agree (hc : c ≠ unnumbered) : (ts : List Tree) → {ts' : List Tree} →
    c.AgreeAll ts ts' → Tree.sizeAll ts = Tree.sizeAll ts'
  | [], _, .nil => rfl
  | t :: ts, _, .cons h hs => by
    rw [Tree.sizeAll, Tree.sizeAll, size_agree hc t h, sizeAll_agree hc ts hs]

end

/-- The nodes that are reached agree one by one. -/
theorem visit_agree (hc : c ≠ unnumbered) (skip : List String) : (steps : Nat) →
    {ts ts' : List Tree} → c.AgreeAll ts ts' →
    c.AgreeAll (Tree.visit skip steps ts) (Tree.visit skip steps ts')
  | 0, _, _, _ => .nil
  | _ + 1, _, _, .nil => .nil
  | steps + 1, _, _, .cons h hs => by
    cases h with
    | leaf _ => exact visit_agree hc skip steps hs
    | block h _ _ _ _ => exact absurd h hc
    | node hmark hkept hts =>
      refine .cons (.node hmark hkept hts) ?_
      split
      · exact visit_agree hc skip steps hs
      · exact visit_agree hc skip steps (AgreeAll.append hts hs)

theorem walk?_agree (hc : c ≠ unnumbered) (skip : List String) (h : c.Agree t t') :
    Option.Rel c.AgreeAll (t.walk? skip) (t'.walk? skip) := by
  have hwalk : c.AgreeAll (t.walk skip) (t'.walk skip) := by
    -- Both walks start at the root and go on with the same number of steps.
    cases h with
    | leaf _ => exact .nil
    | block h _ _ _ _ => exact absurd h hc
    | node hmark hkept hts =>
      rw [Tree.walk, Tree.walk, sizeAll_agree hc _ hts]
      exact .cons (.node hmark hkept hts) (visit_agree hc skip _ hts)
  have hkeys : ∀ {us us' : List Tree}, c.AgreeAll us us' →
      us.all (fun u => u.tag?.all Raw.isKey) = us'.all fun u => u.tag?.all Raw.isKey := by
    intro us us' hus
    induction hus with
    | nil => rfl
    | cons hu _ ih =>
      rw [List.all_cons, List.all_cons, ih]
      cases hu with
      | leaf _ => rfl
      | block h _ _ _ _ => exact absurd h hc
      | node _ _ _ => rfl
  have htail : ∀ {us us' : List Tree}, c.AgreeAll us us' → c.AgreeAll us.tail us'.tail := by
    intro us us' hus
    cases hus with
    | nil => exact .nil
    | cons _ hs => exact hs
  unfold Tree.walk?
  dsimp only
  rw [hkeys (htail hwalk)]
  split
  · exact .some hwalk
  · exact .none

theorem parallel_numberRead (h : c.Agree t t') :
    c.Parallel Eq (numberRead t) (numberRead t') := by
  unfold numberRead
  split
  · obtain ⟨mark', ts', rfl, -, -, hts⟩ := h.node_of_tag (by decide)
    refine (parallel_require hts.head?).andThen fun n n' hn => ?_
    rw [hn.text?]
    exact ((steady_require _).bind fun _ => steady_pure _).parallel
  · rename_i hlocal
    split
    · exact absurd rfl (h.ne_of_tag (by decide) hlocal _ _)
    · exact parallel_pure rfl

theorem parallel_highestNumbered (hc : c ≠ unnumbered) (h : c.Agree t t') :
    c.Parallel Eq (highestNumbered t) (highestNumbered t') := by
  unfold highestNumbered
  refine (parallel_require (walk?_agree hc scopeTags h)).andThen fun us us' hus => ?_
  refine (Parallel.mapM hus fun _ _ hu => parallel_numberRead hu).map fun ns ns' hns => ?_
  rw [List.forall₂_eq_eq_eq] at hns
  rw [hns]

/-- A tree that agrees with another if numbered blocks do not count. -/
def Sound (t : Tree) : Prop :=
  ∃ t', unnumbered.Agree t t'

theorem Sound.child {tag : Raw} {mark : Mark} (h : Sound (.node tag mark ts)) :
    ∀ t ∈ ts, Sound t := by
  have hall : ∀ {us us' : List Tree}, unnumbered.AgreeAll us us' → ∀ u ∈ us, Sound u := by
    intro us us' hus u hu
    induction hus with
    | nil => cases hu
    | cons h _ ih =>
      rcases List.mem_cons.1 hu with rfl | hu
      · exact ⟨_, h⟩
      · exact ih hu
  obtain ⟨t', h⟩ := h
  -- A numbered block has other children than its partner, but they agree as well.
  cases h with
  | node _ _ hts => exact hall hts
  | block _ _ hcall hbody hts =>
    intro u hu
    simp only [List.mem_cons] at hu
    rcases hu with rfl | rfl | rfl | hu
    · exact ⟨_, hcall⟩
    · exact ⟨_, agree_leaf _⟩
    · exact ⟨_, hbody⟩
    · exact hall hts u hu

/-- Whatever is reached from sound trees is sound. -/
theorem sound_of_visit (skip : List String) : (steps : Nat) → (ts : List Tree) →
    (∀ t ∈ ts, Sound t) → ∀ u ∈ Tree.visit skip steps ts, Sound u
  | 0, _, _ => fun _ hu => by cases hu
  | _ + 1, [], _ => fun _ hu => by cases hu
  | steps + 1, .leaf _ :: ts, h =>
    sound_of_visit skip steps ts fun t ht => h t (List.mem_cons_of_mem _ ht)
  | steps + 1, .node tag mark children :: ts, h => by
    have hnode : Sound (.node tag mark children) := h _ List.mem_cons_self
    have hrest : ∀ t ∈ ts, Sound t := fun t ht => h t (List.mem_cons_of_mem _ ht)
    -- The walk goes on with the children in front, and they are sound as the node is.
    have hmore : ∀ t ∈ children ++ ts, Sound t := by
      intro t ht
      rcases List.mem_append.1 ht with ht | ht
      · exact hnode.child t ht
      · exact hrest t ht
    intro u hu
    rw [Tree.visit] at hu
    rcases List.mem_cons.1 hu with rfl | hu
    · exact hnode
    · split at hu
      · exact sound_of_visit skip steps ts hrest u hu
      · exact sound_of_visit skip steps (children ++ ts) hmore u hu

theorem Sound.walk (h : Sound t) (skip : List String) : ∀ u ∈ t.walk skip, Sound u := by
  cases t with
  | leaf v => exact fun _ hu => by cases hu
  | node tag mark children =>
    intro u hu
    rw [Tree.walk] at hu
    rcases List.mem_cons.1 hu with rfl | hu
    · exact h
    · exact sound_of_visit skip _ children h.child u hu

/-- The tags in a sound tree are texts. -/
theorem Sound.tag (h : Sound t) : t.tag?.all Raw.isKey := by
  obtain ⟨t', h⟩ := h
  cases h with
  | leaf _ => rfl
  | block _ _ _ _ _ => rfl
  | node _ hkept _ =>
    obtain ⟨word, rfl, -⟩ := hkept
    rfl

/-- A local variable has a name in front. -/
theorem Sound.numberRead (h : Sound t) : ∃ n, numberRead t = pure n := by
  unfold LowerM.numberRead
  split
  · obtain ⟨t', h⟩ := h
    obtain ⟨mark', ts', rfl, -, hkept, -⟩ := h.node_of_tag (by decide)
    obtain ⟨word, hword, -, -, hlocal⟩ := hkept
    cases hword
    obtain ⟨name, rest, rfl⟩ := hlocal rfl
    exact ⟨_, rfl⟩
  · exact ⟨_, rfl⟩

/-- Looking through a sound tree does not fail. -/
theorem exists_highestNumbered (h : Sound t) : ∃ n, highestNumbered t = pure n := by
  have hnumbers : ∀ us : List Tree, (∀ u ∈ us, Sound u) →
      ∃ ns, us.mapM numberRead = (pure ns : LowerM (List Nat)) := by
    intro us
    induction us with
    | nil => exact fun _ => ⟨[], List.mapM_nil⟩
    | cons u us ih =>
      intro hus
      obtain ⟨n, hn⟩ := (hus u List.mem_cons_self).numberRead
      obtain ⟨ns, hns⟩ := ih fun v hv => hus v (List.mem_cons_of_mem _ hv)
      exact ⟨n :: ns, by rw [List.mapM_cons, hn, hns, pure_bind, pure_bind]⟩
  have hwalk := h.walk scopeTags
  have hsome : t.walk? scopeTags = some (t.walk scopeTags) := by
    -- Every node that is reached has a tag that can be looked up.
    unfold Tree.walk?
    refine if_pos (List.all_eq_true.2 fun u hu => ?_)
    exact (hwalk u (List.mem_of_mem_tail hu)).tag
  obtain ⟨ns, hns⟩ := hnumbers _ hwalk
  exact ⟨ns.foldl max 0, by rw [highestNumbered, hsome, require, pure_bind, hns, pure_bind]⟩

end Walking

section Blocks

variable {args args' call call' : Tree}

theorem agree_numbered (hc : c ≠ unnumbered) (h : c.AgreeAll ts ts') :
    c.Agree (.bare "numblock" ts) (.bare "numblock" ts') := by
  refine .node marks_empty ?_ h
  cases c with
  | moved k => simp [Kept]
  | unnumbered => exact absurd rfl hc
  | renumbered => trivial

theorem agree_params (h : c.Agree args args') :
    c.Agree (if args.isNull then .bare "args" [] else args)
      (if args'.isNull then .bare "args" [] else args') := by
  rw [h.isNull]
  split
  · exact agree_bare (by decide) .nil
  · exact h

/-- Both runs number the parameters of blocks, or neither does. -/
theorem parallel_makeBlock_numbered (hc : c ≠ unnumbered) (hcall : c.Agree call call')
    (hargs : c.Agree args args') (hbody : c.Agree t t') :
    c.Trees (makeBlock call args t) (makeBlock call' args' t') := by
  have hparams := agree_params hargs
  have hblock : ∀ {us us' : List Tree}, c.AgreeAll us us' →
      c.Agree (.bare "block" us) (.bare "block" us') := fun hus => agree_bare (by decide) hus
  have hblock := hblock (.triple hcall hparams hbody)
  unfold makeBlock
  dsimp only
  refine parallel_read.andThen fun o o' ho => ?_
  have hsame : o.numberedParams = o'.numberedParams := by
    -- The option is the one thing that `unnumbered` changes.
    cases c with
    | moved k => rw [show o = o' from ho]
    | unnumbered => exact absurd rfl hc
    | renumbered => rw [show o = o' from ho]
  rw [hsame]
  split
  · refine (parallel_childrenOf hparams fun h => absurd h hc).andThen fun us us' hus => ?_
    rw [hus.isEmpty]
    split
    · refine (parallel_highestNumbered hc hbody).andThen fun n _ hn => ?_
      subst hn
      split
      · exact parallel_pure (agree_numbered hc (.triple hcall (agree_leaf _) hbody))
      · exact parallel_pure hblock
    · exact parallel_pure hblock
  · exact parallel_pure hblock

/-- Only the first run numbers the parameters of blocks. -/
theorem parallel_makeBlock_unnumbered (hcall : unnumbered.Agree call call')
    (hargs : unnumbered.Agree args args') (hparams : Production.IsParams args)
    (hbody : unnumbered.Agree t t') :
    unnumbered.Trees (makeBlock call args t) (makeBlock call' args' t') := by
  obtain ⟨n, hn⟩ := exists_highestNumbered ⟨_, hbody⟩
  have hempty : ∀ mark' : Mark, unnumbered.Marks {} mark' → mark' = {} := by
    rintro ⟨line, comments, shared⟩ ⟨hline, hcomments, hshared⟩
    cases hline
    cases hcomments
    cases hshared
    rfl
  have hnone : unnumbered.Trees
      (do let count ← highestNumbered t
          if count != 0 then return .bare "numblock" [call, .int count, t]
          return .bare "block" [call, .bare "args" [], t])
      (return .bare "block" [call', .bare "args" [], t']) := by
    rw [hn, pure_bind]
    split
    · exact parallel_pure (.block rfl marks_empty hcall hbody .nil)
    · exact parallel_pure (agree_bare (by decide)
        (.triple hcall (agree_bare (by decide) .nil) hbody))
  unfold makeBlock
  dsimp only
  refine parallel_read.andThen fun o o' ho => ?_
  have hoff : o'.numberedParams = false := by rw [ho.2]
  simp only [ho.1, hoff, if_true, Bool.false_eq_true, if_false]
  -- Only a block without parameters can be numbered, whether they are absent or empty.
  obtain rfl | rfl | ⟨tag, mark, u, us, rfl⟩ := hparams
  · cases hargs.of_null
    exact hnone
  · obtain ⟨mark', ts', rfl, hmark, -, hts⟩ := hargs.node_of_tag (by decide)
    cases hempty mark' hmark
    cases hts
    exact hnone
  · have hnull : args'.isNull = false := hargs.isNull.symm
    rw [hnull]
    exact parallel_pure (agree_bare (by decide) (.triple hcall hargs hbody))

theorem parallel_makeBlock (hcall : c.Agree call call') (hargs : c.Agree args args')
    (hparams : c = unnumbered → Production.IsParams args) (hbody : c.Agree t t') :
    c.Trees (makeBlock call args t) (makeBlock call' args' t') := by
  by_cases hc : c = unnumbered
  · subst hc
    exact parallel_makeBlock_unnumbered hcall hargs (hparams rfl) hbody
  · exact parallel_makeBlock_numbered hc hcall hargs hbody

namespace Visited

theorem paramsAndBody (h : c.Visited Q) (hfs : fs.Within Q) :
    c.Parallel (fun p q => c.Agree p.1 q.1 ∧ c.Agree p.2 q.2 ∧
        Returns (lower (Fields.get (fs.map c.first) 0)) p.1)
      (paramsAndBody lower (fs.map c.first)) (paramsAndBody lower (fs.map c.second)) := by
  unfold LowerM.paramsAndBody
  refine (h.field hfs 0).bind fun t t' ht hret _ => ?_
  rw [get_first fs 1, get_second fs 1]
  refine ((h.visitBody (h.get hfs 1)).withRest (sameNames_restName ht)).map fun u u' hu => ?_
  exact ⟨ht, hu, hret⟩

theorem lowerBlockBody (h : c.Visited Q) (hfs : fs.Within Q) :
    c.Trees (lowerBlockBody lower (fs.map c.first)) (lowerBlockBody lower (fs.map c.second)) := by
  unfold LowerM.lowerBlockBody
  exact (h.paramsAndBody hfs).map fun p q hpq => agree_bare (by decide) (.pair hpq.1 hpq.2.1)

theorem lowerLambda (h : c.Visited Q) (hfs : fs.Within Q) (hparams : c.Params .lambda fs) :
    c.Trees (lowerLambda lower (fs.map c.first)) (lowerLambda lower (fs.map c.second)) := by
  unfold LowerM.lowerLambda
  refine (h.paramsAndBody hfs).andThen fun p q hpq => ?_
  obtain ⟨hargs, hbody, hret⟩ := hpq
  refine parallel_makeBlock (agree_bare (by decide) .nil) hargs ?_ hbody
  rintro rfl
  rw [get_first, first_eq_self (by intro k hk; cases hk)] at hret
  exact hparams _ hret

theorem lowerBlockCall (h : c.Visited Q) (hfs : fs.Within Q) (hparams : c.Params .blockCall fs) :
    c.Trees (lowerBlockCall lower (fs.map c.first)) (lowerBlockCall lower (fs.map c.second)) := by
  unfold LowerM.lowerBlockCall
  refine (h.field hfs 0).andThen fun t t' ht => ?_
  refine (h.field hfs 1).bind fun u u' hu hret _ => ?_
  cases hu with
  | leaf _ => exact parallel_throw _
  | block _ _ _ _ _ => exact parallel_throw _
  | node hmark hkept hts =>
    cases hts with
    | nil => exact parallel_throw _
    | cons hargs hts =>
      cases hts with
      | nil => exact parallel_throw _
      | cons hbody hts =>
        cases hts with
        | cons _ _ => exact parallel_throw _
        | nil =>
          refine parallel_makeBlock ht hargs ?_ hbody
          -- The parameters of the block are what lowering has given for the field.
          rintro rfl
          rw [get_first, first_eq_self (by intro k hk; cases hk)] at hret
          exact hparams _ _ _ hret rfl

end Visited

end Blocks

section Definitions

theorem Agree.unwrapBegin (h : c.Agree t t') : c.Agree t.unwrapBegin t'.unwrapBegin := by
  unfold Tree.unwrapBegin
  split
  · obtain ⟨mark', ts', rfl, -, -, hts⟩ := h.node_of_tag (by decide)
    match hts with
    | .cons ht .nil => exact ht
  · rename_i hbegin
    split
    · obtain ⟨mark, ts, rfl, -, -, hts⟩ := h.node_of_tag' (by decide)
      match hts with
      | .cons _ .nil => exact absurd rfl (hbegin _ _)
    · exact h

namespace Visited

theorem methodParams (h : c.Visited Q) (hr : Q r) :
    c.Trees (methodParams lower (c.first r)) (methodParams lower (c.second r)) := by
  have hargs : c.Agree (.bare "args" []) (.bare "args" []) := agree_bare (by decide) .nil
  unfold LowerM.methodParams
  rw [isEmpty_image]
  split
  · exact parallel_pure hargs
  · refine (h.visit hr).andThen fun t t' ht => ?_
    split
    · cases ht.of_null
      exact parallel_pure hargs
    · obtain ⟨mark', ts', rfl, -⟩ := ht.node_of_tag (by decide)
      exact parallel_pure hargs
    · -- What is neither null nor empty in one tree is neither in the other.
      rename_i hnull hnil
      split
      · exact absurd ht.to_null hnull
      · exact absurd rfl (ht.ne_of_tag (by decide) hnil _ _)
      · exact parallel_pure ht

theorem methodStatements (h : c.Visited Q) (hr : Q r) :
    c.TreeLists (methodStatements lower (c.first r)) (methodStatements lower (c.second r)) := by
  unfold LowerM.methodStatements
  rw [hasTag_image]
  split
  on_goal 1 => refine (h.visit hr).andThen fun t t' ht => ?_
  on_goal 2 => refine (h.visitBody hr).andThen fun t t' ht => ?_
  -- A list of statements and one statement are visited differently and then told apart alike.
  all_goals
    dsimp only
    split
    · cases ht.of_null
      exact parallel_pure (.single (agree_bare (by decide) .nil))
    · obtain ⟨mark', ts', rfl, -, -, hts⟩ := ht.node_of_tag (by decide)
      exact parallel_pure hts
    · rename_i hnull hbegin
      split
      · exact absurd ht.to_null hnull
      · exact absurd rfl (ht.ne_of_tag (by decide) hbegin _ _)
      · exact parallel_pure (.single ht)

theorem methodParts (h : c.Visited Q) {params body : Raw} (hp : Q params) (hb : Q body) :
    c.TreeLists (methodParts lower (c.first params) (c.first body))
      (methodParts lower (c.second params) (c.second body)) := by
  have hinside := (h.methodParams hp).andThen fun t t' ht =>
    ((h.methodStatements hb).withRest (sameNames_restName ht)).map fun _ _ hts =>
      List.Forall₂.cons ht hts
  exact hinside.inBody true

theorem lowerMethod (h : c.Visited Q) (hfs : fs.Within Q) (hplace : c.Sited (fs.get 3))
    (hname : c.Scanned (fs.get 0)) :
    c.Trees (lowerMethod lower (c.firstAt here 3 fs))
      (lowerMethod lower (c.secondAt here 3 fs)) := by
  unfold LowerM.lowerMethod
  rw [get_firstAt here (by decide : 3 ≠ 0), get_firstAt here (by decide : 3 ≠ 1),
    get_firstAt here (by decide : 3 ≠ 2), get_secondAt here (by decide : 3 ≠ 0),
    get_secondAt here (by decide : 3 ≠ 1), get_secondAt here (by decide : 3 ≠ 2), hname.nameIn]
  refine (h.methodParts (h.get hfs 1) (h.get hfs 2)).andThen fun ts ts' hts => ?_
  refine (steady_nameIn _).parallel.map fun name _ hn => ?_
  subst hn
  exact agree_placed hplace.get (by decide) (.cons (agree_leaf _) hts)

theorem lowerSingletonMethod (h : c.Visited Q) (hfs : fs.Within Q) (hplace : c.Sited (fs.get 5))
    (hname : c.Scanned (fs.get 2)) :
    c.Trees (lowerSingletonMethod lower (c.firstAt here 5 fs))
      (lowerSingletonMethod lower (c.secondAt here 5 fs)) := by
  unfold LowerM.lowerSingletonMethod
  rw [get_firstAt here (by decide : 5 ≠ 2), get_firstAt here (by decide : 5 ≠ 3),
    get_firstAt here (by decide : 5 ≠ 4), get_secondAt here (by decide : 5 ≠ 2),
    get_secondAt here (by decide : 5 ≠ 3), get_secondAt here (by decide : 5 ≠ 4), hname.nameIn]
  refine (h.beside hfs (by decide)).andThen fun t t' ht => ?_
  refine (h.methodParts (h.get hfs 3) (h.get hfs 4)).andThen fun ts ts' hts => ?_
  refine (steady_nameIn _).parallel.map fun name _ hn => ?_
  subst hn
  exact agree_placed hplace.get (by decide) (.cons ht.unwrapBegin (.cons (agree_leaf _) hts))

theorem namespaceBody (h : c.Visited Q) (hr : Q r) :
    c.Trees (namespaceBody lower (c.first r)) (namespaceBody lower (c.second r)) :=
  (h.visitBody hr).inBody false

theorem lowerModule (h : c.Visited Q) (hfs : fs.Within Q) (hplace : c.Sited (fs.get 2)) :
    c.Trees (lowerModule lower (c.firstAt here 2 fs))
      (lowerModule lower (c.secondAt here 2 fs)) := by
  unfold LowerM.lowerModule
  rw [get_firstAt here (by decide : 2 ≠ 1), get_secondAt here (by decide : 2 ≠ 1)]
  refine (h.beside hfs (by decide)).andThen fun t t' ht => ?_
  exact (h.namespaceBody (h.get hfs 1)).map fun _ _ hu =>
    agree_placed hplace.get (by decide) (.pair ht hu)

theorem lowerSingletonClass (h : c.Visited Q) (hfs : fs.Within Q) (hplace : c.Sited (fs.get 2)) :
    c.Trees (lowerSingletonClass lower (c.firstAt here 2 fs))
      (lowerSingletonClass lower (c.secondAt here 2 fs)) := by
  unfold LowerM.lowerSingletonClass
  rw [get_firstAt here (by decide : 2 ≠ 1), get_secondAt here (by decide : 2 ≠ 1)]
  refine (h.beside hfs (by decide)).andThen fun t t' ht => ?_
  exact (h.namespaceBody (h.get hfs 1)).map fun _ _ hu =>
    agree_placed hplace.get (by decide) (.pair ht hu)

theorem lowerClass (h : c.Visited Q) (hfs : fs.Within Q) (hplace : c.Sited (fs.get 3)) :
    c.Trees (lowerClass lower (c.firstAt here 3 fs)) (lowerClass lower (c.secondAt here 3 fs)) := by
  unfold LowerM.lowerClass
  rw [get_firstAt here (by decide : 3 ≠ 2), get_secondAt here (by decide : 3 ≠ 2)]
  refine (h.beside hfs (by decide)).andThen fun t t' ht => ?_
  refine (h.beside hfs (by decide)).andThen fun u u' hu => ?_
  exact (h.namespaceBody (h.get hfs 2)).map fun _ _ hv =>
    agree_placed hplace.get (by decide) (.triple ht hu hv)

theorem lowerHook (h : c.Visited Q) (hfs : fs.Within Q) (hplace : c.Sited (fs.get 1))
    {tag : String} (htag : tag ∉ lookedInto) :
    c.Trees (lowerHook tag lower (c.firstAt here 1 fs))
      (lowerHook tag lower (c.secondAt here 1 fs)) := by
  unfold LowerM.lowerHook
  rw [get_firstAt here (by decide : 1 ≠ 0), get_secondAt here (by decide : 1 ≠ 0)]
  exact (h.visitBody (h.get hfs 0)).map fun _ _ ht => agree_placed hplace.get htag (.single ht)

end Visited

end Definitions

end Change

end RubyTree
