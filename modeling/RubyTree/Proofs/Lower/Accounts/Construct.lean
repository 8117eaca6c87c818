import RubyTree.Proofs.Lower.Accounts.Expression

/-!
# Accounts of Constructs

Sequences, bodies, parameters, blocks, definitions, branches and patterns. They drop
empty statements and redundant wrappers, and nothing that is dropped counts for
anything.

The parts of a definition are lowered in a scope of their own, and that scope is the
place where they stand in the node for the definition. So the parameters and
statements of a method are weighed inside of it, the body of a namespace is weighed
outside of all methods, and what else a definition has is weighed where the
definition is.

## Theorems

* `counts_lowerStatements`, `counts_lowerParen`, `counts_lowerBody`: Bodies.
* `accounts_asParameter`, `counts_lowerParams`, `counts_lowerBlockParams`: Parameters.
* `accounts_makeBlock`: Blocks.
* `counts_lowerMethod`, `counts_lowerClass`: Definitions.
* `accounts_conditionForm`, `accounts_makeLoop`: Conditions and loops.
* `counts_lowerArrayPattern`, `counts_lowerHashPattern`: Patterns.
-/

namespace RubyTree

open RubyTree.Tree (isPlain)

namespace LowerM

variable {L : Ledger} {m : Bool} {go : Visit} {fs : Fields} {due held d₀ d₁ d₂ d₃ : Nat}

section Sequences

/-- Statements are due what each of them is due; what is void has nothing. -/
theorem counts_lowerStatements (h : ∀ r ∈ fs, Counts L m (L.due r) (go r)) :
    Counts L m (L.dueAll fs) (lowerStatements go fs) := by
  unfold lowerStatements
  refine (counts_mapM h).last fun ts _ => ?_
  -- Void statements are left out, and they count for nothing.
  have hkept : L.Settles (L.total m ts) (L.total m (Tree.rejectVoid ts)) :=
    Ledger.settles_rejectVoid
  split
  · rename_i hnone
    rw [hnone] at hkept
    exact accounts_settled (hkept.trans (Ledger.settles_of_eq (Ledger.weigh_void _)))
  · rename_i hone
    rw [hone] at hkept
    exact accounts_settled hkept
  · exact accounts_settled (hkept.trans (Ledger.settles_of_eq (Ledger.weigh_bare rfl)))

/-- A list of statements in a place for statements. -/
theorem counts_statementList_stmts {statements : List Raw}
    (h : ∀ r ∈ statements, Counts L m (L.due r) (go r)) :
    CountsAll L m (L.dueAll statements)
      (statementList go (.list (.str "stmts" :: statements))) := by
  unfold statementList
  exact (counts_mapM h).last fun ts _ => accounts_settled Ledger.settles_rejectVoid

/-- Parentheses are due what is in them. -/
theorem counts_lowerParen (h : Counts L m (L.due (fs.get 0)) (go (fs.get 0))) :
    Counts L m (L.due (fs.get 0)) (lowerParen go fs) := by
  unfold lowerParen
  dsimp only
  split
  · rename_i hempty
    rw [Ledger.due_of_isEmpty hempty]
    exact accounts_bare rfl rfl
  · -- Whatever goes around the one tree is plain, so it counts for what the tree does.
    refine h.last fun t _ => ?_
    split
    · rename_i hvoid
      refine accounts_settled ((Ledger.settles_of_isVoid hvoid).trans (Ledger.settles_of_eq ?_))
      exact Ledger.weigh_bare rfl
    · split
      · exact accounts_pure rfl
      · split
        · exact accounts_pure rfl
        · exact accounts_bare rfl rfl

end Sequences

section Bodies

/-- One exception, or exceptions with a splat among them. -/
theorem counts_exceptionList_node {r : Raw} (htag : r.tag?.isSome)
    (h : Counts L m (L.due r) (go r)) : Counts L m (L.due r) (exceptionList go r) := by
  unfold exceptionList
  split
  · rename_i hempty
    rw [Ledger.due_of_isEmpty hempty]
    exact accounts_pure (by simp)
  · exact (counts_argumentList h).last fun _ _ => accounts_bare rfl rfl

/-- Exceptions that stand in a plain list, in the order of the list. -/
theorem counts_exceptionList_list {rs : List Raw} (h : ∀ r ∈ rs, Counts L m (L.due r) (go r))
    (htag : (Raw.list rs).tag? = none) :
    Counts L m (L.due (.list rs)) (exceptionList go (.list rs)) := by
  unfold exceptionList
  split
  · rename_i hempty
    rw [Ledger.due_of_isEmpty hempty]
    exact accounts_pure (by simp)
  · -- The list has no tag, so its elements are due one by one.
    rw [htag, if_neg (by simp), Ledger.due_of_tag?_eq_none htag]
    have hall : CountsAll L m (L.dueAll rs) (visitAll go (.list rs)) := by
      unfold visitAll
      rw [elementsOf_list]
      exact Restores.andThen (congruence_restores.pure _) fun xs hxs =>
        returns_pure hxs ▸ counts_mapM h
    exact hall.last fun _ _ => accounts_bare rfl rfl

/-- The variable of a clause is assigned to, so it has to be a target. -/
theorem counts_rescueClause {exceptions captured statements : Raw}
    (hexceptions : Counts L m d₀ (exceptionList go exceptions))
    (hcaptured : captured.isEmpty = false → Counts L m (L.due captured) (go captured) ∧
      ∀ t, Returns (go captured) t → Assignable t)
    (hstatements : Counts L m d₁ (go statements)) :
    Counts L m (d₀ + (L.due captured + d₁)) (rescueClause go exceptions captured statements) := by
  unfold rescueClause
  refine hexceptions.andThen fun e _ => ?_
  dsimp only
  split
  · rename_i hempty
    rw [Ledger.due_of_isEmpty hempty, Nat.zero_add]
    exact (counts_visitBody hstatements).last fun _ _ => accounts_bare rfl (by simp +arith)
  · rename_i hpresent
    obtain ⟨hcounts, htarget⟩ := hcaptured (Bool.eq_false_iff.2 hpresent)
    refine hcounts.andThen fun t ht => ?_
    -- The class of the error is held back while the variable becomes a target.
    refine (accounts_targetOf (htarget t ht)).given (L.weigh m e) (by omega) fun u _ => ?_
    exact (counts_visitBody hstatements).last fun _ _ => accounts_bare rfl (by simp +arith)

/-- A body without clauses, or one with rescue clauses. -/
theorem counts_lowerBody (hstatements : CountsAll L m d₀ (statementList go (fs.get 0)))
    (hrescue : (fs.get 1).isEmpty = false →
      CountsAll L m (L.due (fs.get 1)) (rescueClauses go (fs.get 1)))
    (hotherwise : Counts L m (L.due (fs.get 2)) (go (fs.get 2)))
    (hensure : Counts L m (L.due (fs.get 3)) (go (fs.get 3))) :
    Counts L m (d₀ + (L.due (fs.get 1) + (L.due (fs.get 2) + L.due (fs.get 3))))
      (lowerBody go fs) := by
  -- The `ensure` clause comes last, whatever the rest of the body is.
  have hend (body : Tree) : Accounts L m (L.due (fs.get 3)) (L.weigh m body) (do
      if (fs.get 3).isEmpty then return body
      return .bare "ensure" [body, ← go (fs.get 3)]) (L.weigh m) := by
    split
    · rename_i hempty
      rw [Ledger.due_of_isEmpty hempty]
      exact accounts_pure rfl
    · exact hensure.last fun _ _ => accounts_bare rfl (by simp +arith)
  unfold lowerBody
  refine hstatements.andThen fun ts _ => ?_
  dsimp only
  split
  · rename_i hpresent
    refine (hrescue (by simpa using hpresent)).andThen fun clauses _ => ?_
    refine (counts_visitBody hotherwise).andThen fun t _ => ?_
    exact (hend _).congr (by simp +arith [Ledger.weigh_ofStatements])
  · rename_i hempty
    rw [Ledger.due_of_isEmpty (by simpa using hempty), Nat.zero_add]
    split
    · refine (counts_visitBody hotherwise).andThen fun t _ => ?_
      refine (hend _).congr ?_
      simp +arith [Ledger.weigh_ofStatements, total_present]
    · rename_i hnone
      rw [Ledger.due_of_isEmpty (by simpa using hnone), Nat.zero_add]
      exact (hend _).congr (by simp [Ledger.weigh_ofStatements])

/-- A `begin` block opens the block it finds and keeps its children. -/
theorem counts_lowerBegin (h : Counts L m due (go (fs.get 0))) :
    Counts L m due (lowerBegin go fs) := by
  unfold lowerBegin
  dsimp only
  split
  · exact h.last fun _ _ => accounts_bare rfl rfl
  · refine h.last fun t _ => ?_
    split
    · exact accounts_placed rfl (by simp)
    · exact accounts_opened rfl (Ledger.weigh_placed rfl)
    · exact accounts_placed rfl rfl

/-- `a rescue b` is due what its two sides are due. -/
theorem counts_lowerRescueModifier (h₀ : Counts L m d₀ (go (fs.get 0)))
    (h₁ : Counts L m d₁ (go (fs.get 1))) : Counts L m (d₀ + d₁) (lowerRescueModifier go fs) :=
  h₀.andThen fun _ _ => h₁.last fun _ _ => accounts_bare rfl (by simp +arith)

end Bodies

section Parameters

/-- A parameter counts for what the name or list of names does that it is made from. -/
theorem accounts_asParameter {t : Tree} (h : Binder t) :
    Accounts L m 0 (L.weigh m t) (asParameter t) (L.weigh m) := by
  have hname {tag : String} {mark : Mark} {name : String} {u : Tree} (htag : isPlain (.str tag))
      (hu : L.weigh m u = 0) :
      Accounts L m 0 (L.weigh m (.node (.str tag) mark [.sym name])) (pure u) (L.weigh m) :=
    accounts_opened htag (by simp [hu])
  -- By the binder: a list is renamed only once its names are.
  induction h with
  | name htag =>
    rcases htag with rfl | rfl
    · exact hname rfl (by simp)
    · exact hname rfl (by simp)
  | @list mark children _ ih =>
    have hlower : asParameter (.node (.str "mlhs") mark children) = do
        return .placed mark.line "mlhs" (← asParameters children) := by
      rw [asParameter]
    have hparts : Accounts L m 0 (L.total m children) (children.mapM asParameter)
        fun us => (us.map (L.weigh m)).sum := accounts_mapM ih
    rw [hlower, asParameters_eq]
    refine (hparts.mono ((Ledger.settles_children rfl).add_left 0)).bind fun us _ => ?_
    exact accounts_placed rfl Ledger.total_eq_sum
  | rest => exact accounts_opened rfl (Ledger.weigh_bare rfl)
  | @namedRest mark mark' name =>
    have hinner : L.Settles (L.weigh m (.node (.str "lvasgn") mark' [.sym name]) + 0)
        (L.total m [.sym name] + 0) :=
      (Ledger.settles_children rfl).add (Ledger.settles_of_eq rfl)
    refine accounts_settled (((Ledger.settles_children rfl).trans hinner).trans
      (Ledger.settles_of_eq ?_))
    exact Ledger.weigh_placed rfl

/-- Positional parameters, each of which binds a name. -/
theorem counts_positional {r : Raw}
    (hdue : ∀ rs, Returns (elementsOf r) rs → L.dueAll rs = due)
    (h : ∀ rs, Returns (elementsOf r) rs → ∀ x ∈ rs,
      Counts L m (L.due x) (go x) ∧ ∀ t, Returns (go x) t → Binder t) :
    CountsAll L m due (positional go r) := by
  refine counts_overElements hdue fun rs hrs x hx => ?_
  obtain ⟨hcounts, hbinder⟩ := h rs hrs x hx
  exact hcounts.last fun t ht => accounts_asParameter (hbinder t ht)

/-- A parameter is due what its default is due. -/
theorem counts_optional {name value : Raw} (h : Counts L m due (go value)) :
    Counts L m due (optional go (.list [name, value])) := by
  show Counts L m due (nameOf name >>= _)
  refine Restores.andThen (congruence_restores.nameOf _) fun _ _ => ?_
  exact h.last fun _ _ => accounts_placed rfl (by simp)

/-- A keyword parameter is due what its default is due, if it has one. -/
theorem counts_keyword {label value : Raw}
    (h : value.isEmpty = false → Counts L m (L.due value) (go value)) :
    Counts L m (L.due value) (keyword go (.list [label, value])) := by
  show Counts L m (L.due value) (require (label.item? 1) >>= _)
  refine Restores.andThen (congruence_restores.require _) fun _ _ => ?_
  refine Restores.andThen (congruence_restores.clippedName _) fun _ _ => ?_
  split
  · rename_i hempty
    rw [Ledger.due_of_isEmpty hempty]
    exact accounts_placed rfl (by simp)
  · rename_i hpresent
    exact (h (Bool.eq_false_iff.2 hpresent)).last fun _ _ => accounts_placed rfl (by simp)

/-- The parameters of a list, given those of each of its parts. Those of which there is
    at most one have no code. -/
theorem counts_lowerParams (h₀ : CountsAll L m d₀ (positional go (fs.get 0)))
    (h₁ : ∀ rs, Returns (elementsOf (fs.get 1)) rs → CountsAll L m d₁ (rs.mapM (optional go)))
    (h₂ : isExtraComma (fs.get 2) = false → CountsAll L m 0 (special go (fs.get 2)))
    (h₃ : CountsAll L m d₂ (positional go (fs.get 3)))
    (h₄ : ∀ rs, Returns (elementsOf (fs.get 4)) rs → CountsAll L m d₃ (rs.mapM (keyword go)))
    (h₅ : CountsAll L m 0 (special go (fs.get 5))) (h₆ : CountsAll L m 0 (special go (fs.get 6))) :
    Counts L m (d₀ + (d₁ + (d₂ + d₃))) (lowerParams go fs) := by
  unfold lowerParams
  refine h₀.andThen fun required _ => ?_
  refine Restores.andThen (congruence_restores.elementsOf _) fun rs hrs => ?_
  refine (h₁ rs hrs).andThen fun optionals _ => ?_
  -- What follows the rest parameter is the same with and without one.
  have hend (rest : List Tree) (hrest : L.total m rest = 0) :
      Accounts L m (d₂ + d₃) (L.total m optionals + (L.total m required + 0)) (do
        let post ← positional go (fs.get 3)
        let keywords ← (← elementsOf (fs.get 4)).mapM (keyword go)
        let kwrest ← special go (fs.get 5)
        let block ← special go (fs.get 6)
        return Tree.bare "args"
          (required ++ optionals ++ rest ++ post ++ keywords ++ kwrest ++ block))
        (L.weigh m) := by
    refine h₃.andThen fun post _ => ?_
    refine Restores.andThen (congruence_restores.elementsOf _) fun ks hks => ?_
    refine (h₄ ks hks).last fun keywords _ => ?_
    refine h₅.nothing fun kwrest _ hkwrest => h₆.nothing fun block _ hblock => ?_
    exact accounts_bare rfl (by simp +arith [hrest, hkwrest, hblock])
  dsimp only
  split
  · exact hend [] rfl
  · rename_i hcomma
    exact (h₂ (Bool.eq_false_iff.2 hcomma)).nothing fun rest _ hrest => hend rest hrest

/-- A name local to a block is due nothing. -/
theorem counts_shadow (token : Raw) : Counts L m 0 (shadow token) :=
  Restores.andThen (congruence_restores.nameOf _) fun _ _ => accounts_placed rfl (by simp)

/-- Wrapping a lone parameter keeps what it holds. -/
theorem accounts_wrapLone (ts : List Tree) :
    Accounts L m 0 (L.total m ts) (wrapLone ts) (L.total m) := by
  unfold wrapLone
  split
  · exact accounts_throw
  · exact accounts_pure (by simp)
  · rename_i mark children
    have hlist : L.Settles (L.weigh m (.node (.str "mlhs") mark children) + 0)
        (L.total m children + 0) :=
      (Ledger.settles_children rfl).add (Ledger.settles_of_eq rfl)
    exact accounts_settled (hlist.trans (Ledger.settles_of_eq (by simp)))
  · exact accounts_pure rfl

/-- The parameter list is taken apart, so its own tag must not count. -/
theorem counts_lowerBlockParams (h : Counts L m due (go (fs.get 0)))
    (hnode : ∀ t, Returns (go (fs.get 0)) t → t.plain) :
    Counts L m due (lowerBlockParams go fs) := by
  unfold lowerBlockParams
  refine h.last fun args hargs => ?_
  refine Restores.andThen (congruence_restores.childrenOf _) fun children hchildren => ?_
  -- The list is taken apart: without its children it counts for its comments.
  have hsum := Ledger.weigh_withChildren (L := L) (m := m) (hnode args hargs)
    (returns_require hchildren)
  have hempty := hsum []
  rw [Ledger.total_nil] at hempty
  have hend (cs : List Tree) :
      Accounts L m 0 (L.total m cs + L.weigh m (args.withChildren [])) (do
        let shadows ← (← elementsOf (fs.get 1)).mapM shadow
        return args.withChildren (cs ++ shadows)) (L.weigh m) := by
    refine Restores.andThen (congruence_restores.elementsOf _) fun tokens _ => ?_
    have hshadows : CountsAll L m 0 (tokens.mapM shadow) := by
      have hall := Accounts.mapM (L := L) (m := m) (fun _ => 0) (fun _ => 0)
        fun token (_ : token ∈ tokens) => counts_shadow token
      have hnone : (tokens.map fun _ => 0).sum = 0 := by simp
      rw [hnone] at hall
      simpa only [← Ledger.total_eq_sum] using hall
    refine hshadows.nothing fun shadows _ hzero => accounts_pure ?_
    have hmore := hsum (cs ++ shadows)
    rw [Ledger.total_append, hzero] at hmore
    omega
  refine Restores.andThen (congruence_restores.hasTrailingComma _) fun comma _ => ?_
  dsimp only
  split
  · exact (hend children).congr (by omega)
  · exact (accounts_wrapLone children).given (L.weigh m (args.withChildren [])) (by omega)
      fun cs _ => hend cs

end Parameters

section Blocks

/-- Parameters that are left out for numbered ones are none. -/
theorem accounts_makeBlock {call args body : Tree} (hargs : args.plain) :
    Accounts L m 0 (L.weigh m call + (L.weigh m args + L.weigh m body)) (makeBlock call args body)
      (L.weigh m) := by
  unfold makeBlock
  -- Without parameters there is an empty list, which counts for nothing either.
  have hparams : (if args.isNull then .bare "args" [] else args).plain ∧
      L.Settles (L.weigh m args)
        (L.weigh m (if args.isNull then .bare "args" [] else args)) := by
    split
    · rename_i hnull
      have hvoid : args.isVoid := by simp [Tree.isVoid, hnull]
      refine ⟨rfl, (Ledger.settles_of_isVoid hvoid).trans (Ledger.settles_of_eq ?_)⟩
      exact Ledger.weigh_bare rfl
    · exact ⟨hargs, Ledger.settles_of_eq rfl⟩
  generalize (if args.isNull then Tree.bare "args" [] else args) = params at hparams
  obtain ⟨hplain, hsettles⟩ := hparams
  have hthree {n : Nat} (hn : L.Settles (L.weigh m args) n) :
      L.Settles (L.weigh m call + (L.weigh m args + L.weigh m body))
        (L.weigh m call + (n + L.weigh m body)) :=
    (hn.add (Ledger.settles_of_eq rfl)).add_left _
  have hblock : Accounts L m 0 (L.weigh m call + (L.weigh m args + L.weigh m body))
      (pure (.bare "block" [call, params, body])) (L.weigh m) :=
    accounts_settled ((hthree hsettles).trans (Ledger.settles_of_eq (by simp)))
  dsimp only
  refine Restores.andThen congruence_restores.read fun options _ => ?_
  split
  · refine Restores.andThen (congruence_restores.childrenOf _) fun children hchildren => ?_
    split
    · rename_i hempty
      refine Restores.andThen (congruence_restores.highestNumbered _) fun count _ => ?_
      split
      · -- A numbered block leaves the parameters out, so there must be none in them.
        have hnone : L.Settles (L.weigh m params) (L.total m children) :=
          Ledger.settles_of_children? hplain (returns_require hchildren)
        rw [List.isEmpty_iff.1 hempty] at hnone
        exact accounts_settled ((hthree (hsettles.trans hnone)).trans
          (Ledger.settles_of_eq (by simp)))
      · exact hblock
    · exact hblock
  · exact hblock

/-- Parameters and body of a block, in the order of the fields. -/
theorem accounts_paramsAndBody (h₀ : Counts L m d₀ (go (fs.get 0)))
    (h₁ : Counts L m d₁ (go (fs.get 1))) :
    Accounts L m (d₀ + d₁) 0 (paramsAndBody go fs) fun p => L.weigh m p.2 + L.weigh m p.1 :=
  h₀.andThen fun _ _ => ((counts_visitBody h₁).withRest _).last fun _ _ => accounts_pure rfl

/-- A block before it has a call. -/
theorem counts_lowerBlockBody (h₀ : Counts L m d₀ (go (fs.get 0)))
    (h₁ : Counts L m d₁ (go (fs.get 1))) : Counts L m (d₀ + d₁) (lowerBlockBody go fs) :=
  (accounts_paramsAndBody h₀ h₁).last fun _ _ => accounts_bare rfl (by simp +arith)

/-- The block is opened, so neither its tag nor that of its parameters may count. -/
theorem counts_lowerBlockCall (h₀ : Counts L m d₀ (go (fs.get 0)))
    (h₁ : Counts L m d₁ (go (fs.get 1)))
    (hnode : ∀ t, Returns (go (fs.get 1)) t →
      t.plain ∧ ∀ args body, t.children? = some [args, body] → args.plain) :
    Counts L m (d₀ + d₁) (lowerBlockCall go fs) := by
  unfold lowerBlockCall
  refine h₀.andThen fun call _ => h₁.last fun block hblock => ?_
  obtain ⟨hplain, hargs⟩ := hnode block hblock
  refine Restores.andThen (congruence_restores.childrenOf _) fun children hchildren => ?_
  have hchildren := returns_require hchildren
  split
  · rename_i args body _
    -- The arguments and the body are taken out of the node, which is plain.
    refine (accounts_makeBlock (hargs args body hchildren)).mono (Ledger.Settles.add_left ?_ 0)
    have hparts := (Ledger.settles_of_children? (L := L) (m := m) hplain hchildren).add
      (Ledger.settles_of_eq (L := L) (show L.weigh m call + 0 = L.weigh m call + 0 from rfl))
    exact hparts.trans (Ledger.settles_of_eq (by simp +arith))
  · exact accounts_throw

/-- A lambda drops the tag of its parameters. -/
theorem counts_lowerLambda (h₀ : Counts L m d₀ (go (fs.get 0)))
    (hnode : ∀ t, Returns (go (fs.get 0)) t → t.plain) (h₁ : Counts L m d₁ (go (fs.get 1))) :
    Counts L m (d₀ + d₁) (lowerLambda go fs) := by
  refine (accounts_paramsAndBody h₀ h₁).last fun p hp => ?_
  obtain ⟨args, hargs, hp⟩ := returns_bind hp
  obtain ⟨body, -, hp⟩ := returns_bind hp
  cases returns_pure hp
  exact (accounts_makeBlock (hnode args hargs)).congr (by simp +arith)

end Blocks

section Definitions

/-- Parameters of a method, which are handed on unless there are none. -/
theorem counts_methodParams {r : Raw} (h : Counts L m (L.due r) (go r))
    (hlist : r.isEmpty = false → ∀ t, Returns (go r) t → t.hasTag "args") :
    Counts L m (L.due r) (methodParams go r) := by
  unfold methodParams
  split
  · rename_i hempty
    rw [Ledger.due_of_isEmpty hempty]
    exact accounts_bare rfl rfl
  · rename_i hpresent
    refine h.last fun t ht => ?_
    have hargs := hlist (Bool.eq_false_iff.2 hpresent) t ht
    split
    · -- Anything but a list of parameters is excluded by its tag.
      cases hargs
    · cases hargs
    · exact accounts_pure rfl

/-- Statements of a method. -/
theorem counts_methodStatements {body : Raw} (h : Counts L m due (go body)) :
    CountsAll L m due (methodStatements go body) := by
  unfold methodStatements
  dsimp only
  split <;> [refine h.last fun t _ => ?_; refine (counts_visitBody h).last fun t _ => ?_]
  all_goals
    split
    · exact accounts_pure (by simp)
    · exact accounts_opened rfl rfl
    · exact accounts_pure rfl

/-- The parameters and the statements of a method are weighed inside of it, wherever
    the method is. -/
theorem accounts_methodParts {params body : Raw}
    (hparams : Counts L true (L.due params) (go params))
    (hlist : params.isEmpty = false → ∀ t, Returns (go params) t → t.hasTag "args")
    (hbody : Counts L true due (go body)) :
    Accounts L m (L.due params + due) 0 (methodParts go params body) (L.total true) := by
  refine Accounts.inBody ?_
  refine (counts_methodParams hparams hlist).andThen fun args _ => ?_
  exact ((counts_methodStatements hbody).withRest _).last fun _ _ => accounts_pure (by simp +arith)

/-- A definition is due its parts as inside a method, wherever it stands. -/
theorem counts_lowerMethod (h₁ : Counts L true (L.due (fs.get 1)) (go (fs.get 1)))
    (hlist : (fs.get 1).isEmpty = false → ∀ t, Returns (go (fs.get 1)) t → t.hasTag "args")
    (h₂ : Counts L true due (go (fs.get 2))) :
    Counts L m (L.due (fs.get 1) + due) (lowerMethod go fs) := by
  refine (accounts_methodParts h₁ hlist h₂).last fun parts _ => ?_
  refine Restores.andThen (congruence_restores.nameIn _) fun _ _ => ?_
  exact accounts_pure (Ledger.weigh_method.trans (by simp))

/-- The object is outside of the method, everything else inside. -/
theorem counts_lowerSingletonMethod (h₀ : Counts L m d₀ (go (fs.get 0)))
    (h₃ : Counts L true (L.due (fs.get 3)) (go (fs.get 3)))
    (hlist : (fs.get 3).isEmpty = false → ∀ t, Returns (go (fs.get 3)) t → t.hasTag "args")
    (h₄ : Counts L true due (go (fs.get 4))) :
    Counts L m (d₀ + (L.due (fs.get 3) + due)) (lowerSingletonMethod go fs) := by
  refine h₀.andThen fun t _ => (accounts_methodParts h₃ hlist h₄).last fun parts _ => ?_
  refine Restores.andThen (congruence_restores.nameIn _) fun name _ => ?_
  have hreceiver : L.Settles (L.weigh m t) (L.weigh m t.unwrapBegin) := Ledger.settles_unwrapBegin
  refine accounts_settled ((hreceiver.add_left (L.total true parts)).trans
    (Ledger.settles_of_eq ?_))
  exact Ledger.weigh_singletonMethod.trans (by simp +arith)

/-- The body of a class or module is weighed outside of all methods. -/
theorem accounts_namespaceBody {body : Raw} (h : Counts L false due (go body)) :
    Accounts L m due 0 (namespaceBody go body) (L.weigh false) :=
  (counts_visitBody h).inBody

/-- The body of a module is outside of any method. -/
theorem counts_lowerModule (h₀ : Counts L m d₀ (go (fs.get 0)))
    (h₁ : Counts L false d₁ (go (fs.get 1))) : Counts L m (d₀ + d₁) (lowerModule go fs) :=
  h₀.andThen fun _ _ => (accounts_namespaceBody h₁).last fun _ _ =>
    accounts_pure ((Ledger.weigh_namespace (by decide)).trans (Nat.add_comm _ _))

/-- The body for one object is outside of any method. -/
theorem counts_lowerSingletonClass (h₀ : Counts L m d₀ (go (fs.get 0)))
    (h₁ : Counts L false d₁ (go (fs.get 1))) :
    Counts L m (d₀ + d₁) (lowerSingletonClass go fs) :=
  h₀.andThen fun _ _ => (accounts_namespaceBody h₁).last fun _ _ =>
    accounts_pure ((Ledger.weigh_namespace (by decide)).trans (Nat.add_comm _ _))

/-- The body of a class is outside of any method; its parent is not. -/
theorem counts_lowerClass (h₀ : Counts L m d₀ (go (fs.get 0)))
    (h₁ : Counts L m d₁ (go (fs.get 1))) (h₂ : Counts L false d₂ (go (fs.get 2))) :
    Counts L m (d₀ + (d₁ + d₂)) (lowerClass go fs) :=
  h₀.andThen fun _ _ => h₁.andThen fun _ _ => (accounts_namespaceBody h₂).last fun _ _ =>
    accounts_pure (Ledger.weigh_class.trans (by simp +arith))

/-- `BEGIN` and `END` are due what their statements are due. -/
theorem counts_lowerHook {tag : String} (htag : tag ∈ ["preexe", "postexe"])
    (h : Counts L m due (go (fs.get 0))) : Counts L m due (lowerHook tag go fs) :=
  (counts_visitBody h).last fun _ _ => accounts_pure (Ledger.weigh_hook htag)

end Definitions

section Branches

/-- A condition changes its tag, and neither tag counts. -/
theorem accounts_conditionForm (t : Tree) :
    Accounts L m 0 (L.weigh m t) (conditionForm t) (L.weigh m) := by
  have hrange {tag tag' : String} {mark : Mark} {children : List Tree} (h : isPlain (.str tag))
      (h' : isPlain (.str tag')) : Accounts L m 0 (L.weigh m (.node (.str tag) mark children))
        (pure (.bare tag' children)) (L.weigh m) :=
    accounts_opened h (Ledger.weigh_bare h')
  unfold conditionForm
  split
  · exact accounts_throw
  · exact accounts_bare rfl rfl
  · exact hrange rfl rfl
  · exact hrange rfl rfl
  · exact accounts_pure rfl

/-- A field in the place of a condition. -/
theorem counts_visitCondition {r : Raw} (h : Counts L m due (go r)) :
    Counts L m due (visitCondition go r) :=
  h.last fun t _ => accounts_conditionForm t

/-- A branch that is not written is due nothing. -/
theorem counts_visitBranch {r : Raw} (h : Counts L m (L.due r) (go r)) :
    Counts L m (L.due r) (visitBranch go r) := by
  unfold visitBranch
  split
  · rename_i hempty
    rw [Ledger.due_of_isEmpty hempty]
    exact accounts_pure (by simp)
  · exact counts_visitBody h

/-- A condition and branches that may not be written. -/
theorem counts_lowerIf (h₀ : Counts L m d₀ (go (fs.get 0)))
    (h₁ : Counts L m (L.due (fs.get 1)) (go (fs.get 1)))
    (h₂ : Counts L m (L.due (fs.get 2)) (go (fs.get 2))) :
    Counts L m (d₀ + (L.due (fs.get 1) + L.due (fs.get 2))) (lowerIf go fs) :=
  (counts_visitCondition h₀).andThen fun _ _ => (counts_visitBranch h₁).andThen fun _ _ =>
    (counts_visitBranch h₂).last fun _ _ => accounts_bare rfl (by simp +arith)

/-- The branches of `unless` change places, and the sum stays. -/
theorem counts_lowerUnless (h₀ : Counts L m d₀ (go (fs.get 0)))
    (h₁ : Counts L m (L.due (fs.get 1)) (go (fs.get 1)))
    (h₂ : Counts L m (L.due (fs.get 2)) (go (fs.get 2))) :
    Counts L m (d₀ + (L.due (fs.get 2) + L.due (fs.get 1))) (lowerUnless go fs) :=
  (counts_visitCondition h₀).andThen fun _ _ => (counts_visitBranch h₂).andThen fun _ _ =>
    (counts_visitBranch h₁).last fun _ _ => accounts_bare rfl (by simp +arith)

theorem counts_lowerIfModifier (h₀ : Counts L m d₀ (go (fs.get 0)))
    (h₁ : Counts L m d₁ (go (fs.get 1))) : Counts L m (d₀ + d₁) (lowerIfModifier go fs) :=
  (counts_visitCondition h₀).andThen fun _ _ => h₁.last fun _ _ =>
    accounts_bare rfl (by simp +arith)

theorem counts_lowerUnlessModifier (h₀ : Counts L m d₀ (go (fs.get 0)))
    (h₁ : Counts L m d₁ (go (fs.get 1))) : Counts L m (d₀ + d₁) (lowerUnlessModifier go fs) :=
  (counts_visitCondition h₀).andThen fun _ _ => h₁.last fun _ _ =>
    accounts_bare rfl (by simp +arith)

/-- All three operands are written. -/
theorem counts_lowerTernary (h₀ : Counts L m d₀ (go (fs.get 0)))
    (h₁ : Counts L m d₁ (go (fs.get 1))) (h₂ : Counts L m d₂ (go (fs.get 2))) :
    Counts L m (d₀ + (d₁ + d₂)) (lowerTernary go fs) :=
  h₀.andThen fun _ _ => h₁.andThen fun _ _ => h₂.last fun _ _ =>
    accounts_bare rfl (by simp +arith)

/-- Values and statements of a `when` clause. -/
theorem counts_whenClause {values statements : Raw} (hvalues : Counts L m d₀ (go values))
    (hstatements : Counts L m d₁ (go statements)) :
    Counts L m (d₀ + d₁) (whenClause go values statements) :=
  (counts_argumentList hvalues).andThen fun _ _ => (counts_visitBody hstatements).last fun _ _ =>
    accounts_bare rfl (by simp +arith)

/-- Pattern, guard and statements of an `in` clause. -/
theorem counts_inClause {pattern statements : Raw}
    (hpattern : Accounts L m d₀ 0 (lowerGuarded go pattern) fun p => L.weigh m p.1 + L.weigh m p.2)
    (hstatements : Counts L m d₁ (go statements)) :
    Counts L m (d₀ + d₁) (inClause go pattern statements) :=
  hpattern.andThen fun _ _ => (counts_visitBody hstatements).last fun _ _ =>
    accounts_bare rfl (by simp +arith)

/-- The name of an operator counts for nothing. -/
theorem weigh_of_text? {t : Tree} {name : String} (h : t.text? == some name) : L.weigh m t = 0 := by
  cases t with
  | leaf v => exact Ledger.weigh_leaf v
  | node tag mark children => cases h

/-- A negation that goes into the keyword had nothing but its operands to count. -/
theorem accounts_unnegated (word : String) (t : Tree) :
    Accounts L m 0 (L.weigh m t) (unnegated word t) fun p => L.weigh m p.2 := by
  unfold unnegated
  split
  · exact accounts_throw
  · rename_i mark receiver name
    split
    · -- The negation counts nothing, so the condition below it counts for the whole.
      rename_i hname
      exact accounts_opened rfl (by simp [weigh_of_text? hname])
    · exact accounts_pure rfl
  · rename_i mark receiver name argument
    split
    · rename_i hname
      exact accounts_opened rfl (by simp [weigh_of_text? hname])
    · exact accounts_pure rfl
  · exact accounts_pure rfl

/-- A negated loop is a loop of the other kind. -/
theorem unnegated_loop {word : String} {t : Tree} {p : String × Tree}
    (hword : word ∈ ["while", "until"]) (h : Returns (unnegated word t) p) :
    p.1 ∈ ["while", "until"] := by
  have hopposite : oppositeLoop word ∈ ["while", "until"] := by
    unfold oppositeLoop
    split <;> decide
  unfold unnegated at h
  split at h
  · exact absurd h not_returns_throw
  · split at h
    all_goals
      cases returns_pure h
      assumption
  · split at h
    all_goals
      cases returns_pure h
      assumption
  · cases returns_pure h
    exact hword

/-- A loop counts its condition beside the body it is given. -/
theorem accounts_makeLoop {word : String} (hword : word ∈ ["while", "until"]) {cond : Raw}
    (h : Counts L m due (go cond)) (body : Tree) (checkFirst : Bool) :
    Accounts L m due (L.weigh m body) (makeLoop go word cond body checkFirst) (L.weigh m) := by
  unfold makeLoop
  refine h.last fun c _ => ?_
  refine (accounts_unnegated word c).given (L.weigh m body) (Nat.add_comm _ _) fun p hp => ?_
  have htag : isPlain (.str (if checkFirst then p.1 else p.1 ++ "_post")) := by
    have hloop := unnegated_loop hword hp
    simp only [List.mem_cons, List.not_mem_nil, or_false] at hloop
    rcases hloop with hloop | hloop <;> rw [hloop] <;> cases checkFirst <;> decide
  refine (accounts_conditionForm p.2).given (L.weigh m body) (Nat.add_comm _ _) fun c' _ => ?_
  exact accounts_bare htag (by simp)

/-- The body of a loop is lowered before its condition. -/
theorem counts_lowerLoop {word : String} (hword : word ∈ ["while", "until"])
    (h₀ : Counts L m d₀ (go (fs.get 0))) (h₁ : Counts L m d₁ (go (fs.get 1))) :
    Counts L m (d₁ + d₀) (lowerLoop word go fs) :=
  (counts_visitBody h₁).andThen fun body _ => accounts_makeLoop hword h₀ body true

/-- The body of a loop is lowered before its condition, also where it stands first. -/
theorem counts_lowerLoopModifier {word : String} (hword : word ∈ ["while", "until"])
    (h₀ : Counts L m d₀ (go (fs.get 0))) (h₁ : Counts L m d₁ (go (fs.get 1))) :
    Counts L m (d₁ + d₀) (lowerLoopModifier word go fs) :=
  Restores.andThen (congruence_restores.runsFirst _) fun _ _ =>
    h₁.andThen fun body _ => accounts_makeLoop hword h₀ body _

/-- The collection is lowered before the target, which takes no value. -/
theorem counts_lowerFor (h₀ : Counts L m d₀ (go (fs.get 0)))
    (htarget : ∀ t, Returns (go (fs.get 0)) t → Assignable t) (h₁ : Counts L m d₁ (go (fs.get 1)))
    (h₂ : Counts L m d₂ (go (fs.get 2))) : Counts L m (d₁ + (d₀ + d₂)) (lowerFor go fs) := by
  refine h₁.andThen fun collection _ => h₀.andThen fun t ht => ?_
  refine (accounts_targetOf (htarget t ht)).given (L.weigh m collection) (by omega) fun u _ => ?_
  exact (counts_visitBody h₂).last fun body _ => accounts_bare rfl (by simp +arith)

end Branches

section Patterns

/-- A bound name is due nothing. -/
theorem counts_bindName (name : String) (line : Option Raw) : Counts L m 0 (bindName name line) :=
  Restores.andThen (congruence_restores.bindLocal name) fun _ _ => accounts_placed rfl (by simp)

theorem counts_matchVariable (token : Raw) : Counts L m 0 (matchVariable token) := by
  unfold matchVariable
  split
  · exact accounts_bare rfl rfl
  · exact Restores.andThen (congruence_restores.nameIn token) fun name _ => counts_bindName name _

/-- A splat in a pattern is due nothing. -/
theorem counts_matchRest (r : Raw) : Counts L m 0 (matchRest r) := by
  unfold matchRest
  dsimp only
  split
  · refine Restores.andThen (congruence_restores.require _) fun token _ => ?_
    split
    · exact (counts_matchVariable token).last fun _ _ => accounts_bare rfl rfl
    · exact accounts_bare rfl rfl
  · exact accounts_bare rfl rfl

/-- The constant before a pattern is visited after the pattern. -/
theorem accounts_withConstant {const : Raw} (h : Counts L m (L.due const) (go const)) (t : Tree) :
    Accounts L m (L.due const) (L.weigh m t) (withConstant go const t) (L.weigh m) := by
  unfold withConstant
  split
  · rename_i hnull
    rw [Ledger.due_of_isNull hnull]
    exact accounts_pure rfl
  · exact h.last fun c _ => accounts_bare rfl (by simp)

/-- Items before and after a splat, which binds at most a name. -/
theorem counts_lowerArrayPattern (h₀ : Counts L m (L.due (fs.get 0)) (go (fs.get 0)))
    (h₁ : CountsAll L m d₁ (patterns go (fs.get 1)))
    (h₃ : CountsAll L m d₃ (patterns go (fs.get 3))) :
    Counts L m (d₁ + (d₃ + L.due (fs.get 0))) (lowerArrayPattern go fs) := by
  unfold lowerArrayPattern
  refine h₁.andThen fun before _ => ?_
  -- The rest of the list is there or not; it counts nothing, so both ends are one.
  have hend (rest : List Tree) (hrest : L.total m rest = 0) :
      Accounts L m (d₃ + L.due (fs.get 0)) (L.total m before + 0) (do
        let after ← patterns go (fs.get 3)
        withConstant go (fs.get 0) (.bare "array_pattern" (before ++ rest ++ after)))
        (L.weigh m) :=
    h₃.andThen fun after _ => (accounts_withConstant h₀ _).congr (by simp +arith [hrest])
  dsimp only
  split
  · exact hend [] rfl
  · exact (counts_matchRest _).nothing fun rest _ hrest => hend [rest] hrest

/-- Items between two splats. -/
theorem counts_lowerFindPattern (h₀ : Counts L m (L.due (fs.get 0)) (go (fs.get 0)))
    (h₂ : CountsAll L m d₂ (patterns go (fs.get 2))) :
    Counts L m (d₂ + L.due (fs.get 0)) (lowerFindPattern go fs) := by
  refine (counts_matchRest _).nothing fun before _ hbefore => h₂.andThen fun items _ => ?_
  refine (counts_matchRest _).nothing fun after _ hafter => ?_
  exact (accounts_withConstant h₀ _).congr (by simp [hbefore, hafter])

/-- The pairs of a pattern, then its constant. -/
theorem counts_lowerHashPattern (h₀ : Counts L m (L.due (fs.get 0)) (go (fs.get 0)))
    (h₁ : ∀ rs, Returns (elementsOf (fs.get 1)) rs → CountsAll L m d₁ (rs.mapM (pairPattern go))) :
    Counts L m (d₁ + L.due (fs.get 0)) (lowerHashPattern go fs) := by
  unfold lowerHashPattern
  refine Restores.andThen (congruence_restores.elementsOf _) fun rs hrs => ?_
  refine (h₁ rs hrs).andThen fun pairs _ => ?_
  -- The rest is `**nil`, missing or a name: none of them counts anything.
  have hend (rest : List Tree) (hrest : L.total m rest = 0) :
      Accounts L m (L.due (fs.get 0)) (L.total m pairs + 0)
        (withConstant go (fs.get 0) (.bare "hash_pattern" (pairs ++ rest))) (L.weigh m) :=
    (accounts_withConstant h₀ _).congr (by simp [hrest])
  dsimp only
  split
  · exact hend [.bare "match_nil_pattern" []] (by simp)
  · split
    · exact hend [] rfl
    · exact (counts_matchRest _).nothing fun rest _ hrest => hend [rest] hrest

end Patterns

end LowerM

end RubyTree
