import RubyTree.Proofs.Lower.Spending.Expression

/-!
# Spending in Constructs

Sequences, bodies, parameters, blocks, definitions, branches and patterns. They
drop empty statements and redundant wrappers, and what is dropped costs nothing.

A parameter that is a name or a list of names has no numbers, so that turning it
into its own form gives nothing away.

## Theorems

* `fresh_lowerStatements`, `freshAll_statementList_stmts`, `fresh_lowerBody`: Bodies.
* `fresh_asParameter`, `fresh_lowerParams`, `fresh_lowerBlockParams`: Parameters.
* `spends_makeBlock`, `fresh_lowerBlockCall`: Blocks.
* `freshAll_methodParts`: Definitions.
* `spends_conditionForm`, `spends_makeLoop`: Conditions and loops.
* `fresh_lowerArrayPattern`, `fresh_lowerHashPattern`: Patterns.
-/

namespace RubyTree

open RubyTree.Tree (uses usesAll own inner)

/-- Trees that are left out take their uses with them. -/
theorem Tree.usesAll_filter_le (k : Nat) (p : Tree → Bool) (ts : List Tree) :
    usesAll k (ts.filter p) ≤ usesAll k ts := by
  induction ts with
  | nil => exact Nat.le_refl _
  | cons t ts ih =>
    rw [List.filter_cons]
    split
    · simpa using ih
    · rw [usesAll_cons]
      omega

/-- Statements put together hold what they held apart. -/
@[simp] theorem Tree.uses_ofStatements (k : Nat) (ts : List Tree) :
    uses k (Tree.ofStatements ts) = usesAll k ts := by
  match ts with
  | [] => simp [Tree.ofStatements]
  | [t] => simp [Tree.ofStatements]
  | _ :: _ :: _ => simp [Tree.ofStatements]

namespace LowerM

variable {go : Visit} {fs : Fields} {held : List Tree}

section Sequences

/-- Statements are handed on, apart from what is void. -/
theorem fresh_lowerStatements (h : ∀ r ∈ fs, Fresh (go r)) : Fresh (lowerStatements go fs) := by
  unfold lowerStatements
  refine (freshAll_mapM h).andThen fun ts _ => ?_
  have hkept (k : Nat) : usesAll k (Tree.rejectVoid ts) ≤ usesAll k ([] ++ ts) :=
    Tree.usesAll_filter_le k _ ts
  split
  · exact spends_placed fun _ => by simp
  · rename_i hone
    exact spends_pure (hone ▸ hkept)
  · exact spends_bare hkept

/-- A list of statements in a place for statements. -/
theorem freshAll_statementList_stmts {statements : List Raw} (h : ∀ r ∈ statements, Fresh (go r)) :
    FreshAll (statementList go (.list (.str "stmts" :: statements))) := by
  unfold statementList
  exact (freshAll_mapM h).andThen fun ts _ => spends_pure fun k => Tree.usesAll_filter_le k _ ts

/-- Parentheses keep what is in them, in a layer or without one. -/
theorem fresh_lowerParen (h : Fresh (go (fs.get 0))) : Fresh (lowerParen go fs) := by
  unfold lowerParen
  dsimp only
  split
  · exact spends_bare fun _ => Nat.le_refl _
  · refine h.andThen fun t _ => ?_
    split
    · exact spends_bare fun _ => by simp
    · split
      · exact spends_pure fun _ => Nat.le_refl _
      · split
        · exact spends_pure fun _ => Nat.le_refl _
        · exact spends_bare fun _ => Nat.le_refl _

/-- Comments are no numbers. -/
theorem fresh_lowerDocumented (h : Fresh (go (fs.get 1))) : Fresh (lowerDocumented go fs) := by
  unfold lowerDocumented
  refine h.andThen fun t _ => ?_
  split
  · exact spends_pure fun _ => Nat.le_refl _
  · split
    · rename_i tag mark children _
      refine Quiet.andThen (congruence_quiet.isAmong _ _) fun isAmong _ => ?_
      split
      · refine spends_pure fun k => ?_
        -- A remark on the node leaves the numbers below it alone.
        have hinner : inner k (.node tag { mark with comments := some (fs.get 0) } children) =
            inner k (.node tag mark children) := Tree.inner_remark rfl
        simp only [Tree.usesAll_cons, Tree.uses, hinner]
        exact Nat.le_refl _
      · exact spends_pure fun _ => Nat.le_refl _
    · exact spends_throw

end Sequences

section Bodies

/-- One exception, or exceptions with a splat among them. -/
theorem fresh_exceptionList_node {r : Raw} (htag : r.tag?.isSome) (h : Fresh (go r)) :
    Fresh (exceptionList go r) := by
  unfold exceptionList
  split
  · exact spends_pure fun _ => by simp
  · exact (freshAll_argumentList h).andThen fun _ _ => spends_bare fun _ => Nat.le_refl _

/-- Exceptions that stand in a plain list. -/
theorem fresh_exceptionList_list {rs : List Raw} (h : ∀ r ∈ rs, Fresh (go r))
    (htag : (Raw.list rs).tag? = none) : Fresh (exceptionList go (.list rs)) := by
  unfold exceptionList
  split
  · exact spends_pure fun _ => by simp
  · rw [htag, if_neg (by simp)]
    refine (freshAll_overElements fun xs hxs => ?_).andThen fun _ _ =>
      spends_bare fun _ => Nat.le_refl _
    rw [elementsOf_list] at hxs
    rwa [← returns_pure hxs]

/-- The variable of a clause is assigned to, so it has to be a target. -/
theorem fresh_rescueClause {exceptions captured statements : Raw}
    (hexceptions : Fresh (exceptionList go exceptions))
    (hcaptured : captured.isEmpty = false → Fresh (go captured) ∧
      ∀ t, Returns (go captured) t → Assignable t)
    (hstatements : Fresh (go statements)) :
    Fresh (rescueClause go exceptions captured statements) := by
  unfold rescueClause
  refine hexceptions.andThen fun e _ => ?_
  dsimp only
  split
  · exact (fresh_visitBody hstatements).andThen fun _ _ => spends_bare fun _ => by simp
  · rename_i hpresent
    obtain ⟨hfresh, htarget⟩ := hcaptured (Bool.eq_false_iff.2 hpresent)
    refine hfresh.andThen fun t ht => ?_
    -- The class of the error waits while the variable becomes a target.
    refine (spends_targetOf (htarget t ht)).given [e] (fun _ => Nat.le_refl _)
      fun u _ => ?_
    exact (fresh_visitBody hstatements).andThen fun _ _ => spends_bare fun _ => Nat.le_refl _

/-- A body without clauses, or one with rescue clauses. -/
theorem fresh_lowerBody (hstatements : FreshAll (statementList go (fs.get 0)))
    (hrescue : (fs.get 1).isEmpty = false → FreshAll (rescueClauses go (fs.get 1)))
    (hotherwise : Fresh (go (fs.get 2))) (hensure : Fresh (go (fs.get 3))) :
    Fresh (lowerBody go fs) := by
  have hend (body : Tree) : Spends [body] (do
      if (fs.get 3).isEmpty then return body
      return .bare "ensure" [body, ← go (fs.get 3)]) fun t => [t] := by
    split
    · exact spends_pure fun _ => Nat.le_refl _
    · exact hensure.andThen fun _ _ => spends_bare fun _ => Nat.le_refl _
  unfold lowerBody
  refine hstatements.andThen fun ts _ => ?_
  dsimp only
  split
  · rename_i hpresent
    refine (hrescue (by simpa using hpresent)).andThen fun clauses _ => ?_
    refine (fresh_visitBody hotherwise).andThen fun t _ => ?_
    exact Spends.mono (hend _) fun k => by simp
  · split
    · refine (fresh_visitBody hotherwise).andThen fun t _ => ?_
      refine Spends.mono (hend _) fun k => ?_
      -- Leaving statements out can only save numbers.
      have hpresent := usesAll_present_le k (Tree.ofStatements ts)
      rw [Tree.uses_ofStatements] at hpresent
      simpa using hpresent
    · exact Spends.mono (hend _) fun k => by simp

/-- What a redundant `begin` holds. -/
theorem usesAll_begin_children_le (k : Nat) (mark : Mark) (children : List Tree) :
    usesAll k children ≤ uses k (.node (.str "begin") mark children) :=
  Tree.usesAll_children_le (by simp)

/-- A `begin` block opens the block it finds and keeps its children. -/
theorem fresh_lowerBegin (h : Fresh (go (fs.get 0))) : Fresh (lowerBegin go fs) := by
  unfold lowerBegin
  dsimp only
  split
  · exact h.andThen fun _ _ => spends_bare fun _ => Nat.le_refl _
  · refine h.andThen fun t _ => ?_
    split
    · exact spends_placed fun _ => by simp
    · rename_i mark children _
      exact spends_placed fun k => by simpa using usesAll_begin_children_le k mark children
    · exact spends_placed fun _ => Nat.le_refl _

/-- `a rescue b` wraps both sides once. -/
theorem fresh_lowerRescueModifier (h₀ : Fresh (go (fs.get 0))) (h₁ : Fresh (go (fs.get 1))) :
    Fresh (lowerRescueModifier go fs) :=
  h₀.andThen fun _ _ => h₁.andThen fun _ _ => spends_bare fun _ => by simp

end Bodies

section Parameters

/-- A name as a parameter has no number, and a list of names has none either. -/
theorem fresh_asParameter {t : Tree} (h : Binder t) : Fresh (asParameter t) := by
  induction h with
  | name htag =>
    rcases htag with rfl | rfl
    all_goals exact spends_placed fun _ => by simp
  | @list mark children _ ih =>
    have hlower : asParameter (.node (.str "mlhs") mark children) = do
        return .placed mark.line "mlhs" (← asParameters children) := by
      rw [asParameter]
    rw [hlower, asParameters_eq]
    exact (freshAll_mapM ih).andThen fun _ _ => spends_placed fun _ => Nat.le_refl _
  | rest => exact spends_bare fun _ => Nat.le_refl _
  | namedRest => exact spends_placed fun _ => by simp

/-- Positional parameters: a name in parentheses is turned into a parameter. -/
theorem freshAll_positional {r : Raw} (h : ∀ rs, Returns (elementsOf r) rs → ∀ x ∈ rs,
    Fresh (go x) ∧ ∀ t, Returns (go x) t → Binder t) : FreshAll (positional go r) := by
  refine freshAll_overElements fun rs hrs x hx => ?_
  obtain ⟨hfresh, hbinder⟩ := h rs hrs x hx
  exact hfresh.andThen fun t ht => (fresh_asParameter (hbinder t ht)).mono fun k => by simp

/-- Only the default of a parameter is visited. -/
theorem fresh_optional {name value : Raw} (h : Fresh (go value)) :
    Fresh (optional go (.list [name, value])) := by
  show Fresh (nameOf name >>= _)
  refine Quiet.andThen (congruence_quiet.nameOf _) fun _ _ => ?_
  exact h.andThen fun _ _ => spends_placed fun _ => by simp

/-- Only the default of a keyword parameter is visited. -/
theorem fresh_keyword {label value : Raw} (h : value.isEmpty = false → Fresh (go value)) :
    Fresh (keyword go (.list [label, value])) := by
  show Fresh (require (label.item? 1) >>= _)
  refine Quiet.andThen (congruence_quiet.require _) fun _ _ => ?_
  refine Quiet.andThen (congruence_quiet.clippedName _) fun _ _ => ?_
  split
  · exact spends_placed fun _ => by simp
  · rename_i hpresent
    exact (h (Bool.eq_false_iff.2 hpresent)).andThen fun _ _ => spends_placed fun _ => by simp

/-- The parameters of a list, given those of each of its parts. -/
theorem fresh_lowerParams (h₀ : FreshAll (positional go (fs.get 0)))
    (h₁ : ∀ rs, Returns (elementsOf (fs.get 1)) rs → ∀ x ∈ rs, Fresh (optional go x))
    (h₂ : isExtraComma (fs.get 2) = false → FreshAll (special go (fs.get 2)))
    (h₃ : FreshAll (positional go (fs.get 3)))
    (h₄ : ∀ rs, Returns (elementsOf (fs.get 4)) rs → ∀ x ∈ rs, Fresh (keyword go x))
    (h₅ : FreshAll (special go (fs.get 5))) (h₆ : FreshAll (special go (fs.get 6))) :
    Fresh (lowerParams go fs) := by
  unfold lowerParams
  refine h₀.andThen fun required _ => ?_
  refine Quiet.andThen (congruence_quiet.elementsOf _) fun rs hrs => ?_
  refine (freshAll_mapM (h₁ rs hrs)).andThen fun optionals _ => ?_
  -- What follows the rest parameter is the same with and without one.
  have hend (rest : List Tree) : Spends (required ++ optionals ++ rest) (do
      let post ← positional go (fs.get 3)
      let keywords ← (← elementsOf (fs.get 4)).mapM (keyword go)
      let kwrest ← special go (fs.get 5)
      let block ← special go (fs.get 6)
      return Tree.bare "args"
        (required ++ optionals ++ rest ++ post ++ keywords ++ kwrest ++ block))
        fun t => [t] := by
    refine h₃.andThen fun post _ => ?_
    refine Quiet.andThen (congruence_quiet.elementsOf _) fun ks hks => ?_
    refine (freshAll_mapM (h₄ ks hks)).andThen fun keywords _ => ?_
    exact h₅.andThen fun kwrest _ => h₆.andThen fun block _ => spends_bare fun _ => Nat.le_refl _
  dsimp only
  split
  · exact (hend []).mono fun k => by simp
  · rename_i hcomma
    exact (h₂ (Bool.eq_false_iff.2 hcomma)).andThen fun rest _ => hend rest

/-- A name local to a block holds nothing. -/
theorem fresh_shadow (token : Raw) : Fresh (shadow token) :=
  Quiet.andThen (congruence_quiet.nameOf _) fun _ _ => spends_placed fun _ => by simp

/-- Wrapping a lone parameter adds a layer and no copy. -/
theorem spends_wrapLone (ts : List Tree) : Spends ts (wrapLone ts) fun us => us := by
  unfold wrapLone
  split
  · exact spends_throw
  · exact spends_pure fun _ => by simp
  · rename_i mark children
    have hchildren (k : Nat) : usesAll k children ≤ uses k (.node (.str "mlhs") mark children) :=
      Tree.usesAll_children_le (by simp)
    exact spends_pure fun k => by simpa using hchildren k
  · exact spends_pure fun _ => Nat.le_refl _

/-- The parameter list is taken apart, so it must be no constant assignment. -/
theorem fresh_lowerBlockParams (h : Fresh (go (fs.get 0)))
    (hnode : ∀ t, Returns (go (fs.get 0)) t → t.hasTag "casgn" = false) :
    Fresh (lowerBlockParams go fs) := by
  unfold lowerBlockParams
  refine h.andThen fun args hargs => ?_
  refine Quiet.andThen (congruence_quiet.childrenOf _) fun children hchildren => ?_
  have hchildren := returns_require hchildren
  -- The list is taken apart: what is left of it pays for its number.
  have hsum (k : Nat) (more : List Tree) : uses k (args.withChildren more) =
      uses k (args.withChildren []) + usesAll k more := by
    have hmore := Tree.uses_withChildren (k := k) (hnode args hargs) hchildren more
    have hnone := Tree.uses_withChildren (k := k) (hnode args hargs) hchildren []
    simp only [Tree.usesAll_nil] at hnone
    omega
  have hself : args.withChildren children = args := by
    cases args with
    | leaf v => rfl
    | node tag mark cs =>
      cases hchildren
      rfl
  have hend (cs : List Tree) : Spends (args.withChildren [] :: cs) (do
      let shadows ← (← elementsOf (fs.get 1)).mapM shadow
      return args.withChildren (cs ++ shadows)) fun t => [t] := by
    refine Quiet.andThen (congruence_quiet.elementsOf _) fun tokens _ => ?_
    refine (freshAll_mapM fun token _ => fresh_shadow token).andThen fun shadows _ => ?_
    exact spends_pure fun k => by simp [hsum k (cs ++ shadows)]
  refine Quiet.andThen (congruence_quiet.hasTrailingComma _) fun comma _ => ?_
  have hheld (k : Nat) :
      usesAll k (args.withChildren [] :: children) ≤ usesAll k ([] ++ [args]) := by
    have hargs := hsum k children
    rw [hself] at hargs
    simp [hargs]
  dsimp only
  split
  · exact (hend children).mono hheld
  · exact (spends_wrapLone children).given [args.withChildren []] hheld fun cs _ => hend cs

end Parameters

section Blocks

/-- A numbered block drops its parameters, any other keeps all it is given. -/
theorem spends_makeBlock (call args body : Tree) :
    Spends [call, args, body] (makeBlock call args body) fun t => [t] := by
  unfold makeBlock
  -- Parameters that are absent give way to an empty list, which has no numbers.
  have hargs (k : Nat) : uses k (if args.isNull then .bare "args" [] else args) ≤ uses k args := by
    split
    · simp
    · exact Nat.le_refl _
  generalize (if args.isNull then Tree.bare "args" [] else args) = params at hargs
  have hblock : Spends [call, args, body] (pure (.bare "block" [call, params, body]))
      fun t => [t] :=
    spends_bare fun k => by
      have := hargs k
      simp only [Tree.usesAll_cons, Tree.usesAll_nil]
      omega
  dsimp only
  refine Quiet.andThen congruence_quiet.read fun options _ => ?_
  split
  · refine Quiet.andThen (congruence_quiet.childrenOf _) fun children _ => ?_
    split
    · refine Quiet.andThen (congruence_quiet.highestNumbered _) fun count _ => ?_
      split
      · exact spends_bare fun k => by
          simp only [Tree.usesAll_cons, Tree.usesAll_nil, Tree.uses_leaf]
          omega
      · exact hblock
    · exact hblock
  · exact hblock

/-- The rest name of the parameters touches no number. -/
theorem spends_paramsAndBody (h₀ : Fresh (go (fs.get 0))) (h₁ : Fresh (go (fs.get 1))) :
    Spends [] (paramsAndBody go fs) fun p => [p.1, p.2] :=
  h₀.andThen fun _ _ => ((fresh_visitBody h₁).withRest _).andThen fun _ _ =>
    spends_pure fun _ => Nat.le_refl _

/-- A block before it has a call. -/
theorem fresh_lowerBlockBody (h₀ : Fresh (go (fs.get 0))) (h₁ : Fresh (go (fs.get 1))) :
    Fresh (lowerBlockBody go fs) :=
  (spends_paramsAndBody h₀ h₁).andThen fun _ _ => spends_bare fun _ => Nat.le_refl _

/-- The block is opened and its children go to the call. -/
theorem fresh_lowerBlockCall (h₀ : Fresh (go (fs.get 0))) (h₁ : Fresh (go (fs.get 1)))
    (hnode : ∀ t, Returns (go (fs.get 1)) t → t.hasTag "casgn" = false) :
    Fresh (lowerBlockCall go fs) := by
  unfold lowerBlockCall
  refine h₀.andThen fun call _ => h₁.andThen fun block hblock => ?_
  refine Quiet.andThen (congruence_quiet.childrenOf _) fun children hchildren => ?_
  have hchildren := returns_require hchildren
  split
  · rename_i args body _
    refine (spends_makeBlock call args body).mono fun k => ?_
    -- The arguments and the body are taken out of the node as they are.
    have hparts := Tree.usesAll_of_children? (k := k) (hnode block hblock) hchildren
    simp only [List.nil_append, List.cons_append, Tree.usesAll_cons, Tree.usesAll_nil] at hparts ⊢
    omega
  · exact spends_throw

/-- A lambda takes its block as it takes its parameters. -/
theorem fresh_lowerLambda (h₀ : Fresh (go (fs.get 0))) (h₁ : Fresh (go (fs.get 1))) :
    Fresh (lowerLambda go fs) := by
  unfold lowerLambda
  refine (spends_paramsAndBody h₀ h₁).andThen fun p _ => ?_
  exact (spends_makeBlock (.bare "lambda" []) p.1 p.2).mono fun k => by simp

end Blocks

section Definitions

/-- Parameters of a method, which are handed on unless there are none. -/
theorem fresh_methodParams {r : Raw} (h : Fresh (go r)) : Fresh (methodParams go r) := by
  unfold methodParams
  split
  · exact spends_bare fun _ => Nat.le_refl _
  · refine h.andThen fun t _ => ?_
    split
    · exact spends_bare fun _ => by simp
    · exact spends_bare fun _ => by simp
    · exact spends_pure fun _ => Nat.le_refl _

/-- The scope of a method has its own locals and the numbers of the outer one. -/
theorem freshAll_methodStatements {body : Raw} (h : Fresh (go body)) :
    FreshAll (methodStatements go body) := by
  unfold methodStatements
  dsimp only
  split <;> [refine h.andThen fun t _ => ?_; refine (fresh_visitBody h).andThen fun t _ => ?_]
  all_goals
    split
    · exact spends_pure fun _ => by simp
    · rename_i mark children _
      exact spends_pure fun k => by simpa using usesAll_begin_children_le k mark children
    · exact spends_pure fun _ => Nat.le_refl _

/-- Parameters, then statements. -/
theorem freshAll_methodParts {params body : Raw} (hparams : Fresh (go params))
    (hbody : Fresh (go body)) : FreshAll (methodParts go params body) := by
  refine Spends.inBody ?_ true
  refine (fresh_methodParams hparams).andThen fun args _ => ?_
  exact ((freshAll_methodStatements hbody).withRest _).andThen fun _ _ =>
    spends_pure fun _ => Nat.le_refl _

/-- A method definition visits its parameters and its body. -/
theorem fresh_lowerMethod (h₁ : Fresh (go (fs.get 1))) (h₂ : Fresh (go (fs.get 2))) :
    Fresh (lowerMethod go fs) := by
  refine (freshAll_methodParts h₁ h₂).andThen fun parts _ => ?_
  exact Quiet.andThen (congruence_quiet.nameIn _) fun _ _ => spends_placed fun _ => by simp

/-- Taking off a layer adds no use. -/
theorem uses_unwrapBegin_le (k : Nat) (t : Tree) : uses k t.unwrapBegin ≤ uses k t := by
  unfold Tree.unwrapBegin
  split
  · rename_i mark child
    simpa using usesAll_begin_children_le k mark [child]
  · exact Nat.le_refl _

/-- The object is taken out of its parentheses before it is used. -/
theorem fresh_lowerSingletonMethod (h₀ : Fresh (go (fs.get 0))) (h₃ : Fresh (go (fs.get 3)))
    (h₄ : Fresh (go (fs.get 4))) : Fresh (lowerSingletonMethod go fs) := by
  refine h₀.andThen fun t _ => (freshAll_methodParts h₃ h₄).andThen fun parts _ => ?_
  refine Quiet.andThen (congruence_quiet.nameIn _) fun _ _ => spends_placed fun k => ?_
  have hreceiver := uses_unwrapBegin_le k t
  simp only [List.nil_append, List.cons_append, Tree.usesAll_cons, Tree.uses_leaf]
  omega

/-- The body of a class or module, in a scope of its own. -/
theorem fresh_namespaceBody {body : Raw} (h : Fresh (go body)) : Fresh (namespaceBody go body) :=
  (fresh_visitBody h).inBody false

/-- A module visits its name and its body. -/
theorem fresh_lowerModule (h₀ : Fresh (go (fs.get 0))) (h₁ : Fresh (go (fs.get 1))) :
    Fresh (lowerModule go fs) :=
  h₀.andThen fun _ _ => (fresh_namespaceBody h₁).andThen fun _ _ =>
    spends_placed fun _ => Nat.le_refl _

/-- The class of an object visits the object and its body. -/
theorem fresh_lowerSingletonClass (h₀ : Fresh (go (fs.get 0))) (h₁ : Fresh (go (fs.get 1))) :
    Fresh (lowerSingletonClass go fs) :=
  h₀.andThen fun _ _ => (fresh_namespaceBody h₁).andThen fun _ _ =>
    spends_placed fun _ => Nat.le_refl _

/-- A class visits its name, its parent and its body. -/
theorem fresh_lowerClass (h₀ : Fresh (go (fs.get 0))) (h₁ : Fresh (go (fs.get 1)))
    (h₂ : Fresh (go (fs.get 2))) : Fresh (lowerClass go fs) :=
  h₀.andThen fun _ _ => h₁.andThen fun _ _ => (fresh_namespaceBody h₂).andThen fun _ _ =>
    spends_placed fun _ => Nat.le_refl _

/-- `BEGIN` and `END` keep their statements. -/
theorem fresh_lowerHook (tag : String) (h : Fresh (go (fs.get 0))) : Fresh (lowerHook tag go fs) :=
  (fresh_visitBody h).andThen fun _ _ => spends_placed fun _ => Nat.le_refl _

end Definitions

section Branches

/-- A condition changes its tag, at most. -/
theorem spends_conditionForm (t : Tree) : Spends [t] (conditionForm t) fun u => [u] := by
  unfold conditionForm
  split
  · exact spends_throw
  · exact spends_bare fun _ => Nat.le_refl _
  · rename_i mark children
    have hchildren (k : Nat) : usesAll k children ≤ uses k (.node (.str "irange") mark children) :=
      Tree.usesAll_children_le (by simp)
    exact spends_bare fun k => by simpa using hchildren k
  · rename_i mark children
    have hchildren (k : Nat) : usesAll k children ≤ uses k (.node (.str "erange") mark children) :=
      Tree.usesAll_children_le (by simp)
    exact spends_bare fun k => by simpa using hchildren k
  · exact spends_pure fun _ => Nat.le_refl _

/-- A field in the place of a condition. -/
theorem fresh_visitCondition {r : Raw} (h : Fresh (go r)) : Fresh (visitCondition go r) :=
  h.andThen fun t _ => spends_conditionForm t

/-- A branch that is not written holds nothing. -/
theorem fresh_visitBranch {r : Raw} (h : Fresh (go r)) : Fresh (visitBranch go r) := by
  unfold visitBranch
  split
  · exact spends_pure fun _ => by simp
  · exact fresh_visitBody h

/-- Every field of `if` goes to one child. -/
theorem fresh_lowerIf (h₀ : Fresh (go (fs.get 0))) (h₁ : Fresh (go (fs.get 1)))
    (h₂ : Fresh (go (fs.get 2))) : Fresh (lowerIf go fs) :=
  (fresh_visitCondition h₀).andThen fun _ _ => (fresh_visitBranch h₁).andThen fun _ _ =>
    (fresh_visitBranch h₂).andThen fun _ _ => spends_bare fun _ => Nat.le_refl _

/-- The branches of `unless` change places. -/
theorem fresh_lowerUnless (h₀ : Fresh (go (fs.get 0))) (h₁ : Fresh (go (fs.get 1)))
    (h₂ : Fresh (go (fs.get 2))) : Fresh (lowerUnless go fs) :=
  (fresh_visitCondition h₀).andThen fun _ _ => (fresh_visitBranch h₂).andThen fun _ _ =>
    (fresh_visitBranch h₁).andThen fun _ _ => spends_bare fun _ => Nat.le_refl _

theorem fresh_lowerIfModifier (h₀ : Fresh (go (fs.get 0))) (h₁ : Fresh (go (fs.get 1))) :
    Fresh (lowerIfModifier go fs) :=
  (fresh_visitCondition h₀).andThen fun _ _ => h₁.andThen fun _ _ => spends_bare fun _ => by simp

theorem fresh_lowerUnlessModifier (h₀ : Fresh (go (fs.get 0))) (h₁ : Fresh (go (fs.get 1))) :
    Fresh (lowerUnlessModifier go fs) :=
  (fresh_visitCondition h₀).andThen fun _ _ => h₁.andThen fun _ _ => spends_bare fun _ => by simp

/-- Every field of `a ? b : c` goes to one child. -/
theorem fresh_lowerTernary (h₀ : Fresh (go (fs.get 0))) (h₁ : Fresh (go (fs.get 1)))
    (h₂ : Fresh (go (fs.get 2))) : Fresh (lowerTernary go fs) :=
  h₀.andThen fun _ _ => h₁.andThen fun _ _ => h₂.andThen fun _ _ =>
    spends_bare fun _ => Nat.le_refl _

/-- Values and statements of a `when` clause. -/
theorem fresh_whenClause {values statements : Raw} (hvalues : Fresh (go values))
    (hstatements : Fresh (go statements)) : Fresh (whenClause go values statements) :=
  (freshAll_argumentList hvalues).andThen fun _ _ =>
    (fresh_visitBody hstatements).andThen fun _ _ =>
    spends_bare fun _ => Nat.le_refl _

/-- Pattern, guard and statements of an `in` clause. -/
theorem fresh_inClause {pattern statements : Raw}
    (hpattern : Spends [] (lowerGuarded go pattern) fun p => [p.1, p.2])
    (hstatements : Fresh (go statements)) : Fresh (inClause go pattern statements) :=
  hpattern.andThen fun _ _ => (fresh_visitBody hstatements).andThen fun _ _ =>
    spends_bare fun _ => Nat.le_refl _

/-- A negation that goes into the keyword held nothing but its operands. -/
theorem spends_unnegated (word : String) (t : Tree) :
    Spends [t] (unnegated word t) fun p => [p.2] := by
  -- Without its name a call still has the operands that it had.
  have hcall (k : Nat) (mark : Mark) (children : List Tree) :
      usesAll k children ≤ usesAll k [.node (.str "send") mark children] := by
    rw [Tree.usesAll_cons]
    exact Nat.le_add_right_of_le (Tree.usesAll_children_le (by simp))
  unfold unnegated
  split
  · exact spends_throw
  · rename_i mark receiver name
    split
    · exact spends_pure fun k => Nat.le_trans (by simp) (hcall k mark [receiver, name])
    · exact spends_pure fun _ => Nat.le_refl _
  · rename_i mark receiver name argument
    split
    · exact spends_pure fun k => Nat.le_trans (by simp) (hcall k mark [receiver, name, argument])
    · exact spends_pure fun _ => Nat.le_refl _
  · exact spends_pure fun _ => Nat.le_refl _

/-- A loop holds its condition beside the body it is given. -/
theorem spends_makeLoop (word : String) {cond : Raw} (h : Fresh (go cond)) (body : Tree)
    (checkFirst : Bool) : Spends [body] (makeLoop go word cond body checkFirst) fun t => [t] := by
  unfold makeLoop
  refine h.andThen fun c _ => ?_
  refine (spends_unnegated word c).given [body] (fun _ => Nat.le_refl _) fun p _ => ?_
  refine (spends_conditionForm p.2).given [body] (fun _ => Nat.le_refl _) fun c' _ => ?_
  exact spends_bare fun k => by simp [Nat.add_comm]

theorem fresh_lowerLoop (word : String) (h₀ : Fresh (go (fs.get 0))) (h₁ : Fresh (go (fs.get 1))) :
    Fresh (lowerLoop word go fs) :=
  (fresh_visitBody h₁).andThen fun body _ => spends_makeLoop word h₀ body true

theorem fresh_lowerLoopModifier (word : String) (h₀ : Fresh (go (fs.get 0)))
    (h₁ : Fresh (go (fs.get 1))) : Fresh (lowerLoopModifier word go fs) :=
  Quiet.andThen (congruence_quiet.runsFirst _) fun _ _ =>
    h₁.andThen fun body _ => spends_makeLoop word h₀ body _

/-- The variable of a `for` loop is a target without a value. -/
theorem fresh_lowerFor (h₀ : Fresh (go (fs.get 0)))
    (htarget : ∀ t, Returns (go (fs.get 0)) t → Assignable t) (h₁ : Fresh (go (fs.get 1)))
    (h₂ : Fresh (go (fs.get 2))) : Fresh (lowerFor go fs) := by
  refine h₁.andThen fun collection _ => h₀.andThen fun t ht => ?_
  refine (spends_targetOf (htarget t ht)).given [collection] (fun _ => Nat.le_refl _)
    fun u _ => ?_
  refine (fresh_visitBody h₂).andThen fun body _ => spends_bare fun k => ?_
  simp only [List.cons_append, List.nil_append, Tree.usesAll_cons, Tree.usesAll_nil]
  omega

end Branches

section Patterns

/-- A bound name goes into the scope, where it needs no number. -/
theorem fresh_bindName (name : String) (line : Option Raw) : Fresh (bindName name line) :=
  Quiet.andThen (congruence_quiet.bindLocal name) fun _ _ => spends_placed fun _ => by simp

/-- A token that binds its name. -/
theorem fresh_matchVariable (token : Raw) : Fresh (matchVariable token) := by
  unfold matchVariable
  split
  · exact spends_bare fun _ => Nat.le_refl _
  · exact Quiet.andThen (congruence_quiet.nameIn token) fun name _ => fresh_bindName name _

/-- A splat in a pattern, with a name or without one. -/
theorem fresh_matchRest (r : Raw) : Fresh (matchRest r) := by
  unfold matchRest
  dsimp only
  split
  · refine Quiet.andThen (congruence_quiet.require _) fun token _ => ?_
    split
    · exact (fresh_matchVariable token).andThen fun _ _ => spends_bare fun _ => Nat.le_refl _
    · exact spends_bare fun _ => Nat.le_refl _
  · exact spends_bare fun _ => Nat.le_refl _

/-- A pattern is held by the one constant before it. -/
theorem spends_withConstant {const : Raw} (h : Fresh (go const)) (t : Tree) :
    Spends [t] (withConstant go const t) fun u => [u] := by
  unfold withConstant
  split
  · exact spends_pure fun _ => Nat.le_refl _
  · exact h.andThen fun c _ => spends_bare fun k => by simp [Nat.add_comm]

/-- Items before and after a splat are all visited once. -/
theorem fresh_lowerArrayPattern (h₀ : Fresh (go (fs.get 0)))
    (h₁ : FreshAll (patterns go (fs.get 1))) (h₃ : FreshAll (patterns go (fs.get 3))) :
    Fresh (lowerArrayPattern go fs) := by
  unfold lowerArrayPattern
  refine h₁.andThen fun before _ => ?_
  have hend (rest : List Tree) : Spends (before ++ rest) (do
      let after ← patterns go (fs.get 3)
      withConstant go (fs.get 0) (.bare "array_pattern" (before ++ rest ++ after)))
        fun t => [t] :=
    h₃.andThen fun after _ => Spends.mono (spends_withConstant h₀ _) fun k => by simp
  dsimp only
  split
  · exact (hend []).mono fun k => by simp
  · exact (fresh_matchRest _).andThen fun rest _ => hend [rest]

/-- Items between two splats are all visited once. -/
theorem fresh_lowerFindPattern (h₀ : Fresh (go (fs.get 0)))
    (h₂ : FreshAll (patterns go (fs.get 2))) : Fresh (lowerFindPattern go fs) := by
  refine (fresh_matchRest _).andThen fun before _ => h₂.andThen fun items _ => ?_
  refine (fresh_matchRest _).andThen fun after _ => ?_
  exact Spends.mono (spends_withConstant h₀ _) fun k => by simp

/-- Each pair of a pattern is visited once. -/
theorem fresh_lowerHashPattern (h₀ : Fresh (go (fs.get 0)))
    (h₁ : ∀ rs, Returns (elementsOf (fs.get 1)) rs → ∀ x ∈ rs, Fresh (pairPattern go x)) :
    Fresh (lowerHashPattern go fs) := by
  unfold lowerHashPattern
  refine Quiet.andThen (congruence_quiet.elementsOf _) fun rs hrs => ?_
  refine (freshAll_mapM (h₁ rs hrs)).andThen fun pairs _ => ?_
  have hend (rest : List Tree) : Spends (pairs ++ rest)
      (withConstant go (fs.get 0) (.bare "hash_pattern" (pairs ++ rest))) fun t => [t] :=
    Spends.mono (spends_withConstant h₀ _) fun k => by simp
  dsimp only
  split
  · exact (hend [.bare "match_nil_pattern" []]).mono fun k => by simp
  · split
    · exact (hend []).mono fun k => by simp
    · exact (fresh_matchRest _).andThen fun rest _ => hend [rest]

end Patterns

end LowerM

end RubyTree
