import RubyTree.Program
import RubyTree.Proofs.Lower.Soundness
import RubyTree.Proofs.Tree.Unlined

/-!
# Programs Become Finished Trees

Every program of the grammar has a syntax tree, and the tree is finished. The one
exception is a program that says nothing, for which there is no tree at all, and
it is known which programs these are: those made of empty statements alone.

That no other program is lost is a second pass over the grammar, along the sorts
that stand for statements. A sequence with one statement that is not empty is a
value, since the empty ones are dropped and that one is left.

## Main definitions

* `Blank`: A raw tree with no statements but empty ones.
* `Filled`: What is known of statements that are not blank.

## Theorems

* `isVoid_of_blank`: What is blank is lowered to an empty statement.
* `filled_of_shaped`: Anything else is lowered to a value.
* `programOfRaw_finished`: A program has a finished tree, unless it is blank.
-/

namespace RubyTree

namespace LowerM

open Raw (node token)

/-- A raw tree with no statements but empty ones. -/
inductive Blank : Raw → Prop where
  | program {r : Raw} (h : Blank r) : Blank (node "program" [r])
  | nothing : Blank .null
  | emptyStatement {fields : List Raw} : Blank (node "void_stmt" fields)
  | statements {rs : List Raw} (h : ∀ r ∈ rs, Blank r) : Blank (node "stmts" rs)
  | otherwise {r : Raw} (h : Blank r) : Blank (node "else" [r])
  | body {statements : Raw} (h : Blank statements) :
      Blank (node "bodystmt" [statements, .null, .null, .null])

theorem rejectVoid_eq_nil {ts : List Tree} (h : ∀ t ∈ ts, t.isVoid) : Tree.rejectVoid ts = [] := by
  refine List.filter_eq_nil_iff.2 fun t ht => ?_
  rw [h t ht]
  decide

/-- What is blank is lowered to an empty statement or to nothing. -/
theorem isVoid_of_blank {r : Raw} (h : Blank r) : Yields (lower r) fun t => t.isVoid := by
  induction h with
  | program _ ih => exact yields_node rfl ih
  | nothing => exact yields_null rfl
  | emptyStatement => exact yields_node rfl (yields_pure rfl)
  | statements _ ih =>
    refine yields_node rfl ((Yields.mapM ih).bind fun ts hts => ?_)
    -- Nothing is left of the statements, and no statements are the node that is absent.
    rw [rejectVoid_eq_nil hts]
    exact yields_pure rfl
  | otherwise _ ih =>
    refine yields_node rfl (ih.bind fun t ht => yields_pure ?_)
    rw [Tree.dropVoid, if_pos ht]
    rfl
  | body _ ih =>
    refine yields_node rfl ((statementList_yields ih).bind ?_)
    rintro ts ⟨t, hvoid, ⟨rfl, -⟩ | ⟨-, hvalue⟩ | ⟨-, rfl⟩⟩
    · exact yields_pure rfl
    · -- A value cannot be void, and a body of one statement is no list.
      rw [hvoid] at hvalue
      cases hvalue
    · cases hvoid

/-- A sequence with a statement in it. -/
theorem finished_ofStatements_of_ne_nil {ts : List Tree} (h : ∀ t ∈ ts, Finished .value t)
    (hne : ts ≠ []) : Finished .value (Tree.ofStatements ts) := by
  match ts with
  | [] => exact absurd rfl hne
  | [t] => exact h t List.mem_cons_self
  | _ :: _ :: _ => exact .node rfl rfl rfl (.all h)

/-- The statements of a sequence, of which one is not empty. -/
theorem statements_yields {rs : List Raw} (h : ∀ r ∈ rs, Shaped .code r)
    (ih : ∀ r ∈ rs, ¬ Blank r → Yields (lower r) (Finished .value)) (hblank : ¬ ∀ r ∈ rs, Blank r) :
    Yields (rs.mapM lower) fun ts =>
      Tree.rejectVoid ts ≠ [] ∧ ∀ t ∈ Tree.rejectVoid ts, Finished .value t := by
  have hsound : ∀ r ∈ rs, Yields (lower r) Suite := fun r hr => sound_of_shaped (h r hr)
  -- What this one is lowered to is kept when the empty statements are dropped.
  obtain ⟨r, hmem, hr⟩ : ∃ r ∈ rs, ¬ Blank r := by
    simpa only [not_forall, exists_prop] using hblank
  have hexists : Yields (rs.mapM lower) fun ts => ∃ t ∈ ts, Finished .value t :=
    Yields.mapM_exists hmem (fun x hx => (hsound x hx).mono fun _ _ => trivial) (ih r hmem hr)
  refine (hexists.and (Yields.mapM hsound)).mono ?_
  rintro ts ⟨⟨t, ht, hvalue⟩, hts⟩
  refine ⟨List.ne_nil_of_mem (a := t) (List.mem_filter.2 ⟨ht, ?_⟩), value_of_mem_rejectVoid hts⟩
  rw [isVoid_eq_false hvalue]
  rfl

/-- What lowering gives for statements that are not blank. -/
def Filled : Kind → Raw → Prop
  | .program, r => ¬ Blank r → Yields (lower r) (Finished .value)
  | .code, r => ¬ Blank r → Yields (lower r) (Finished .value)
  | .body, r => ¬ Blank r → Yields (lower r) (Finished .value)
  | .sequence, r => ¬ Blank r →
      Yields (statementList lower r) fun ts => ts ≠ [] ∧ ∀ t ∈ ts, Finished .value t
  | _, _ => True

theorem filled_of_shaped {k : Kind} {r : Raw} (h : Shaped k r) : Filled k r := by
  induction h with
  | program _ ih => exact fun hblank => yields_node rfl (ih (mt .program hblank))
  | nothing => exact fun hblank => absurd .nothing hblank
  | emptyStatement => exact fun hblank => absurd .emptyStatement hblank
  | ofBody _ ih => exact ih
  | ofValue h => exact fun _ => sound_of_shaped h
  | single h => exact fun _ => statementList_of_value (sound_of_shaped h)
  | sequence h ih =>
    intro hblank
    have hstatements := statements_yields h ih (mt .statements hblank)
    exact hstatements.bind fun ts hts => yields_pure hts
  | statements h ih =>
    intro hblank
    refine yields_node rfl ((statements_yields h ih (mt .statements hblank)).bind ?_)
    rintro ts ⟨hne, hvalues⟩
    split
    · rename_i hnil
      exact absurd hnil hne
    · rename_i heq
      rw [heq] at hvalues
      exact yields_pure (hvalues _ List.mem_cons_self)
    · exact yields_pure (.node rfl rfl rfl (.all hvalues))
  | otherwise _ ih =>
    intro hblank
    refine yields_node rfl ((ih (mt .otherwise hblank)).bind fun t ht => yields_pure ?_)
    rw [Tree.dropVoid, isVoid_eq_false ht]
    exact ht
  | body hstatements hensure ih _ =>
    intro hblank
    refine body_yields rfl ?_ (sound_of_shaped hensure)
    cases hensure with
    | absent =>
      exact (ih (mt .body hblank)).mono fun ts hts =>
        ⟨hts.2, fun _ => finished_ofStatements_of_ne_nil hts.2 hts.1⟩
    | present h =>
      -- What is done after the body makes it a value, be the statements empty or not.
      cases h with
      | ensure => exact Yields.mono (sound_of_shaped hstatements) fun ts hts => ⟨hts, nofun⟩
  | rescueBody hstatements hrescues hotherwise hensure =>
    intro _
    exact rescueBody_yields (sound_of_shaped hstatements) (sound_of_shaped hrescues)
      (sound_of_shaped hotherwise) (sound_of_shaped hensure)
  -- Nothing is said of the other sorts.
  | _ => trivial

theorem lowerProgram_yields {r : Raw} (h : Shaped .program r) :
    Yields (lowerProgram r) fun result =>
      (result = none ↔ Blank r) ∧ ∀ t ∈ result, Finished .value t := by
  by_cases hblank : Blank r
  · refine (isVoid_of_blank hblank).bind fun t ht => yields_pure ?_
    rw [if_pos ht]
    exact ⟨iff_of_true rfl hblank, nofun⟩
  · have hvalue : Yields (lower r) (Finished .value) := filled_of_shaped h hblank
    refine hvalue.bind fun t ht => yields_pure ?_
    rw [isVoid_eq_false ht, if_neg Bool.false_ne_true]
    exact ⟨iff_of_false nofun hblank, fun u hu => Option.some.inj hu ▸ ht⟩

end LowerM

open LowerM (Shaped Blank)

/-- A program of the grammar has a finished tree, unless it says nothing. -/
theorem programOfRaw_finished {r : Raw} (h : Shaped .program r) (options : Options) :
    ∃ result, programOfRaw options r = .ok result ∧ (result = none ↔ Blank r) ∧
      ∀ t ∈ result, Finished .value t := by
  obtain ⟨result, after, hrun, hblank, hresult⟩ := LowerM.lowerProgram_yields h options {}
  refine ⟨result.map Tree.fillShared, ?_, ?_, ?_⟩
  · rw [programOfRaw, hrun]
    rfl
  · rw [Option.map_eq_none_iff, hblank]
  · intro t ht
    obtain ⟨u, hu, rfl⟩ := Option.map_eq_some_iff.1 ht
    exact (hresult u hu).fillShared

open Raw (node token)

/-- A name at the start of a line. -/
def sampleName (text : String) (line : Int) : Raw :=
  token "@ident" text (.list [.int line, .int 0])

/-- A loop that counts until its condition holds. -/
def sampleLoop : Raw :=
  node "while"
    [node "unary" [.sym "!", node "vcall" [sampleName "ready" 1]],
      node "stmts" [node "opassign" [node "var_field" [sampleName "count" 2],
        token "@op" "+=" (.list [.int 2, .int 6]), token "@int" "1" (.list [.int 2, .int 9])]]]

/-- The parameters of a block, the second of which takes a list apart. -/
def sampleParams : Raw :=
  node "params"
    [.list [sampleName "a" 4, node "mlhs_paren"
        [node "mlhs_add_star" [node "mlhs" [sampleName "b" 4], sampleName "c" 4]]],
      .null, .null, .null, .null, .null, .null]

/-- A call with a block. -/
def sampleCall : Raw :=
  node "method_add_block"
    [node "call" [node "vcall" [sampleName "items" 4], .sym ".", sampleName "each" 4],
      node "brace_block" [node "block_var" [sampleParams, .bool false],
        node "stmts" [node "command" [sampleName "puts" 4, node "args_add_block"
          [node "args" [node "var_ref" [sampleName "a" 4]], .bool false]]]]]

/-- The loop, and the call after it. -/
def sampleProgram : Raw :=
  node "program" [node "stmts" [sampleLoop, sampleCall]]

theorem shaped_sampleLoop : Shaped .expr sampleLoop := by
  have hcount : Shaped .expr (node "opassign" [node "var_field" [sampleName "count" 2],
      token "@op" "+=" (.list [.int 2, .int 6]), token "@int" "1" (.list [.int 2, .int 9])]) :=
    .operatorAssign (.varField .plainTarget) (.ofLeaf (.integer (n := 1) rfl))
  refine .loop (by decide) (.unary (.bareName (.token _ _ _) (by decide))) ?_
  exact .statements (List.forall_mem_singleton.2 (.ofBody (.ofValue hcount)))

theorem shaped_sampleParams : Shaped .params sampleParams := by
  have hitem : Shaped (.item true) (node "mlhs_paren"
      [node "mlhs_add_star" [node "mlhs" [sampleName "b" 4], sampleName "c" 4]]) := by
    refine .itemParen (.itemOfTargets (.targetsStar (.targets ?_) (.present .plainTarget)))
    exact List.forall_mem_singleton.2 (.itemOfTarget .plainTarget)
  refine .params (.present (.list ?_)) .absent (.inr .absent) .absent .absent .absent .absent
  exact List.forall_mem_cons.2 ⟨.itemOfTarget .plainTarget, List.forall_mem_singleton.2 hitem⟩

theorem shaped_sampleCall : Shaped .expr sampleCall := by
  have hcall : Shaped .expr
      (node "call" [node "vcall" [sampleName "items" 4], .sym ".", sampleName "each" 4]) :=
    .ofCallee (.call (.bareName (.token _ _ _) (by decide)) (.bare (by decide)) (.token _ _ _))
  have hargs : Shaped .arglist (node "args" [node "var_ref" [sampleName "a" 4]]) := by
    refine .arglist (List.forall_mem_singleton.2 (.ofExpr (.reference (by decide) ?_)))
    exact .variableName (by decide)
  have hbody : Shaped .expr (node "command" [sampleName "puts" 4, node "args_add_block"
      [node "args" [node "var_ref" [sampleName "a" 4]], .bool false]]) := by
    refine .command (.token _ _ _) (by decide) (.ofArglist ?_)
    exact .argsNoBlock (.ofArglist hargs) (.inr ⟨false, rfl⟩)
  have hparams : Shaped .blockParams (node "block_var" [sampleParams, .bool false]) :=
    .blockParams shaped_sampleParams .none
  refine .blockCall hcall (.block (by decide) (.present hparams) ?_)
  exact .statements (List.forall_mem_singleton.2 (.ofBody (.ofValue hbody)))

theorem programOfRaw_finished_sampleProgram :
    Shaped .program sampleProgram ∧
      ∃ t, programOfRaw {} sampleProgram = .ok (some t) ∧ Finished .value t := by
  have hshaped : Shaped .program sampleProgram := by
    refine .program (.statements (List.forall_mem_cons.2 ⟨?_, List.forall_mem_singleton.2 ?_⟩))
    · exact .ofBody (.ofValue shaped_sampleLoop)
    · exact .ofBody (.ofValue shaped_sampleCall)
  -- That there is a tree is computed; what it is like is what the theorem says.
  have hsome : (programOfRaw {} sampleProgram).toOption.join.isSome := by decide +kernel
  obtain ⟨result, hrun, -, hfinished⟩ := programOfRaw_finished hshaped {}
  rw [hrun] at hsome
  cases result with
  | none => cases hsome
  | some t => exact ⟨hshaped, t, hrun, hfinished t rfl⟩

end RubyTree
