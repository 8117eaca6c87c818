import RubyTree.Proofs.Lower.Sound.Expression

/-!
# Soundness of Bodies

Sequences, bodies with their clauses, parameters, blocks and definitions. An
empty statement may be the result of all the code there is, and each construct
that holds code drops it, so that what is left is a value or nothing.

The parameters of a block are looked at twice: lowering them gives the list, and
the raw list tells whether a comma ends it. A list of parameters is sound if both
can be done.

## Theorems

* `sound_paren`, `sound_statements`: Sequences.
* `statementList_yields`: The statements of a body.
* `body_yields`, `rescueBody_yields`, `sound_rescues`: Bodies with clauses.
* `sound_params`, `sound_blockParams`, `sound_blockCall`: Parameters and blocks.
* `sound_method`, `sound_singletonMethod`, `sound_classDef`: Definitions.
-/

namespace RubyTree

namespace LowerM

open Raw (node token)

section Sequences

/-- Parentheses around a value. -/
theorem finished_begin {t : Tree} (h : Finished .value t) :
    Finished .value (.bare "begin" [t]) := by
  have hall : ∀ u ∈ [t], Finished .value u := List.forall_mem_singleton.2 h
  exact .node rfl rfl rfl (.all hall)

/-- The node `nil` is a value. -/
theorem finished_nil : Finished .value (.bare "nil" []) :=
  .node rfl rfl rfl .nil

/-- Statements in parentheses. -/
theorem sound_paren {r : Raw} (h : Sound .code r) : Sound .expr (node "paren" [r]) := by
  refine yields_node (p := .paren) rfl ?_
  show Yields (if r.isEmpty then _ else _) _
  split
  · exact yields_pure finished_nil
  · refine h.bind fun t ht => ?_
    split
    · exact yields_pure finished_nil
    · rename_i hvoid
      have hvalue := ht.value (Bool.eq_false_iff.2 hvoid)
      -- Parentheses are left out around arguments and around some sequences.
      split
      · exact yields_pure hvalue
      · split
        · exact yields_pure hvalue
        · exact yields_pure (finished_begin hvalue)

/-- `()`. -/
theorem sound_emptyParen : Sound .expr (node "paren" [.bool false]) :=
  yields_node rfl (yields_pure finished_nil)

/-- Arguments of `yield` in parentheses. -/
theorem sound_parenArgs {r : Raw} (h : Sound .arglist r) : Sound .args (node "paren" [r]) := by
  refine yields_node (p := .paren) rfl ?_
  show Yields (if r.isEmpty then _ else _) _
  split
  · exact yields_pure (.inr (.inl (finished_nil.within rfl)))
  · refine h.bind ?_
    rintro t ⟨mark, children, rfl, hchildren⟩
    exact yields_pure (.inr (.inr (.inl ⟨_, _, rfl, hchildren⟩)))

/-- A statement that is empty. -/
theorem sound_emptyStatement {fields : List Raw} : Sound .code (node "void_stmt" fields) :=
  yields_node rfl (yields_pure (suite_void _))

/-- Statements one after the other. -/
theorem sound_statements {rs : List Raw} (h : ∀ r ∈ rs, Sound .code r) :
    Sound .code (node "stmts" rs) := by
  refine yields_node rfl ((Yields.mapM h).bind fun ts hts => ?_)
  have hvalues := value_of_mem_rejectVoid hts
  split
  · exact yields_pure (suite_void _)
  · rename_i heq
    rw [heq] at hvalues
    exact yields_pure (suite_of_value (hvalues _ List.mem_cons_self))
  · exact yields_pure (suite_of_value (.node rfl rfl rfl (.all hvalues)))

/-- What `else` leads to. -/
theorem sound_otherwise {r : Raw} (h : Sound .code r) : Sound .code (node "else" [r]) :=
  yields_node rfl ((visitBody_yields h).mono fun _ ht => suite_of_optional ht)

/-- What `ensure` leads to. -/
theorem sound_ensure {r : Raw} (h : Sound .code r) : Sound .ensure (node "ensure" [r]) :=
  yields_node rfl (visitBody_yields h)

/-- Statements that are read one by one. -/
theorem sound_sequence {rs : List Raw} (h : ∀ r ∈ rs, Sound .code r) :
    Sound .sequence (node "stmts" rs) :=
  (Yields.mapM h).bind fun _ hts => yields_pure (value_of_mem_rejectVoid hts)

/-- The statements of a body are those its tree is made of, whether it is written
    as a sequence or not. -/
theorem statementList_yields {r : Raw} {P : Tree → Prop} (h : Yields (lower r) P) :
    Yields (statementList lower r) fun ts => ∃ t, P t ∧
      (ts = [] ∧ t.isVoid = true ∨ ts = [t] ∧ t.isVoid = false ∨
        ts ≠ [] ∧ t = .bare "begin" ts) := by
  unfold statementList
  split
  · rename_i statements
    -- The statements are lowered by the same steps as the sequence, so one run of
    -- them serves both.
    intro options scope
    obtain ⟨t, scope', hrun, ht⟩ := h options scope
    have hlower : lower (node "stmts" statements) = lowerStatements lower statements :=
      lower_node "stmts" statements
    rw [hlower, lowerStatements, runIn_bind] at hrun
    rw [runIn_bind]
    cases hmap : (statements.mapM lower).runIn options scope with
    | mk result middle =>
      rw [hmap] at hrun
      cases result with
      | error e => cases hrun
      | ok ts =>
        refine ⟨_, _, rfl, t, ht, ?_⟩
        dsimp only at hrun
        split at hrun
        · rename_i hnil
          cases hrun
          exact .inl ⟨hnil, rfl⟩
        · rename_i t' heq
          cases hrun
          have hmem : t ∈ Tree.rejectVoid ts := heq ▸ List.mem_cons_self
          exact .inr (.inl ⟨heq, by simpa using (List.mem_filter.1 hmem).2⟩)
        · rename_i hnil _
          cases hrun
          exact .inr (.inr ⟨hnil, rfl⟩)
  · refine h.bind fun t ht => yields_pure ⟨t, ht, ?_⟩
    cases hvoid : t.isVoid with
    | true => exact .inl ⟨List.filter_cons_of_neg (by simp [hvoid]), rfl⟩
    | false => exact .inr (.inl ⟨List.filter_cons_of_pos (by simp [hvoid]), rfl⟩)

/-- One expression in the place of a list is a list of itself. -/
theorem statementList_of_value {r : Raw} (h : Sound .expr r) :
    Yields (statementList lower r) fun ts => ts ≠ [] ∧ ∀ t ∈ ts, Finished .value t := by
  refine (statementList_yields h).mono ?_
  rintro ts ⟨t, ht, ⟨-, hvoid⟩ | ⟨rfl, -⟩ | ⟨hne, rfl⟩⟩
  · rw [isVoid_eq_false ht] at hvoid
    cases hvoid
  · exact ⟨List.cons_ne_nil t [], List.forall_mem_singleton.2 ht⟩
  · exact ⟨hne, values_of_begin ht⟩

/-- One statement in the place of many. -/
theorem sound_single {r : Raw} (h : Sound .expr r) : Sound .sequence r :=
  (statementList_of_value h).mono fun _ hts => hts.2

end Sequences

section Clauses

/-- The last part of a body, which is wrapped around what comes before it. -/
theorem ensure_yields {slot : Slot} {body : Tree} {ensure : Raw} (hslot : slot.takes .value)
    (hbody : Finished .optional body) (hensure : Sound (.optional .ensure) ensure)
    (halone : ensure.isEmpty → Finished slot body) :
    Yields (if ensure.isEmpty then pure body
      else do return .bare "ensure" [body, ← lower ensure]) (Finished slot) := by
  split
  · rename_i hempty
    exact yields_pure (halone hempty)
  · have hlower : Yields (lower ensure) (Finished .optional) :=
      yields_optional hensure (.leaf rfl) fun h => h
    refine hlower.bind fun t ht => ?_
    exact yields_pure (.node rfl hslot rfl (.one hbody (.one ht .nil)))

/-- A body without clauses. It is whatever its statements are, unless something
    is done after them. -/
theorem body_yields {slot : Slot} {statements ensure : Raw} (hslot : slot.takes .value)
    (hstatements : Yields (statementList lower statements) fun ts =>
      (∀ t ∈ ts, Finished .value t) ∧ (ensure.isEmpty → Finished slot (Tree.ofStatements ts)))
    (hensure : Sound (.optional .ensure) ensure) :
    Yields (lower (node "bodystmt" [statements, .null, .null, ensure])) (Finished slot) := by
  refine yields_node rfl (hstatements.bind fun ts hts => ?_)
  exact ensure_yields hslot (finished_ofStatements hts.1) hensure hts.2

/-- A body without `rescue` or `else`. -/
theorem sound_body {statements ensure : Raw} (hstatements : Sound .sequence statements)
    (hensure : Sound (.optional .ensure) ensure) :
    Sound .body (node "bodystmt" [statements, .null, .null, ensure]) := by
  have hts : ∀ ts : List Tree, (∀ t ∈ ts, Finished .value t) →
      (∀ t ∈ ts, Finished .value t) ∧
        (ensure.isEmpty → Finished .optional (Tree.ofStatements ts)) :=
    fun ts h => ⟨h, fun _ => finished_ofStatements h⟩
  exact body_yields rfl (Yields.mono hstatements hts) hensure

/-- A body with clauses is a value even if it has no statements. -/
theorem rescueBody_yields {statements rescues otherwise ensure : Raw}
    (hstatements : Sound .sequence statements) (hrescues : Sound .rescues rescues)
    (hotherwise : Sound .code otherwise) (hensure : Sound (.optional .ensure) ensure) :
    Yields (lower (node "bodystmt" [statements, rescues, otherwise, ensure]))
      (Finished .value) := by
  obtain ⟨hempty, hclauses⟩ := hrescues
  refine yields_node rfl (hstatements.bind fun ts hts => ?_)
  have hbody := finished_ofStatements hts
  show Yields (if !rescues.isEmpty then _ else _) _
  -- The clauses are there, so the way through them is taken.
  rw [hempty, Bool.not_false, if_pos rfl]
  refine hclauses.bind fun cs hcs => (visitBody_yields hotherwise).bind fun t ht => ?_
  have hrescue : Finished .value (.bare "rescue" (Tree.ofStatements ts :: cs ++ [t])) :=
    .node rfl rfl rfl (.one hbody (.many hcs (.one ht .nil)))
  exact ensure_yields rfl (hrescue.within rfl) hensure fun _ => hrescue

/-- A body with `rescue` clauses. -/
theorem sound_rescueBody {statements rescues otherwise ensure : Raw}
    (hstatements : Sound .sequence statements) (hrescues : Sound .rescues rescues)
    (hotherwise : Sound .code otherwise) (hensure : Sound (.optional .ensure) ensure) :
    Sound .body (node "bodystmt" [statements, rescues, otherwise, ensure]) :=
  (rescueBody_yields hstatements hrescues hotherwise hensure).mono fun _ ht => ht.within rfl

/-- The exceptions that a clause names. -/
theorem sound_exceptions {rs : List Raw} (h : ∀ r ∈ rs, Sound .expr r) :
    Sound .exceptions (.list rs) := by
  cases rs with
  | nil => exact yields_pure (.leaf rfl)
  | cons r rs =>
    -- A list that starts with a node has no tag itself.
    obtain ⟨tag, fields, rfl⟩ := exists_node_of_sound (h r List.mem_cons_self)
    refine (Yields.mapM h).bind fun ts hts => yields_pure ?_
    exact .node rfl rfl rfl (.all fun t ht => (hts t ht).within rfl)

/-- A clause that names no exceptions. -/
theorem sound_everyException : Sound .exceptions .null :=
  yields_pure (.leaf rfl)

/-- Exceptions with a splat among them. -/
theorem sound_exceptionRow {tag : String} {fields : List Raw} (h : Sound .row (node tag fields)) :
    Sound .exceptions (node tag fields) := by
  have hargs : Yields (lower (node tag fields)) Args := h.mono fun _ ht => .inr (.inr (.inr ht))
  refine (argumentList_yields hargs).bind fun ts hts => ?_
  exact yields_pure (.node rfl rfl rfl (.all hts))

/-- One `rescue` clause. -/
theorem rescueClause_yields {exceptions captured statements : Raw}
    (hexceptions : Sound .exceptions exceptions)
    (hcaptured : Sound (.optional (.item false)) captured) (hstatements : Sound .code statements) :
    Yields (rescueClause lower exceptions captured statements) (Finished .rescueClause) := by
  refine hexceptions.bind fun e he => ?_
  have hrest : ∀ target, Finished .capture target →
      Yields (do return .bare "resbody" [e, target, ← visitBody lower statements])
        (Finished .rescueClause) := by
    intro target htarget
    refine (visitBody_yields hstatements).bind fun t ht => ?_
    exact yields_pure (.node rfl rfl rfl (.one he (.one htarget (.one ht .nil))))
  -- The exception need not be bound to anything.
  dsimp only
  split
  · exact hrest .null (.leaf rfl)
  · rename_i hempty
    rcases hcaptured with rfl | hcaptured
    · exact absurd rfl hempty
    · refine hcaptured.bind fun t ht => (targetOf_yields ht.1).bind fun u hu => ?_
      exact hrest u (hu.within rfl)

/-- A chain of `rescue` clauses. -/
theorem sound_rescues {exceptions captured statements next : Raw}
    (hexceptions : Sound .exceptions exceptions)
    (hcaptured : Sound (.optional (.item false)) captured) (hstatements : Sound .code statements)
    (hnext : Sound (.optional .rescues) next) :
    Sound .rescues (node "rescue" [exceptions, captured, statements, next]) := by
  -- The chain ends in nothing or goes on, and what goes on is sound as a chain.
  have hrest : Yields (rescueClauses lower next) fun ts => ∀ t ∈ ts, Finished .rescueClause t := by
    rcases hnext with rfl | hnext
    · rw [rescueClauses]
      exact yields_pure fun t ht => absurd ht List.not_mem_nil
    · exact hnext.2
  refine ⟨rfl, ?_⟩
  rw [rescueClauses]
  refine (rescueClause_yields hexceptions hcaptured hstatements).bind fun c hc => ?_
  refine hrest.bind fun cs hcs => yields_pure fun t ht => ?_
  rcases List.mem_cons.1 ht with rfl | ht
  · exact hc
  · exact hcs t ht

/-- A body between `begin` and `end`, whose statements are not wrapped twice. -/
theorem kwbegin_yields (line : Option Raw) {t : Tree} (h : Finished .optional t) :
    Yields (match t with
      | .null => (return .placed line "kwbegin" [] : LowerM Tree)
      | .node (.str "begin") _ children => return .placed line "kwbegin" children
      | t => return .placed line "kwbegin" [t]) (Finished .value) := by
  split
  · exact yields_pure (.node rfl rfl rfl (.all nofun))
  · exact yields_pure (.node rfl rfl rfl (.all (values_of_begin h)))
  · refine yields_pure (.node rfl rfl rfl (.all (List.forall_mem_singleton.2 ?_)))
    rcases h.eq_null_or with rfl | hvalue
    · contradiction
    · exact hvalue

/-- A `begin` block. -/
theorem sound_begin {fields rest : List Raw} (h : Sound .body (node "bodystmt" fields)) :
    Sound .expr (node "begin" (node "bodystmt" fields :: rest)) :=
  yields_node rfl (h.bind fun _ ht => kwbegin_yields _ ht)

/-- A pinned expression is a `begin` as well. -/
theorem sound_beginExpr {r : Raw} (h : Sound .expr r) : Sound .expr (node "begin" [r]) := by
  refine yields_node (p := .begin) rfl ?_
  show Yields (if !r.hasTag "bodystmt" then _ else _) _
  split
  · exact Yields.bind h fun t ht => yields_pure (finished_begin ht)
  · exact Yields.bind h fun t ht => kwbegin_yields _ (ht.within rfl)

/-- `a rescue b`. -/
theorem sound_rescueModifier {r handler : Raw} (h : Sound .expr r)
    (hhandler : Sound .expr handler) :
    Sound .expr (node "rescue_mod" [r, handler]) := by
  refine yields_node rfl (h.bind fun t ht => hhandler.bind fun u hu => ?_)
  have hclause : Finished .rescueClause (.bare "resbody" [.null, .null, u]) :=
    .node rfl rfl rfl (.one (.leaf rfl) (.one (.leaf rfl) (.one (hu.within rfl) .nil)))
  have hclauses : ∀ c ∈ [Tree.bare "resbody" [.null, .null, u]], Finished .rescueClause c :=
    List.forall_mem_singleton.2 hclause
  refine yields_pure (.node rfl rfl rfl (.one (ht.within rfl) ?_))
  exact .many hclauses (.one (.leaf rfl) .nil)

end Clauses

section Parameters

/-- The elements of a field that may be absent. -/
theorem elementsOf_yields {k : Kind} {r : Raw} (h : Sound (.optional (.listOf k)) r) :
    Yields (elementsOf r) fun rs => ∀ x ∈ rs, Sound k x := by
  rcases h with rfl | ⟨rs, rfl, hrs⟩
  · exact yields_pure nofun
  · rw [elementsOf_list]
    exact yields_pure hrs

/-- A parameter that may go without a name. -/
theorem lowerNamedParam_yields (tag : String) {name : Raw} (h : OptionallyNamed name) :
    Yields (lowerNamedParam tag [name]) fun t =>
      ∃ mark children, t = .node (.str tag) mark children ∧
        FinishedAll [.maybe .symbol] children := by
  show Yields (if name.isNull then _ else _) _
  split
  · exact yields_pure ⟨_, _, rfl, .left .nil⟩
  · rename_i hnull
    cases h with
    | absent => exact absurd rfl hnull
    | named hname =>
      -- A name that is there can be read.
      show Yields (nameOf name >>= _) _
      rw [nameOf_named hname]
      exact yields_pure ⟨_, _, rfl, .maybe (.symbol _) .nil⟩

/-- A parameter with a mark in front is one already. -/
theorem namedParam_yields {tag : String} {name : Raw}
    (htag : tag ∈ ["rest_param", "kwrest_param", "blockarg"]) (hname : OptionallyNamed name) :
    Yields (lower (node tag [name])) fun t => Yields (asParameter t) Parameter := by
  simp only [List.mem_cons, List.not_mem_nil, or_false] at htag
  rcases htag with rfl | rfl | rfl
  · refine yields_node rfl ((lowerNamedParam_yields "restarg" hname).mono ?_)
    rintro _ ⟨mark, children, rfl, hchildren⟩
    exact yields_pure (parameter_of_tag (.node rfl rfl rfl hchildren) rfl)
  · refine yields_node rfl ((lowerNamedParam_yields "kwrestarg" hname).mono ?_)
    rintro _ ⟨mark, children, rfl, hchildren⟩
    exact yields_pure (parameter_of_tag (.node rfl rfl rfl hchildren) rfl)
  · refine yields_node rfl ((lowerNamedParam_yields "blockarg" hname).mono ?_)
    rintro _ ⟨mark, children, rfl, hchildren⟩
    exact yields_pure (parameter_of_tag (.node rfl rfl rfl hchildren) rfl)

/-- A parameter of which there is at most one. -/
theorem special_yields {r : Raw} (h : Special r) :
    Yields (special lower r) fun ts => ∀ t ∈ ts, Parameter t := by
  have hone : ∀ t, Parameter t → ∀ u ∈ [t], Parameter u :=
    fun t ht => List.forall_mem_singleton.2 ht
  -- Only a name is looked at before it is visited: the bare `nil` stands for itself.
  cases h with
  | absent => exact yields_pure nofun
  | named htag hname =>
    refine (namedParam_yields htag hname).bind fun t ht => ?_
    exact ht.bind fun p hp => yields_pure (hone p hp)
  | noKeywords =>
    have hlower : Yields (lower (node "nokw_param" [])) (· = .bare "kwnilarg" []) :=
      yields_node rfl (yields_pure rfl)
    refine hlower.bind ?_
    rintro _ rfl
    exact yields_pure (hone _ (parameter_of_tag (.node rfl rfl rfl .nil) rfl))
  | noKeywordsByName =>
    exact yields_pure (hone _ (parameter_of_tag (.node rfl rfl rfl .nil) rfl))
  | forwarded =>
    have hlower : Yields (lower (node "args_forward" [])) (· = .bare "forwarded_args" []) :=
      yields_node rfl (yields_pure rfl)
    refine hlower.bind ?_
    rintro _ rfl
    exact yields_pure (hone _ (parameter_of_tag (.node rfl rfl rfl .nil) rfl))

/-- Positional parameters, if there are any. -/
theorem positional_yields {r : Raw} (h : Sound (.optional (.listOf (.item true))) r) :
    Yields (positional lower r) fun ts => ∀ t ∈ ts, Parameter t := by
  refine (elementsOf_yields h).bind fun rs hrs => Yields.mapM fun x hx => ?_
  exact (hrs x hx).bind fun t ht => asParameter_yields (ht.2 rfl)

/-- A parameter with a default. -/
theorem sound_optionalParam {r value : Raw} {name : String} (hname : Named r name)
    (hvalue : Sound .expr value) : Sound .optionalParam (.list [r, value]) := by
  show Yields (nameOf r >>= _) _
  rw [nameOf_named hname, pure_bind]
  refine hvalue.bind fun v hv => yields_pure (parameter_of_tag ?_ rfl)
  exact .node rfl rfl rfl (.one (.symbol _) (.one hv .nil))

/-- A keyword parameter that has to be given. -/
theorem sound_requiredKeyword {tag label : String} {place value : Raw} (h : value.isEmpty) :
    Sound .keywordParam (.list [token tag label place, value]) := by
  show Yields (if value.isEmpty then _ else _) _
  rw [if_pos h]
  exact yields_pure (parameter_of_tag (.node rfl rfl rfl (.one (.symbol _) .nil)) rfl)

/-- A keyword parameter with a default. -/
theorem sound_optionalKeyword {tag label : String} {place value : Raw}
    (hvalue : Sound .expr value) :
    Sound .keywordParam (.list [token tag label place, value]) := by
  show Yields (if value.isEmpty then _ else _) _
  split
  · exact yields_pure (parameter_of_tag (.node rfl rfl rfl (.one (.symbol _) .nil)) rfl)
  · refine hvalue.bind fun v hv => yields_pure (parameter_of_tag ?_ rfl)
    exact .node rfl rfl rfl (.one (.symbol _) (.one hv .nil))

/-- The parameters of a method or of a block. -/
theorem sound_params {required optionals rest post keywords kwrest block : Raw}
    (hrequired : Sound (.optional (.listOf (.item true))) required)
    (hoptionals : Sound (.optional (.listOf .optionalParam)) optionals)
    (hrest : isExtraComma rest ∨ Special rest)
    (hpost : Sound (.optional (.listOf (.item true))) post)
    (hkeywords : Sound (.optional (.listOf .keywordParam)) keywords)
    (hkwrest : Special kwrest) (hblock : Special block) :
    Sound .params (node "params" [required, optionals, rest, post, keywords, kwrest, block]) := by
  refine ⟨yields_node rfl ((positional_yields hrequired).bind fun as has => ?_), _, rfl⟩
  refine (elementsOf_yields hoptionals).bind fun os hos => (Yields.mapM hos).bind fun bs hbs => ?_
  -- Whatever the rest parameter is, the others follow it.
  have hafter : ∀ cs, (∀ c ∈ cs, Parameter c) → Yields (do
      let post ← positional lower post
      let keywords ← (← elementsOf keywords).mapM (keyword lower)
      let kwrest ← special lower kwrest
      let block ← special lower block
      return Tree.bare "args" (as ++ bs ++ cs ++ post ++ keywords ++ kwrest ++ block))
        ParamList := by
    intro cs hcs
    refine (positional_yields hpost).bind fun ds hds => ?_
    refine (elementsOf_yields hkeywords).bind fun ks hks => (Yields.mapM hks).bind fun es hes => ?_
    refine (special_yields hkwrest).bind fun fs hfs => (special_yields hblock).bind fun gs hgs => ?_
    refine yields_pure ⟨_, _, rfl, fun t ht => ?_⟩
    simp only [List.mem_append] at ht
    rcases ht with (((((ht | ht) | ht) | ht) | ht) | ht) | ht
    · exact has t ht
    · exact hbs t ht
    · exact hcs t ht
    · exact hds t ht
    · exact hes t ht
    · exact hfs t ht
    · exact hgs t ht
  dsimp only
  split
  · exact hafter [] nofun
  · rename_i hcomma
    rcases hrest with hrest | hrest
    · exact absurd hrest hcomma
    · exact (special_yields hrest).bind hafter

/-- Parameters without parentheses. -/
theorem sound_ofParams {r : Raw} (h : Sound .params r) : Sound .paramList r :=
  h.1.mono fun _ ht => ht.finished

/-- Parameters in parentheses. -/
theorem sound_parenParams {r : Raw} (h : Sound .params r) :
    Sound .paramList (node "paren" [r]) := by
  refine yields_node (p := .paren) rfl ?_
  show Yields (if r.isEmpty then _ else _) _
  split
  · rename_i hempty
    -- An absent list would be lowered to nothing, which is no list of parameters.
    obtain ⟨t, scope, hrun, mark, children, rfl, -⟩ := h.1 {} {}
    rw [lower_of_isEmpty hempty] at hrun
    cases hrun
  · refine h.1.bind ?_
    rintro t ht
    have hfinished := ht.finished
    obtain ⟨mark, children, rfl, -⟩ := ht
    exact yields_pure hfinished

/-- The names local to a block, each of which is a parameter. -/
theorem locals_yields {locals : Raw} (h : Locals locals) :
    Yields (elementsOf locals) fun rs => ∀ r ∈ rs, Yields (shadow r) (Finished .param) := by
  cases h with
  | absent => exact yields_pure nofun
  | none => exact yields_pure nofun
  | names h =>
    rw [elementsOf_list]
    refine yields_pure fun r hr => ?_
    obtain ⟨name, hname⟩ := h r hr
    rw [shadow, nameOf_named hname]
    exact yields_pure (.node rfl rfl rfl (.one (.symbol _) .nil))

/-- Parameters of a block, and names that are local to it. -/
theorem sound_blockParams {params locals : Raw} (hparams : Sound .params params)
    (hlocals : Locals locals) : Sound .blockParams (node "block_var" [params, locals]) := by
  obtain ⟨hlist, comma, hcomma⟩ := hparams
  refine yields_node rfl (hlist.bind ?_)
  rintro _ ⟨mark, children, rfl, hchildren⟩
  -- Local names follow the parameters, however those are wrapped.
  have hafter : ∀ cs, (∀ c ∈ cs, Finished .param c) → Yields (do
      let shadows ← (← elementsOf locals).mapM shadow
      return (Tree.node (.str "args") mark children).withChildren (cs ++ shadows))
        (Finished .params) := by
    intro cs hcs
    refine (locals_yields hlocals).bind fun rs hrs => (Yields.mapM hrs).bind fun ts hts => ?_
    refine yields_pure (.node rfl rfl rfl (.all fun t ht => ?_))
    exact (List.mem_append.1 ht).elim (hcs t) (hts t)
  show Yields (hasTrailingComma params >>= _) _
  rw [hcomma, pure_bind]
  split
  · exact hafter children fun c hc => (hchildren c hc).1
  · exact (wrapLone_yields hchildren).bind hafter

end Parameters

section Blocks

/-- The parameters and the body of a block. -/
theorem paramsAndBody_yields {params body : Raw}
    (hparams : Yields (lower params) fun t => t = .null ∨ Finished .params t)
    (hbody : Sound .code body) :
    Yields (paramsAndBody lower [params, body]) fun p =>
      (p.1 = .null ∨ Finished .params p.1) ∧ Finished .optional p.2 := by
  refine hparams.bind fun args hargs => ?_
  exact ((visitBody_yields hbody).withRest _).bind fun t ht => yields_pure ⟨hargs, ht⟩

/-- A block in braces, or from `do` to `end`. -/
theorem sound_block {tag : String} {params body : Raw} (htag : tag ∈ ["brace_block", "do_block"])
    (hparams : Sound (.optional .blockParams) params) (hbody : Sound .code body) :
    Sound .block (node tag [params, body]) := by
  have hargs : Yields (lower params) fun t => t = .null ∨ Finished .params t :=
    yields_optional hparams (.inl rfl) fun h => h.mono fun _ ht => .inr ht
  simp only [List.mem_cons, List.not_mem_nil, or_false] at htag
  rcases htag with rfl | rfl
  all_goals
    refine yields_node rfl ((paramsAndBody_yields hargs hbody).bind fun p hp => ?_)
    exact yields_pure ⟨_, _, _, rfl, hp.1, hp.2⟩

/-- A call and its block. -/
theorem sound_blockCall {call block : Raw} (hcall : Sound .expr call)
    (hblock : Sound .block block) :
    Sound .expr (node "method_add_block" [call, block]) := by
  refine yields_node rfl (hcall.bind fun t ht => hblock.bind ?_)
  rintro _ ⟨mark, args, body, rfl, hargs, hbody⟩
  exact makeBlock_yields (ht.within rfl) hargs hbody

/-- `->(a) { b }`. -/
theorem sound_lambda {params body : Raw} (hparams : Sound .paramList params)
    (hbody : Sound .code body) : Sound .expr (node "lambda" [params, body]) := by
  have hargs : Yields (lower params) fun t => t = .null ∨ Finished .params t :=
    hparams.mono fun _ ht => .inr ht
  refine yields_node rfl ((paramsAndBody_yields hargs hbody).bind fun p hp => ?_)
  exact makeBlock_yields (.node rfl rfl rfl .nil) hp.1 hp.2

end Blocks

section Definitions

/-- The parameters of a method, which may be absent. -/
theorem methodParams_yields {params : Raw} (h : Sound (.optional .paramList) params) :
    Yields (methodParams lower params) (Finished .params) := by
  have hempty : Finished .params (.bare "args" []) := .node rfl rfl rfl (.all nofun)
  unfold methodParams
  split
  · exact yields_pure hempty
  · rename_i hpresent
    rcases h with rfl | h
    · exact absurd rfl hpresent
    · refine h.bind fun t ht => ?_
      obtain ⟨mark, children, rfl⟩ := params_node ht
      exact yields_pure ht

/-- The statements of a method, of which there is at least one. -/
theorem methodStatements_yields {body : Raw} (h : Sound .body body) :
    Yields (methodStatements lower body) fun ts => ∀ t ∈ ts, Finished .value t := by
  -- Both ways of lowering the body end in the same look at the tree.
  have hrest : ∀ t, Finished .optional t → Yields (match t with
      | .null => (return [.bare "nil" []] : LowerM (List Tree))
      | .node (.str "begin") _ children => return children
      | t => return [t]) fun ts => ∀ t ∈ ts, Finished .value t := by
    intro t ht
    split
    · exact yields_pure (List.forall_mem_singleton.2 finished_nil)
    · exact yields_pure (values_of_begin ht)
    · refine yields_pure (List.forall_mem_singleton.2 ?_)
      rcases ht.eq_null_or with rfl | hvalue
      · contradiction
      · exact hvalue
  unfold methodStatements
  dsimp only
  split
  · exact h.bind hrest
  · exact (visitBody_yields (h.mono fun _ ht => suite_of_optional ht)).bind hrest

/-- The parameters of a method and its statements, as its children. -/
theorem methodParts_yields {params body : Raw} (hparams : Sound (.optional .paramList) params)
    (hbody : Sound .body body) :
    Yields (methodParts lower params body) (FinishedAll [.one .params, .many .value]) := by
  -- Both are lowered in the scope of the method, whatever is around it.
  refine Yields.inBody ((methodParams_yields hparams).bind fun args hargs => ?_) true
  refine ((methodStatements_yields hbody).withRest _).bind fun ts hts => ?_
  exact yields_pure (.one hargs (.all hts))

/-- A method definition. -/
theorem sound_method {tag name : String} {place params body : Raw} {rest : List Raw}
    (hparams : Sound (.optional .paramList) params) (hbody : Sound .body body) :
    Sound .expr (node "def" (token tag name place :: params :: body :: rest)) := by
  refine yields_node rfl ((methodParts_yields hparams hbody).bind fun ts hts => ?_)
  exact yields_pure (.node rfl rfl rfl (.one (.symbol _) hts))

/-- A method definition for one object. -/
theorem sound_singletonMethod {tag name : String} {receiver dot place params body : Raw}
    {rest : List Raw} (hreceiver : Sound .expr receiver)
    (hparams : Sound (.optional .paramList) params) (hbody : Sound .body body) :
    Sound .expr
      (node "defs" (receiver :: dot :: token tag name place :: params :: body :: rest)) := by
  refine yields_node rfl (hreceiver.bind fun t ht => ?_)
  refine (methodParts_yields hparams hbody).bind fun ts hts => ?_
  exact yields_pure (.node rfl rfl rfl (.one (unwrapBegin_finished ht) (.one (.symbol _) hts)))

/-- The body of a class or module, which is nothing if it is empty. -/
theorem namespaceBody_yields {body : Raw} (h : Sound .code body) :
    Yields (namespaceBody lower body) (Finished .optional) :=
  (visitBody_yields h).inBody false

/-- A class, whose body is outside of any method. -/
theorem sound_classDef {const parent body : Raw} {rest : List Raw} (hconst : Sound .expr const)
    (hparent : Sound (.optional .expr) parent) (hbody : Sound .code body) :
    Sound .expr (node "class" (const :: parent :: body :: rest)) := by
  refine yields_node rfl (hconst.bind fun c hc => (optional_yields hparent).bind fun p hp => ?_)
  refine (namespaceBody_yields hbody).bind fun b hb => ?_
  exact yields_pure (.node rfl rfl rfl (.one hc (.one hp (.one hb .nil))))

/-- A module, or the class of one object. -/
theorem sound_moduleDef {tag : String} {const body : Raw} {rest : List Raw}
    (htag : tag ∈ ["module", "sclass"]) (hconst : Sound .expr const) (hbody : Sound .code body) :
    Sound .expr (node tag (const :: body :: rest)) := by
  simp only [List.mem_cons, List.not_mem_nil, or_false] at htag
  rcases htag with rfl | rfl
  all_goals
    refine yields_node rfl (hconst.bind fun c hc => ?_)
    refine (namespaceBody_yields hbody).bind fun b hb => ?_
    exact yields_pure (.node rfl rfl rfl (.one hc (.one hb .nil)))

/-- `BEGIN` and `END` blocks. -/
theorem sound_hook {tag : String} {body : Raw} {rest : List Raw} (htag : tag ∈ ["BEGIN", "END"])
    (hbody : Sound .code body) : Sound .expr (node tag (body :: rest)) := by
  simp only [List.mem_cons, List.not_mem_nil, or_false] at htag
  rcases htag with rfl | rfl
  all_goals
    refine yields_node rfl ((visitBody_yields hbody).bind fun t ht => ?_)
    exact yields_pure (.node rfl rfl rfl (.one ht .nil))

/-- A construct and the comments before it. -/
theorem sound_documented {comment r : Raw} (h : Sound .expr r) :
    Sound .expr (node "comment" [comment, r]) := by
  refine yields_node rfl (h.bind fun t ht => ?_)
  obtain ⟨tag, mark, children, rfl⟩ := ht.exists_node
  show Yields (if comment.isEmpty then _ else _) _
  split
  · exact yields_pure ht
  · show Yields (if documentable.contains tag then _ else _) _
    split
    · exact yields_pure (ht.remark _)
    · exact yields_pure ht

/-- `alias` for a method. -/
theorem sound_methodAlias {new old : Raw} (hnew : Sound .expr new) (hold : Sound .expr old) :
    Sound .expr (node "alias" [new, old]) := by
  refine yields_node rfl (hnew.bind fun n hn => hold.bind fun o ho => ?_)
  exact yields_pure (.node rfl rfl rfl (.one hn (.one ho .nil)))

/-- `alias` for a global variable. -/
theorem sound_globalAlias {new old : Raw} {newName oldName : String} (hnew : Named new newName)
    (hold : Named old oldName) : Sound .expr (node "var_alias" [new, old]) := by
  refine yields_node (p := .globalAlias) rfl ?_
  show Yields (nameOf new >>= fun left => nameOf old >>= _) _
  rw [nameOf_named hnew, nameOf_named hold]
  exact yields_pure (.node rfl rfl rfl (.one (.symbol _) (.one (.symbol _) .nil)))

/-- `undef` and the names that it takes away. -/
theorem sound_undef {rs : List Raw} (h : ∀ r ∈ rs, Sound .expr r) :
    Sound .expr (node "undef" [.list rs]) := by
  refine yields_node (p := .each "undef") rfl ?_
  show Yields (elementsOf (.list rs) >>= (·.mapM lower) >>= _) _
  rw [elementsOf_list, pure_bind]
  exact (Yields.mapM h).bind fun ts hts => yields_pure (.node rfl rfl rfl (.all hts))

end Definitions

end LowerM

end RubyTree
