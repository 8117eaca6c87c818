import RubyTree.Proofs.Lower.Accounts.Settled

/-!
# Accounts of Definitions and Literals

Each production that makes an assignment, a parameter, a definition or a literal adds
up what its parts count for. The names of parameters and of definitions are idle, and
so are the tokens that content is made of.

## Theorems

* `settled_operatorAssign`: A target that is lowered once and stands twice.
* `settled_params`: Parameters, of which only the defaults hold code.
* `settled_method`, `settled_classDef`: Bodies in a method and out of one.
* `settled_literal`: A literal counts for its interpolations.
-/

namespace RubyTree

namespace LowerM

open Raw (node token)

variable {L : Ledger}

section Assignment

/-- `a = b`. -/
theorem settled_assign {target value : Raw} (hsound : Sound (.target false) target)
    (htarget : Settled L (.target false) target) (hvalue : Settled L .values value) :
    Settled L .expr (node "assign" [target, value]) := by
  intro ht m
  have hform : ∀ t, Returns (lower _) t → Target t :=
    fun t ht => (Yields.of_returns hsound ht).1
  exact counts_node rfl (by decide)
    (counts_lowerAssign (htarget (ht.get 0) m) hform (hvalue (ht.get 1) m)) (by simp)

/-- `a, b = c`. -/
theorem settled_multiAssign {targets value : Raw} (htargets : Settled L (.targets false) targets)
    (hvalue : Settled L .values value) : Settled L .expr (node "massign" [targets, value]) :=
  fun ht m => counts_node rfl (by decide)
    (counts_lowerMultiAssign (htargets (ht.get 0) m) (hvalue (ht.get 1) m)) (by simp)

/-- `a += b`. -/
theorem settled_operatorAssign {target value place : Raw} {tag op : String}
    (hsound : Sound (.target false) target) (htarget : Settled L (.target false) target)
    (hvalue : Settled L .expr value) :
    Settled L .expr (node "opassign" [target, token tag op place, value]) := by
  intro ht m
  have hform : ∀ t, Returns (lower target) t → Target t :=
    fun t ht => (Yields.of_returns hsound ht).1
  -- Nothing is due in the target, which the result holds twice.
  have hidle : L.dueAll [target, token tag op place] = 0 := ht.dueAll_idle
  have hnone : L.due target = 0 ∧ L.due (token tag op place) = 0 := by
    simpa only [Ledger.dueAll_cons, Ledger.dueAll_nil, Nat.add_zero, Nat.add_eq_zero_iff]
      using hidle
  have hcounts : Counts L m (L.due target) (lower target) := htarget (ht.get 0) m
  rw [hnone.1] at hcounts
  exact counts_node rfl (by decide)
    (counts_lowerOperatorAssign hcounts hform (hvalue (ht.get 2) m)) (by simp [hnone])

/-- Values one after the other. -/
theorem settled_row {rs : List Raw} (h : ∀ r ∈ rs, Settled L .argument r) :
    Settled L .row (node "mrhs" rs) :=
  fun ht m => counts_node rfl (by decide)
    (counts_lowerFields rfl fun r hr => h r hr (ht.of_mem (List.mem_cons_of_mem _ hr)) m) rfl

/-- Values that were read as arguments first. -/
theorem settled_rowFromArgs {args : Raw} {rs : List Raw} (hargs : Settled L .args args)
    (h : ∀ r ∈ rs, Settled L .argument r) :
    Settled L .row (node "mrhs_new_from_args" (args :: rs)) :=
  fun ht m => counts_node rfl (by decide)
    (counts_lowerValuesFromArgs (hargs (ht.get 0) m)
      fun r hr => h r hr (ht.of_mem (by simp [hr])) m) (by simp)

/-- Values with a splat among them. -/
theorem settled_rowStar {items splatted : Raw} {rs : List Raw}
    (hitems : Sound (.optional .row) items) (hsplatted : Sound .expr splatted)
    (hsound : ∀ r ∈ rs, Sound .argument r) (h₀ : Settled L (.optional .row) items)
    (h₁ : Settled L .expr splatted) (h : ∀ r ∈ rs, Settled L .argument r) :
    Settled L .row (node "mrhs_add_star" (items :: splatted :: rs)) := by
  intro ht m
  have hlist : Yields (lower items) fun t => t = .null ∨ Holds "mrhs" .argument t :=
    yields_optional hitems (.inl rfl) fun h => h.mono fun _ ht => .inr ht
  have hvalue : Yields (lower splatted) (Finished .optional) :=
    Yields.mono hsplatted fun _ ht => ht.within rfl
  have hrest : ∀ r ∈ rs, Counts L m (L.due r) (lower r) := fun r hr =>
    h r hr (ht.of_mem (by simp [hr])) m
  have hstar := counts_star rfl hlist (counts_of_optional h₀ (ht.get 0) id) (h₁ (ht.get 1) m) hrest
  refine counts_node rfl (by decide) (counts_lowerValuesStar hstar fun t ht => ?_) rfl
  rcases (lowerArgsStar_yields hlist hvalue hsound).of_returns ht with ht | ht
  · exact ht.plain rfl
  · exact ht.plain rfl

/-- A name that is assigned to or is a parameter. -/
theorem settled_plainTarget {plain : Bool} {name : String} {place : Raw} :
    Settled L (.target plain) (token "@ident" name place) :=
  fun ht m => counts_idle ht rfl (by decide) rfl (counts_lowerName rfl _)

/-- Any variable that is assigned to. -/
theorem settled_variableTarget {tag name : String} {place : Raw} (htag : tag ∈ variableTags) :
    Settled L (.target false) (token tag name place) := by
  simp only [variableTags, List.mem_cons, List.not_mem_nil, or_false] at htag
  rcases htag with rfl | rfl | rfl | rfl
  all_goals exact fun ht m => counts_idle ht rfl (by decide) rfl (counts_lowerName rfl _)

/-- A constant that is assigned to. -/
theorem settled_constTarget {name : String} {place : Raw} :
    Settled L (.target false) (token "@const" name place) :=
  fun ht m => counts_idle ht rfl (by decide) rfl (counts_lowerConstant _)

/-- A variable in its place as a target. -/
theorem settled_varField {plain : Bool} {r : Raw} (h : Settled L (.target plain) r) :
    Settled L (.target plain) (node "var_field" [r]) :=
  fun ht m => counts_node rfl (by decide) (h (ht.get 0) m) (by simp)

/-- `A::B` as a target. -/
theorem settled_constPathTarget {scope r : Raw} (hscope : Settled L .expr scope) :
    Settled L (.target false) (node "const_path_field" [scope, r]) := by
  intro ht m
  have hidle : L.dueAll [r] = 0 := ht.dueAll_idle
  exact counts_node rfl (by decide) (counts_lowerScopedConstant (hscope (ht.get 0) m))
    (by simpa using hidle)

/-- `::A` as a target. -/
theorem settled_topConstTarget {r : Raw} :
    Settled L (.target false) (node "top_const_field" [r]) :=
  fun ht m => counts_idle ht rfl (by decide) rfl (counts_lowerTopConstant _)

/-- `a[i]` as a target. -/
theorem settled_indexTarget {collection args : Raw} (hcollection : Settled L .expr collection)
    (hargs : Settled L .args args) :
    Settled L (.target false) (node "aref_field" [collection, args]) :=
  fun ht m => counts_node rfl (by decide)
    (counts_lowerIndexTarget (hcollection (ht.get 0) m) (hargs (ht.get 1) m)) (by simp)

/-- `a.b` as a target. -/
theorem settled_attributeTarget {receiver op r : Raw} (hreceiver : Settled L .expr receiver) :
    Settled L (.target false) (node "field" [receiver, op, r]) := by
  intro ht m
  have hidle : L.dueAll [op, r] = 0 := ht.dueAll_idle
  exact counts_node rfl (by decide) (counts_lowerAttributeTarget (hreceiver (ht.get 0) m))
    (by simpa using hidle)

/-- A target in parentheses. -/
theorem settled_itemParen {plain : Bool} {r : Raw} (h : Settled L (.item plain) r) :
    Settled L (.item plain) (node "mlhs_paren" [r]) :=
  fun ht m => counts_node rfl (by decide) (h (ht.get 0) m) (by simp)

/-- Targets one after the other. -/
theorem settled_targets {plain : Bool} {rs : List Raw} (hsound : ∀ r ∈ rs, Sound (.item plain) r)
    (h : ∀ r ∈ rs, Settled L (.item plain) r) : Settled L (.targets plain) (node "mlhs" rs) := by
  intro ht m
  refine counts_node rfl (by decide) (counts_lowerTargets
    (fun r hr => h r hr (ht.of_mem (List.mem_cons_of_mem _ hr)) m) fun r hr t ht => ?_) rfl
  exact (Yields.of_returns (hsound r hr) ht).1

/-- Targets that end in a splat. -/
theorem settled_targetsStar {plain : Bool} {targets r : Raw}
    (hsound : Sound (.targets plain) targets) (hstar : Sound (.optional (.target plain)) r)
    (htargets : Settled L (.targets plain) targets) (h : Settled L (.optional (.target plain)) r) :
    Settled L (.targets plain) (node "mlhs_add_star" [targets, r]) := by
  intro ht m
  have htarget : Yields (lower r) fun t => t = .null ∨ Target t :=
    yields_optional hstar (.inl rfl) fun h => h.mono fun _ ht => .inr ht.1
  refine counts_node rfl (by decide) (counts_lowerTargetsStar (htargets (ht.get 0) m)
    (fun t ht => ?_) (counts_of_optional h (ht.get 1) id) fun t ht => htarget.of_returns ht)
    (by simp [Fields.get])
  exact plain_of_targets (Yields.of_returns hsound ht).1

/-- Targets after a splat. -/
theorem settled_targetsPost {plain : Bool} {targets after : Raw}
    (hsound : Sound (.targets plain) targets) (hafter : Sound (.targets plain) after)
    (htargets : Settled L (.targets plain) targets) (h : Settled L (.targets plain) after) :
    Settled L (.targets plain) (node "mlhs_add_post" [targets, after]) := by
  intro ht m
  refine counts_node rfl (by decide) (counts_lowerTargetsPost (htargets (ht.get 0) m)
    (fun t ht => ?_) (h (ht.get 1) m) fun t ht => ?_) (by simp)
  · exact plain_of_targets (Yields.of_returns hsound ht).1
  · exact .inr (Yields.of_returns hafter ht).1

/-- Targets in parentheses. -/
theorem settled_targetsParen {plain : Bool} {r : Raw} (h : Settled L (.targets plain) r) :
    Settled L (.targets plain) (node "mlhs_paren" [r]) :=
  fun ht m => counts_node rfl (by decide) (h (ht.get 0) m) (by simp)

end Assignment

section Parameters

variable {m : Bool}

theorem counts_positionalField {r : Raw} (hshaped : Shaped (.optional (.listOf (.item true))) r)
    (h : Settled L (.optional (.listOf (.item true))) r) (ht : L.Tidy r) :
    CountsAll L m (L.due r) (positional lower r) := by
  have hsound := sound_of_shaped hshaped
  refine counts_positional (fun rs hrs => dueAll_elements hshaped hrs) fun rs hrs x hx => ?_
  refine ⟨settled_elements h hrs x hx (tidy_elements hshaped ht hrs x hx) m, fun t ht => ?_⟩
  exact (Yields.of_returns ((elementsOf_yields hsound).of_returns hrs x hx) ht).2 rfl

/-- A parameter with a mark in front is one already, and has no code. -/
theorem counts_special {r : Raw} (h : Special r) : CountsAll L m 0 (special lower r) := by
  -- All forms but the absent and the bare one are visited and turned into a parameter.
  have hone {r : Raw} (hcounts : Counts L m 0 (lower r))
      (hparameter : Yields (lower r) fun t =>
        Accounts L m 0 (L.weigh m t) (asParameter t) (L.weigh m)) :
      CountsAll L m 0 (do return [← asParameter (← lower r)]) :=
    hcounts.last fun t ht => (hparameter.of_returns ht).bind fun p _ => accounts_pure rfl
  have hnode {tag : String} {fs : Fields} {p : Production}
      (hp : Production.ofTag? tag = some p) (h : Counts L m 0 (p.lower lower fs)) :
      Counts L m 0 (lower (node tag fs)) := by
    rw [lower_node, hp]
    exact h
  cases h with
  | absent => exact accounts_pure rfl
  | named htag hname =>
    simp only [List.mem_cons, List.not_mem_nil, or_false] at htag
    rcases htag with rfl | rfl | rfl
    all_goals
      refine hone (hnode rfl (counts_lowerNamedParam rfl _))
        (yields_node rfl ((lowerNamedParam_yields _ hname).mono ?_))
      rintro _ ⟨mark, children, rfl, -⟩
      exact accounts_pure rfl
  | noKeywords =>
    exact hone (hnode rfl (accounts_bare rfl rfl))
      (yields_node rfl (yields_pure (accounts_pure rfl)))
  | noKeywordsByName => exact accounts_pure (by simp)
  | forwarded =>
    exact hone (hnode rfl (accounts_bare rfl rfl))
      (yields_node rfl (yields_pure (accounts_bare rfl (by simp))))

/-- The parameters of a method or of a block. -/
theorem settled_params {required optionals rest post keywords kwrest block : Raw}
    (hrequired : Shaped (.optional (.listOf (.item true))) required)
    (hoptionals : Shaped (.optional (.listOf .optionalParam)) optionals)
    (hrest : isExtraComma rest ∨ Special rest)
    (hpost : Shaped (.optional (.listOf (.item true))) post)
    (hkeywords : Shaped (.optional (.listOf .keywordParam)) keywords)
    (hkwrest : Special kwrest) (hblock : Special block)
    (h₀ : Settled L (.optional (.listOf (.item true))) required)
    (h₁ : Settled L (.optional (.listOf .optionalParam)) optionals)
    (h₃ : Settled L (.optional (.listOf (.item true))) post)
    (h₄ : Settled L (.optional (.listOf .keywordParam)) keywords) :
    Settled L .params
      (node "params" [required, optionals, rest, post, keywords, kwrest, block]) := by
  intro ht m
  -- The names of parameters are idle, so only the code of their defaults is due.
  have hheads : ∀ head ∈ optionals.heads ++ keywords.heads, L.due head = 0 := fun head hhead =>
    ht.due_idle (List.mem_cons_of_mem _ (List.mem_cons_of_mem _ (List.mem_cons_of_mem _ hhead)))
  have hidle : L.dueAll (rest :: kwrest :: block :: (optionals.heads ++ keywords.heads)) = 0 :=
    ht.dueAll_idle
  have hdefaults (rs : List Raw) (hrs : Returns (elementsOf optionals) rs) :
      CountsAll L m (L.due optionals) (rs.mapM (LowerM.optional lower)) := by
    rw [← dueAll_elements hoptionals hrs]
    refine counts_mapM fun x hx => ?_
    refine settled_elements h₁ hrs x hx (tidy_elements hoptionals (ht.get 1) hrs x hx)
      (fun head hhead => hheads head ?_) m
    exact List.mem_append_left _ (mem_heads hoptionals hrs hx hhead)
  have hlabels (rs : List Raw) (hrs : Returns (elementsOf keywords) rs) :
      CountsAll L m (L.due keywords) (rs.mapM (LowerM.keyword lower)) := by
    rw [← dueAll_elements hkeywords hrs]
    refine counts_mapM fun x hx => ?_
    refine settled_elements h₄ hrs x hx (tidy_elements hkeywords (ht.get 4) hrs x hx)
      (fun head hhead => hheads head ?_) m
    exact List.mem_append_right _ (mem_heads hkeywords hrs hx hhead)
  have hrest (hcomma : isExtraComma rest = false) : CountsAll L m 0 (special lower rest) :=
    counts_special (hrest.resolve_left (Bool.eq_false_iff.1 hcomma))
  refine counts_node rfl (by decide) (counts_lowerParams
    (counts_positionalField hrequired h₀ (ht.get 0)) hdefaults hrest
    (counts_positionalField hpost h₃ (ht.get 3)) hlabels
    (counts_special hkwrest) (counts_special hblock)) ?_
  show L.due required + (L.due optionals + (L.due post + L.due keywords)) = _
  simp only [Ledger.dueAll_cons, Ledger.dueAll_nil] at hidle ⊢
  omega

/-- A parameter with a default. -/
theorem settled_optionalParam {r value : Raw} {name : String} (hname : Named r name)
    (hvalue : Settled L .expr value) : Settled L .optionalParam (.list [r, value]) := by
  intro ht hhead m
  have htag : (Raw.list [r, value]).tag? = none := by cases hname <;> rfl
  have hnone : L.due r = 0 := hhead r rfl
  rw [Ledger.due_of_tag?_eq_none htag]
  exact (counts_optional (hvalue (ht.of_mem (by simp)) m)).congr (by simp [hnone])

/-- A keyword parameter that has to be given. -/
theorem settled_requiredKeyword {tag label : String} {place value : Raw} (h : value.isEmpty) :
    Settled L .keywordParam (.list [token tag label place, value]) := by
  intro ht hhead m
  have hnone : L.due (token tag label place) = 0 := hhead _ rfl
  rw [Ledger.due_of_tag?_eq_none rfl]
  refine (counts_keyword fun hpresent => ?_).congr ?_
  · exact absurd h (Bool.eq_false_iff.1 hpresent)
  · simp [hnone]

/-- A keyword parameter with a default. -/
theorem settled_optionalKeyword {tag label : String} {place value : Raw}
    (hvalue : Settled L .expr value) :
    Settled L .keywordParam (.list [token tag label place, value]) := by
  intro ht hhead m
  have hnone : L.due (token tag label place) = 0 := hhead _ rfl
  rw [Ledger.due_of_tag?_eq_none rfl]
  exact (counts_keyword fun _ => hvalue (ht.of_mem (by simp)) m).congr (by simp [hnone])

/-- Parameters in parentheses. -/
theorem settled_parenParams {r : Raw} (h : Settled L .params r) :
    Settled L .paramList (node "paren" [r]) :=
  fun ht m => counts_node rfl (by decide) (counts_lowerParen (h (ht.get 0) m))
    (by simp [Fields.get])

/-- Parameters of a block, and names that are local to it. -/
theorem settled_blockParams {params locals : Raw} (hsound : Sound .params params)
    (hparams : Settled L .params params) :
    Settled L .blockParams (node "block_var" [params, locals]) := by
  intro ht m
  have hidle : L.dueAll [locals] = 0 := ht.dueAll_idle
  refine counts_node rfl (by decide) (counts_lowerBlockParams (hparams (ht.get 0) m) fun t ht => ?_)
    (by simpa using hidle)
  exact (hsound.1.of_returns ht).plain

/-- A block in braces, or from `do` to `end`. -/
theorem settled_block {tag : String} {params body : Raw}
    (htag : tag ∈ ["brace_block", "do_block"])
    (hparams : Settled L (.optional .blockParams) params) (hbody : Settled L .code body) :
    Settled L .block (node tag [params, body]) := by
  simp only [List.mem_cons, List.not_mem_nil, or_false] at htag
  rcases htag with rfl | rfl
  all_goals
    exact fun ht m => counts_node rfl (by decide)
      (counts_lowerBlockBody (counts_of_optional hparams (ht.get 0) id) (hbody (ht.get 1) m))
      (by simp [Fields.get])

/-- A call and its block. -/
theorem settled_blockCall {call block : Raw} (hsound : Sound .block block)
    (hcall : Settled L .expr call) (hblock : Settled L .block block) :
    Settled L .expr (node "method_add_block" [call, block]) := by
  intro ht m
  refine counts_node rfl (by decide) (counts_lowerBlockCall (hcall (ht.get 0) m)
    (hblock (ht.get 1) m) fun t ht => ?_) (by simp)
  exact (Yields.of_returns hsound ht).plain

/-- `->(a) { b }`. -/
theorem settled_lambda {params body : Raw} (hsound : Sound .paramList params)
    (hparams : Settled L .paramList params) (hbody : Settled L .code body) :
    Settled L .expr (node "lambda" [params, body]) := by
  intro ht m
  refine counts_node rfl (by decide) (counts_lowerLambda (hparams (ht.get 0) m)
    (fun t ht => ?_) (hbody (ht.get 1) m)) (by simp)
  exact plain_of_params (Yields.of_returns hsound ht)

end Parameters

section Definitions

theorem hasTag_params {r : Raw} (h : Sound (.optional .paramList) r) (hpresent : r.isEmpty = false)
    (t : Tree) (ht : Returns (lower r) t) : t.hasTag "args" := by
  rcases h with rfl | h
  · cases hpresent
  · obtain ⟨mark, children, rfl⟩ := params_node (Yields.of_returns h ht)
    rfl

/-- A method definition. -/
theorem settled_method {tag name : String} {place params body : Raw} {rest : List Raw}
    (hsound : Sound (.optional .paramList) params)
    (hparams : Settled L (.optional .paramList) params) (hbody : Settled L .body body) :
    Settled L .expr (node "def" (token tag name place :: params :: body :: rest)) := by
  intro ht m
  have hidle : L.dueAll (token tag name place :: rest) = 0 := ht.dueAll_idle
  refine counts_node rfl (by decide)
    (counts_lowerMethod (counts_of_optional hparams (ht.get 1) id)
      (hasTag_params hsound) (hbody (ht.get 2) true)) ?_
  show L.due params + L.due body = _
  simp only [Ledger.dueAll_cons] at hidle ⊢
  omega

/-- A method definition for one object. -/
theorem settled_singletonMethod {tag name : String} {receiver dot place params body : Raw}
    {rest : List Raw} (hsound : Sound (.optional .paramList) params)
    (hreceiver : Settled L .expr receiver) (hparams : Settled L (.optional .paramList) params)
    (hbody : Settled L .body body) :
    Settled L .expr (node "defs" (receiver :: dot :: token tag name place :: params :: body ::
      rest)) := by
  intro ht m
  have hidle : L.dueAll (dot :: token tag name place :: rest) = 0 := ht.dueAll_idle
  refine counts_node rfl (by decide)
    (counts_lowerSingletonMethod (hreceiver (ht.get 0) m)
      (counts_of_optional hparams (ht.get 3) id)
      (hasTag_params hsound) (hbody (ht.get 4) true)) ?_
  show L.due receiver + (L.due params + L.due body) = _
  simp only [Ledger.dueAll_cons] at hidle ⊢
  omega

/-- A class, whose body is outside of any method. -/
theorem settled_classDef {const parent body : Raw} {rest : List Raw}
    (hconst : Settled L .expr const) (hparent : Settled L (.optional .expr) parent)
    (hbody : Settled L .code body) :
    Settled L .expr (node "class" (const :: parent :: body :: rest)) := by
  intro ht m
  have hidle : L.dueAll rest = 0 := ht.dueAll_idle
  exact counts_node rfl (by decide)
    (counts_lowerClass (hconst (ht.get 0) m) (counts_of_optional hparent (ht.get 1) id)
      (hbody (ht.get 2) false)) (by simp [Fields.get, hidle])

/-- A module, or the class of one object. -/
theorem settled_moduleDef {tag : String} {const body : Raw} {rest : List Raw}
    (htag : tag ∈ ["module", "sclass"]) (hconst : Settled L .expr const)
    (hbody : Settled L .code body) : Settled L .expr (node tag (const :: body :: rest)) := by
  simp only [List.mem_cons, List.not_mem_nil, or_false] at htag
  rcases htag with rfl | rfl
  · intro ht m
    have hidle : L.dueAll rest = 0 := ht.dueAll_idle
    exact counts_node rfl (by decide)
      (counts_lowerModule (hconst (ht.get 0) m) (hbody (ht.get 1) false)) (by simp [hidle])
  · intro ht m
    have hidle : L.dueAll rest = 0 := ht.dueAll_idle
    exact counts_node rfl (by decide)
      (counts_lowerSingletonClass (hconst (ht.get 0) m) (hbody (ht.get 1) false))
      (by simp [hidle])

/-- `BEGIN` and `END` blocks. -/
theorem settled_hook {tag : String} {body : Raw} {rest : List Raw} (htag : tag ∈ ["BEGIN", "END"])
    (hbody : Settled L .code body) : Settled L .expr (node tag (body :: rest)) := by
  simp only [List.mem_cons, List.not_mem_nil, or_false] at htag
  rcases htag with rfl | rfl
  all_goals
    intro ht m
    have hidle : L.dueAll rest = 0 := ht.dueAll_idle
    exact counts_node rfl (by decide) (counts_lowerHook (by decide) (hbody (ht.get 0) m))
      (by simp [hidle])

/-- `alias` for a method. -/
theorem settled_methodAlias {new old : Raw} (hnew : Settled L .expr new)
    (hold : Settled L .expr old) : Settled L .expr (node "alias" [new, old]) :=
  fun ht m => counts_node rfl (by decide)
    (counts_lowerDouble rfl (hnew (ht.get 0) m) (hold (ht.get 1) m)) (by simp)

/-- `alias` for a global variable. -/
theorem settled_globalAlias {new old : Raw} : Settled L .expr (node "var_alias" [new, old]) :=
  fun ht m => counts_idle ht rfl (by decide) rfl (counts_lowerGlobalAlias _)

/-- `undef` and the names that it takes away. -/
theorem settled_undef {rs : List Raw} (hshaped : ∀ r ∈ rs, Shaped .expr r)
    (h : ∀ r ∈ rs, Settled L .expr r) : Settled L .expr (node "undef" [.list rs]) :=
  fun ht m => counts_node rfl (by decide)
    (counts_each rfl hshaped fun r hr => h r hr ((ht.get 0).of_mem hr) m) (by simp)

end Definitions

section Literals

variable {m : Bool}

/-- Content tokens count for nothing. -/
theorem counts_content {r : Raw} (h : r.hasTag "@tstring_content") :
    Counts L m 0 (lower r) ∧ ∀ t, Returns (lower r) t → t.hasTag "dstr" ∨ t.hasTag "str" := by
  obtain ⟨fs, rfl⟩ := Raw.eq_of_hasTag h
  have hlower : lower (node "@tstring_content" fs) = lowerContent fs :=
    lower_node "@tstring_content" fs
  rw [hlower]
  exact ⟨counts_lowerContent fs, fun _ => tagged_lowerContent⟩

theorem due_content {r : Raw} (ht : L.Tidy r) (h : r.hasTag "@tstring_content") : L.due r = 0 := by
  obtain ⟨fs, rfl⟩ := Raw.eq_of_hasTag h
  exact ht.due_eq_zero (by decide) rfl

theorem returned_literal {kind : LiteralKind} {r : Raw} {t : Tree} (h : Sound (.literal kind) r)
    (ht : Returns (lower r) t) :
    t.plain ∧ (t.hasTag "str" → L.Settles (L.weigh m t) 0) := by
  obtain ⟨parts, rfl, hparts⟩ := Yields.of_returns h ht
  exact ⟨plain_literal, settles_literal hparts⟩

/-- A literal of content tokens and interpolations. -/
theorem settled_literal {kind : LiteralKind} {delimiter : Option String} {items : List LiteralItem}
    (h : ∀ r ∈ interpolations items, Settled L .interpolation r) :
    Settled L (.literal kind) (kind.raw delimiter items) := by
  intro ht m
  have hitem : ∀ r ∈ items.map (·.raw delimiter), L.Tidy r :=
    fun r hr => ht.of_mem (List.mem_cons_of_mem _ hr)
  have hparts : CountsAll L m (L.dueAll (items.map (·.raw delimiter)))
      (literalParts lower (items.map (·.raw delimiter))) := by
    refine counts_literalParts (fun r hr => counts_content hr)
      (fun r hr htag => due_content (hitem r hr) htag) fun r hr htag => ?_
    have htidy := hitem r hr
    obtain ⟨item, hmem, rfl⟩ := List.mem_map.1 hr
    -- Only interpolations are asked about, and each of them returns a node of its own.
    cases item with
    | content token => cases htag
    | interpolation i =>
      refine ⟨h _ (mem_interpolations hmem) htidy m, fun t ht => ?_⟩
      obtain ⟨part, rfl, -⟩ := i.returns ht
      rfl
  cases kind with
  | string | word => exact counts_node rfl (by decide) (counts_lowerString hparts) rfl
  | command | regexp => exact counts_node rfl (by decide) (counts_lowerParts rfl hparts) rfl

/-- An interpolation. -/
theorem settled_embedded {r : Raw} (h : Settled L .code r) :
    Settled L .interpolation (node "string_embexpr" [r]) :=
  fun ht m => counts_node rfl (by decide) (counts_lowerEmbedded (h (ht.get 0) m)) (by simp)

/-- An interpolation without braces. -/
theorem settled_embeddedVariable {r : Raw} (h : Settled L .expr r) :
    Settled L .interpolation (node "string_dvar" [r]) :=
  fun ht m =>
    counts_node rfl (by decide) (counts_lowerEmbeddedVariable (h (ht.get 0) m)) (by simp)

/-- A string in quotes. -/
theorem settled_string {r : Raw} (h : Settled L (.literal .string) r) :
    Settled L .quote (node "string_literal" [r]) :=
  fun ht m => counts_node rfl (by decide) (h (ht.get 0) m) (by simp)

/-- A character literal in the place of a string. -/
theorem settled_quotedCharacter {text : String} {place : Raw} :
    Settled L .quote (token "@CHAR" text place) :=
  fun ht m => counts_idle ht rfl (by decide) rfl (counts_lowerCharacter [.str text, place])

/-- String literals next to each other. -/
theorem settled_concatenation {left right : Raw} (hleft : Settled L .quote left)
    (hright : Settled L .quote right) : Settled L .quote (node "string_concat" [left, right]) :=
  fun ht m => counts_node rfl (by decide)
    (counts_lowerDouble rfl (hleft (ht.get 0) m) (hright (ht.get 1) m)) (by simp)

/-- A command in backticks. -/
theorem settled_commandLiteral {r : Raw} (h : Settled L (.literal .command) r) :
    Settled L .expr (node "xstring_literal" [r]) :=
  fun ht m => counts_node rfl (by decide) (h (ht.get 0) m) (by simp)

/-- A regular expression with its flags. -/
theorem settled_regexp {r place : Raw} {tag flags : String} (hsound : Sound (.literal .regexp) r)
    (h : Settled L (.literal .regexp) r) :
    Settled L .expr (node "regexp_literal" [r, token tag flags place]) := by
  intro ht m
  have hidle : L.dueAll [token tag flags place] = 0 := ht.dueAll_idle
  have hnone : L.due (token tag flags place) = 0 := by
    simpa only [Ledger.dueAll_cons, Ledger.dueAll_nil, Nat.add_zero] using hidle
  refine counts_node rfl (by decide) (counts_lowerRegexp (h (ht.get 0) m) fun t ht => ?_)
    (by simp [hnone])
  exact (returned_literal (L := L) (m := m) hsound ht).1

/-- A symbol by a name. -/
theorem settled_symbol {tag name : String} {place : Raw} :
    Settled L .expr (node "symbol_literal" [node "symbol" [token tag name place]]) := by
  intro ht m
  have hsymbol : Counts L m 0 (lower (node "symbol" [token tag name place])) := by
    rw [lower_node]
    exact counts_symbolContent fun htag => (counts_content htag).1
  have hliteral : Counts L m 0
      (lowerSymbolLiteral lower [node "symbol" [token tag name place]]) :=
    counts_lowerSymbolLiteral (fun _ => hsymbol) fun htag => (counts_content htag).1
  exact counts_idle ht rfl (by decide) rfl hliteral

/-- A symbol that is only a token, as `alias` and `undef` have it. -/
theorem settled_symbolName {tag name : String} {place : Raw}
    (htag : tag ∉ ["symbol", "@tstring_content"]) :
    Settled L .expr (node "symbol_literal" [token tag name place]) := by
  intro ht m
  refine counts_idle ht rfl (by decide) rfl (counts_lowerSymbolLiteral (fun hsymbol => ?_)
    fun htag => (counts_content htag).1)
  have hname := Option.some.inj (eq_of_beq hsymbol)
  exact absurd (hname ▸ List.mem_cons_self) htag

/-- A symbol in quotes. -/
theorem settled_quotedSymbol {kind : LiteralKind} {r : Raw} (hsound : Sound (.literal kind) r)
    (h : Settled L (.literal kind) r) : Settled L .expr (node "dyna_symbol" [r]) := by
  intro ht m
  exact counts_node rfl (by decide) (counts_quotedSymbolContent (h (ht.get 0) m)
    (fun t ht => (returned_literal (L := L) (m := m) hsound ht).1)
    fun t ht => (returned_literal hsound ht).2) (by simp)

end Literals

section Collections

/-- `[]` and `{}`. -/
theorem settled_emptyCollection {tag : String} (htag : tag ∈ ["array", "hash"]) :
    Settled L .expr (node tag [.null]) := by
  simp only [List.mem_cons, List.not_mem_nil, or_false] at htag
  rcases htag with rfl | rfl
  all_goals exact fun ht m => counts_node rfl (by decide) (accounts_bare rfl rfl) (by simp)

/-- A list or a row of pairs becomes a collection, if it is lowered to a plain tree. -/
theorem counts_collection {tag : String} {r : Raw} (htag : tag ∈ ["array", "hash"])
    (hplain : ∀ t, Returns (lower r) t → t.plain) (h : Counts L m (L.due r) (lower r)) :
    Counts L m (L.due (node tag [r])) (lower (node tag [r])) := by
  simp only [List.mem_cons, List.not_mem_nil, or_false] at htag
  rcases htag with rfl | rfl
  all_goals
    exact counts_node rfl (by decide) (counts_lowerCollection rfl h hplain) (by simp [Fields.get])

/-- An array of values. -/
theorem settled_array {r : Raw} (hsound : Sound .arglist r) (h : Settled L .arglist r) :
    Settled L .expr (node "array" [r]) :=
  fun ht m => counts_collection (by decide)
    (fun _ hr => (Yields.of_returns hsound hr).plain rfl) (h (ht.get 0) m)

/-- An array of words or of symbols. -/
theorem settled_wordArray {r : Raw} (hsound : Sound .words r) (h : Settled L .words r) :
    Settled L .expr (node "array" [r]) :=
  fun ht m => counts_collection (by decide)
    (fun _ hr => (Yields.of_returns hsound hr).plain rfl) (h (ht.get 0) m)

/-- Words that may have interpolations. -/
theorem settled_words {tag : String} {rs : List Raw} (htag : tag ∈ ["words", "symbols"])
    (hsound : ∀ r ∈ rs, Sound (.literal .word) r) (h : ∀ r ∈ rs, Settled L (.literal .word) r) :
    Settled L .words (node tag rs) := by
  intro ht m
  have hwords : ∀ r ∈ rs, Counts L m (L.due r) (lower r) := fun r hr =>
    h r hr (ht.of_mem (List.mem_cons_of_mem _ hr)) m
  have hsymbols : ∀ r ∈ rs, Counts L m (L.due r) (quotedSymbolContent lower r) := fun r hr =>
    counts_quotedSymbolContent (hwords r hr)
      (fun t ht => (returned_literal (L := L) (m := m) (hsound r hr) ht).1)
      fun t ht => (returned_literal (hsound r hr) ht).2
  simp only [List.mem_cons, List.not_mem_nil, or_false] at htag
  rcases htag with rfl | rfl
  · exact counts_node rfl (by decide) (counts_lowerFields rfl hwords) rfl
  · exact counts_node rfl (by decide)
      ((counts_mapM hsymbols).last fun _ _ => accounts_bare rfl rfl) rfl

/-- Words without interpolations. -/
theorem settled_plainWords {tag : String} {delimiter : Option String} {tokens : List ContentToken}
    (htag : tag ∈ ["qwords", "qsymbols"]) :
    Settled L .words (node tag (tokens.map (·.raw delimiter))) := by
  intro ht m
  have hcontent : ∀ r ∈ tokens.map (·.raw delimiter), r.hasTag "@tstring_content" := by
    intro r hr
    obtain ⟨token, -, rfl⟩ := List.mem_map.1 hr
    rfl
  -- Content is due nothing, so neither way of reading the words has anything to settle.
  have hnone : ∀ r ∈ tokens.map (·.raw delimiter), L.due r = 0 := fun r hr =>
    due_content (ht.of_mem (List.mem_cons_of_mem _ hr)) (hcontent r hr)
  have htokens : ∀ r ∈ tokens.map (·.raw delimiter), Counts L m (L.due r) (lower r) :=
    fun r hr => hnone r hr ▸ (counts_content (hcontent r hr)).1
  have hsymbols : ∀ r ∈ tokens.map (·.raw delimiter),
      Counts L m (L.due r) (symbolContent lower r) := fun r hr =>
    hnone r hr ▸ counts_symbolContent fun htag => (counts_content htag).1
  simp only [List.mem_cons, List.not_mem_nil, or_false] at htag
  rcases htag with rfl | rfl
  · exact counts_node rfl (by decide) (counts_lowerFields rfl htokens) rfl
  · exact counts_node rfl (by decide)
      ((counts_mapM hsymbols).last fun _ _ => accounts_bare rfl rfl) rfl

/-- A hash. -/
theorem settled_hash {r : Raw} (hsound : Sound .pairs r) (h : Settled L .pairs r) :
    Settled L .expr (node "hash" [r]) :=
  fun ht m => counts_collection (by decide)
    (fun _ hr => (Yields.of_returns hsound hr).plain rfl) (h (ht.get 0) m)

/-- The pairs of a hash. -/
theorem settled_pairs {rs : List Raw} (hshaped : ∀ r ∈ rs, Shaped .pair r)
    (h : ∀ r ∈ rs, Settled L .pair r) : Settled L .pairs (node "assoclist_from_args" [.list rs]) :=
  fun ht m => counts_node rfl (by decide)
    (counts_each rfl hshaped fun r hr => h r hr ((ht.get 0).of_mem hr) m) (by simp)

/-- A key and its value. -/
theorem settled_pair {key value : Raw} (hkey : Settled L .key key)
    (hvalue : Settled L .expr value) : Settled L .pair (node "assoc_new" [key, value]) :=
  fun ht m => counts_node rfl (by decide)
    (counts_lowerPair (hkey (ht.get 0) m) fun _ => hvalue (ht.get 1) m) (by simp [Fields.get])

/-- A key that is its own value, such as `a:`. -/
theorem settled_shorthandPair {name : String} {place : Raw} :
    Settled L .pair (node "assoc_new" [token "@label" name place, .null]) := by
  intro ht m
  refine counts_node rfl (by decide) (counts_lowerPair
    (counts_idle (ht.get 0) rfl (by decide) rfl (counts_lowerLabel _)) fun h => ?_)
    (by simp [Fields.get])
  exact absurd h.symm Bool.false_ne_true

/-- `**a` among pairs. -/
theorem settled_doubleSplat {r : Raw} (h : Settled L (.optional .expr) r) :
    Settled L .pair (node "assoc_splat" [r]) :=
  fun ht m => counts_node rfl (by decide)
    (counts_lowerSingle rfl (counts_of_optional h (ht.get 0) id)) (by simp [Fields.get])

/-- A key that is a label. -/
theorem settled_label {name : String} {place : Raw} : Settled L .key (token "@label" name place) :=
  fun ht m => counts_idle ht rfl (by decide) rfl (counts_lowerLabel _)

end Collections

end LowerM

end RubyTree
