import RubyTree.Proofs.Lower.Sound.Body

/-!
# Soundness of Branches and Patterns

Conditions, loops, choices by values and choices by patterns. The clauses of a
choice form a chain, and what is done otherwise is at its end, so a chain is read
as a list of clauses with one more tree behind them.

A pattern is a raw tree like any other and is read in another way. What reads
alike in both is excluded where patterns are told from expressions, so that no
expression is taken for a pattern of another kind.

## Theorems

* `sound_conditional`, `sound_loop`, `sound_loopModifier`: Conditions and loops.
* `sound_whens`, `sound_choice`: Choices by values.
* `sound_arrayPattern`, `sound_findPattern`, `sound_hashPattern`: Patterns.
* `sound_ins`, `sound_patternChoice`, `sound_patternMatch`: Choices by patterns.
-/

namespace RubyTree

namespace LowerM

open Raw (node token)

section Conditions

/-- A value in the place of a condition. -/
theorem visitCondition_yields {r : Raw} (h : Sound .expr r) :
    Yields (visitCondition lower r) (Finished .condition) :=
  h.bind fun _ ht => conditionForm_yields ht

/-- A condition with what is done if it holds, and if it does not. -/
theorem finished_if {cond yes no : Tree} (hcond : Finished .condition cond)
    (hyes : Finished .optional yes) (hno : Finished .optional no) :
    Finished .value (.bare "if" [cond, yes, no]) :=
  .node rfl rfl rfl (.one hcond (.one hyes (.one hno .nil)))

/-- `if`, `elsif` and `unless`. -/
theorem sound_conditional {tag : String} {cond yes no : Raw}
    (htag : tag ∈ ["if", "elsif", "unless"]) (hcond : Sound .expr cond) (hyes : Sound .code yes)
    (hno : Sound .code no) : Sound .expr (node tag [cond, yes, no]) := by
  simp only [List.mem_cons, List.not_mem_nil, or_false] at htag
  rcases htag with rfl | rfl | rfl
  · refine yields_node rfl ((visitCondition_yields hcond).bind fun c hc => ?_)
    refine (visitBranch_yields hyes).bind fun y hy => (visitBranch_yields hno).bind fun n hn => ?_
    exact yields_pure (finished_if hc hy hn)
  · refine yields_node rfl ((visitCondition_yields hcond).bind fun c hc => ?_)
    refine (visitBranch_yields hyes).bind fun y hy => (visitBranch_yields hno).bind fun n hn => ?_
    exact yields_pure (finished_if hc hy hn)
  -- The branches change places, and are lowered in their new order.
  · refine yields_node rfl ((visitCondition_yields hcond).bind fun c hc => ?_)
    refine (visitBranch_yields hno).bind fun n hn => (visitBranch_yields hyes).bind fun y hy => ?_
    exact yields_pure (finished_if hc hn hy)

/-- `a if b` and `a unless b`. -/
theorem sound_modifier {tag : String} {cond r : Raw} (htag : tag ∈ ["if_mod", "unless_mod"])
    (hcond : Sound .expr cond) (h : Sound .expr r) : Sound .expr (node tag [cond, r]) := by
  simp only [List.mem_cons, List.not_mem_nil, or_false] at htag
  rcases htag with rfl | rfl
  · refine yields_node rfl ((visitCondition_yields hcond).bind fun c hc => h.bind fun t ht => ?_)
    exact yields_pure (finished_if hc (ht.within rfl) (.leaf rfl))
  · refine yields_node rfl ((visitCondition_yields hcond).bind fun c hc => h.bind fun t ht => ?_)
    exact yields_pure (finished_if hc (.leaf rfl) (ht.within rfl))

/-- A loop, whichever end its condition is at. -/
theorem makeLoop_yields {word : String} (hword : word ∈ ["while", "until"]) {cond : Raw}
    (hcond : Sound .expr cond) {body : Tree} (hbody : Finished .optional body) (checkFirst : Bool) :
    Yields (makeLoop lower word cond body checkFirst) (Finished .value) := by
  -- Taking away a negation turns the loop around, so the word is not the first one.
  refine hcond.bind fun t ht => (unnegated_yields hword ht).bind ?_
  rintro ⟨word', cond'⟩ ⟨hword', hcond'⟩
  refine (conditionForm_yields hcond').bind fun c hc => yields_pure ?_
  simp only [List.mem_cons, List.not_mem_nil, or_false] at hword'
  have hchildren : FinishedAll [.one .condition, .one .optional, .one .flag]
      [c, body, .flag checkFirst] := .one hc (.one hbody (.one (.leaf rfl) .nil))
  rcases hword' with rfl | rfl
  · cases checkFirst with
    | false => exact .node rfl rfl rfl hchildren
    | true => exact .node rfl rfl rfl hchildren
  · cases checkFirst with
    | false => exact .node rfl rfl rfl hchildren
    | true => exact .node rfl rfl rfl hchildren

/-- `while` and `until`. -/
theorem sound_loop {tag : String} {cond body : Raw} (htag : tag ∈ ["while", "until"])
    (hcond : Sound .expr cond) (hbody : Sound .code body) :
    Sound .expr (node tag [cond, body]) := by
  have hword := htag
  simp only [List.mem_cons, List.not_mem_nil, or_false] at htag
  rcases htag with rfl | rfl
  · refine yields_node rfl ((visitBody_yields hbody).bind fun t ht => ?_)
    exact makeLoop_yields hword hcond ht true
  · refine yields_node rfl ((visitBody_yields hbody).bind fun t ht => ?_)
    exact makeLoop_yields hword hcond ht true

/-- Comments without a construct after them are no value. -/
theorem not_sound_comment {fields : Fields} (hmissing : fields.get 1 = .null) :
    ¬ Sound .expr (node "comment" fields) := by
  intro h
  have hlower : lower (node "comment" fields) = lowerDocumented lower fields :=
    lower_node "comment" fields
  unfold Sound at h
  rw [hlower, lowerDocumented, hmissing, lower_of_isEmpty rfl, pure_bind] at h
  dsimp only at h
  split at h
  · obtain ⟨t, scope, hrun, ht⟩ := h {} {}
    cases hrun
    exact ne_null_of_value ht rfl
  · exact not_yields_throw h

/-- Whether a body is a `begin` block can be told of any value. One with comments
    has a construct after them. -/
theorem runsFirst_of_value {body : Raw} (h : Sound .expr body) : ∃ b, runsFirst body = pure b := by
  unfold runsFirst
  split
  · rename_i hcomment
    obtain ⟨fields, rfl⟩ := Raw.eq_of_hasTag hcomment
    match fields with
    | _ :: construct :: rest => exact ⟨_, rfl⟩
    | [] => exact absurd h (not_sound_comment rfl)
    | [comment] => exact absurd h (not_sound_comment rfl)
  · exact ⟨_, rfl⟩

/-- `a while b` and `a until b`. -/
theorem sound_loopModifier {tag : String} {cond body : Raw}
    (htag : tag ∈ ["while_mod", "until_mod"])
    (hcond : Sound .expr cond) (hbody : Sound .expr body) :
    Sound .expr (node tag [cond, body]) := by
  -- Whether the body runs once before the condition is read off the raw tree.
  obtain ⟨first, hfirst⟩ := runsFirst_of_value hbody
  have hrest : ∀ word ∈ ["while", "until"], Yields (lowerLoopModifier word lower [cond, body])
      (Finished .value) := by
    intro word hword
    show Yields (runsFirst body >>= _) _
    rw [hfirst, pure_bind]
    exact hbody.bind fun t ht => makeLoop_yields hword hcond (ht.within rfl) _
  simp only [List.mem_cons, List.not_mem_nil, or_false] at htag
  rcases htag with rfl | rfl
  · exact yields_node rfl (hrest "while" (by decide))
  · exact yields_node rfl (hrest "until" (by decide))

/-- A `for` loop. -/
theorem sound_forLoop {target collection body : Raw} (htarget : Sound (.item false) target)
    (hcollection : Sound .expr collection) (hbody : Sound .code body) :
    Sound .expr (node "for" [target, collection, body]) := by
  refine yields_node rfl (hcollection.bind fun c hc => htarget.bind fun t ht => ?_)
  refine (targetOf_yields ht.1).bind fun u hu => (visitBody_yields hbody).bind fun b hb => ?_
  exact yields_pure (.node rfl rfl rfl (.one hu (.one hc (.one hb .nil))))

end Conditions

section Choices

/-- One more clause in front of a chain. -/
theorem clause_cons {slot : Slot} {t : Tree} {ts : List Tree} (ht : Finished slot t)
    (hts : FinishedAll [.many slot, .one .optional] ts) :
    FinishedAll [.many slot, .one .optional] (t :: ts) := by
  obtain ⟨clauses, rest, rfl, hclauses, hrest⟩ := hts.of_many_append
  have hall : ∀ u ∈ t :: clauses, Finished slot u := by
    intro u hu
    rcases List.mem_cons.1 hu with rfl | hu
    · exact ht
    · exact hclauses u hu
  exact .many hall hrest

/-- What is done otherwise, after no clauses at all. -/
theorem clauses_end {slot : Slot} {t : Tree} (ht : Finished .optional t) :
    FinishedAll [.many slot, .one .optional] [t] := by
  have hnone : ∀ u ∈ ([] : List Tree), Finished slot u := nofun
  exact .many hnone (.one ht .nil)

/-- One `when` clause. -/
theorem whenClause_yields {values statements : Raw} (hvalues : Sound .args values)
    (hstatements : Sound .code statements) :
    Yields (whenClause lower values statements) (Finished .whenClause) := by
  refine (argumentList_yields hvalues).bind fun vs hvs => ?_
  refine (visitBody_yields hstatements).bind fun t ht => ?_
  exact yields_pure (.node rfl rfl rfl (.many hvs (.one ht .nil)))

/-- A chain of `when` clauses. -/
theorem sound_whens {values statements next : Raw} (hvalues : Sound .args values)
    (hstatements : Sound .code statements) (hnext : Sound .whens next) :
    Sound .whens (node "when" [values, statements, next]) := by
  unfold Sound
  rw [whenClauses]
  refine (whenClause_yields hvalues hstatements).bind fun c hc => ?_
  exact hnext.bind fun cs hcs => yields_pure (clause_cons hc hcs)

/-- A chain of `when` clauses ends. -/
theorem sound_noWhens : Sound .whens .null := by
  unfold Sound
  rw [whenClauses]
  · exact yields_pure (clauses_end (.leaf rfl))
  all_goals simp

/-- A chain of `when` clauses ends in `else`. -/
theorem sound_elseWhens {r : Raw} (h : Sound .code r) : Sound .whens (node "else" [r]) := by
  have helse : Sound .code (node "else" [r]) := sound_otherwise h
  unfold Sound
  rw [whenClauses]
  · exact (visitBranch_yields helse).bind fun t ht => yields_pure (clauses_end ht)
  all_goals simp

/-- A `case` with `when` clauses. -/
theorem sound_choice {subject values statements next : Raw}
    (hsubject : Sound (.optional .expr) subject)
    (hvalues : Sound .args values) (hstatements : Sound .code statements)
    (hnext : Sound .whens next) :
    Sound .expr (node "case" [subject, node "when" [values, statements, next]]) := by
  refine yields_node rfl ((optional_yields hsubject).bind fun t ht => ?_)
  refine Yields.bind (sound_whens hvalues hstatements hnext) fun cs hcs => ?_
  exact yields_pure (.node rfl rfl rfl (.one ht hcs))

end Choices

section Patterns

/-- A name that a pattern binds. -/
theorem bindName_yields (name : String) (line : Option Raw) :
    Yields (bindName name line) fun t => ∃ mark, t = .node (.str "match_var") mark [.sym name] :=
  (yields_bindLocal name).bind fun _ _ => yields_pure ⟨_, rfl⟩

/-- A name that is bound gives a node with that name. -/
theorem matchVariable_yields (tag name : String) (place : Raw) :
    Yields (matchVariable (token tag name place)) fun t =>
      ∃ mark, t = .node (.str "match_var") mark [.sym name] :=
  bindName_yields name _

/-- A bound name is a pattern, also in a place for its alternatives. -/
theorem finished_matchVar {slot : Slot} (hslot : slot.takes .pattern) (mark : Mark)
    (name : String) :
    Finished slot (.node (.str "match_var") mark [.sym name]) :=
  .node rfl hslot rfl (.one (.symbol _) .nil)

/-- The rest, bound to nothing. -/
theorem finished_matchRest {slot : Slot} (hslot : slot.takes .pattern) :
    Finished slot (.bare "match_rest" []) :=
  .node rfl hslot rfl (.left .nil)

/-- A name that a pattern binds. -/
theorem sound_bound {r : Raw} (h : RestPattern r) : Sound .pattern r := by
  cases h with
  | unnamed =>
    unfold Sound
    rw [lowerPattern]
    exact yields_pure (finished_matchRest rfl)
  | named tag name place =>
    unfold Sound
    rw [lowerPattern]
    refine (matchVariable_yields tag name place).mono ?_
    rintro _ ⟨mark, rfl⟩
    exact finished_matchVar rfl mark name

/-- A splat in a pattern. -/
theorem matchRest_yields {r : Raw} (h : RestPattern r) (slot : Slot) (hslot : slot.takes .pattern) :
    Yields (matchRest r) (Finished slot) := by
  cases h with
  | unnamed => exact yields_pure (finished_matchRest hslot)
  | named tag name place =>
    show Yields (matchVariable (token tag name place) >>= fun t =>
      pure (Tree.bare "match_rest" [t])) _
    refine (matchVariable_yields tag name place).bind ?_
    rintro _ ⟨mark, rfl⟩
    exact yields_pure (.node rfl hslot rfl (.maybe (finished_matchVar rfl mark name) .nil))

/-- Two patterns of which one is to match, or a pattern with a name for it. -/
theorem sound_alternatives {left right : Raw} {op : String} (hop : op ∈ ["|", "=>"])
    (hleft : Sound .pattern left) (hright : Sound .pattern right) :
    Sound .pattern (node "binary" [left, .sym op, right]) := by
  unfold Sound
  rw [lowerPattern]
  simp only [List.mem_cons, List.not_mem_nil, or_false] at hop
  rcases hop with rfl | rfl
  · refine hleft.bind fun l hl => hright.bind fun r hr => ?_
    exact yields_pure (.node rfl rfl rfl (.one hl (.one hr .nil)))
  · refine hleft.bind fun l hl => hright.bind fun r hr => ?_
    exact yields_pure (.node rfl rfl rfl (.one hl (.one hr .nil)))

/-- A variable that is compared with, and not bound. -/
theorem sound_pinned {r : Raw} (h : Sound .leaf r) : Sound .pattern (node "var_ref" [r]) := by
  have hreference : Sound .expr (node "var_ref" [r]) := sound_reference (by decide) h
  unfold Sound
  rw [lowerPattern]
  refine Yields.bind hreference fun t ht => ?_
  obtain ⟨tag, mark, children, rfl⟩ := ht.exists_node
  -- Variables are pinned; constants and keywords are compared as they are.
  show Yields (if pinnable.contains tag then _ else _) _
  split
  · exact yields_pure (.node rfl rfl rfl (.one ht .nil))
  · exact yields_pure (ht.within rfl)

/-- An expression that is compared with. -/
theorem sound_pinnedExpr {r : Raw} (h : Sound .expr r) : Sound .pattern (node "begin" [r]) := by
  have hbegin : Sound .expr (node "begin" [r]) := sound_beginExpr h
  unfold Sound
  rw [lowerPattern]
  exact Yields.bind hbegin fun t ht => yields_pure (.node rfl rfl rfl (.one ht .nil))

/-- A pattern for the parts of an object, which may be of any class. -/
theorem withConstant_yields {const : Raw} (hconst : Sound (.optional .expr) const) {t : Tree}
    (ht : Finished .pattern t) : Yields (withConstant lower const t) (Finished .pattern) := by
  unfold withConstant
  split
  · exact yields_pure ht
  · rename_i hpresent
    rcases hconst with rfl | hconst
    · exact absurd rfl hpresent
    · refine Yields.bind hconst fun c hc => yields_pure ?_
      exact .node rfl rfl rfl (.one hc (.one ht .nil))

/-- A list of patterns. -/
theorem patterns_yields {r : Raw} (h : Sound (.optional (.listOf .pattern)) r) :
    Yields (patterns lower r) fun ts => ∀ t ∈ ts, Finished .pattern t :=
  (elementsOf_yields h).bind fun _ hrs => Yields.mapM hrs

/-- A value in the place of a pattern, if it is none of the nodes with a meaning
    of their own there. -/
theorem lowerPattern_eq {r : Raw} (h : ∀ tag ∈ patternTags, r.hasTag tag = false) :
    lowerPattern lower r = lower r := by
  unfold lowerPattern
  split
  · exact absurd (h "binary" (by decide)) (by simp [Raw.hasTag, Raw.tag?])
  · exact absurd (h "var_field" (by decide)) (by simp [Raw.hasTag, Raw.tag?])
  · exact absurd (h "var_ref" (by decide)) (by simp [Raw.hasTag, Raw.tag?])
  · exact absurd (h "begin" (by decide)) (by simp [Raw.hasTag, Raw.tag?])
  · rfl

/-- A node has no other tag than its own. -/
theorem hasTag_node {tag tag' : String} (fields : List Raw) (h : tag ≠ tag') :
    (node tag fields).hasTag tag' = false :=
  beq_eq_false_iff_ne.2 fun heq => h (Option.some.inj heq)

/-- A node that is a pattern by its tag. -/
theorem sound_patternNode {tag : String} {fields : List Raw} (htag : tag ∉ patternTags)
    (h : Yields (lower (node tag fields)) (Finished .pattern)) :
    Sound .pattern (node tag fields) := by
  have hnone : ∀ tag' ∈ patternTags, (node tag fields).hasTag tag' = false := by
    intro tag' htag'
    refine hasTag_node fields ?_
    rintro rfl
    exact htag htag'
  unfold Sound
  rw [lowerPattern_eq hnone]
  exact h

/-- A pattern for the elements of an array. -/
theorem sound_arrayPattern {const before rest after : Raw} (hconst : Sound (.optional .expr) const)
    (hbefore : Sound (.optional (.listOf .pattern)) before)
    (hrest : rest = .null ∨ RestPattern rest)
    (hafter : Sound (.optional (.listOf .pattern)) after) :
    Sound .pattern (node "aryptn" [const, before, rest, after]) := by
  refine sound_patternNode (by decide) (yields_node rfl ?_)
  refine (patterns_yields hbefore).bind fun as has => ?_
  -- The patterns after the rest follow, whether there is one or not.
  have hend : ∀ bs, (∀ b ∈ bs, Finished .pattern b) → Yields (do
      let after ← patterns lower after
      withConstant lower const (.bare "array_pattern" (as ++ bs ++ after)))
        (Finished .pattern) := by
    intro bs hbs
    refine (patterns_yields hafter).bind fun cs hcs => withConstant_yields hconst ?_
    refine .node rfl rfl rfl (.all fun t ht => ?_)
    rcases List.mem_append.1 ht with ht | ht
    · exact (List.mem_append.1 ht).elim (has t) (hbs t)
    · exact hcs t ht
  show Yields (if rest.isNull then _ else _) _
  split
  · exact hend [] nofun
  · rename_i hpresent
    rcases hrest with rfl | hrest
    · exact absurd rfl hpresent
    · refine (matchRest_yields hrest .pattern rfl).bind fun t ht => ?_
      exact hend [t] (List.forall_mem_singleton.2 ht)

/-- A pattern for elements somewhere in an array. -/
theorem sound_findPattern {const before items after : Raw} (hconst : Sound (.optional .expr) const)
    (hbefore : RestPattern before) (hitems : Sound (.optional (.listOf .pattern)) items)
    (hafter : RestPattern after) :
    Sound .pattern (node "fndptn" [const, before, items, after]) := by
  refine sound_patternNode (by decide) (yields_node rfl ?_)
  refine (matchRest_yields hbefore .pattern rfl).bind fun a ha => ?_
  refine (patterns_yields hitems).bind fun bs hbs => ?_
  refine (matchRest_yields hafter .pattern rfl).bind fun c hc => withConstant_yields hconst ?_
  -- A splat at either end is a pattern as the items between them are.
  refine .node rfl rfl rfl (.all fun t ht => ?_)
  rcases List.mem_append.1 ht with ht | ht
  · rcases List.mem_cons.1 ht with rfl | ht
    · exact ha
    · exact hbs t ht
  · rw [List.mem_singleton.1 ht]
    exact hc

/-- A pattern is not absent. -/
theorem isNull_of_pattern {r : Raw} (h : Sound .pattern r) : r.isNull = false := by
  unfold Raw.isNull
  split
  · unfold Sound at h
    have hlower : lowerPattern lower .null = pure .null := by
      rw [lowerPattern, lower_of_isEmpty rfl]
      all_goals simp
    rw [hlower] at h
    obtain ⟨t, scope, hrun, ht⟩ := h {} {}
    cases hrun
    obtain ⟨_, _, _, heq⟩ := ht.exists_node
    cases heq
  · rfl

/-- A key and the pattern for its value. -/
theorem sound_keyPattern {key pattern : Raw} (hkey : Sound .key key)
    (hpattern : Sound .pattern pattern) : Sound .keyPattern (.list [key, pattern]) := by
  show Yields (lower key >>= fun k => if pattern.isNull then _ else _) _
  rw [isNull_of_pattern hpattern]
  refine Yields.bind hkey fun k hk => Yields.bind hpattern fun t ht => ?_
  exact yields_pure (.node rfl rfl rfl (.one hk (.one ht .nil)))

/-- A key alone, which is bound as a name. -/
theorem sound_boundKey {name : String} {place : Raw} :
    Sound .keyPattern (.list [token "@label" name place, .null]) := by
  show Yields (lower (token "@label" name place) >>= fun key => do
    bindName (← nameFrom (← firstChild key)) key.line?) _
  refine (label_yields name place).bind ?_
  rintro _ ⟨mark, rfl⟩
  refine (bindName_yields _ _).mono ?_
  rintro _ ⟨mark', rfl⟩
  exact finished_matchVar rfl mark' _

/-- A pattern for the pairs of a hash. -/
theorem sound_hashPattern {const pairs rest : Raw} (hconst : Sound (.optional .expr) const)
    (hpairs : Sound (.optional (.listOf .keyPattern)) pairs)
    (hrest : rest = .null ∨ refusesRest rest ∨ RestPattern rest) :
    Sound .pattern (node "hshptn" [const, pairs, rest]) := by
  refine sound_patternNode (by decide) (yields_node rfl ?_)
  refine (elementsOf_yields hpairs).bind fun rs hrs => ?_
  refine (Yields.mapM hrs).bind fun ps hps => ?_
  -- What follows the pairs is put behind them in each case.
  have hend : ∀ ts, (∀ t ∈ ts, Finished .keyPattern t) →
      Yields (withConstant lower const (.bare "hash_pattern" (ps ++ ts))) (Finished .pattern) := by
    intro ts hts
    refine withConstant_yields hconst (.node rfl rfl rfl (.all fun t ht => ?_))
    exact (List.mem_append.1 ht).elim (hps t) (hts t)
  have hone : ∀ t, Finished .keyPattern t → ∀ u ∈ [t], Finished .keyPattern u :=
    fun t ht => List.forall_mem_singleton.2 ht
  show Yields (if refusesRest rest then _ else _) _
  split
  · exact hend _ (hone _ (.node rfl rfl rfl .nil))
  · rename_i hrefuses
    split
    · exact hend [] nofun
    · rename_i hpresent
      rcases hrest with rfl | hrest | hrest
      · exact absurd rfl hpresent
      · exact absurd hrest hrefuses
      · exact (matchRest_yields hrest .keyPattern rfl).bind fun t ht => hend [t] (hone t ht)

/-- A value that is compared with. -/
theorem sound_valuePattern {r : Raw} (h : Sound .expr r)
    (htag : ∀ tag ∈ patternTags, r.hasTag tag = false) : Sound .pattern r := by
  unfold Sound
  rw [lowerPattern_eq htag]
  exact Yields.mono h fun t ht => ht.within rfl

/-- No pattern is taken for one with a guard. -/
theorem guardTag?_of_pattern {r : Raw} (h : Shaped .pattern r) : guardTag? r = none := by
  cases h with
  | valuePattern _ htag =>
    unfold guardTag?
    split
    · exact absurd (htag "if_mod" (by decide)) (by simp [Raw.hasTag, Raw.tag?])
    · exact absurd (htag "unless_mod" (by decide)) (by simp [Raw.hasTag, Raw.tag?])
    · rfl
  | alternatives | pinned | pinnedExpr | arrayPattern | findPattern | hashPattern => rfl
  | bound h => cases h <;> rfl

/-- A pattern without a guard. -/
theorem sound_ofPattern {r : Raw} (hshaped : Shaped .pattern r) (h : Sound .pattern r) :
    Sound .guarded r := by
  unfold Sound lowerGuarded
  rw [guardTag?_of_pattern hshaped]
  exact Yields.bind h fun t ht => yields_pure ⟨ht, .leaf rfl⟩

/-- A pattern and its guard. -/
theorem sound_guarded {tag : String} {cond r : Raw} (htag : tag ∈ ["if_mod", "unless_mod"])
    (hcond : Sound .expr cond) (h : Sound .pattern r) : Sound .guarded (node tag [cond, r]) := by
  simp only [List.mem_cons, List.not_mem_nil, or_false] at htag
  rcases htag with rfl | rfl
  all_goals
    refine Yields.bind h fun t ht => Yields.bind hcond fun c hc => ?_
    exact yields_pure ⟨ht, .node rfl rfl rfl (.one hc .nil)⟩

end Patterns

section PatternChoices

/-- One `in` clause. -/
theorem inClause_yields {pattern statements : Raw} (hpattern : Sound .guarded pattern)
    (hstatements : Sound .code statements) :
    Yields (inClause lower pattern statements) (Finished .inClause) := by
  refine Yields.bind hpattern fun p hp => (visitBody_yields hstatements).bind fun t ht => ?_
  exact yields_pure (.node rfl rfl rfl (.one hp.1 (.one hp.2 (.one ht .nil))))

/-- A chain of `in` clauses. -/
theorem sound_ins {pattern statements next : Raw} (hpattern : Sound .guarded pattern)
    (hstatements : Sound .code statements) (hnext : Sound .ins next) :
    Sound .ins (node "in" [pattern, statements, next]) := by
  unfold Sound
  rw [inClauses]
  refine (inClause_yields hpattern hstatements).bind fun c hc => ?_
  exact Yields.bind hnext fun cs hcs => yields_pure (clause_cons hc hcs)

/-- A chain of `in` clauses ends. -/
theorem sound_noIns : Sound .ins .null := by
  unfold Sound
  rw [inClauses]
  · exact yields_pure (clauses_end (.leaf rfl))
  all_goals simp

/-- A chain of `in` clauses ends in `else`. -/
theorem sound_elseIns {r : Raw} (h : Sound .code r) : Sound .ins (node "else" [r]) := by
  have helse : Sound .code (node "else" [r]) := sound_otherwise h
  unfold Sound
  rw [inClauses]
  · exact (visitBranch_yields helse).bind fun t ht => yields_pure (clauses_end ht)
  all_goals simp

/-- A choice by patterns, or a test of a single one. -/
theorem sound_patternChoice {subject pattern statements next : Raw} (hsubject : Sound .expr subject)
    (hpattern : Sound .guarded pattern) (hstatements : Sound .code statements)
    (hnext : Sound .ins next) :
    Sound .expr (node "case" [subject, node "in" [pattern, statements, next]]) := by
  refine yields_node rfl (Yields.bind hsubject fun t ht => ?_)
  -- A single pattern with nothing to be done is a test by itself.
  have hlone : ∃ b, isLonePattern (node "in" [pattern, statements, next]) = pure b := by
    show ∃ b, (if !statements.isNull then pure false else pure next.isNull : LowerM Bool) = pure b
    split
    · exact ⟨_, rfl⟩
    · exact ⟨_, rfl⟩
  obtain ⟨lone, hlone⟩ := hlone
  show Yields (isLonePattern (node "in" [pattern, statements, next]) >>= _) _
  rw [hlone, pure_bind]
  split
  · refine (yields_require (a := pattern) rfl).bind ?_
    rintro _ rfl
    refine Yields.bind hpattern fun p hp => ?_
    exact yields_pure (.node rfl rfl rfl (.one ht (.one hp.1 .nil)))
  · refine Yields.bind (sound_ins hpattern hstatements hnext) fun cs hcs => ?_
    exact yields_pure (.node rfl rfl rfl (.one ht hcs))

/-- `a => pattern`. -/
theorem sound_patternMatch {subject pattern : Raw} {rest : List Raw}
    (hsubject : Sound .expr subject)
    (hpattern : Sound .guarded pattern) :
    Sound .expr (node "case" [subject, node "right_assign" (pattern :: rest)]) := by
  refine yields_node rfl (Yields.bind hsubject fun t ht => ?_)
  refine Yields.bind (yields_require (a := pattern) rfl) ?_
  rintro _ rfl
  refine Yields.bind hpattern fun p hp => ?_
  exact yields_pure (.node rfl rfl rfl (.one ht (.one hp.1 .nil)))

end PatternChoices

end LowerM

end RubyTree
