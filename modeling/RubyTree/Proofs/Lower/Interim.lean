import RubyTree.Lower.Process
import RubyTree.Proofs.Lower.Yields
import RubyTree.Proofs.Tree.Finished

/-!
# Unfinished Trees

Productions hand each other trees that no finished tree has: lists of arguments,
empty statements, targets that wait for a value, blocks that wait for a call.
Each has one form that its producers give and its consumers rely on. The forms
are said here, and what every consumer makes of them: something finished, or
another of these forms, and no failure.

## Main definitions

* `Holds`: A node with children for one slot, such as a list of arguments.
* `Suite`: A value or an empty statement.
* `Args`: What is read as arguments.
* `Callee`: A call to which arguments may be added.
* `Target`, `Assignable`: What a value may be assigned to.
* `Binder`: A target that may be a parameter.
* `Parameter`, `ParamList`: Parameters, of which one may be a list.
* `BlockBody`: A block without its call.

## Theorems

* `argumentList_yields`: Arguments as children.
* `conditionForm_yields`, `unnegated_yields`: Conditions.
* `assignTo_yields`, `targetOf_yields`: Targets with and without a value.
* `asParameter_yields`, `wrapLone_yields`: Parameters.
* `makeBlock_yields`: A call with its block.
* `staticSource?_yields`: The source of a regular expression.
-/

namespace RubyTree

namespace LowerM

/-- A node with this tag whose children all stand in one slot. -/
def Holds (tag : String) (slot : Slot) (t : Tree) : Prop :=
  ∃ mark children, t = .node (.str tag) mark children ∧ ∀ c ∈ children, Finished slot c

section Statements

/-- A value, or an empty statement in place of one. -/
def Suite (t : Tree) : Prop :=
  Finished .optional t.dropVoid

/-- A value that may be absent is one that may be void as well. -/
theorem suite_of_optional {t : Tree} (h : Finished .optional t) : Suite t := by
  unfold Suite Tree.dropVoid
  split
  · exact .leaf rfl
  · exact h

/-- A value. -/
theorem suite_of_value {t : Tree} (h : Finished .value t) : Suite t :=
  suite_of_optional (h.within rfl)

/-- An empty statement. -/
theorem suite_void (line : Option Raw) : Suite (.placed line "void_stmt" []) :=
  .leaf rfl

/-- What is not empty is a value. -/
theorem Suite.value {t : Tree} (h : Suite t) (hvoid : t.isVoid = false) : Finished .value t := by
  unfold Suite Tree.dropVoid at h
  rw [hvoid, if_neg Bool.false_ne_true] at h
  rcases h.eq_null_or with rfl | h
  · cases hvoid
  · exact h

/-- No value is void. -/
theorem isVoid_eq_false {t : Tree} (h : Finished .value t) : t.isVoid = false := by
  have htag := h.hasTag_eq_false "void_stmt" rfl
  obtain ⟨tag, mark, children, rfl⟩ := h.exists_node
  rw [Tree.isVoid, htag]
  rfl

/-- Once the void is left out, only values remain. -/
theorem value_of_mem_rejectVoid {ts : List Tree} (h : ∀ t ∈ ts, Suite t) :
    ∀ t ∈ Tree.rejectVoid ts, Finished .value t := by
  intro t ht
  obtain ⟨ht, hvoid⟩ := List.mem_filter.1 ht
  exact (h t ht).value (by simpa using hvoid)

/-- Statements in a place that may be empty. -/
theorem visitBody_yields {r : Raw} (h : Yields (lower r) Suite) :
    Yields (visitBody lower r) (Finished .optional) :=
  h.bind fun _ ht => yields_pure ht

/-- A branch, which may not be written. -/
theorem visitBranch_yields {r : Raw} (h : Yields (lower r) Suite) :
    Yields (visitBranch lower r) (Finished .optional) := by
  unfold visitBranch
  split
  · exact yields_pure (.leaf rfl)
  · exact visitBody_yields h

/-- Statements together are a value, if there are any. -/
theorem finished_ofStatements {ts : List Tree} (h : ∀ t ∈ ts, Finished .value t) :
    Finished .optional (Tree.ofStatements ts) := by
  match ts with
  | [] => exact .leaf rfl
  | [t] => exact (h t List.mem_cons_self).within rfl
  | _ :: _ :: _ => exact .node rfl rfl rfl (.all h)

/-- The children of a `begin` are values. -/
theorem values_of_begin {slot : Slot} {mark : Mark} {children : List Tree}
    (h : Finished slot (.node (.str "begin") mark children)) : ∀ c ∈ children, Finished .value c :=
  (h.children rfl).of_many

/-- What a layer holds alone is a value as the layer is. -/
theorem unwrapBegin_finished {t : Tree} (h : Finished .value t) :
    Finished .value t.unwrapBegin := by
  unfold Tree.unwrapBegin
  split
  · exact values_of_begin h _ List.mem_cons_self
  · exact h

end Statements

section Arguments

/-- What is read as arguments: nothing, an argument, or a list of them. -/
def Args (t : Tree) : Prop :=
  t = .null ∨ Finished .argument t ∨ Holds "arglist" .argument t ∨ Holds "mrhs" .argument t

theorem isAmong_str (tags : List String) (tag : String) :
    isAmong tags (.str tag) = pure (tags.contains tag) :=
  rfl

/-- Arguments as the children of a call. -/
theorem argumentList_yields {r : Raw} (h : Yields (lower r) Args) :
    Yields (argumentList lower r) fun ts => ∀ t ∈ ts, Finished .argument t := by
  refine h.bind fun t ht => ?_
  rcases ht with rfl | ht | ⟨mark, children, rfl, hchildren⟩ | ⟨mark, children, rfl, hchildren⟩
  · exact yields_pure fun t ht => nomatch ht
  · obtain ⟨tag, mark, children, rfl⟩ := ht.exists_node
    -- A finished argument has neither of the two tags of lists.
    have hlist : ["arglist", "mrhs"].contains tag = false := by
      have harglist := ht.hasTag_eq_false "arglist" rfl
      have hmrhs := ht.hasTag_eq_false "mrhs" rfl
      rw [Tree.hasTag] at harglist hmrhs
      simp [List.contains, List.elem, harglist, hmrhs]
    show Yields (isAmong _ _ >>= _) _
    rw [isAmong_str, pure_bind, hlist]
    exact yields_pure (List.forall_mem_singleton.2 ht)
  · exact yields_pure hchildren
  · exact yields_pure hchildren

/-- A call to which arguments may be added. -/
def Callee (t : Tree) : Prop :=
  ∃ tag mark receiver name, t = .node (.str tag) mark [receiver, .sym name] ∧
    (tag = "send" ∨ tag = "safe_call") ∧ Finished .optional receiver ∧
    (receiver = .null → name ≠ "!")

/-- Added arguments finish a call. -/
theorem Callee.withArgs {t : Tree} (h : Callee t) :
    ∃ children, t.children? = some children ∧ ∀ args, (∀ a ∈ args, Finished .argument a) →
      Finished .value (t.withChildren (children ++ args)) := by
  obtain ⟨tag, mark, receiver, name, rfl, htag, hreceiver, hname⟩ := h
  exact ⟨_, rfl, fun args hargs => .call rfl htag hreceiver hargs fun hnull _ => hname hnull⟩

/-- What can be called is a value by itself. -/
theorem Callee.value {t : Tree} (h : Callee t) : Finished .value t := by
  obtain ⟨tag, mark, receiver, name, rfl, htag, hreceiver, hname⟩ := h
  exact .call rfl htag hreceiver (fun _ h => nomatch h) fun hnull _ => hname hnull

/-- An operation is a call with one argument. -/
theorem finished_operation {left right : Tree} (op : String) (hleft : Finished .value left)
    (hright : Finished .value right) : Finished .value (.bare "send" [left, .sym op, right]) := by
  have hargs : ∀ a ∈ [right], Finished .argument a :=
    List.forall_mem_singleton.2 (hright.within rfl)
  exact .call rfl (.inl rfl) (hleft.within rfl) hargs fun _ h => nomatch h

end Arguments

section Conditions

/-- A value in the place of a condition becomes one. -/
theorem conditionForm_yields {t : Tree} (h : Finished .value t) :
    Yields (conditionForm t) (Finished .condition) := by
  obtain ⟨tag, mark, children, rfl⟩ := h.exists_node
  unfold conditionForm
  -- A regular expression is matched with the current line, and the ends of a range
  -- become those of a flip-flop.
  split
  · cases ‹Tree.node _ _ _ = _›
  · cases ‹Tree.node _ _ _ = _›
    exact yields_pure (.node rfl rfl rfl (.one h .nil))
  · cases ‹Tree.node _ _ _ = _›
    exact yields_pure (.node rfl rfl rfl (h.children rfl))
  · cases ‹Tree.node _ _ _ = _›
    exact yields_pure (.node rfl rfl rfl (h.children rfl))
  · exact yields_pure (h.within rfl)

/-- The receiver and the name of a call. -/
theorem call_parts {slot : Slot} {mark : Mark} {receiver name : Tree} {args : List Tree}
    (h : Finished slot (.node (.str "send") mark (receiver :: name :: args))) :
    Finished .optional receiver ∧ (∃ n, name = .sym n) ∧ ∀ a ∈ args, Finished .argument a := by
  obtain ⟨_, _, hcons, hreceiver, hrest⟩ := (h.children rfl).of_one
  cases hcons
  obtain ⟨_, _, hcons, hname, hargs⟩ := hrest.of_one
  cases hcons
  exact ⟨hreceiver, hname.eq_symbol, hargs.of_many⟩

/-- What is negated is a value. -/
theorem negated_value {slot : Slot} {mark : Mark} {receiver : Tree}
    (h : Finished slot (.node (.str "send") mark [receiver, .sym "!"])) :
    Finished .value receiver := by
  rcases (call_parts h).1.eq_null_or with rfl | hvalue
  · -- The form of a call allows an absent receiver, so this needs the operand.
    cases h with
    | node _ _ hoperand _ => cases hoperand
  · exact hvalue

/-- The opposite of a loop is a loop. -/
theorem oppositeLoop_mem {word : String} (h : word ∈ ["while", "until"]) :
    oppositeLoop word ∈ ["while", "until"] := by
  simp only [List.mem_cons, List.not_mem_nil, or_false] at h ⊢
  rcases h with rfl | rfl
  · exact .inr rfl
  · exact .inl rfl

/-- The condition of a loop, and the kind of loop that it makes. -/
theorem unnegated_yields {word : String} (hword : word ∈ ["while", "until"]) {t : Tree}
    (h : Finished .value t) :
    Yields (unnegated word t) fun p => p.1 ∈ ["while", "until"] ∧ Finished .value p.2 := by
  have hopposite := oppositeLoop_mem hword
  obtain ⟨tag, mark, children, rfl⟩ := h.exists_node
  unfold unnegated
  -- The cases are no node, a call without arguments, a call with one, and the rest.
  split
  · cases ‹Tree.node _ _ _ = _›
  · cases ‹Tree.node _ _ _ = _›
    obtain ⟨-, ⟨n, rfl⟩, -⟩ := call_parts h
    split
    · rename_i hname
      cases eq_of_beq hname
      exact yields_pure ⟨hopposite, negated_value h⟩
    · exact yields_pure ⟨hword, h⟩
  · cases ‹Tree.node _ _ _ = _›
    obtain ⟨hreceiver, ⟨n, rfl⟩, hargs⟩ := call_parts h
    split
    · exact yields_pure ⟨hopposite, .call rfl (.inl rfl) hreceiver hargs fun _ h => nomatch h⟩
    · exact yields_pure ⟨hword, h⟩
  · exact yields_pure ⟨hword, h⟩

end Conditions

section Targets

/-- A variable or a constant. -/
inductive Variable : Tree → Prop where
  | simple {tag : String} {mark : Mark} {name : String} (htag : tag ∈ pinnable) :
      Variable (.node (.str tag) mark [.sym name])
  | constant {mark : Mark} {root : Tree} {name : String} (hroot : Finished .root root) :
      Variable (.node (.str "const") mark [root, .sym name])

/-- What a value may be assigned to. -/
inductive Target : Tree → Prop where
  | ofVariable {t : Tree} (h : Variable t) : Target t
  | element {mark : Mark} {collection : Tree} {args : List Tree}
      (hcollection : Finished .value collection) (hargs : ∀ a ∈ args, Finished .argument a) :
      Target (.node (.str "aref_field") mark (collection :: args))
  | field {mark : Mark} {receiver : Tree} {kind name : String}
      (hreceiver : Finished .value receiver) (hkind : kind = "send" ∨ kind = "safe_call") :
      Target (.node (.str "field") mark [receiver, .str kind, .sym name])

/-- The tags of targets that wait for a value. -/
def targetTags : List String :=
  ["const", "aref_field", "field"] ++ pinnable

/-- Targets are told by their tags. -/
theorem Target.tagged {t : Tree} (h : Target t) :
    ∃ tag ∈ targetTags, ∃ mark children, t = .node (.str tag) mark children := by
  cases h with
  | ofVariable h =>
    cases h with
    | @simple tag _ _ htag => exact ⟨tag, List.mem_append_right _ htag, _, _, rfl⟩
    | constant => exact ⟨"const", by decide, _, _, rfl⟩
  | element => exact ⟨"aref_field", by decide, _, _, rfl⟩
  | field => exact ⟨"field", by decide, _, _, rfl⟩

/-- A node of any other tag is no target. -/
theorem not_target {tag : String} {mark : Mark} {children : List Tree} (htag : tag ∉ targetTags) :
    ¬ Target (.node (.str tag) mark children) := by
  intro h
  obtain ⟨tag', hmem, mark', children', heq⟩ := h.tagged
  injection heq with hstr
  injection hstr with hstr
  injection hstr with hstr
  exact htag (hstr ▸ hmem)

/-- A variable may be read in its place as a target. -/
theorem Variable.value {t : Tree} (h : Variable t) : Finished .value t := by
  cases h with
  | simple htag =>
    simp only [pinnable, List.mem_cons, List.not_mem_nil, or_false] at htag
    rcases htag with rfl | rfl | rfl | rfl
    all_goals exact .node rfl rfl rfl (.one (.symbol _) .nil)
  | constant hroot => exact .node rfl rfl rfl (.one hroot (.one (.symbol _) .nil))

/-- The assignment to a variable. In the body of a method a class variable is
    assigned, elsewhere it is declared. -/
theorem assignTo_variable {t : Tree} (h : Variable t) {value : Option Tree}
    (hvalue : ∀ v ∈ value, Finished .value v) : Yields (assignTo t value) (Finished .assigned) := by
  have hrest := FinishedAll.of_option hvalue
  cases h with
  | simple htag =>
    simp only [pinnable, List.mem_cons, List.not_mem_nil, or_false] at htag
    rcases htag with rfl | rfl | rfl | rfl
    · exact yields_pure (.node rfl rfl rfl (.one (.symbol _) hrest))
    · exact yields_pure (.node rfl rfl rfl (.one (.symbol _) hrest))
    · exact yields_pure (.node rfl rfl rfl (.one (.symbol _) hrest))
    -- Only here does the result depend on the scope.
    · have htag : Yields (assignmentTag (.str "cvar")) fun r =>
          r = .str "cvasgn" ∨ r = .str "cvdecl" := by
        refine yields_get.bind fun scope _ => yields_pure ?_
        cases scope.inMethod
        · exact .inr rfl
        · exact .inl rfl
      refine htag.bind fun r hr => ?_
      rcases hr with rfl | rfl
      all_goals exact yields_pure (.node rfl rfl rfl (.one (.symbol _) hrest))
  | constant hroot =>
    exact yields_pure (.node rfl rfl rfl (.one hroot (.one (.symbol _) hrest)))

/-- A target takes a value, or none, and becomes an assignment. -/
theorem assignTo_yields {t : Tree} (h : Target t) {value : Option Tree}
    (hvalue : ∀ v ∈ value, Finished .value v) : Yields (assignTo t value) (Finished .assigned) := by
  have hargument : ∀ v ∈ value.toList, Finished .argument v :=
    fun v hv => (hvalue v (Option.mem_toList.1 hv)).within rfl
  cases h with
  | ofVariable h => exact assignTo_variable h hvalue
  | element hcollection hargs =>
    refine yields_pure (.node rfl rfl rfl (.one hcollection (.all fun a ha => ?_)))
    exact (List.mem_append.1 ha).elim (hargs a) (hargument a)
  | field hreceiver hkind =>
    obtain ⟨_, _, _, rfl⟩ := hreceiver.exists_node
    exact yields_pure (.call rfl hkind (hreceiver.within rfl) hargument fun h => nomatch h)

/-- Lines do not matter for what may stand where. -/
theorem finished_withLine {slot : Slot} {t : Tree} (h : Finished slot t) (line : Option Raw) :
    Finished slot (t.withLine line) := by
  unfold Tree.withLine
  split
  · exact h.remark _
  · exact h

/-- What can be turned into a target. -/
def Assignable (t : Tree) : Prop :=
  Target t ∨ Finished .targets t

/-- A list of targets is a node with that tag. -/
theorem targets_node {t : Tree} (h : Finished .targets t) :
    ∃ mark children, t = .node (.str "mlhs") mark children := by
  obtain ⟨tag, htag, mark, children, rfl⟩ := h.exists_tagged ["mlhs"] rfl
  exact ⟨mark, children, by rw [List.mem_singleton.1 htag]⟩

/-- A target without a value. -/
theorem targetOf_yields {t : Tree} (h : Assignable t) : Yields (targetOf t) (Finished .target) := by
  rcases h with h | h
  · refine (assignTo_yields h fun v hv => absurd hv (Option.not_mem_none v)).bind fun u hu => ?_
    exact yields_pure (finished_withLine (hu.within rfl) _)
  · obtain ⟨mark, children, rfl⟩ := targets_node h
    exact yields_pure (finished_withLine (h.within rfl) _)

/-- A target that binds names and nothing else, with or without being turned
    into one. -/
inductive Binder : Tree → Prop where
  | name {tag : String} {mark : Mark} {name : String} (htag : tag = "lvar" ∨ tag = "lvasgn") :
      Binder (.node (.str tag) mark [.sym name])
  | list {mark : Mark} {children : List Tree} (h : ∀ c ∈ children, Binder c) :
      Binder (.node (.str "mlhs") mark children)
  | rest {mark : Mark} : Binder (.node (.str "splat") mark [])
  | namedRest {mark mark' : Mark} {name : String} :
      Binder (.node (.str "splat") mark [.node (.str "lvasgn") mark' [.sym name]])

/-- Lines do not matter for what binds a name. -/
theorem Binder.withLine {t : Tree} (h : Binder t) (line : Option Raw) :
    Binder (t.withLine line) := by
  unfold Tree.withLine
  split
  · cases h with
    | name htag => exact .name htag
    | list h => exact .list h
    | rest => exact .rest
    | namedRest => exact .namedRest
  · exact h

/-- What is bound in parentheses may be bound alone. -/
theorem Binder.children {mark : Mark} {children : List Tree}
    (h : Binder (.node (.str "mlhs") mark children)) : ∀ c ∈ children, Binder c := by
  generalize ht : Tree.node (.str "mlhs") mark children = t at h
  cases h with
  | name htag => rcases htag with rfl | rfl <;> simp at ht
  | list h =>
    cases ht
    exact h
  | rest | namedRest => simp at ht

/-- A splat is made for its place and is not made a target again. -/
theorem not_assignable_splat {mark : Mark} {children : List Tree} :
    ¬ Assignable (.node (.str "splat") mark children) := by
  rintro (h | h)
  · exact not_target (by decide) h
  · obtain ⟨_, _, heq⟩ := targets_node h
    simp at heq

/-- A target that binds names still does so without a value. -/
theorem targetOf_binder {t : Tree} (h : Assignable t) (hbinder : Binder t) :
    Yields (targetOf t) fun u => Finished .target u ∧ Binder u := by
  cases hbinder with
  | name htag =>
    -- A name that was turned into a target already stays one.
    rcases htag with rfl | rfl
    all_goals
      refine yields_pure ⟨finished_withLine ?_ _, Binder.withLine (.name (.inr rfl)) _⟩
      exact .node rfl rfl rfl (.one (.symbol _) (.left .nil))
  | list hchildren =>
    rcases h with h | h
    · exact absurd h (not_target (by decide))
    · exact yields_pure ⟨finished_withLine (h.within rfl) _, Binder.withLine (.list hchildren) _⟩
  | rest => exact absurd h not_assignable_splat
  | namedRest => exact absurd h not_assignable_splat

/-- Of the targets that wait for a value only a local variable binds a name. -/
theorem Binder.eq_of_target {t : Tree} (h : Binder t) (htarget : Target t) :
    ∃ mark name, t = .node (.str "lvar") mark [.sym name] := by
  cases h with
  | name htag =>
    rcases htag with rfl | rfl
    · exact ⟨_, _, rfl⟩
    · exact absurd htarget (not_target (by decide))
  | list | rest | namedRest => exact absurd htarget (not_target (by decide))

/-- A number does not change what a node is. -/
theorem numbered_yields {slot : Slot} {t : Tree} (h : Finished slot t) :
    Yields (numbered t) (Finished slot) := by
  unfold numbered
  split
  · exact yields_pure h
  · split
    · exact yields_pure h
    · exact yields_freshNumber.bind fun n _ => yields_pure (h.remark _)

/-- A variable whose children stand in two places is still a variable. -/
theorem withSharedChildren_yields {t : Tree} (h : Variable t) :
    Yields (withSharedChildren t) Variable := by
  cases h with
  | simple htag => exact yields_pure (.simple htag)
  | constant hroot =>
    simp only [withSharedChildren, childrenOf, Tree.children?, require, pure_bind, List.mapM_cons,
      List.mapM_nil, bind_assoc]
    exact (numbered_yields hroot).bind fun root hroot' => yields_pure (.constant hroot')

end Targets

section Parameters

/-- A parameter. One that is a list consists of parameters in turn. -/
def Parameter (t : Tree) : Prop :=
  Finished .param t ∧
    ∀ mark children, t = .node (.str "mlhs") mark children → ∀ c ∈ children, Finished .param c

/-- A parameter that is no list of them. -/
theorem parameter_of_tag {t : Tree} (h : Finished .param t) (htag : t.hasTag "mlhs" = false) :
    Parameter t := by
  refine ⟨h, fun mark children heq => ?_⟩
  rw [heq] at htag
  cases htag

/-- Parameters by themselves. -/
def ParamList (t : Tree) : Prop :=
  ∃ mark children, t = .node (.str "args") mark children ∧ ∀ c ∈ children, Parameter c

/-- A list of parameters may stand where one is due. -/
theorem ParamList.finished {t : Tree} (h : ParamList t) : Finished .params t := by
  obtain ⟨mark, children, rfl, hchildren⟩ := h
  exact .node rfl rfl rfl (.all fun c hc => (hchildren c hc).1)

/-- A list of parameters is a node with that tag. -/
theorem params_node {t : Tree} (h : Finished .params t) :
    ∃ mark children, t = .node (.str "args") mark children := by
  obtain ⟨tag, htag, mark, children, rfl⟩ := h.exists_tagged ["args"] rfl
  exact ⟨mark, children, by rw [List.mem_singleton.1 htag]⟩

/-- Each target of a list becomes a parameter. -/
theorem asParameters_eq (ts : List Tree) : asParameters ts = ts.mapM asParameter := by
  induction ts with
  | nil => rfl
  | cons t ts ih =>
    rw [asParameters, ih, List.mapM_cons]

/-- What binds a name becomes a parameter. -/
theorem asParameter_yields {t : Tree} (h : Binder t) : Yields (asParameter t) Parameter := by
  induction h with
  | name htag =>
    rcases htag with rfl | rfl
    all_goals
      refine yields_pure (parameter_of_tag ?_ rfl)
      exact .node rfl rfl rfl (.one (.symbol _) .nil)
  | @list mark children _ ih =>
    have hlower : asParameter (.node (.str "mlhs") mark children) = do
        return .placed mark.line "mlhs" (← asParameters children) := by
      rw [asParameter]
    rw [hlower, asParameters_eq]
    -- The children are parameters by induction, whether they are lists or not.
    refine (Yields.mapM ih).bind fun ps hps => yields_pure ⟨?_, ?_⟩
    · exact .node rfl rfl rfl (.all fun p hp => (hps p hp).1.within rfl)
    · intro mark' children' heq c hc
      cases heq
      exact (hps c hc).1
  | rest => exact yields_pure (parameter_of_tag (.node rfl rfl rfl (.left .nil)) rfl)
  | namedRest =>
    exact yields_pure (parameter_of_tag (.node rfl rfl rfl (.maybe (.symbol _) .nil)) rfl)

/-- A lone parameter is wrapped, and a list of them as if it was none. -/
theorem wrapLone_yields {ts : List Tree} (h : ∀ t ∈ ts, Parameter t) :
    Yields (wrapLone ts) fun us => ∀ u ∈ us, Finished .param u := by
  unfold wrapLone
  split
  · -- A lone leaf is no parameter.
    obtain ⟨_, _, _, heq⟩ := (h _ List.mem_cons_self).1.exists_node
    cases heq
  · refine yields_pure (List.forall_mem_singleton.2 (.node rfl rfl rfl (.all ?_)))
    exact List.forall_mem_singleton.2 (h _ List.mem_cons_self).1
  · refine yields_pure (List.forall_mem_singleton.2 (.node rfl rfl rfl (.all ?_)))
    exact (h _ List.mem_cons_self).2 _ _ rfl
  · exact yields_pure fun u hu => (h u hu).1

end Parameters

section Blocks

/-- A block that waits for its call. -/
def BlockBody (t : Tree) : Prop :=
  ∃ mark args body, t = .node (.str "block_body") mark [args, body] ∧
    (args = .null ∨ Finished .params args) ∧ Finished .optional body

/-- A body can be asked for its numbered parameters, whatever it is. -/
theorem numberRead_yields {slot : Slot} {t : Tree} (h : Finished slot t) :
    Yields (numberRead t) fun _ => True := by
  unfold numberRead
  split
  · obtain ⟨_, _, rfl, hname, -⟩ := (h.children rfl).of_one
    obtain ⟨name, rfl⟩ := hname.eq_symbol
    exact yields_pure trivial
  · exact yields_pure trivial

/-- The highest of them is found. -/
theorem highestNumbered_yields {slot : Slot} {t : Tree} (h : Finished slot t) :
    Yields (highestNumbered t) fun _ => True := by
  obtain ⟨nodes, hwalk, hnodes⟩ := h.walk? scopeTags
  have hread : ∀ u ∈ nodes, Yields (numberRead u) fun _ => True := by
    intro u hu
    obtain ⟨slot', hu⟩ := hnodes u hu
    exact numberRead_yields hu
  refine (yields_require hwalk).bind ?_
  rintro _ rfl
  exact (Yields.mapM hread).bind fun _ _ => yields_pure trivial

/-- A call with its block is a value. -/
theorem makeBlock_yields {call args body : Tree} (hcall : Finished .callee call)
    (hargs : args = .null ∨ Finished .params args) (hbody : Finished .optional body) :
    Yields (makeBlock call args body) (Finished .value) := by
  -- Absent parameters are an empty list of them.
  have hparams : Finished .params (if args.isNull then .bare "args" [] else args) := by
    rcases hargs with rfl | hargs
    · exact .node rfl rfl rfl (.all fun _ h => nomatch h)
    · obtain ⟨mark, children, rfl⟩ := params_node hargs
      exact hargs
  unfold makeBlock
  generalize (if args.isNull then Tree.bare "args" [] else args) = params at hparams
  obtain ⟨mark, children, rfl⟩ := params_node hparams
  have hblock : Finished .value (.bare "block" [call, .node (.str "args") mark children, body]) :=
    .node rfl rfl rfl (.one hcall (.one hparams (.one hbody .nil)))
  refine yields_read.bind fun options _ => ?_
  dsimp only
  -- Numbered parameters are looked for only if the block has no others.
  split
  · refine (yields_require rfl).bind fun _ _ => ?_
    split
    · refine (highestNumbered_yields hbody).bind fun count _ => ?_
      split
      · exact yields_pure (.node rfl rfl rfl (.one hcall (.one (.leaf rfl) (.one hbody .nil))))
      · exact yields_pure hblock
    · exact yields_pure hblock
  · exact yields_pure hblock

end Blocks

section Sources

theorem isTagged_node (tag tag' : String) (mark : Mark) (children : List Tree) :
    isTagged tag (.node (.str tag') mark children) = pure (tag' == tag) :=
  rfl

/-- The pieces of a regular expression, without its flags. -/
theorem regexp_pieces {slot : Slot} {mark : Mark} {children : List Tree}
    (h : Finished slot (.node (.str "regexp") mark children)) :
    ∃ pieces, children.dropLast = pieces ∧ ∀ t ∈ pieces, Finished .piece t := by
  obtain ⟨pieces, rest, rfl, hpieces, hrest⟩ := (h.children rfl).of_many_append
  obtain ⟨flags, _, rfl, -, hnil⟩ := hrest.of_one
  cases hnil
  exact ⟨pieces, List.dropLast_concat, hpieces⟩

/-- The child of a text is its content. -/
theorem pieceText_yields {slot : Slot} {mark : Mark} {children : List Tree}
    (h : Finished slot (.node (.str "str") mark children)) :
    Yields (pieceText (.node (.str "str") mark children)) fun t => ∃ text, t = .str text := by
  obtain ⟨child, rest, rfl, htext, -⟩ := (h.children rfl).of_one
  exact yields_pure htext.eq_text

/-- Only strings are all text. -/
theorem allText_yields {ts : List Tree} (h : ∀ t ∈ ts, Finished .value t) :
    Yields (allText ts) fun b => b = true → ∀ t ∈ ts, t.hasTag "str" := by
  -- The look stops at the first tree that is no text, so true is only left at the end.
  induction ts with
  | nil => exact yields_pure fun _ t ht => nomatch ht
  | cons t ts ih =>
    obtain ⟨tag, mark, children, rfl⟩ := (h t List.mem_cons_self).exists_node
    show Yields (isTagged _ _ >>= _) _
    rw [isTagged_node, pure_bind]
    split
    · rename_i htag
      refine (ih fun u hu => h u (List.mem_cons_of_mem _ hu)).mono fun b hb hb' u hu => ?_
      rcases List.mem_cons.1 hu with rfl | hu
      · exact htag
      · exact hb hb' u hu
    · exact yields_pure fun hfalse => nomatch hfalse

/-- The texts of pieces are strings. -/
theorem staticTexts_yields {ts : List Tree} (h : ∀ t ∈ ts, Finished .piece t) :
    Yields (staticTexts ts) fun o => ∀ texts ∈ o, ∀ t ∈ texts, ∃ text, t = .str text := by
  induction ts with
  | nil =>
    refine yields_pure fun texts htexts t ht => ?_
    cases htexts
    cases ht
  | cons t ts ih =>
    have ht := h t List.mem_cons_self
    obtain ⟨tag, mark, children, rfl⟩ := ht.exists_node
    -- Once this part has texts, those of the other parts follow.
    have hnext : ∀ texts : List Tree, (∀ t ∈ texts, ∃ text, t = .str text) →
        Yields (do return (← staticTexts ts).map (texts ++ ·)) fun o =>
          ∀ texts ∈ o, ∀ t ∈ texts, ∃ text, t = .str text := by
      intro texts htexts
      refine (ih fun u hu => h u (List.mem_cons_of_mem _ hu)).bind fun o ho => ?_
      refine yields_pure fun all hall t ht => ?_
      obtain ⟨others, hothers, rfl⟩ := Option.map_eq_some_iff.1 hall
      exact (List.mem_append.1 ht).elim (htexts t) (ho others hothers t)
    unfold staticTexts
    simp only [isTagged_node, pure_bind]
    split
    · rename_i htag
      cases eq_of_beq htag
      refine (pieceText_yields ht).bind fun text htext => ?_
      exact hnext [text] (List.forall_mem_singleton.2 htext)
    · split
      · rename_i htag
        cases eq_of_beq htag
        -- An interpolation is known if it is made of texts alone.
        have hvalues := values_of_begin ht
        refine (yields_require rfl).bind ?_
        rintro _ rfl
        refine (allText_yields hvalues).bind fun all hall => ?_
        split
        · rename_i htrue
          refine (Yields.mapM fun u hu => ?_).bind fun texts htexts => hnext texts htexts
          have hu' := hvalues u hu
          obtain ⟨tag, mark, children, rfl⟩ := hu'.exists_node
          cases eq_of_beq (hall htrue _ hu)
          exact pieceText_yields hu'
        · exact yields_pure fun _ htexts => nomatch htexts
      · exact yields_pure fun _ htexts => nomatch htexts

/-- Whether the parts of a regular expression are known can be told of any value. -/
theorem staticSource?_yields {t : Tree} (h : Finished .value t) :
    Yields (staticSource? t) fun _ => True := by
  unfold staticSource?
  split
  · obtain ⟨pieces, hpieces, hall⟩ := regexp_pieces h
    rw [hpieces]
    refine (staticTexts_yields hall).bind fun o ho => ?_
    split
    · exact yields_pure trivial
    · rename_i texts
      have hread : ∀ t ∈ texts, Yields (require t.text?) fun _ => True := by
        intro t ht
        obtain ⟨text, rfl⟩ := ho texts rfl t ht
        exact yields_pure trivial
      exact (Yields.mapM hread).bind fun _ _ => yields_pure trivial
  · exact yields_pure trivial

/-- A match of two values is a value, whatever names it binds. -/
theorem lowerMatch_yields {left right : Tree} (hleft : Finished .value left)
    (hright : Finished .value right) : Yields (lowerMatch left right) (Finished .value) := by
  refine (staticSource?_yields hleft).bind fun source _ => ?_
  split
  · exact yields_pure (finished_operation "=~" hleft hright)
  · refine (Yields.forM fun name => yields_bindLocal name).bind fun _ _ => ?_
    exact yields_pure (.node rfl rfl rfl (.one hleft (.one hright .nil)))

end Sources

end LowerM

end RubyTree
