import RubyTree.Lower.Process
import RubyTree.Proofs.Lower.Uniform.Expression

/-!
# Uniform Constructs

The productions for assignments, parameters, patterns, operators, bodies,
branches and definitions respect every congruence that the visitors respect, and
with them so does every production. Chains of clauses and patterns are followed
by their own recursion, which stays inside the field they start in.

## Theorems

* `Related.rescueClauses`, `Related.whenClauses`, `Related.inClauses`: Chains of
  clauses.
* `Related.lowerPattern`: Patterns.
* `Related.lowerOperatorAssign`, `Related.lowerParams`, `Related.lowerBlockCall`,
  `Related.lowerBinary`: Assignments, parameters, blocks and operators.
* `Related.production`: A node by its production.
* `Related.lowerWith`: A node with the given visitor for its fields.
-/

namespace RubyTree

namespace LowerM

variable {R : ∀ {α : Type}, LowerM α → LowerM α → Prop} {Q : Raw → Prop} {go go' : Visit}
  {fs : Fields}

section Assignments

namespace Related

/-- `a = b`: the target, the value, and the one put into the other. -/
theorem lowerAssign (h : Related R Q go go') (hfs : fs.Within Q) :
    R (LowerM.lowerAssign go fs) (LowerM.lowerAssign go' fs) := by
  unfold LowerM.lowerAssign
  refine h.bind (h.field hfs 0) fun target => ?_
  refine h.bind (h.field hfs 1) fun value => ?_
  exact h.bind (h.assignTo _ _) fun _ => h.pure _

/-- `a, b = c`: the two sides are fields and nothing is done to them. -/
theorem lowerMultiAssign (h : Related R Q go go') (hfs : fs.Within Q) :
    R (LowerM.lowerMultiAssign go fs) (LowerM.lowerMultiAssign go' fs) :=
  h.bind (h.field hfs 0) fun _ => h.bind (h.field hfs 1) fun _ => h.pure _

/-- `a += b`: what is built depends on what the target turned into. -/
theorem lowerOperatorAssign (h : Related R Q go go') (hfs : fs.Within Q) :
    R (LowerM.lowerOperatorAssign go fs) (LowerM.lowerOperatorAssign go' fs) := by
  unfold LowerM.lowerOperatorAssign
  refine h.bind (h.field hfs 0) fun target => ?_
  refine h.bind (h.field hfs 2) fun value => ?_
  refine h.bind (h.require _) fun token => h.bind (h.clippedName _) fun op => ?_
  refine h.bind (h.accessTarget? target) fun access => ?_
  split
  · exact h.pure _
  · exact h.pure _
  · exact h.bind (h.targetOf _) fun _ => h.pure _
  · refine h.bind (h.withSharedChildren _) fun target => ?_
    exact h.bind (h.assignTo _ _) fun _ => h.pure _

/-- Values read as arguments, and more values behind them. -/
theorem lowerValuesFromArgs (h : Related R Q go go') (hfs : fs.Within Q) :
    R (LowerM.lowerValuesFromArgs go fs) (LowerM.lowerValuesFromArgs go' fs) := by
  unfold LowerM.lowerValuesFromArgs
  split
  · exact h.throw _
  · rename_i inner rest
    refine h.bind (h.argumentList (hfs inner List.mem_cons_self)) fun args => ?_
    refine h.bind (h.mapM fun r hr => ?_) fun _ => h.pure _
    exact h.visit r (hfs r (List.mem_cons_of_mem _ hr))

/-- Values with a splat among them are an argument list with a splat. -/
theorem lowerValuesStar (h : Related R Q go go') (hfs : fs.Within Q) :
    R (LowerM.lowerValuesStar go fs) (LowerM.lowerValuesStar go' fs) :=
  h.bind (h.lowerArgsStar hfs) fun _ => h.pure _

/-- Targets one after the other, each made a target after it is visited. -/
theorem lowerTargets (h : Related R Q go go') (hfs : fs.Within Q) :
    R (LowerM.lowerTargets go fs) (LowerM.lowerTargets go' fs) := by
  unfold LowerM.lowerTargets
  refine h.bind (h.mapM_fields hfs) fun ts => ?_
  exact h.bind (h.mapM fun t _ => h.targetOf t) fun _ => h.pure _

/-- Targets that end in a splat, which may have no name. -/
theorem lowerTargetsStar (h : Related R Q go go') (hfs : fs.Within Q) :
    R (LowerM.lowerTargetsStar go fs) (LowerM.lowerTargetsStar go' fs) := by
  unfold LowerM.lowerTargetsStar
  refine h.bind (h.field hfs 0) fun targets => ?_
  refine h.bind (h.field hfs 1) fun t => ?_
  split
  · exact h.addChildren _ _
  · exact h.bind (h.targetOf _) fun _ => h.addChildren _ _

/-- Targets after a splat: the second field is one item or a list of them. -/
theorem lowerTargetsPost (h : Related R Q go go') (hfs : fs.Within Q) :
    R (LowerM.lowerTargetsPost go fs) (LowerM.lowerTargetsPost go' fs) := by
  unfold LowerM.lowerTargetsPost
  refine h.bind (h.field hfs 0) fun targets => ?_
  refine h.bind (h.field hfs 1) fun t => ?_
  split
  · exact h.addChildren _ _
  · exact h.bind (h.targetOf _) fun _ => h.addChildren _ _

/-- `a[i]` as a target: the receiver, then the arguments. -/
theorem lowerIndexTarget (h : Related R Q go go') (hfs : fs.Within Q) :
    R (LowerM.lowerIndexTarget go fs) (LowerM.lowerIndexTarget go' fs) :=
  h.bind (h.field hfs 0) fun _ => h.bind (h.argumentList (h.get hfs 1)) fun _ => h.pure _

/-- `a.b` as a target: a name beside the receiver. -/
theorem lowerAttributeTarget (h : Related R Q go go') (hfs : fs.Within Q) :
    R (LowerM.lowerAttributeTarget go fs) (LowerM.lowerAttributeTarget go' fs) := by
  unfold LowerM.lowerAttributeTarget
  refine h.bind (h.field hfs 0) fun receiver => ?_
  refine h.bind (h.callTag _) fun kind => ?_
  exact h.bind (h.nameOf _) fun _ => h.pure _

end Related

end Assignments

section Parameters

namespace Congruence

/-- A splat among parameters, by the tag of the splat. -/
theorem splatParameter (h : Congruence R) (tag : String) (children : List Tree) :
    R (LowerM.splatParameter tag children) (LowerM.splatParameter tag children) := by
  unfold LowerM.splatParameter
  split
  · exact h.pure _
  · exact h.pure _
  · exact h.bind (h.firstChild _) fun _ => h.pure _

mutual

/-- A target in the place of a parameter, by recursion on the target. -/
theorem asParameter (h : Congruence R) :
    ∀ t : Tree, R (LowerM.asParameter t) (LowerM.asParameter t)
  | .leaf v => h.throw _
  | .node tag mark children => by
    unfold LowerM.asParameter
    split
    · rename_i heq
      cases heq
    · exact h.bind (h.require _) fun _ => h.pure _
    · exact h.bind (h.require _) fun _ => h.pure _
    · rename_i heq
      cases heq
      exact h.bind (h.asParameters children) fun _ => h.pure _
    · exact h.splatParameter _ _
    · exact h.splatParameter _ _
    · exact h.pure _
    · exact h.pure _

/-- Targets in the places of parameters, one after the other. -/
theorem asParameters (h : Congruence R) :
    ∀ ts : List Tree, R (LowerM.asParameters ts) (LowerM.asParameters ts)
  | [] => h.pure _
  | t :: ts => by
    unfold LowerM.asParameters
    refine h.bind (h.asParameter t) fun p => ?_
    exact h.bind (h.asParameters ts) fun _ => h.pure _

end

/-- `*a`, `**a` and `&a`, with or without a name. -/
theorem lowerNamedParam (h : Congruence R) (tag : String) (fs : Fields) :
    R (LowerM.lowerNamedParam tag fs) (LowerM.lowerNamedParam tag fs) := by
  unfold LowerM.lowerNamedParam
  dsimp only
  split
  · exact h.pure _
  · exact h.bind (h.nameOf _) fun _ => h.pure _

/-- Whether parameters end in a comma is read off the raw field. -/
theorem hasTrailingComma (h : Congruence R) (params : Raw) :
    R (LowerM.hasTrailingComma params) (LowerM.hasTrailingComma params) := by
  unfold LowerM.hasTrailingComma
  split
  · exact h.bind (h.require _) fun _ => h.pure _
  · exact h.pure _

/-- A lone parameter of a block takes its argument whole. -/
theorem wrapLone (h : Congruence R) (ts : List Tree) :
    R (LowerM.wrapLone ts) (LowerM.wrapLone ts) := by
  unfold LowerM.wrapLone
  split
  · exact h.throw _
  · exact h.pure _
  · exact h.pure _
  · exact h.pure _

/-- A name that is local to a block. -/
theorem shadow (h : Congruence R) (token : Raw) : R (LowerM.shadow token) (LowerM.shadow token) :=
  h.bind (h.nameOf token) fun _ => h.pure _

end Congruence

namespace Related

/-- Positional parameters: each item of a list that may be absent. -/
theorem positional (h : Related R Q go go') {r : Raw} (hr : Q r) :
    R (LowerM.positional go r) (LowerM.positional go' r) :=
  h.overElements hr fun x hx => h.bind (h.visit x hx) fun t => h.asParameter t

/-- A parameter with a default: its name, then the default. -/
theorem optional (h : Related R Q go go') {r : Raw} (hr : Q r) :
    R (LowerM.optional go r) (LowerM.optional go' r) := by
  unfold LowerM.optional
  refine h.bindReturned (h.require _) fun (name, value) hpair => ?_
  have hvalue := (h.hereditary.pair hr (returns_require hpair)).2
  refine h.bind (h.nameOf _) fun symbol => ?_
  exact h.bind (h.visit value hvalue) fun _ => h.pure _

/-- A keyword parameter: its label, and a default unless it is `false`. -/
theorem keyword (h : Related R Q go go') {r : Raw} (hr : Q r) :
    R (LowerM.keyword go r) (LowerM.keyword go' r) := by
  unfold LowerM.keyword
  refine h.bindReturned (h.require _) fun (label, value) hpair => ?_
  have hvalue := (h.hereditary.pair hr (returns_require hpair)).2
  refine h.bind (h.require _) fun text => h.bind (h.clippedName _) fun name => ?_
  split
  · exact h.pure _
  · exact h.bind (h.visit value hvalue) fun _ => h.pure _

/-- `*a`, `**a` and `&a` in their own places, each of which may be absent. -/
theorem special (h : Related R Q go go') {r : Raw} (hr : Q r) :
    R (LowerM.special go r) (LowerM.special go' r) := by
  unfold LowerM.special
  split
  · exact h.pure _
  · split
    · exact h.pure _
    · exact h.bind (h.visit r hr) fun t => h.bind (h.asParameter t) fun _ => h.pure _

/-- The parameters after the rest parameter. -/
theorem paramsAfterRest (h : Related R Q go go') (hfs : fs.Within Q)
    (required optionals rest : List Tree) :
    R (do
      let post ← LowerM.positional go (fs.get 3)
      let keywords ← (← LowerM.elementsOf (fs.get 4)).mapM (LowerM.keyword go)
      let kwrest ← LowerM.special go (fs.get 5)
      let block ← LowerM.special go (fs.get 6)
      return Tree.bare "args"
        (required ++ optionals ++ rest ++ post ++ keywords ++ kwrest ++ block))
    (do
      let post ← LowerM.positional go' (fs.get 3)
      let keywords ← (← LowerM.elementsOf (fs.get 4)).mapM (LowerM.keyword go')
      let kwrest ← LowerM.special go' (fs.get 5)
      let block ← LowerM.special go' (fs.get 6)
      return Tree.bare "args"
        (required ++ optionals ++ rest ++ post ++ keywords ++ kwrest ++ block)) := by
  refine h.bind (h.positional (h.get hfs 3)) fun post => ?_
  refine h.bindReturned (h.elementsOf _) fun items hitems => ?_
  -- The elements of a field are within reach because the field is.
  have hkeyword := elementsOf_within h.hereditary (h.get hfs 4) hitems
  refine h.bind (h.mapM fun r hr => h.keyword (hkeyword r hr)) fun keywords => ?_
  refine h.bind (h.special (h.get hfs 5)) fun kwrest => ?_
  exact h.bind (h.special (h.get hfs 6)) fun block => h.pure _

/-- All parameters, place by place, in the order of the fields. -/
theorem lowerParams (h : Related R Q go go') (hfs : fs.Within Q) :
    R (LowerM.lowerParams go fs) (LowerM.lowerParams go' fs) := by
  unfold LowerM.lowerParams
  refine h.bind (h.positional (h.get hfs 0)) fun required => ?_
  refine h.bindReturned (h.elementsOf _) fun items hitems => ?_
  have hoptional := elementsOf_within h.hereditary (h.get hfs 1) hitems
  refine h.bind (h.mapM fun r hr => h.optional (hoptional r hr)) fun optionals => ?_
  dsimp only
  -- The rest parameter is a list of its own in either case; what follows is the same.
  split
  · refine h.bind (h.pure []) fun rest => ?_
    exact h.paramsAfterRest hfs required optionals rest
  · refine h.bind (h.special (h.get hfs 2)) fun rest => ?_
    exact h.paramsAfterRest hfs required optionals rest

/-- Parameters of a block, the comma behind them, and names local to it. -/
theorem lowerBlockParams (h : Related R Q go go') (hfs : fs.Within Q) :
    R (LowerM.lowerBlockParams go fs) (LowerM.lowerBlockParams go' fs) := by
  unfold LowerM.lowerBlockParams
  refine h.bind (h.field hfs 0) fun args => ?_
  refine h.bind (h.childrenOf args) fun children => ?_
  refine h.bind (h.hasTrailingComma _) fun comma => ?_
  dsimp only
  split
  · refine h.bind (h.pure _) fun children => h.bind (h.elementsOf _) fun tokens => ?_
    exact h.bind (h.mapM fun token _ => h.shadow token) fun _ => h.pure _
  · refine h.bind (h.wrapLone _) fun children => h.bind (h.elementsOf _) fun tokens => ?_
    exact h.bind (h.mapM fun token _ => h.shadow token) fun _ => h.pure _

end Related

end Parameters

section Patterns

namespace Congruence

/-- A name that a pattern binds: the name goes into the scope. -/
theorem bindName (h : Congruence R) (name : String) (line : Option Raw) :
    R (LowerM.bindName name line) (LowerM.bindName name line) :=
  h.bind (h.bindLocal name) fun _ => h.pure _

/-- A token in a pattern that binds its name. -/
theorem matchVariable (h : Congruence R) (token : Raw) :
    R (LowerM.matchVariable token) (LowerM.matchVariable token) := by
  unfold LowerM.matchVariable
  split
  · exact h.pure _
  · exact h.bind (h.nameIn token) fun _ => h.bindName _ _

/-- `*a` in a pattern, which may have no name. -/
theorem matchRest (h : Congruence R) (r : Raw) : R (LowerM.matchRest r) (LowerM.matchRest r) := by
  unfold LowerM.matchRest
  dsimp only
  split
  · refine h.bind (h.require _) fun token => ?_
    split
    · exact h.bind (h.matchVariable token) fun _ => h.pure _
    · exact h.pure _
  · exact h.pure _

end Congruence

namespace Related

/-- A pattern stays inside the node it starts in: the two sides of an
    alternative are fields of it, and everything else is visited whole. -/
theorem lowerPattern (h : Related R Q go go') (r : Raw) (hr : Q r) :
    R (LowerM.lowerPattern go r) (LowerM.lowerPattern go' r) := by
  -- By the recursion of patterns, which only goes down through operations.
  induction r using LowerM.lowerPattern.induct go with
  | case1 => exact h.throw _
  | case2 head => exact h.throw _
  | case3 left op hop ih =>
    simp only [LowerM.lowerPattern, hop, if_true]
    refine h.bind (ih (h.hereditary.item hr ?_)) fun _ => h.bind (h.throw _) fun _ => ?_
    · simp only [List.mem_cons, true_or, or_true]
    · exact h.visit _ hr
  | case4 left op hop =>
    simp only [LowerM.lowerPattern, hop, Bool.false_eq_true, if_false]
    exact h.visit _ hr
  | case5 left op right tail hop ihl ihr =>
    simp only [LowerM.lowerPattern, hop, if_true]
    refine h.bind (ihl (h.hereditary.item hr ?_)) fun _ => ?_
    · simp only [List.mem_cons, true_or, or_true]
    refine h.bind (ihr (h.hereditary.item hr ?_)) fun _ => h.pure _
    simp only [List.mem_cons, true_or, or_true]
  | case6 left op right tail hbar hop ihl ihr =>
    simp only [LowerM.lowerPattern, hbar, hop, Bool.false_eq_true, if_false, if_true]
    refine h.bind (ihl (h.hereditary.item hr ?_)) fun _ => ?_
    · simp only [List.mem_cons, true_or, or_true]
    refine h.bind (ihr (h.hereditary.item hr ?_)) fun _ => h.pure _
    simp only [List.mem_cons, true_or, or_true]
  | case7 left op right tail hbar hop =>
    simp only [LowerM.lowerPattern, hbar, hop, Bool.false_eq_true, if_false]
    exact h.visit _ hr
  | case8 fields =>
    simp only [LowerM.lowerPattern]
    exact h.matchVariable _
  | case9 fields =>
    simp only [LowerM.lowerPattern]
    refine h.bind (h.visit _ hr) fun value => ?_
    refine h.bind (h.require _) fun tag => h.bind (h.isAmong _ _) fun pinned => ?_
    split
    · exact h.pure _
    · exact h.pure _
  | case10 fields =>
    simp only [LowerM.lowerPattern]
    exact h.bind (h.visit _ hr) fun _ => h.pure _
  | case11 r hbinary hfield hvar hbegin =>
    -- Anything else is visited as a value; the hypotheses say that no other case applies.
    have hvisit : ∀ go : Visit, LowerM.lowerPattern go r = go r := fun go => by
      rw [LowerM.lowerPattern] <;> assumption
    rw [hvisit go, hvisit go']
    exact h.visit r hr

/-- A pattern under `if` or `unless`: the guard is lowered after the names are bound. -/
theorem lowerGuarded (h : Related R Q go go') {r : Raw} (hr : Q r) :
    R (LowerM.lowerGuarded go r) (LowerM.lowerGuarded go' r) := by
  unfold LowerM.lowerGuarded
  split
  · exact h.bind (h.lowerPattern r hr) fun _ => h.pure _
  · refine h.bind (h.lowerPattern _ (h.hereditary.item_getD hr 2)) fun t => ?_
    refine h.bind (h.visit _ (h.hereditary.item_getD hr 1)) fun _ => h.pure _

/-- The constant before a pattern, if there is one. -/
theorem withConstant (h : Related R Q go go') {const : Raw} (hc : Q const) (t : Tree) :
    R (LowerM.withConstant go const t) (LowerM.withConstant go' const t) := by
  unfold LowerM.withConstant
  split
  · exact h.pure _
  · exact h.bind (h.visit const hc) fun _ => h.pure _

/-- The items of a list, each as a pattern. -/
theorem patterns (h : Related R Q go go') {r : Raw} (hr : Q r) :
    R (LowerM.patterns go r) (LowerM.patterns go' r) :=
  h.overElements hr h.lowerPattern

/-- `[a, *b, c]`: the items before, the splat, the items after. -/
theorem lowerArrayPattern (h : Related R Q go go') (hfs : fs.Within Q) :
    R (LowerM.lowerArrayPattern go fs) (LowerM.lowerArrayPattern go' fs) := by
  unfold LowerM.lowerArrayPattern
  refine h.bind (h.patterns (h.get hfs 1)) fun before => ?_
  dsimp only
  split
  · refine h.bind (h.pure _) fun rest => ?_
    exact h.bind (h.patterns (h.get hfs 3)) fun after => h.withConstant (h.get hfs 0) _
  · refine h.bind (h.matchRest _) fun rest => h.bind (h.pure _) fun rest => ?_
    exact h.bind (h.patterns (h.get hfs 3)) fun after => h.withConstant (h.get hfs 0) _

/-- `[*, a, *]`: a splat at either end and items between. -/
theorem lowerFindPattern (h : Related R Q go go') (hfs : fs.Within Q) :
    R (LowerM.lowerFindPattern go fs) (LowerM.lowerFindPattern go' fs) := by
  unfold LowerM.lowerFindPattern
  refine h.bind (h.matchRest _) fun before => ?_
  refine h.bind (h.patterns (h.get hfs 2)) fun items => ?_
  exact h.bind (h.matchRest _) fun after => h.withConstant (h.get hfs 0) _

/-- A key of a pattern with its pattern, or a key that is bound. -/
theorem pairPattern (h : Related R Q go go') {r : Raw} (hr : Q r) :
    R (LowerM.pairPattern go r) (LowerM.pairPattern go' r) := by
  unfold LowerM.pairPattern
  refine h.bindReturned (h.require _) fun (key, value) hpair => ?_
  obtain ⟨hkey, hvalue⟩ := h.hereditary.pair hr (returns_require hpair)
  refine h.bind (h.visit key hkey) fun key => ?_
  split
  · refine h.bind (h.firstChild key) fun name => ?_
    exact h.bind (h.nameFrom name) fun _ => h.bindName _ _
  · exact h.bind (h.lowerPattern value hvalue) fun _ => h.pure _

/-- `{a:, **b}`: the pairs, then the rest or the refusal of one. -/
theorem lowerHashPattern (h : Related R Q go go') (hfs : fs.Within Q) :
    R (LowerM.lowerHashPattern go fs) (LowerM.lowerHashPattern go' fs) := by
  unfold LowerM.lowerHashPattern
  refine h.bindReturned (h.elementsOf _) fun items hitems => ?_
  have hpair := elementsOf_within h.hereditary (h.get hfs 1) hitems
  refine h.bind (h.mapM fun r hr => h.pairPattern (hpair r hr)) fun pairs => ?_
  dsimp only
  split
  · exact h.bind (h.pure _) fun rest => h.withConstant (h.get hfs 0) _
  · split
    · exact h.bind (h.pure _) fun rest => h.withConstant (h.get hfs 0) _
    · refine h.bind (h.matchRest _) fun rest => ?_
      exact h.bind (h.pure _) fun rest => h.withConstant (h.get hfs 0) _

end Related

end Patterns

section Bodies

namespace Related

/-- A list of statements: each field, and what is void left out. -/
theorem lowerStatements (h : Related R Q go go') (hfs : fs.Within Q) :
    R (LowerM.lowerStatements go fs) (LowerM.lowerStatements go' fs) := by
  unfold LowerM.lowerStatements
  refine h.bind (h.mapM_fields hfs) fun statements => ?_
  split
  · exact h.pure _
  · exact h.pure _
  · exact h.pure _

/-- Statements in a place for statements: a list of them or a single one. -/
theorem statementList (h : Related R Q go go') {r : Raw} (hr : Q r) :
    R (LowerM.statementList go r) (LowerM.statementList go' r) := by
  unfold LowerM.statementList
  split
  · refine h.bind (h.mapM fun x hx => h.visit x ?_) fun _ => h.pure _
    exact h.hereditary.item hr (List.mem_cons_of_mem _ hx)
  · exact h.bind (h.visit r hr) fun _ => h.pure _

/-- Parentheses: whether the contents start with a parenthesis is read off the raw field. -/
theorem lowerParen (h : Related R Q go go') (hfs : fs.Within Q) :
    R (LowerM.lowerParen go fs) (LowerM.lowerParen go' fs) := by
  unfold LowerM.lowerParen
  dsimp only
  split
  · exact h.pure _
  · refine h.bind (h.field hfs 0) fun t => ?_
    split
    · exact h.pure _
    · split
      · exact h.pure _
      · split
        · exact h.pure _
        · exact h.pure _

/-- A comment goes to the node behind it if that takes comments. -/
theorem lowerDocumented (h : Related R Q go go') (hfs : fs.Within Q) :
    R (LowerM.lowerDocumented go fs) (LowerM.lowerDocumented go' fs) := by
  unfold LowerM.lowerDocumented
  refine h.bind (h.field hfs 1) fun t => ?_
  split
  · exact h.pure _
  · split
    · refine h.bind (h.isAmong _ _) fun documented => ?_
      split
      · exact h.pure _
      · exact h.pure _
    · exact h.throw _

/-- The exceptions a clause names: none, a node, or a plain list. -/
theorem exceptionList (h : Related R Q go go') {r : Raw} (hr : Q r) :
    R (LowerM.exceptionList go r) (LowerM.exceptionList go' r) := by
  unfold LowerM.exceptionList
  split
  · exact h.pure _
  · split
    · exact h.bind (h.argumentList hr) fun _ => h.pure _
    · exact h.bind (h.visitAll hr) fun _ => h.pure _

/-- One `rescue` clause: exceptions, variable, statements. -/
theorem rescueClause (h : Related R Q go go') {e v s : Raw} (he : Q e)
    (hv : Q v) (hs : Q s) :
    R (LowerM.rescueClause go e v s) (LowerM.rescueClause go' e v s) := by
  unfold LowerM.rescueClause
  refine h.bind (h.exceptionList he) fun exceptions => ?_
  dsimp only
  split
  · exact h.bind (h.pure _) fun target => h.bind (h.visitBody hs) fun _ => h.pure _
  · refine h.bind (h.visit v hv) fun t => h.bind (h.targetOf t) fun target => ?_
    exact h.bind (h.visitBody hs) fun _ => h.pure _

/-- A chain of clauses stays inside its first clause, which holds the others.
    The fields that a short clause lacks are absent, and the elements of a text
    in place of a clause are atoms. -/
theorem rescueClauses (h : Related R Q go go') (r : Raw) (hr : Q r) :
    R (LowerM.rescueClauses go r) (LowerM.rescueClauses go' r) := by
  have hnull : Q .null := h.hereditary.atom _
  -- By the recursion of the chain: fields that are missing count as absent ones.
  induction r using LowerM.rescueClauses.induct with
  | case1 => exact h.pure _
  | case2 head => exact h.bind (h.rescueClause hnull hnull hnull) fun _ => h.pure _
  | case3 head e =>
    have hin := fun x (hx : x ∈ _) => h.hereditary.item hr hx
    simp only [List.forall_mem_cons] at hin
    exact h.bind (h.rescueClause hin.2.1 hnull hnull) fun _ => h.pure _
  | case4 head e v =>
    have hin := fun x (hx : x ∈ _) => h.hereditary.item hr hx
    simp only [List.forall_mem_cons] at hin
    exact h.bind (h.rescueClause hin.2.1 hin.2.2.1 hnull) fun _ => h.pure _
  | case5 head e v s =>
    have hin := fun x (hx : x ∈ _) => h.hereditary.item hr hx
    simp only [List.forall_mem_cons] at hin
    exact h.bind (h.rescueClause hin.2.1 hin.2.2.1 hin.2.2.2.1) fun _ => h.pure _
  | case6 head e v s next tail ih =>
    have hin := fun x (hx : x ∈ _) => h.hereditary.item hr hx
    simp only [List.forall_mem_cons] at hin
    rw [LowerM.rescueClauses, LowerM.rescueClauses]
    refine h.bind (h.rescueClause hin.2.1 hin.2.2.1 hin.2.2.2.1) fun _ => ?_
    exact h.bind (ih hin.2.2.2.2.1) fun _ => h.pure _
  | case7 a ha =>
    simp only [LowerM.rescueClauses, ha, if_true]
    exact h.pure _
  | case8 a ha =>
    simp only [LowerM.rescueClauses, ha, Bool.false_eq_true, if_false]
    -- A text in the place of a chain is read as one clause of single letters.
    refine h.bindReturned (h.require _) fun letters hletters => ?_
    have hletter : Fields.Within Q letters := fun x hx =>
      h.hereditary.element hr (returns_require hletters) hx
    refine h.bind (h.rescueClause (h.get hletter 1) (h.get hletter 2) (h.get hletter 3)) fun _ => ?_
    split
    · exact h.pure _
    · exact h.throw _

/-- A body: statements, the clauses behind them, `else` and `ensure`. -/
theorem lowerBody (h : Related R Q go go') (hfs : fs.Within Q) :
    R (LowerM.lowerBody go fs) (LowerM.lowerBody go' fs) := by
  -- What `ensure` adds is added last, whichever of the branches made the body.
  have hensure : ∀ body : Tree, R
      (if (fs.get 3).isEmpty then pure body
        else do return Tree.bare "ensure" [body, ← go (fs.get 3)])
      (if (fs.get 3).isEmpty then pure body
        else do return Tree.bare "ensure" [body, ← go' (fs.get 3)]) := by
    intro body
    split
    · exact h.pure _
    · exact h.bind (h.field hfs 3) fun _ => h.pure _
  unfold LowerM.lowerBody
  refine h.bind (h.statementList (h.get hfs 0)) fun statements => ?_
  dsimp only
  split
  · refine h.bind (h.rescueClauses _ (h.get hfs 1)) fun clauses => ?_
    refine h.bind (h.visitBody (h.get hfs 2)) fun otherwise => ?_
    exact h.bind (h.pure _) hensure
  · split
    · refine h.bind (h.visitBody (h.get hfs 2)) fun otherwise => ?_
      exact h.bind (h.pure _) hensure
    · exact h.bind (h.pure _) hensure

/-- `begin` around a body is opened; around anything else it is a layer. -/
theorem lowerBegin (h : Related R Q go go') (hfs : fs.Within Q) :
    R (LowerM.lowerBegin go fs) (LowerM.lowerBegin go' fs) := by
  unfold LowerM.lowerBegin
  dsimp only
  split
  · exact h.bind (h.field hfs 0) fun _ => h.pure _
  · refine h.bind (h.field hfs 0) fun t => ?_
    split
    · exact h.pure _
    · exact h.pure _
    · exact h.pure _

/-- `a rescue b`, a body with one clause that names nothing. -/
theorem lowerRescueModifier (h : Related R Q go go') (hfs : fs.Within Q) :
    R (LowerM.lowerRescueModifier go fs) (LowerM.lowerRescueModifier go' fs) :=
  h.bind (h.field hfs 0) fun _ => h.bind (h.field hfs 1) fun _ => h.pure _

end Related

end Bodies

section Branches

namespace Congruence

/-- What a condition turns into, by its tag. -/
theorem conditionForm (h : Congruence R) (t : Tree) :
    R (LowerM.conditionForm t) (LowerM.conditionForm t) := by
  unfold LowerM.conditionForm
  split
  · exact h.throw _
  all_goals exact h.pure _

/-- Whether an `in` clause is a pattern alone. -/
theorem isLonePattern (h : Congruence R) (clause : Raw) :
    R (LowerM.isLonePattern clause) (LowerM.isLonePattern clause) := by
  unfold LowerM.isLonePattern
  refine h.bind (h.require _) fun statements => ?_
  split
  · exact h.pure _
  · exact h.bind (h.require _) fun _ => h.pure _

/-- A negated loop condition, taken for the other loop. -/
theorem unnegated (h : Congruence R) (word : String) (t : Tree) :
    R (LowerM.unnegated word t) (LowerM.unnegated word t) := by
  unfold LowerM.unnegated
  split
  · exact h.throw _
  · split
    · exact h.pure _
    · exact h.pure _
  · split
    · exact h.pure _
    · exact h.pure _
  · exact h.pure _

/-- Whether a loop body runs before the first test. -/
theorem runsFirst (h : Congruence R) (body : Raw) :
    R (LowerM.runsFirst body) (LowerM.runsFirst body) := by
  unfold LowerM.runsFirst
  dsimp only
  split
  · exact h.bind (h.require _) fun _ => h.pure _
  · exact h.bind (h.pure _) fun _ => h.pure _

end Congruence

namespace Related

/-- A field in the place of a condition. -/
theorem visitCondition (h : Related R Q go go') {r : Raw} (hr : Q r) :
    R (LowerM.visitCondition go r) (LowerM.visitCondition go' r) :=
  h.bind (h.visit r hr) fun t => h.conditionForm t

/-- A field in the place of a branch. -/
theorem visitBranch (h : Related R Q go go') {r : Raw} (hr : Q r) :
    R (LowerM.visitBranch go r) (LowerM.visitBranch go' r) := by
  unfold LowerM.visitBranch
  split
  · exact h.pure _
  · exact h.visitBody hr

/-- `if`: the condition and the two branches, in the order of the fields. -/
theorem lowerIf (h : Related R Q go go') (hfs : fs.Within Q) :
    R (LowerM.lowerIf go fs) (LowerM.lowerIf go' fs) := by
  unfold LowerM.lowerIf
  refine h.bind (h.visitCondition (h.get hfs 0)) fun cond => ?_
  refine h.bind (h.visitBranch (h.get hfs 1)) fun yes => ?_
  exact h.bind (h.visitBranch (h.get hfs 2)) fun no => h.pure _

/-- `unless`: the same with the branches the other way round. -/
theorem lowerUnless (h : Related R Q go go') (hfs : fs.Within Q) :
    R (LowerM.lowerUnless go fs) (LowerM.lowerUnless go' fs) := by
  unfold LowerM.lowerUnless
  refine h.bind (h.visitCondition (h.get hfs 0)) fun cond => ?_
  refine h.bind (h.visitBranch (h.get hfs 2)) fun yes => ?_
  exact h.bind (h.visitBranch (h.get hfs 1)) fun no => h.pure _

/-- `a if b`: the condition stands first in the fields. -/
theorem lowerIfModifier (h : Related R Q go go') (hfs : fs.Within Q) :
    R (LowerM.lowerIfModifier go fs) (LowerM.lowerIfModifier go' fs) :=
  h.bind (h.visitCondition (h.get hfs 0)) fun _ => h.bind (h.field hfs 1) fun _ => h.pure _

/-- `a unless b`: the same with the branches the other way round. -/
theorem lowerUnlessModifier (h : Related R Q go go') (hfs : fs.Within Q) :
    R (LowerM.lowerUnlessModifier go fs) (LowerM.lowerUnlessModifier go' fs) :=
  h.bind (h.visitCondition (h.get hfs 0)) fun _ => h.bind (h.field hfs 1) fun _ => h.pure _

/-- `a ? b : c`. -/
theorem lowerTernary (h : Related R Q go go') (hfs : fs.Within Q) :
    R (LowerM.lowerTernary go fs) (LowerM.lowerTernary go' fs) := by
  unfold LowerM.lowerTernary
  refine h.bind (h.field hfs 0) fun cond => ?_
  refine h.bind (h.field hfs 1) fun yes => ?_
  exact h.bind (h.field hfs 2) fun no => h.pure _

/-- One `when` clause: values, then statements. -/
theorem whenClause (h : Related R Q go go') {values statements : Raw} (hv : Q values)
    (hs : Q statements) :
    R (LowerM.whenClause go values statements) (LowerM.whenClause go' values statements) :=
  h.bind (h.argumentList hv) fun _ => h.bind (h.visitBody hs) fun _ => h.pure _

/-- A chain of `when` clauses, which stays inside the field it starts in. -/
theorem whenClauses (h : Related R Q go go') (r : Raw) (hr : Q r) :
    R (LowerM.whenClauses go r) (LowerM.whenClauses go' r) := by
  -- By the recursion of the chain, whose tail is an item of the field.
  induction r using LowerM.whenClauses.induct with
  | case1 values statements next tail ih =>
    have hin := fun x (hx : x ∈ _) => h.hereditary.item hr hx
    simp only [List.forall_mem_cons] at hin
    rw [LowerM.whenClauses, LowerM.whenClauses]
    refine h.bind (h.whenClause hin.2.1 hin.2.2.1) fun clause => ?_
    exact h.bind (ih hin.2.2.2.1) fun _ => h.pure _
  | case2 fields hshort =>
    have hin : Fields.Within Q fields := fun x hx =>
      h.hereditary.item hr (List.mem_cons_of_mem _ hx)
    rw [LowerM.whenClauses, LowerM.whenClauses]
    · exact h.bind (h.whenClause (h.get hin 0) (h.get hin 1)) fun _ => h.pure _
    · exact hshort
    · exact hshort
  | case3 r hlong hshort =>
    -- The chain ends in a branch; the hypotheses say that it is no further clause.
    have hbranch : ∀ go : Visit, LowerM.whenClauses go r = do
        return [← LowerM.visitBranch go r] := fun go => by
      rw [LowerM.whenClauses] <;> assumption
    rw [hbranch go, hbranch go']
    exact h.bind (h.visitBranch hr) fun _ => h.pure _

/-- One `in` clause: a guarded pattern, then statements. -/
theorem inClause (h : Related R Q go go') {pattern statements : Raw} (hp : Q pattern)
    (hs : Q statements) :
    R (LowerM.inClause go pattern statements) (LowerM.inClause go' pattern statements) :=
  h.bind (h.lowerGuarded hp) fun _ => h.bind (h.visitBody hs) fun _ => h.pure _

/-- A chain of `in` clauses, which stays inside the field it starts in. -/
theorem inClauses (h : Related R Q go go') (r : Raw) (hr : Q r) :
    R (LowerM.inClauses go r) (LowerM.inClauses go' r) := by
  -- By the recursion of the chain, whose tail is an item of the field.
  induction r using LowerM.inClauses.induct with
  | case1 pattern statements next tail ih =>
    have hin := fun x (hx : x ∈ _) => h.hereditary.item hr hx
    simp only [List.forall_mem_cons] at hin
    rw [LowerM.inClauses, LowerM.inClauses]
    refine h.bind (h.inClause hin.2.1 hin.2.2.1) fun clause => ?_
    exact h.bind (ih hin.2.2.2.1) fun _ => h.pure _
  | case2 fields hshort =>
    have hin : Fields.Within Q fields := fun x hx =>
      h.hereditary.item hr (List.mem_cons_of_mem _ hx)
    rw [LowerM.inClauses, LowerM.inClauses]
    · exact h.bind (h.inClause (h.get hin 0) (h.get hin 1)) fun _ => h.pure _
    · exact hshort
    · exact hshort
  | case3 r hlong hshort =>
    have hbranch : ∀ go : Visit, LowerM.inClauses go r = do
        return [← LowerM.visitBranch go r] := fun go => by
      rw [LowerM.inClauses] <;> assumption
    rw [hbranch go, hbranch go']
    exact h.bind (h.visitBranch hr) fun _ => h.pure _

/-- `case`: the first clause says whether it is a choice or a pattern match. -/
theorem lowerCase (h : Related R Q go go') (hfs : fs.Within Q) :
    R (LowerM.lowerCase go fs) (LowerM.lowerCase go' fs) := by
  unfold LowerM.lowerCase
  refine h.bind (h.field hfs 0) fun subject => ?_
  dsimp only
  split
  · -- A lone pattern makes a match of the whole, with the one guarded pattern to lower.
    refine h.bind (h.isLonePattern _) fun lone => ?_
    split
    · refine h.bindReturned (h.require _) fun pattern hpattern => ?_
      have hin := h.hereditary.item? (h.get hfs 1) (returns_require hpattern)
      exact h.bind (h.lowerGuarded hin) fun _ => h.pure _
    · exact h.bind (h.inClauses _ (h.get hfs 1)) fun _ => h.pure _
  · split
    · refine h.bindReturned (h.require _) fun pattern hpattern => ?_
      have hin := h.hereditary.item? (h.get hfs 1) (returns_require hpattern)
      exact h.bind (h.lowerGuarded hin) fun _ => h.pure _
    · exact h.bind (h.whenClauses _ (h.get hfs 1)) fun _ => h.pure _

/-- A loop from its condition and a body that is lowered already. -/
theorem makeLoop (h : Related R Q go go') (word : String) {cond : Raw} (hc : Q cond)
    (body : Tree) (checkFirst : Bool) :
    R (LowerM.makeLoop go word cond body checkFirst)
      (LowerM.makeLoop go' word cond body checkFirst) := by
  unfold LowerM.makeLoop
  refine h.bind (h.visit cond hc) fun t => ?_
  refine h.bind (h.unnegated _ t) fun loop => ?_
  exact h.bind (h.conditionForm _) fun _ => h.pure _

/-- `while` and `until`: the body is lowered before the condition. -/
theorem lowerLoop (h : Related R Q go go') (word : String) (hfs : fs.Within Q) :
    R (LowerM.lowerLoop word go fs) (LowerM.lowerLoop word go' fs) :=
  h.bind (h.visitBody (h.get hfs 1)) fun body => h.makeLoop word (h.get hfs 0) body true

/-- `a while b` and `a until b`: the same, with a body that may run first. -/
theorem lowerLoopModifier (h : Related R Q go go') (word : String) (hfs : fs.Within Q) :
    R (LowerM.lowerLoopModifier word go fs) (LowerM.lowerLoopModifier word go' fs) := by
  unfold LowerM.lowerLoopModifier
  refine h.bind (h.runsFirst _) fun first => ?_
  exact h.bind (h.field hfs 1) fun body => h.makeLoop word (h.get hfs 0) body _

/-- `for`: the collection, then the target, then the body. -/
theorem lowerFor (h : Related R Q go go') (hfs : fs.Within Q) :
    R (LowerM.lowerFor go fs) (LowerM.lowerFor go' fs) := by
  unfold LowerM.lowerFor
  refine h.bind (h.field hfs 1) fun collection => ?_
  refine h.bind (h.field hfs 0) fun t => h.bind (h.targetOf t) fun target => ?_
  exact h.bind (h.visitBody (h.get hfs 2)) fun _ => h.pure _

end Related

end Branches

section Blocks

namespace Congruence

/-- The number of a numbered parameter that a node reads. -/
theorem numberRead (h : Congruence R) (t : Tree) :
    R (LowerM.numberRead t) (LowerM.numberRead t) := by
  unfold LowerM.numberRead
  split
  · refine h.bind (h.require _) fun name => ?_
    exact h.bind (h.require _) fun _ => h.pure _
  · exact h.pure _

/-- The highest numbered parameter that a body reads. -/
theorem highestNumbered (h : Congruence R) (body : Tree) :
    R (LowerM.highestNumbered body) (LowerM.highestNumbered body) := by
  unfold LowerM.highestNumbered
  refine h.bind (h.require _) fun nodes => ?_
  exact h.bind (h.mapM fun t _ => h.numberRead t) fun _ => h.pure _

/-- A block from its call, parameters and body. -/
theorem makeBlock (h : Congruence R) (call args body : Tree) :
    R (LowerM.makeBlock call args body) (LowerM.makeBlock call args body) := by
  unfold LowerM.makeBlock
  dsimp only
  refine h.bind h.read fun options => ?_
  split
  · refine h.bind (h.childrenOf _) fun children => ?_
    split
    · -- The search for numbered parameters reads the tree alone.
      refine h.bind (h.highestNumbered body) fun count => ?_
      split
      · exact h.pure _
      · exact h.pure _
    · exact h.pure _
  · exact h.pure _

end Congruence

namespace Related

/-- Parameters and body of a block, with the rest name of the parameters in force. -/
theorem paramsAndBody (h : Related R Q go go') (hfs : fs.Within Q) :
    R (LowerM.paramsAndBody go fs) (LowerM.paramsAndBody go' fs) := by
  unfold LowerM.paramsAndBody
  refine h.bind (h.field hfs 0) fun args => ?_
  exact h.bind (h.withRest _ (h.visitBody (h.get hfs 1))) fun body => h.pure _

/-- A block in braces, or from `do` to `end`, before it has a call. -/
theorem lowerBlockBody (h : Related R Q go go') (hfs : fs.Within Q) :
    R (LowerM.lowerBlockBody go fs) (LowerM.lowerBlockBody go' fs) :=
  h.bind (h.paramsAndBody hfs) fun _ => h.pure _

/-- A call and its block. -/
theorem lowerBlockCall (h : Related R Q go go') (hfs : fs.Within Q) :
    R (LowerM.lowerBlockCall go fs) (LowerM.lowerBlockCall go' fs) := by
  unfold LowerM.lowerBlockCall
  refine h.bind (h.field hfs 0) fun call => ?_
  refine h.bind (h.field hfs 1) fun block => h.bind (h.childrenOf block) fun children => ?_
  split
  · exact h.makeBlock _ _ _
  · exact h.throw _

/-- `->(a) { b }`. -/
theorem lowerLambda (h : Related R Q go go') (hfs : fs.Within Q) :
    R (LowerM.lowerLambda go fs) (LowerM.lowerLambda go' fs) :=
  h.bind (h.paramsAndBody hfs) fun _ => h.makeBlock _ _ _

end Related

end Blocks

section Definitions

namespace Related

/-- Parameters of a method; without any there is an empty list. -/
theorem methodParams (h : Related R Q go go') {r : Raw} (hr : Q r) :
    R (LowerM.methodParams go r) (LowerM.methodParams go' r) := by
  unfold LowerM.methodParams
  split
  · exact h.pure _
  · refine h.bind (h.visit r hr) fun t => ?_
    split
    · exact h.pure _
    · exact h.pure _
    · exact h.pure _

/-- Statements of a method, in a scope of their own. -/
theorem methodStatements (h : Related R Q go go') {body : Raw} (hb : Q body) :
    R (LowerM.methodStatements go body) (LowerM.methodStatements go' body) := by
  unfold LowerM.methodStatements
  dsimp only
  split
  · -- Which of the two visits is made is told by the tag, the same for both visitors.
    refine h.bind (h.visit body hb) fun t => ?_
    split
    · exact h.pure _
    · exact h.pure _
    · exact h.pure _
  · refine h.bind (h.visitBody hb) fun t => ?_
    split
    · exact h.pure _
    · exact h.pure _
    · exact h.pure _

/-- Parameters and statements of a method. -/
theorem methodParts (h : Related R Q go go') {params body : Raw} (hp : Q params)
    (hb : Q body) :
    R (LowerM.methodParts go params body) (LowerM.methodParts go' params body) := by
  unfold LowerM.methodParts
  refine h.inBody true (h.bind (h.methodParams hp) fun args => ?_)
  exact h.bind (h.withRest _ (h.methodStatements hb)) fun _ => h.pure _

/-- A method definition. -/
theorem lowerMethod (h : Related R Q go go') (hfs : fs.Within Q) :
    R (LowerM.lowerMethod go fs) (LowerM.lowerMethod go' fs) := by
  unfold LowerM.lowerMethod
  refine h.bind (h.methodParts (h.get hfs 1) (h.get hfs 2)) fun parts => ?_
  exact h.bind (h.nameIn _) fun _ => h.pure _

/-- A method definition for one object. -/
theorem lowerSingletonMethod (h : Related R Q go go') (hfs : fs.Within Q) :
    R (LowerM.lowerSingletonMethod go fs) (LowerM.lowerSingletonMethod go' fs) := by
  unfold LowerM.lowerSingletonMethod
  refine h.bind (h.field hfs 0) fun receiver => ?_
  refine h.bind (h.methodParts (h.get hfs 3) (h.get hfs 4)) fun parts => ?_
  exact h.bind (h.nameIn _) fun _ => h.pure _

/-- The body of a class or module, in a scope of its own. -/
theorem namespaceBody (h : Related R Q go go') {body : Raw} (hb : Q body) :
    R (LowerM.namespaceBody go body) (LowerM.namespaceBody go' body) :=
  h.inBody false (h.visitBody hb)

/-- A module: its name, then its body. -/
theorem lowerModule (h : Related R Q go go') (hfs : fs.Within Q) :
    R (LowerM.lowerModule go fs) (LowerM.lowerModule go' fs) :=
  h.bind (h.field hfs 0) fun _ => h.bind (h.namespaceBody (h.get hfs 1)) fun _ => h.pure _

/-- A class: its name, its parent, its body. -/
theorem lowerClass (h : Related R Q go go') (hfs : fs.Within Q) :
    R (LowerM.lowerClass go fs) (LowerM.lowerClass go' fs) := by
  unfold LowerM.lowerClass
  refine h.bind (h.field hfs 0) fun const => ?_
  refine h.bind (h.field hfs 1) fun parent => ?_
  exact h.bind (h.namespaceBody (h.get hfs 2)) fun _ => h.pure _

/-- The class of one object. -/
theorem lowerSingletonClass (h : Related R Q go go') (hfs : fs.Within Q) :
    R (LowerM.lowerSingletonClass go fs) (LowerM.lowerSingletonClass go' fs) :=
  h.bind (h.field hfs 0) fun _ => h.bind (h.namespaceBody (h.get hfs 1)) fun _ => h.pure _

/-- `BEGIN` and `END` blocks. -/
theorem lowerHook (h : Related R Q go go') (tag : String) (hfs : fs.Within Q) :
    R (LowerM.lowerHook tag go fs) (LowerM.lowerHook tag go' fs) :=
  h.bind (h.visitBody (h.get hfs 0)) fun _ => h.pure _

/-- `alias` for a global variable, which visits nothing. -/
theorem lowerGlobalAlias (h : Related R Q go go') :
    R (LowerM.lowerGlobalAlias fs) (LowerM.lowerGlobalAlias fs) :=
  h.bind (h.nameOf _) fun _ => h.bind (h.nameOf _) fun _ => h.pure _

end Related

end Definitions

section Operators

namespace Related

/-- A binary operation: a match if its operator says so. -/
theorem lowerBinary (h : Related R Q go go') (hfs : fs.Within Q) :
    R (LowerM.lowerBinary go fs) (LowerM.lowerBinary go' fs) := by
  unfold LowerM.lowerBinary
  refine h.bind (h.operatorOf _) fun op => ?_
  split
  · refine h.bind (h.field hfs 0) fun left => ?_
    exact h.bind (h.field hfs 2) fun right => h.lowerMatch left right
  · split
    · exact h.bind (h.field hfs 0) fun _ => h.bind (h.field hfs 2) fun _ => h.pure _
    · split
      · refine h.bind (h.lowerPattern _ (h.get hfs 0)) fun left => ?_
        exact h.bind (h.lowerPattern _ (h.get hfs 2)) fun _ => h.pure _
      · exact h.bind (h.field hfs 0) fun _ => h.bind (h.field hfs 2) fun _ => h.pure _

/-- A unary operation. -/
theorem lowerUnary (h : Related R Q go go') (hfs : fs.Within Q) :
    R (LowerM.lowerUnary go fs) (LowerM.lowerUnary go' fs) :=
  h.bind (h.field hfs 1) fun _ => h.bind (h.operatorOf _) fun _ => h.pure _

/-- One operand under a tag. -/
theorem lowerSingle (h : Related R Q go go') (tag : String) (hfs : fs.Within Q) :
    R (LowerM.lowerSingle tag go fs) (LowerM.lowerSingle tag go' fs) :=
  h.bind (h.field hfs 0) fun _ => h.pure _

/-- Two operands under a tag. -/
theorem lowerDouble (h : Related R Q go go') (tag : String) (hfs : fs.Within Q) :
    R (LowerM.lowerDouble tag go fs) (LowerM.lowerDouble tag go' fs) :=
  h.bind (h.field hfs 0) fun _ => h.bind (h.field hfs 1) fun _ => h.pure _

end Related

end Operators

/-- The names that a production looks up itself. All others are looked up by the
    visitor. -/
def Asks (go : Visit) (fs : Fields) : Production → Tree → Prop
  | .bareName, name => ∃ text, Returns (nameOf (fs.get 0)) text ∧ name = .sym text
  | .pair, name => (fs.get 1).isNull ∧ ∃ key, Returns (go (fs.get 0)) key ∧
      Returns (firstChild key) name
  | _, _ => False

namespace Related

/-- Every production respects what its visitors and its own look-ups respect. -/
theorem production (h : Related R Q go go') (hfs : fs.Within Q) (p : Production)
    (hlocal : ∀ name, Asks go fs p name → R (LowerM.isLocal name) (LowerM.isLocal name)) :
    R (p.lower go fs) (p.lower go' fs) := by
  -- By the production; names are looked up for a bare name and for a shorthand pair only.
  cases p with
  | within => exact h.field hfs 0
  | part => exact h.visitBody (h.get hfs 0)
  | single tag => exact h.lowerSingle tag hfs
  | double tag => exact h.lowerDouble tag hfs
  | bare tag => exact h.pure _
  | withArgs tag => exact h.lowerWithArgs tag hfs
  | fields tag => exact h.lowerFields tag hfs
  | each tag => exact h.lowerEach tag hfs
  | statements => exact h.lowerStatements hfs
  | empty => exact h.pure _
  | documented => exact h.lowerDocumented hfs
  | paren => exact h.lowerParen hfs
  | hook tag => exact h.lowerHook tag hfs
  | moduleDef => exact h.lowerModule hfs
  | classDef => exact h.lowerClass hfs
  | singletonClass => exact h.lowerSingletonClass hfs
  | method => exact h.lowerMethod hfs
  | singletonMethod => exact h.lowerSingletonMethod hfs
  | globalAlias => exact h.lowerGlobalAlias
  | name tag => exact h.lowerName tag fs
  | constant => exact h.lowerConstant fs
  | scopedConstant => exact h.lowerScopedConstant hfs
  | topConstant => exact h.lowerTopConstant fs
  | label => exact h.lowerLabel fs
  | keyword => exact h.lowerKeyword fs
  | backReference => exact h.lowerBackReference fs
  | integer => exact h.lowerInteger fs
  | float => exact h.lowerFloat fs
  | rational => exact h.lowerRational fs
  | imaginary => exact h.lowerImaginary fs
  | character => exact h.lowerCharacter fs
  | content => exact h.lowerContent fs
  | string => exact h.lowerString hfs
  | parts tag => exact h.lowerParts tag hfs
  | embedded => exact h.lowerEmbedded hfs
  | embeddedVariable => exact h.lowerEmbeddedVariable hfs
  | regexp => exact h.lowerRegexp hfs
  | symbolLiteral => exact h.lowerSymbolLiteral hfs
  | symbol => exact h.symbolContent (h.get hfs 0)
  | quotedSymbol => exact h.quotedSymbolContent (h.get hfs 0)
  | symbolWords => exact h.bind (h.mapM fun r hr => h.symbolContent (hfs r hr)) fun _ => h.pure _
  | quotedSymbolWords =>
    exact h.bind (h.mapM fun r hr => h.quotedSymbolContent (hfs r hr)) fun _ => h.pure _
  | collection tag => exact h.lowerCollection tag hfs
  | pair =>
    exact h.lowerPair hfs fun hnull key name hkey hname => hlocal name ⟨hnull, key, hkey, hname⟩
  | assign => exact h.lowerAssign hfs
  | multiAssign => exact h.lowerMultiAssign hfs
  | operatorAssign => exact h.lowerOperatorAssign hfs
  | targets => exact h.lowerTargets hfs
  | targetsStar => exact h.lowerTargetsStar hfs
  | targetsPost => exact h.lowerTargetsPost hfs
  | valuesFromArgs => exact h.lowerValuesFromArgs hfs
  | valuesStar => exact h.lowerValuesStar hfs
  | indexTarget => exact h.lowerIndexTarget hfs
  | attributeTarget => exact h.lowerAttributeTarget hfs
  | call => exact h.lowerCall hfs
  | command => exact h.lowerCommand hfs
  | commandCall => exact h.lowerCommandCall hfs
  | bareName => exact h.lowerBareName fun text htext => hlocal _ ⟨text, htext, rfl⟩
  | function => exact h.lowerFunction fs
  | callWithArgs => exact h.lowerCallWithArgs hfs
  | argParen => exact h.lowerArgParen hfs
  | argsBlock => exact h.lowerArgsBlock hfs
  | argsStar => exact h.lowerArgsStar hfs
  | index => exact h.lowerIndex hfs
  | blockCall => exact h.lowerBlockCall hfs
  | blockBody => exact h.lowerBlockBody hfs
  | lambda => exact h.lowerLambda hfs
  | blockParams => exact h.lowerBlockParams hfs
  | params => exact h.lowerParams hfs
  | namedParam tag => exact h.lowerNamedParam tag fs
  | begin => exact h.lowerBegin hfs
  | body => exact h.lowerBody hfs
  | rescueModifier => exact h.lowerRescueModifier hfs
  | conditional => exact h.lowerIf hfs
  | unlessConditional => exact h.lowerUnless hfs
  | ifModifier => exact h.lowerIfModifier hfs
  | unlessModifier => exact h.lowerUnlessModifier hfs
  | ternary => exact h.lowerTernary hfs
  | choice => exact h.lowerCase hfs
  | loop word => exact h.lowerLoop word hfs
  | loopModifier word => exact h.lowerLoopModifier word hfs
  | forLoop => exact h.lowerFor hfs
  | arrayPattern => exact h.lowerArrayPattern hfs
  | findPattern => exact h.lowerFindPattern hfs
  | hashPattern => exact h.lowerHashPattern hfs
  | binary => exact h.lowerBinary hfs
  | unary => exact h.lowerUnary hfs

/-- A node is lowered alike with visitors that are related on its fields. -/
theorem lowerWith (h : Related R Q go go') {r : Raw}
    (hfs : ∀ tag fs, r = .list (tag :: fs) → Fields.Within Q fs)
    (hlocal : ∀ tag fs p name, r = .list (.str tag :: fs) → Production.ofTag? tag = some p →
      Asks go fs p name → R (LowerM.isLocal name) (LowerM.isLocal name)) :
    R (LowerM.lowerWith go r) (LowerM.lowerWith go' r) := by
  unfold LowerM.lowerWith
  split
  · exact h.pure _
  · split
    · split
      · -- The tag has told the production, so both visitors take the same one.
        rename_i p hp
        exact h.production (hfs _ _ rfl) p fun name => hlocal _ _ p name rfl hp
      · exact h.throw _
    · exact h.throw _

end Related

end LowerM

end RubyTree
