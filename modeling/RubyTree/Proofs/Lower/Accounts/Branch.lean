import RubyTree.Proofs.Lower.Accounts.Settled

/-!
# Accounts of Expressions and Branches

Each production that makes an expression, a body, a branch or a pattern adds up what
its parts count for. A part that is not visited is idle in a tidy tree, and so it has
nothing to count for.

Each section is about one part of the grammar, and its lemmas are named for the
productions. They say in words of the source language what the production is.

## Theorems

* `settled_call`, `settled_command`: Calls, whose names are idle.
* `settled_single`: One statement in the place of many.
* `settled_rescues`: Clauses with a variable for the exception.
* `settled_patternChoice`, `settled_patternMatch`: Guards that count, and guards that
  are dropped.
* `settled_keyPattern`: A key and the pattern for its value.
-/

namespace RubyTree

open RubyTree.Tree (isPlain)

namespace LowerM

open Raw (node token)

variable {L : Ledger}

section Names

/-- A local, global, instance or class variable. -/
theorem settled_variableName {tag name : String} {place : Raw} (htag : tag ∈ variableTags) :
    Settled L .leaf (token tag name place) := by
  simp only [variableTags, List.mem_cons, List.not_mem_nil, or_false] at htag
  rcases htag with rfl | rfl | rfl | rfl
  all_goals exact fun ht m => counts_idle ht rfl (by decide) rfl (counts_lowerName rfl _)

/-- A constant by its name. -/
theorem settled_constant {name : String} {place : Raw} :
    Settled L .leaf (token "@const" name place) :=
  fun ht m => counts_idle ht rfl (by decide) rfl (counts_lowerConstant _)

/-- An integer literal. -/
theorem settled_integer {text : String} {place : Raw} :
    Settled L .leaf (token "@int" text place) :=
  fun ht m => counts_idle ht rfl (by decide) rfl (counts_lowerInteger _)

/-- A decimal literal. -/
theorem settled_float {text : String} {place : Raw} :
    Settled L .leaf (token "@float" text place) :=
  fun ht m => counts_idle ht rfl (by decide) rfl (counts_lowerFloat _)

/-- A rational literal, which ends in `r`. -/
theorem settled_rational {text : String} {place : Raw} :
    Settled L .leaf (token "@rational" text place) :=
  fun ht m => counts_idle ht rfl (by decide) rfl (counts_lowerRational _)

/-- An imaginary literal, which ends in `i`. -/
theorem settled_imaginary {text : String} {place : Raw} :
    Settled L .leaf (token "@imaginary" text place) :=
  fun ht m => counts_idle ht rfl (by decide) rfl (counts_lowerImaginary _)

/-- A character literal, such as `?a`. -/
theorem settled_character {text : String} {place : Raw} :
    Settled L .leaf (token "@CHAR" text place) :=
  fun ht m => counts_idle ht rfl (by decide) rfl (counts_lowerCharacter [.str text, place])

/-- A keyword that is a value, such as `self` or `nil`. -/
theorem settled_keyword {word : String} {line : Int} {rest : List Raw} (h : word ∈ valueKeywords) :
    Settled L .leaf (token "@kw" word (.list (.int line :: rest))) :=
  fun ht m => counts_idle ht rfl (by decide) rfl (counts_lowerKeyword h)

/-- What the last match has captured, such as `$1`. -/
theorem settled_backReference {text : String} {place : Raw} :
    Settled L .leaf (token "@backref" text place) :=
  fun ht m =>
    counts_idle ht rfl (by decide) rfl (counts_lowerBackReference [.str text, place])

/-- A name that is read. -/
theorem settled_reference {tag : String} {r : Raw} (htag : tag ∈ ["var_ref", "const_ref"])
    (h : Settled L .leaf r) : Settled L .expr (node tag [r]) := by
  simp only [List.mem_cons, List.not_mem_nil, or_false] at htag
  rcases htag with rfl | rfl
  all_goals exact fun ht m => counts_node rfl (by decide) (h (ht.get 0) m) (by simp)

/-- `A::B`, a constant in a scope. -/
theorem settled_constPath {scope r : Raw} (hscope : Settled L .expr scope) :
    Settled L .expr (node "const_path_ref" [scope, r]) := by
  intro ht m
  have hidle : L.dueAll [r] = 0 := ht.dueAll_idle
  exact counts_node rfl (by decide) (counts_lowerScopedConstant (hscope (ht.get 0) m))
    (by simpa using hidle)

/-- `::A`, a constant at the top level. -/
theorem settled_topConst {r : Raw} : Settled L .expr (node "top_const_ref" [r]) :=
  fun ht m => counts_idle ht rfl (by decide) rfl (counts_lowerTopConstant _)

end Names

section Calls

/-- A name alone, which may be a local or a call. -/
theorem settled_bareName {r : Raw} : Settled L .expr (node "vcall" [r]) :=
  fun ht m => counts_idle ht rfl (by decide) rfl (counts_lowerBareName _)

/-- The name of a call without a receiver. -/
theorem settled_function {r : Raw} : Settled L .callee (node "fcall" [r]) :=
  fun ht m => counts_idle ht rfl (by decide) rfl (counts_lowerFunction _)

/-- `a.b`, a call with a receiver. -/
theorem settled_call {receiver op r : Raw} (hreceiver : Settled L .expr receiver) :
    Settled L .callee (node "call" [receiver, op, r]) := by
  intro ht m
  have hidle : L.dueAll [op, r] = 0 := ht.dueAll_idle
  exact counts_node rfl (by decide) (counts_lowerCall (hreceiver (ht.get 0) m))
    (by simpa using hidle)

/-- A call and its arguments in parentheses. -/
theorem settled_callWithArgs {callee args : Raw} (hsound : Sound .callee callee)
    (hcallee : Settled L .callee callee) (hargs : Settled L .args args) :
    Settled L .expr (node "method_add_arg" [callee, args]) := by
  intro ht m
  refine counts_node rfl (by decide) (counts_lowerCallWithArgs (hcallee (ht.get 0) m)
    (fun t ht => ?_) (hargs (ht.get 1) m)) (by simp)
  exact (Yields.of_returns hsound ht).plain

/-- `p x`, a call whose arguments have no parentheses. -/
theorem settled_command {r args : Raw} (hargs : Settled L .args args) :
    Settled L .expr (node "command" [r, args]) := by
  intro ht m
  have hidle : L.dueAll [r] = 0 := ht.dueAll_idle
  exact counts_node rfl (by decide) (counts_lowerCommand (hargs (ht.get 1) m))
    (by simpa using hidle)

/-- `a.b x`, the same with a receiver. -/
theorem settled_commandCall {receiver op r args : Raw} (hreceiver : Settled L .expr receiver)
    (hargs : Settled L .args args) :
    Settled L .expr (node "command_call" [receiver, op, r, args]) := by
  intro ht m
  have hidle : L.dueAll [op, r] = 0 := ht.dueAll_idle
  have hnone : L.due op = 0 ∧ L.due r = 0 := by simpa using hidle
  exact counts_node rfl (by decide)
    (counts_lowerCommandCall (hreceiver (ht.get 0) m) (hargs (ht.get 3) m)) (by simp [hnone])

/-- `a[i]`, an element access. -/
theorem settled_index {collection args : Raw} (hcollection : Settled L .expr collection)
    (hargs : Settled L .args args) : Settled L .expr (node "aref" [collection, args]) :=
  fun ht m => counts_node rfl (by decide)
    (counts_lowerIndex (hcollection (ht.get 0) m) (hargs (ht.get 1) m)) (by simp)

/-- `super`, `return`, `yield`, `next` and `break` with arguments. -/
theorem settled_withArgs {tag : String} {args : Raw}
    (htag : tag ∈ ["super", "return", "yield", "next", "break"]) (hargs : Settled L .args args) :
    Settled L .expr (node tag [args]) := by
  simp only [List.mem_cons, List.not_mem_nil, or_false] at htag
  rcases htag with rfl | rfl | rfl | rfl | rfl
  all_goals
    exact fun ht m =>
      counts_node rfl (by decide) (counts_lowerWithArgs rfl (hargs (ht.get 0) m)) (by simp)

/-- The same without arguments, and `redo` and `retry`. -/
theorem settled_withoutArgs {tag : String}
    (htag : tag ∈ ["zsuper", "return0", "yield0", "redo", "retry"]) :
    Settled L .expr (node tag []) := by
  simp only [List.mem_cons, List.not_mem_nil, or_false] at htag
  rcases htag with rfl | rfl | rfl | rfl | rfl
  all_goals
    exact fun ht m =>
      counts_node rfl (by decide) (accounts_bare rfl rfl) Ledger.dueAll_nil.symm

end Calls

section Arguments

variable {m : Bool}

/-- No arguments at all. -/
theorem settled_noArgs : Settled L .args .null :=
  fun _ _ => counts_atom _

/-- Arguments in the parentheses of a call. -/
theorem settled_argParen {r : Raw} (h : Settled L .args r) :
    Settled L .args (node "arg_paren" [r]) :=
  fun ht m => counts_node rfl (by decide) (counts_lowerArgParen (h (ht.get 0) m))
    (by simp [Fields.get])

/-- Arguments of `yield` in parentheses. -/
theorem settled_parenArgs {r : Raw} (h : Settled L .arglist r) :
    Settled L .args (node "paren" [r]) :=
  fun ht m => counts_node rfl (by decide) (counts_lowerParen (h (ht.get 0) m))
    (by simp [Fields.get])

/-- Arguments one after the other. -/
theorem settled_arglist {rs : List Raw} (h : ∀ r ∈ rs, Settled L .argument r) :
    Settled L .arglist (node "args" rs) :=
  fun ht m => counts_node rfl (by decide)
    (counts_lowerFields rfl fun r hr => h r hr (ht.of_mem (List.mem_cons_of_mem _ hr)) m) rfl

/-- Arguments and a block that is passed on with `&`. -/
theorem settled_argsBlock {args block : Raw} (hargs : Settled L .args args)
    (hblock : Settled L .expr block) : Settled L .arglist (node "args_add_block" [args, block]) :=
  fun ht m => counts_node rfl (by decide)
    (counts_lowerArgsBlock (hargs (ht.get 0) m) (hblock (ht.get 1) m)) (by simp)

/-- Arguments without a block that is passed on. -/
theorem settled_argsNoBlock {args block : Raw} (hargs : Settled L .args args)
    (hblock : block = .null ∨ ∃ b, block = .bool b) :
    Settled L .arglist (node "args_add_block" [args, block]) := by
  intro ht m
  have hatom : Counts L m (L.due block) (lower block) := by
    rcases hblock with rfl | ⟨b, rfl⟩
    · exact counts_atom _
    · exact counts_atom _
  exact counts_node rfl (by decide) (counts_lowerArgsBlock (hargs (ht.get 0) m) hatom) (by simp)

/-- Arguments with a splat among them. -/
theorem settled_argsStar {args splatted : Raw} {rs : List Raw}
    (hsound : Sound (.optional .arglist) args) (hargs : Settled L (.optional .arglist) args)
    (hsplatted : Settled L (.optional .expr) splatted) (h : ∀ r ∈ rs, Settled L .argument r) :
    Settled L .arglist (node "args_add_star" (args :: splatted :: rs)) := by
  intro ht m
  have hlist : Yields (lower _) fun t => t = .null ∨ Holds "arglist" .argument t :=
    yields_optional hsound (.inl rfl) fun h => h.mono fun _ ht => .inr ht
  exact counts_node rfl (by decide) (counts_star rfl hlist
    (counts_of_optional hargs (ht.get 0) id) (counts_of_optional hsplatted (ht.get 1) id)
    fun r hr => h r hr (ht.of_mem (by simp [hr])) m) rfl

/-- `...`, all arguments of the method around the call. -/
theorem settled_forwarded : Settled L .argument (node "args_forward" []) :=
  fun ht m => counts_node rfl (by decide) (accounts_bare rfl rfl) Ledger.dueAll_nil.symm

/-- Pairs at the end of the arguments. -/
theorem settled_keywordArgs {rs : List Raw} (hshaped : ∀ r ∈ rs, Shaped .pair r)
    (h : ∀ r ∈ rs, Settled L .pair r) : Settled L .argument (node "bare_assoc_hash" [.list rs]) :=
  fun ht m => counts_node rfl (by decide)
    (counts_each rfl hshaped fun r hr => h r hr ((ht.get 0).of_mem hr) m) (by simp)

end Arguments

section Bodies

/-- A whole program is its statements. -/
theorem settled_program {r : Raw} (h : Settled L .code r) :
    Settled L .program (node "program" [r]) := by
  intro ht m
  exact counts_node rfl (by decide) (h (ht.get 0) m) (by simp)

/-- Statements in parentheses. -/
theorem settled_paren {r : Raw} (h : Settled L .code r) : Settled L .expr (node "paren" [r]) :=
  fun ht m => counts_node rfl (by decide) (counts_lowerParen (h (ht.get 0) m))
    (by simp [Fields.get])

/-- `()`. -/
theorem settled_emptyParen : Settled L .expr (node "paren" [.bool false]) :=
  fun ht m => counts_node rfl (by decide)
    (@counts_lowerParen L m lower [.bool false] (counts_atom _)) (by simp [Fields.get])

/-- Code that is not there. -/
theorem settled_nothing : Settled L .code .null :=
  fun _ _ => counts_atom _

/-- A statement that is empty. -/
theorem settled_emptyStatement {fields : List Raw} : Settled L .code (node "void_stmt" fields) :=
  fun ht m => counts_idle ht rfl (by decide) rfl (counts_lowerEmpty _)

/-- Statements one after the other. -/
theorem settled_statements {rs : List Raw} (h : ∀ r ∈ rs, Settled L .code r) :
    Settled L .code (node "stmts" rs) :=
  fun ht m => counts_node rfl (by decide)
    (counts_lowerStatements fun r hr => h r hr (ht.of_mem (List.mem_cons_of_mem _ hr)) m) rfl

/-- What `else` leads to. -/
theorem settled_otherwise {r : Raw} (h : Settled L .code r) : Settled L .code (node "else" [r]) :=
  fun ht m => counts_node rfl (by decide) (counts_visitBody (h (ht.get 0) m)) (by simp)

/-- Statements that are read one by one. -/
theorem settled_sequence {rs : List Raw} (h : ∀ r ∈ rs, Settled L .code r) :
    Settled L .sequence (node "stmts" rs) := by
  intro ht m
  rw [Ledger.due_node (by decide)]
  exact counts_statementList_stmts fun r hr => h r hr (ht.of_mem (List.mem_cons_of_mem _ hr)) m

/-- The statements of a body are those its tree is made of. -/
theorem settled_single {r : Raw} (h : Settled L .expr r) : Settled L .sequence r := by
  intro ht m
  have hcounts : Counts L m (L.due r) (lower r) := h ht m
  unfold statementList
  split
  · rename_i statements
    have hlower : lower (node "stmts" statements) = lowerStatements lower statements :=
      lower_node "stmts" statements
    rw [hlower, lowerStatements] at hcounts
    -- Counting for the whole tells what the kept statements count for, however many there are.
    have hkept : Accounts L m (L.due (node "stmts" statements)) 0 (statements.mapM lower)
        fun ts => L.total m (Tree.rejectVoid ts) := by
      intro options scope ts scope' hrun hscope
      have hwhole (t : Tree) := hcounts options scope t scope'
      simp only [runIn_bind, hrun] at hwhole
      show scope'.inMethod = m ∧ L.Settles _ (L.total m (Tree.rejectVoid ts))
      cases hts : Tree.rejectVoid ts with
      | nil =>
        simp only [hts] at hwhole
        have hvoid := hwhole _ rfl hscope
        rwa [Ledger.weigh_void] at hvoid
      | cons t rest =>
        cases rest with
        | nil =>
          simp only [hts] at hwhole
          exact hwhole _ rfl hscope
        | cons _ _ =>
          simp only [hts] at hwhole
          have hmany := hwhole _ rfl hscope
          rwa [Ledger.weigh_bare rfl] at hmany
    exact hkept.bind fun _ _ => accounts_pure rfl
  · refine hcounts.last fun t _ => ?_
    have hone : L.Settles (L.total m [t]) (L.total m (Tree.rejectVoid [t])) :=
      Ledger.settles_rejectVoid
    exact accounts_settled hone

/-- A body without `rescue` or `else`. -/
theorem settled_body {statements ensure : Raw} (hstatements : Settled L .sequence statements)
    (hensure : Settled L (.optional .ensure) ensure) :
    Settled L .body (node "bodystmt" [statements, .null, .null, ensure]) := by
  intro ht m
  refine counts_node rfl (by decide) (counts_lowerBody (hstatements (ht.get 0) m) (fun h => ?_)
    (counts_atom _) (counts_of_optional hensure (ht.get 3) id)) (by simp [Fields.get])
  exact absurd h.symm Bool.false_ne_true

/-- A body with `rescue` clauses. -/
theorem settled_rescueBody {statements rescues otherwise ensure : Raw}
    (hstatements : Settled L .sequence statements) (hrescues : Settled L .rescues rescues)
    (hotherwise : Settled L .code otherwise) (hensure : Settled L (.optional .ensure) ensure) :
    Settled L .body (node "bodystmt" [statements, rescues, otherwise, ensure]) :=
  fun ht m => counts_node rfl (by decide) (counts_lowerBody (hstatements (ht.get 0) m)
    (fun _ => hrescues (ht.get 1) m) (hotherwise (ht.get 2) m)
    (counts_of_optional hensure (ht.get 3) id)) (by simp [Fields.get])

/-- What `ensure` leads to. -/
theorem settled_ensure {r : Raw} (h : Settled L .code r) : Settled L .ensure (node "ensure" [r]) :=
  fun ht m => counts_node rfl (by decide) (counts_visitBody (h (ht.get 0) m)) (by simp)

/-- A chain of `rescue` clauses. -/
theorem settled_rescues {exceptions captured statements next : Raw}
    (hexceptions : Settled L .exceptions exceptions)
    (hsound : Sound (.optional (.item false)) captured)
    (hcaptured : Settled L (.optional (.item false)) captured)
    (hstatements : Settled L .code statements) (hnext : Settled L (.optional .rescues) next) :
    Settled L .rescues (node "rescue" [exceptions, captured, statements, next]) := by
  intro ht m
  have hclause : Counts L m (L.due exceptions + (L.due captured + L.due statements))
      (rescueClause lower exceptions captured statements) := by
    refine counts_rescueClause (hexceptions (ht.get 0) m) (fun hpresent => ?_)
      (hstatements (ht.get 2) m)
    -- A variable that is there is lowered to something that can be assigned.
    rcases hsound with rfl | hsound
    · cases hpresent
    · refine ⟨counts_of_optional hcaptured (ht.get 1) id, fun t ht => ?_⟩
      exact (Yields.of_returns hsound ht).1
  have hrest : CountsAll L m (L.due next) (rescueClauses lower next) := by
    rcases hnext with rfl | hnext
    · rw [rescueClauses, Ledger.due_atom]
      exact accounts_pure rfl
    · exact hnext (ht.get 3) m
  rw [Ledger.due_node (by decide), rescueClauses]
  have hall : CountsAll L m
      (L.due exceptions + (L.due captured + L.due statements) + L.due next) (do
        let clause ← rescueClause lower exceptions captured statements
        return clause :: (← rescueClauses lower next)) :=
    hclause.andThen fun _ _ => hrest.last fun _ _ => accounts_pure (by simp +arith)
  exact hall.congr (by simp +arith)

/-- A clause that names no exceptions. -/
theorem settled_everyException : Settled L .exceptions .null := by
  intro ht m
  rw [Ledger.due_atom]
  exact accounts_pure (by simp)

/-- The exceptions that a clause names. -/
theorem settled_exceptions {rs : List Raw} (hshaped : ∀ r ∈ rs, Shaped .expr r)
    (h : ∀ r ∈ rs, Settled L .expr r) : Settled L .exceptions (.list rs) := by
  intro ht m
  refine counts_exceptionList_list (fun r hr => h r hr (ht.of_mem hr) m) ?_
  cases rs with
  | nil => rfl
  | cons r rs =>
    obtain ⟨tag, fields, rfl⟩ :=
      exists_node_of_sound (sound_of_shaped (hshaped r List.mem_cons_self))
    rfl

/-- Exceptions with a splat among them. -/
theorem settled_exceptionRow {tag : String} {fields : List Raw}
    (h : Settled L .row (node tag fields)) : Settled L .exceptions (node tag fields) :=
  fun ht m => counts_exceptionList_node rfl (h ht m)

/-- A `begin` block. -/
theorem settled_begin {fields rest : List Raw} (h : Settled L .body (node "bodystmt" fields)) :
    Settled L .expr (node "begin" (node "bodystmt" fields :: rest)) := by
  intro ht m
  have hidle : L.dueAll rest = 0 := ht.dueAll_idle
  exact counts_node rfl (by decide)
    (@counts_lowerBegin L m lower (node "bodystmt" fields :: rest) _ (h (ht.get 0) m))
    (by simpa using hidle)

/-- `a rescue b`. -/
theorem settled_rescueModifier {r handler : Raw} (h : Settled L .expr r)
    (hhandler : Settled L .expr handler) : Settled L .expr (node "rescue_mod" [r, handler]) :=
  fun ht m => counts_node rfl (by decide)
    (counts_lowerRescueModifier (h (ht.get 0) m) (hhandler (ht.get 1) m)) (by simp)

end Bodies

section Operators

/-- A binary operation that is no match. -/
theorem settled_binary {left right : Raw} {op : String} (hop : op ≠ "=>")
    (hleft : Settled L .expr left) (hright : Settled L .expr right) :
    Settled L .expr (node "binary" [left, .sym op, right]) :=
  fun ht m => counts_node rfl (by decide)
    (counts_lowerBinary (fun h => hop (Option.some.inj h)) (hleft (ht.get 0) m)
      (hright (ht.get 2) m)) (by simp)

/-- A unary operation. -/
theorem settled_unary {r : Raw} {op : String} (h : Settled L .expr r) :
    Settled L .expr (node "unary" [.sym op, r]) :=
  fun ht m => counts_node rfl (by decide) (counts_lowerUnary (h (ht.get 1) m)) (by simp)

/-- A range, which may be open at an end. -/
theorem settled_range {tag : String} {low high : Raw} (htag : tag ∈ ["dot2", "dot3"])
    (hlow : Settled L (.optional .expr) low) (hhigh : Settled L (.optional .expr) high) :
    Settled L .expr (node tag [low, high]) := by
  simp only [List.mem_cons, List.not_mem_nil, or_false] at htag
  rcases htag with rfl | rfl
  all_goals
    exact fun ht m => counts_node rfl (by decide)
      (counts_lowerDouble rfl (counts_of_optional hlow (ht.get 0) id)
        (counts_of_optional hhigh (ht.get 1) id)) (by simp [Fields.get])

/-- `defined?(a)`. -/
theorem settled_defined {r : Raw} (h : Settled L .expr r) : Settled L .expr (node "defined" [r]) :=
  fun ht m =>
    counts_node rfl (by decide) (counts_lowerSingle rfl (h (ht.get 0) m)) (by simp)

/-- `a ? b : c`. -/
theorem settled_ternary {cond yes no : Raw} (hcond : Settled L .expr cond)
    (hyes : Settled L .expr yes) (hno : Settled L .expr no) :
    Settled L .expr (node "ifop" [cond, yes, no]) :=
  fun ht m => counts_node rfl (by decide)
    (counts_lowerTernary (hcond (ht.get 0) m) (hyes (ht.get 1) m) (hno (ht.get 2) m)) (by simp)

end Operators

section Branches

/-- `if`, `elsif` and `unless`. -/
theorem settled_conditional {tag : String} {cond yes no : Raw}
    (htag : tag ∈ ["if", "elsif", "unless"]) (hcond : Settled L .expr cond)
    (hyes : Settled L .code yes) (hno : Settled L .code no) :
    Settled L .expr (node tag [cond, yes, no]) := by
  simp only [List.mem_cons, List.not_mem_nil, or_false] at htag
  rcases htag with rfl | rfl | rfl
  · exact fun ht m => counts_node rfl (by decide)
      (counts_lowerIf (hcond (ht.get 0) m) (hyes (ht.get 1) m) (hno (ht.get 2) m))
      (by simp [Fields.get])
  · exact fun ht m => counts_node rfl (by decide)
      (counts_lowerIf (hcond (ht.get 0) m) (hyes (ht.get 1) m) (hno (ht.get 2) m))
      (by simp [Fields.get])
  · exact fun ht m => counts_node rfl (by decide)
      (counts_lowerUnless (hcond (ht.get 0) m) (hyes (ht.get 1) m) (hno (ht.get 2) m))
      (by simp +arith [Fields.get])

/-- `a if b` and `a unless b`. -/
theorem settled_modifier {tag : String} {cond r : Raw} (htag : tag ∈ ["if_mod", "unless_mod"])
    (hcond : Settled L .expr cond) (h : Settled L .expr r) :
    Settled L .expr (node tag [cond, r]) := by
  simp only [List.mem_cons, List.not_mem_nil, or_false] at htag
  rcases htag with rfl | rfl
  · exact fun ht m => counts_node rfl (by decide)
      (counts_lowerIfModifier (hcond (ht.get 0) m) (h (ht.get 1) m)) (by simp)
  · exact fun ht m => counts_node rfl (by decide)
      (counts_lowerUnlessModifier (hcond (ht.get 0) m) (h (ht.get 1) m)) (by simp)

/-- `while` and `until`. -/
theorem settled_loop {tag : String} {cond body : Raw} (htag : tag ∈ ["while", "until"])
    (hcond : Settled L .expr cond) (hbody : Settled L .code body) :
    Settled L .expr (node tag [cond, body]) := by
  simp only [List.mem_cons, List.not_mem_nil, or_false] at htag
  rcases htag with rfl | rfl
  all_goals
    exact fun ht m => counts_node rfl (by decide)
      (counts_lowerLoop (by decide) (hcond (ht.get 0) m) (hbody (ht.get 1) m))
      (by simp +arith)

/-- `a while b` and `a until b`. -/
theorem settled_loopModifier {tag : String} {cond body : Raw}
    (htag : tag ∈ ["while_mod", "until_mod"]) (hcond : Settled L .expr cond)
    (hbody : Settled L .expr body) : Settled L .expr (node tag [cond, body]) := by
  simp only [List.mem_cons, List.not_mem_nil, or_false] at htag
  rcases htag with rfl | rfl
  all_goals
    exact fun ht m => counts_node rfl (by decide)
      (counts_lowerLoopModifier (by decide) (hcond (ht.get 0) m) (hbody (ht.get 1) m))
      (by simp +arith)

/-- A `for` loop. -/
theorem settled_forLoop {target collection body : Raw} (hsound : Sound (.item false) target)
    (htarget : Settled L (.item false) target) (hcollection : Settled L .expr collection)
    (hbody : Settled L .code body) : Settled L .expr (node "for" [target, collection, body]) := by
  intro ht m
  have hitem : ∀ t, Returns (lower _) t → Assignable t :=
    fun t ht => (Yields.of_returns hsound ht).1
  exact counts_node rfl (by decide) (counts_lowerFor (htarget (ht.get 0) m) hitem
    (hcollection (ht.get 1) m) (hbody (ht.get 2) m)) (by simp +arith)

end Branches

section Choices

theorem settled_whens {values statements next : Raw} (hvalues : Settled L .args values)
    (hstatements : Settled L .code statements) (hnext : Settled L .whens next) :
    Settled L .whens (node "when" [values, statements, next]) := by
  intro ht m
  have hall : CountsAll L m (L.due values + L.due statements + L.due next) (do
      let clause ← whenClause lower values statements
      return clause :: (← whenClauses lower next)) :=
    (counts_whenClause (hvalues (ht.get 0) m) (hstatements (ht.get 1) m)).andThen fun _ _ =>
      (hnext (ht.get 2) m).last fun _ _ => accounts_pure (by simp +arith)
  rw [Ledger.due_node (by decide), whenClauses]
  exact hall.congr (by simp +arith)

theorem settled_endOfWhens {r : Raw} (h : Settled L .code r) (htag : r.hasTag "when" ≠ true) :
    Settled L .whens r := by
  intro ht m
  rw [whenClauses]
  · exact (counts_visitBranch (h ht m)).last fun _ _ => accounts_pure rfl
  all_goals
    intros
    subst_vars
    exact htag rfl

/-- A chain of `when` clauses ends. -/
theorem settled_noWhens : Settled L .whens .null :=
  settled_endOfWhens (fun _ _ => counts_atom _) (by decide)

/-- A chain of `when` clauses ends in `else`. -/
theorem settled_elseWhens {r : Raw} (h : Settled L .code r) :
    Settled L .whens (node "else" [r]) := by
  refine settled_endOfWhens (fun ht m => ?_) Bool.false_ne_true
  exact counts_node rfl (by decide) (counts_visitBody (h (ht.get 0) m)) (by simp)

/-- A `case` with `when` clauses. -/
theorem settled_choice {subject values statements next : Raw}
    (hsubject : Settled L (.optional .expr) subject) (hvalues : Settled L .args values)
    (hstatements : Settled L .code statements) (hnext : Settled L .whens next) :
    Settled L .expr (node "case" [subject, node "when" [values, statements, next]]) := by
  intro ht m
  refine counts_node rfl (by decide)
    ((counts_of_optional hsubject (ht.get 0) id).andThen fun t _ => ?_)
    (show L.due subject + L.due (node "when" [values, statements, next]) = _ by simp)
  exact (settled_whens hvalues hstatements hnext (ht.get 1) m).last fun _ _ =>
    accounts_bare rfl (by simp +arith)

/-- A chain of `in` clauses. -/
theorem settled_ins {pattern statements next : Raw} (hpattern : Settled L .guarded pattern)
    (hstatements : Settled L .code statements) (hnext : Settled L .ins next) :
    Settled L .ins (node "in" [pattern, statements, next]) := by
  intro ht m
  have hall : CountsAll L m (L.due pattern + L.due statements + L.due next) (do
      let clause ← inClause lower pattern statements
      return clause :: (← inClauses lower next)) :=
    (counts_inClause (hpattern (ht.get 0) m).1 (hstatements (ht.get 1) m)).andThen fun _ _ =>
      (hnext (ht.get 2) m).last fun _ _ => accounts_pure (by simp +arith)
  rw [Ledger.due_node (by decide), inClauses]
  exact hall.congr (by simp +arith)

theorem settled_endOfIns {r : Raw} (h : Settled L .code r) (htag : r.hasTag "in" ≠ true) :
    Settled L .ins r := by
  intro ht m
  rw [inClauses]
  · exact (counts_visitBranch (h ht m)).last fun _ _ => accounts_pure rfl
  all_goals
    intros
    subst_vars
    exact htag rfl

/-- A chain of `in` clauses ends. -/
theorem settled_noIns : Settled L .ins .null :=
  settled_endOfIns (fun _ _ => counts_atom _) (by decide)

/-- A chain of `in` clauses ends in `else`. -/
theorem settled_elseIns {r : Raw} (h : Settled L .code r) : Settled L .ins (node "else" [r]) := by
  refine settled_endOfIns (fun ht m => ?_) Bool.false_ne_true
  exact counts_node rfl (by decide) (counts_visitBody (h (ht.get 0) m)) (by simp)

/-- A pattern alone has nothing behind it. -/
theorem absent_of_lone {pattern statements next : Raw}
    (h : Returns (isLonePattern (node "in" [pattern, statements, next])) true) :
    statements = .null ∧ next = .null := by
  have heq_null {r : Raw} (hnull : r.isNull) : r = .null := by
    unfold Raw.isNull at hnull
    split at hnull
    · rfl
    · cases hnull
  change Returns (if !statements.isNull then pure false else pure next.isNull) true at h
  split at h
  · cases returns_pure h
  · rename_i hstatements
    exact ⟨heq_null (by simpa using hstatements), heq_null (returns_pure h)⟩

/-- A `case` with `in` clauses. -/
theorem settled_patternChoice {subject pattern statements next : Raw}
    (hsubject : Settled L .expr subject) (hpattern : Settled L .guarded pattern)
    (hstatements : Settled L .code statements) (hnext : Settled L .ins next) :
    Settled L .expr (node "case" [subject, node "in" [pattern, statements, next]]) := by
  intro ht m
  refine counts_node rfl (by decide) ((hsubject (ht.get 0) m).andThen fun t _ => ?_)
    (show L.due subject + L.due (node "in" [pattern, statements, next]) = _ by simp)
  -- Whether the clause is a pattern alone is read off the raw tree, so nothing is due for it.
  refine Restores.andThen (congruence_restores.isLonePattern _) fun lone hlone => ?_
  split
  · -- A match that gives a truth value has no guard that counts.
    rename_i htrue
    obtain ⟨rfl, rfl⟩ := absent_of_lone (htrue ▸ hlone)
    refine Restores.andThen (congruence_restores.require (some pattern)) fun r hr => ?_
    cases returns_require hr
    have hguards : ∀ guard ∈ pattern.guards, L.due guard = 0 := fun guard hguard =>
      ht.due_idle hguard
    have hdue : L.due (node "in" [pattern, .null, .null]) = L.due pattern := by
      rw [Ledger.due_node (by decide)]
      simp
    rw [hdue]
    exact ((hpattern ((ht.get 1).get 0) m).2 hguards).last fun p _ =>
      accounts_bare rfl (by simp +arith)
  · exact (settled_ins hpattern hstatements hnext (ht.get 1) m).last fun _ _ =>
      accounts_bare rfl (by simp +arith)

/-- `a => pattern`. -/
theorem settled_patternMatch {subject pattern : Raw} {rest : List Raw}
    (hsubject : Settled L .expr subject) (hpattern : Settled L .guarded pattern) :
    Settled L .expr (node "case" [subject, node "right_assign" (pattern :: rest)]) := by
  intro ht m
  refine counts_node rfl (by decide) ((hsubject (ht.get 0) m).andThen fun t _ => ?_)
    (show L.due subject + L.due (node "right_assign" (pattern :: rest)) = _ by simp)
  refine Restores.andThen (congruence_restores.require (some pattern)) fun r hr => ?_
  cases returns_require hr
  -- Neither the guards nor what stands behind the pattern is lowered, and neither is due.
  have hguards : ∀ guard ∈ pattern.guards, L.due guard = 0 := fun guard hguard =>
    ht.due_idle hguard
  have hrest : L.dueAll rest = 0 := Ledger.dueAll_of_forall fun r hr => (ht.get 1).due_idle hr
  have hdue : L.due (node "right_assign" (pattern :: rest)) = L.due pattern := by
    rw [Ledger.due_node (by decide), Ledger.dueAll_cons, hrest, Nat.add_zero]
  rw [hdue]
  exact ((hpattern ((ht.get 1).get 0) m).2 hguards).last fun p _ =>
    accounts_bare rfl (by simp +arith)

/-- A pattern without a guard. -/
theorem settled_ofPattern {r : Raw} (hshaped : Shaped .pattern r) (h : Settled L .pattern r) :
    Settled L .guarded r := by
  intro ht m
  unfold lowerGuarded
  rw [guardTag?_of_pattern hshaped]
  refine ⟨Accounts.last (h ht m) fun _ _ => accounts_pure (by simp), fun _ => ?_⟩
  exact Accounts.last (h ht m) fun _ _ => accounts_pure rfl

/-- A pattern and its guard. -/
theorem settled_guarded {tag : String} {cond r : Raw} (htag : tag ∈ ["if_mod", "unless_mod"])
    (hcond : Settled L .expr cond) (h : Settled L .pattern r) :
    Settled L .guarded (node tag [cond, r]) := by
  intro ht m
  have hpattern : Counts L m (L.due r) (lowerPattern lower r) := h (ht.get 1) m
  have hcondition : Counts L m (L.due cond) (lower cond) := hcond (ht.get 0) m
  -- Both the tree and its guard count, or the guard is dropped and nothing was due for it.
  have hboth {guard : String} (hplain : isPlain (.str guard)) :
      Accounts L m (L.due r + L.due cond) 0 (do
        let t ← lowerPattern lower r
        return (t, Tree.bare guard [← lower cond])) (fun p => L.weigh m p.1 + L.weigh m p.2) :=
    hpattern.andThen fun _ _ => hcondition.last fun _ _ =>
      accounts_pure (by simp +arith [Ledger.weigh_bare hplain])
  have halone (hnone : L.due cond = 0) (guard : String) :
      Accounts L m (L.due r + L.due cond) 0 (do
        let t ← lowerPattern lower r
        return (t, Tree.bare guard [← lower cond])) (fun p => L.weigh m p.1) := by
    rw [hnone] at hcondition ⊢
    exact hpattern.last fun _ _ => hcondition.nothing fun _ _ _ => accounts_pure rfl
  have hdue : L.due (node tag [cond, r]) = L.due r + L.due cond := by
    have hne : tag ≠ "comment" := by
      rintro rfl
      exact absurd htag (by decide)
    rw [Ledger.due_node hne]
    simp +arith
  rw [hdue]
  simp only [List.mem_cons, List.not_mem_nil, or_false] at htag
  rcases htag with rfl | rfl
  · exact ⟨hboth rfl, fun hguards => halone (hguards cond List.mem_cons_self) "if_guard"⟩
  · exact ⟨hboth rfl, fun hguards => halone (hguards cond List.mem_cons_self) "unless_guard"⟩

end Choices

section Patterns

variable {m : Bool}

/-- Values and names as they are, but for those that have a meaning as a pattern. -/
theorem settled_valuePattern {r : Raw} (h : Settled L .expr r)
    (htag : ∀ tag ∈ patternTags, r.hasTag tag = false) : Settled L .pattern r := by
  intro ht m
  rw [lowerPattern_eq htag]
  exact h ht m

/-- Two patterns of which one is to match, or a pattern with a name for it. -/
theorem settled_alternatives {left right : Raw} {op : String} (hop : op ∈ ["|", "=>"])
    (hleft : Settled L .pattern left) (hright : Settled L .pattern right) :
    Settled L .pattern (node "binary" [left, .sym op, right]) := by
  intro ht m
  -- An alternative and a binding differ in the tag alone, and neither tag counts.
  have hboth {tag : String} (htag : isPlain (.str tag)) :
      Counts L m (L.due left + L.due right) (do
        let left ← lowerPattern lower left
        return .bare tag [left, ← lowerPattern lower right]) :=
    Accounts.andThen (hleft (ht.get 0) m) fun _ _ => Accounts.last (hright (ht.get 2) m) fun _ _ =>
      accounts_bare htag (by simp +arith)
  have hdue : L.due left + L.due right = L.due (node "binary" [left, .sym op, right]) := by
    rw [Ledger.due_node (by decide)]
    simp
  rw [lowerPattern, ← hdue]
  simp only [List.mem_cons, List.not_mem_nil, or_false] at hop
  rcases hop with rfl | rfl
  · exact hboth rfl
  · exact hboth rfl

/-- A name that a pattern binds. -/
theorem settled_bound {r : Raw} (h : RestPattern r) : Settled L .pattern r := by
  intro ht m
  cases h with
  | unnamed | named =>
    rw [lowerPattern, ht.due_eq_zero (by decide) rfl]
    exact counts_matchVariable _

/-- A variable that is compared with, and not bound. -/
theorem settled_pinned {r : Raw} (h : Settled L .leaf r) :
    Settled L .pattern (node "var_ref" [r]) := by
  intro ht m
  have hreference : Counts L m (L.due (node "var_ref" [r])) (lower (node "var_ref" [r])) :=
    counts_node rfl (by decide) (h (ht.get 0) m) (by simp)
  rw [lowerPattern]
  refine hreference.last fun t _ => ?_
  refine Restores.andThen (congruence_restores.require _) fun tag _ => ?_
  refine Restores.andThen (congruence_restores.isAmong _ _) fun pinned _ => ?_
  split
  · exact accounts_bare rfl rfl
  · exact accounts_pure rfl

/-- An expression that is compared with. -/
theorem settled_pinnedExpr {r : Raw} (h : Settled L .expr r) :
    Settled L .pattern (node "begin" [r]) := by
  intro ht m
  have hbegin : Counts L m (L.due (node "begin" [r])) (lower (node "begin" [r])) :=
    counts_node rfl (by decide) (counts_lowerBegin (h (ht.get 0) m)) (by simp)
  rw [lowerPattern]
  exact hbegin.last fun _ _ => accounts_bare rfl rfl

/-- A node that is a pattern by its tag. -/
theorem settled_patternNode {tag : String} {fields : List Raw} (htag : tag ∉ patternTags)
    (h : Settled L .expr (node tag fields)) : Settled L .pattern (node tag fields) := by
  refine settled_valuePattern h fun tag' htag' => hasTag_node fields ?_
  rintro rfl
  exact htag htag'

theorem counts_patterns {r : Raw} (hshaped : Shaped (.optional (.listOf .pattern)) r)
    (h : Settled L (.optional (.listOf .pattern)) r) (ht : L.Tidy r) :
    CountsAll L m (L.due r) (patterns lower r) := by
  refine Restores.andThen (congruence_restores.elementsOf r) fun rs hrs => ?_
  exact counts_elements hshaped h ht (fun x hx htx => hx htx m) rs hrs

/-- A pattern for the elements of an array. -/
theorem settled_arrayPattern {const before rest after : Raw}
    (hbefore' : Shaped (.optional (.listOf .pattern)) before)
    (hafter' : Shaped (.optional (.listOf .pattern)) after)
    (hconst : Settled L (.optional .expr) const)
    (hbefore : Settled L (.optional (.listOf .pattern)) before)
    (hafter : Settled L (.optional (.listOf .pattern)) after) :
    Settled L .pattern (node "aryptn" [const, before, rest, after]) := by
  refine settled_patternNode (by decide) fun ht m => ?_
  have hidle : L.due rest = 0 := ht.due_idle List.mem_cons_self
  exact counts_node rfl (by decide)
    (counts_lowerArrayPattern (counts_of_optional hconst (ht.get 0) id)
      (counts_patterns hbefore' hbefore (ht.get 1)) (counts_patterns hafter' hafter (ht.get 3)))
    (by simp +arith [Fields.get, hidle])

/-- A pattern for elements somewhere in an array. -/
theorem settled_findPattern {const before items after : Raw}
    (hitems' : Shaped (.optional (.listOf .pattern)) items)
    (hconst : Settled L (.optional .expr) const)
    (hitems : Settled L (.optional (.listOf .pattern)) items) :
    Settled L .pattern (node "fndptn" [const, before, items, after]) := by
  refine settled_patternNode (by decide) fun ht m => ?_
  have hidle : L.dueAll [before, after] = 0 := ht.dueAll_idle
  have hnone : L.due before = 0 ∧ L.due after = 0 := by simpa using hidle
  exact counts_node rfl (by decide)
    (counts_lowerFindPattern (counts_of_optional hconst (ht.get 0) id)
      (counts_patterns hitems' hitems (ht.get 2))) (by simp +arith [Fields.get, hnone])

/-- A pattern for the pairs of a hash. -/
theorem settled_hashPattern {const pairs rest : Raw}
    (hpairs' : Shaped (.optional (.listOf .keyPattern)) pairs)
    (hconst : Settled L (.optional .expr) const)
    (hpairs : Settled L (.optional (.listOf .keyPattern)) pairs) :
    Settled L .pattern (node "hshptn" [const, pairs, rest]) := by
  refine settled_patternNode (by decide) fun ht m => ?_
  have hidle : L.due rest = 0 := ht.due_idle List.mem_cons_self
  exact counts_node rfl (by decide)
    (counts_lowerHashPattern (counts_of_optional hconst (ht.get 0) id)
      (counts_elements hpairs' hpairs (ht.get 1) fun x hx htx => hx htx m))
    (by simp +arith [Fields.get, hidle])

theorem isNull_pattern {r : Raw} (h : Shaped .pattern r) : r.isNull = false := by
  cases h with
  | valuePattern h =>
    obtain ⟨tag, fields, rfl⟩ := exists_node_of_sound (sound_of_shaped h)
    rfl
  | bound h => cases h <;> rfl
  | alternatives | pinned | pinnedExpr | arrayPattern | findPattern | hashPattern => rfl

/-- A key and the pattern for its value. -/
theorem settled_keyPattern {key value : Raw} (hshaped : Shaped .key key)
    (hvalue : Shaped .pattern value) (hkey : Settled L .key key) (h : Settled L .pattern value) :
    Settled L .keyPattern (.list [key, value]) := by
  intro ht m
  have hdue : L.due (.list [key, value]) = L.due key + L.due value := by
    rw [Ledger.due_of_tag?_eq_none (tag?_of_shaped hshaped _)]
    simp
  rw [hdue]
  show Counts L m _ (lower key >>= fun k => if value.isNull then _ else _)
  rw [isNull_pattern hvalue]
  exact Accounts.andThen (hkey (ht.of_mem (by simp)) m) fun _ _ =>
    Accounts.last (h (ht.of_mem (by simp)) m) fun _ _ => accounts_bare rfl (by simp +arith)

/-- A key that is bound is a name. -/
theorem settled_boundKey {name : String} {place : Raw} :
    Settled L .keyPattern (.list [token "@label" name place, .null]) := by
  intro ht m
  have hlabel : L.Tidy (token "@label" name place) := ht.of_mem (by simp)
  have hkey : Counts L m 0 (lower (token "@label" name place)) := by
    have hlower : lower (token "@label" name place) = lowerLabel [.str name, place] :=
      lower_node "@label" _
    rw [hlower]
    exact counts_lowerLabel _
  have hnone : L.due (token "@label" name place) = 0 := hlabel.due_eq_zero (by decide) rfl
  have hdue : L.due (.list [token "@label" name place, .null]) = 0 := by
    rw [Ledger.due_of_tag?_eq_none rfl, Ledger.dueAll_cons, hnone]
    simp
  have hbound {value : Raw} (hvalue : value.isNull) :
      Counts L m 0 (pairPattern lower (.list [token "@label" name place, value])) := by
    show Counts L m 0 (lower (token "@label" name place) >>= fun k =>
      if value.isNull then _ else _)
    -- The name is bound without a value, so the key is all there is.
    refine hkey.nothing fun k _ _ => ?_
    rw [if_pos hvalue]
    refine Restores.andThen (congruence_restores.firstChild _) fun name _ => ?_
    refine Restores.andThen (congruence_restores.nameFrom _) fun text _ => ?_
    exact counts_bindName _ _
  rw [hdue]
  exact hbound rfl

end Patterns

end LowerM

end RubyTree
