import RubyTree.Proofs.Lower.Spending.Thrifty

/-!
# Spending by Expressions and Branches

The parts of an expression, a body, a branch or a pattern draw their own numbers, one
after the other, and the production takes each of them once. Each section is about
one part of the grammar, and its lemmas are named for the productions.

## Theorems

* `thrifty_argsStar`: A splat in a list of arguments.
* `thrifty_single`: The statements of a body are those its tree is made of.
* `thrifty_choice`, `thrifty_patternChoice`: Chains of clauses.
* `thrifty_alternatives`, `thrifty_keyPattern`: Patterns.
-/

namespace RubyTree

namespace LowerM

open Raw (node token)

section Names

/-- A local, global, instance or class variable. -/
theorem thrifty_variableName {tag name : String} {place : Raw} (htag : tag ∈ variableTags) :
    Thrifty .leaf (token tag name place) := by
  simp only [variableTags, List.mem_cons, List.not_mem_nil, or_false] at htag
  rcases htag with rfl | rfl | rfl | rfl
  all_goals exact fresh_node rfl (fresh_lowerName _ _)

/-- A constant by its name. -/
theorem thrifty_constant {name : String} {place : Raw} :
    Thrifty .leaf (token "@const" name place) :=
  fresh_node rfl (fresh_lowerConstant _)

/-- An integer literal. -/
theorem thrifty_integer {text : String} {place : Raw} : Thrifty .leaf (token "@int" text place) :=
  fresh_node rfl (fresh_lowerInteger _)

/-- A decimal literal. -/
theorem thrifty_float {text : String} {place : Raw} : Thrifty .leaf (token "@float" text place) :=
  fresh_node rfl (fresh_lowerFloat _)

/-- A rational literal, which ends in `r`. -/
theorem thrifty_rational {text : String} {place : Raw} :
    Thrifty .leaf (token "@rational" text place) :=
  fresh_node rfl (fresh_lowerRational _)

/-- An imaginary literal, which ends in `i`. -/
theorem thrifty_imaginary {text : String} {place : Raw} :
    Thrifty .leaf (token "@imaginary" text place) :=
  fresh_node rfl (fresh_lowerImaginary _)

/-- A character literal, such as `?a`. -/
theorem thrifty_character {text : String} {place : Raw} :
    Thrifty .leaf (token "@CHAR" text place) :=
  fresh_node rfl (fresh_lowerCharacter [.str text, place])

/-- A keyword that is a value, such as `self` or `nil`. -/
theorem thrifty_keyword {word : String} {line : Int} {rest : List Raw} :
    Thrifty .leaf (token "@kw" word (.list (.int line :: rest))) :=
  fresh_node rfl (fresh_lowerKeyword _)

/-- What the last match has captured, such as `$1`. -/
theorem thrifty_backReference {text : String} {place : Raw} :
    Thrifty .leaf (token "@backref" text place) :=
  fresh_node rfl (fresh_lowerBackReference [.str text, place])

/-- A name that is read. -/
theorem thrifty_reference {tag : String} {r : Raw} (htag : tag ∈ ["var_ref", "const_ref"])
    (h : Thrifty .leaf r) : Thrifty .expr (node tag [r]) := by
  simp only [List.mem_cons, List.not_mem_nil, or_false] at htag
  rcases htag with rfl | rfl
  all_goals exact fresh_node rfl h

/-- `A::B`, a constant in a scope. -/
theorem thrifty_constPath {scope r : Raw} (hscope : Thrifty .expr scope) :
    Thrifty .expr (node "const_path_ref" [scope, r]) :=
  fresh_node rfl (fresh_lowerScopedConstant hscope)

/-- `::A`, a constant at the top level. -/
theorem thrifty_topConst {r : Raw} : Thrifty .expr (node "top_const_ref" [r]) :=
  fresh_node rfl (fresh_lowerTopConstant _)

end Names

section Calls

/-- A name alone, which may be a local or a call. -/
theorem thrifty_bareName {r : Raw} : Thrifty .expr (node "vcall" [r]) :=
  fresh_node rfl (fresh_lowerBareName _)

/-- The name of a call without a receiver. -/
theorem thrifty_function {r : Raw} : Thrifty .callee (node "fcall" [r]) :=
  fresh_node rfl (fresh_lowerFunction _)

/-- `a.b`, a call with a receiver. -/
theorem thrifty_call {receiver op r : Raw} (hreceiver : Thrifty .expr receiver) :
    Thrifty .callee (node "call" [receiver, op, r]) :=
  fresh_node rfl (fresh_lowerCall hreceiver)

/-- A call and its arguments in parentheses. -/
theorem thrifty_callWithArgs {callee args : Raw} (hsound : Sound .callee callee)
    (hcallee : Thrifty .callee callee) (hargs : Thrifty .args args) :
    Thrifty .expr (node "method_add_arg" [callee, args]) := by
  have hnode : ∀ t, Returns (lower _) t → t.hasTag "casgn" = false :=
    fun t ht => (Yields.of_returns hsound ht).not_casgn
  exact fresh_node rfl (fresh_lowerCallWithArgs hcallee hnode hargs)

/-- `p x`, a call whose arguments have no parentheses. -/
theorem thrifty_command {r args : Raw} (hargs : Thrifty .args args) :
    Thrifty .expr (node "command" [r, args]) :=
  fresh_node rfl (fresh_lowerCommand hargs)

/-- `a.b x`, the same with a receiver. -/
theorem thrifty_commandCall {receiver op r args : Raw} (hreceiver : Thrifty .expr receiver)
    (hargs : Thrifty .args args) : Thrifty .expr (node "command_call" [receiver, op, r, args]) :=
  fresh_node rfl (fresh_lowerCommandCall hreceiver hargs)

/-- `a[i]`, an element access. -/
theorem thrifty_index {collection args : Raw} (hcollection : Thrifty .expr collection)
    (hargs : Thrifty .args args) : Thrifty .expr (node "aref" [collection, args]) :=
  fresh_node rfl (fresh_lowerIndex hcollection hargs)

/-- `super`, `return`, `yield`, `next` and `break` with arguments. -/
theorem thrifty_withArgs {tag : String} {args : Raw}
    (htag : tag ∈ ["super", "return", "yield", "next", "break"]) (hargs : Thrifty .args args) :
    Thrifty .expr (node tag [args]) := by
  simp only [List.mem_cons, List.not_mem_nil, or_false] at htag
  rcases htag with rfl | rfl | rfl | rfl | rfl
  all_goals exact fresh_node rfl (fresh_lowerWithArgs _ hargs)

/-- The same without arguments, and `redo` and `retry`. -/
theorem thrifty_withoutArgs {tag : String}
    (htag : tag ∈ ["zsuper", "return0", "yield0", "redo", "retry"]) :
    Thrifty .expr (node tag []) := by
  simp only [List.mem_cons, List.not_mem_nil, or_false] at htag
  rcases htag with rfl | rfl | rfl | rfl | rfl
  all_goals exact fresh_node rfl (spends_bare fun _ => Nat.le_refl _)

end Calls

section Arguments

/-- No arguments at all. -/
theorem thrifty_noArgs : Thrifty .args .null :=
  fresh_atom _

/-- Arguments in the parentheses of a call. -/
theorem thrifty_argParen {r : Raw} (h : Thrifty .args r) : Thrifty .args (node "arg_paren" [r]) :=
  fresh_node rfl (fresh_lowerArgParen h)

/-- Arguments of `yield` in parentheses. -/
theorem thrifty_parenArgs {r : Raw} (h : Thrifty .arglist r) : Thrifty .args (node "paren" [r]) :=
  fresh_node rfl (fresh_lowerParen h)

/-- Arguments one after the other. -/
theorem thrifty_arglist {rs : List Raw} (h : ∀ r ∈ rs, Thrifty .argument r) :
    Thrifty .arglist (node "args" rs) :=
  fresh_node rfl (fresh_lowerFields _ h)

/-- Arguments and a block that is passed on with `&`. -/
theorem thrifty_argsBlock {args block : Raw} (hargs : Thrifty .args args)
    (hblock : Thrifty .expr block) : Thrifty .arglist (node "args_add_block" [args, block]) :=
  fresh_node rfl (fresh_lowerArgsBlock hargs fun _ h => Option.some.inj h ▸ hblock)

/-- Arguments without a block that is passed on. -/
theorem thrifty_argsNoBlock {args block : Raw} (hargs : Thrifty .args args)
    (hblock : block = .null ∨ ∃ b, block = .bool b) :
    Thrifty .arglist (node "args_add_block" [args, block]) := by
  refine fresh_node rfl (fresh_lowerArgsBlock hargs ?_)
  rintro _ ⟨⟩
  rcases hblock with rfl | ⟨b, rfl⟩
  · exact fresh_atom _
  · exact fresh_atom _

/-- Arguments with a splat among them. -/
theorem thrifty_argsStar {args splatted : Raw} {rs : List Raw}
    (hsound : Sound (.optional .arglist) args) (hargs : Thrifty (.optional .arglist) args)
    (hsplatted : Thrifty (.optional .expr) splatted) (h : ∀ r ∈ rs, Thrifty .argument r) :
    Thrifty .arglist (node "args_add_star" (args :: splatted :: rs)) := by
  have hlist : Yields (lower _) fun t => t = .null ∨ Holds "arglist" .argument t :=
    yields_optional hsound (.inl rfl) fun h => h.mono fun _ ht => .inr ht
  exact fresh_node rfl (thrifty_star (by decide) hlist (fresh_of_optional hargs id)
    (fresh_of_optional hsplatted id) h)

/-- `...`, all arguments of the method around the call. -/
theorem thrifty_forwarded : Thrifty .argument (node "args_forward" []) :=
  fresh_node rfl (spends_bare fun _ => Nat.le_refl _)

/-- Pairs at the end of the arguments. -/
theorem thrifty_keywordArgs {rs : List Raw} (h : ∀ r ∈ rs, Thrifty .pair r) :
    Thrifty .argument (node "bare_assoc_hash" [.list rs]) :=
  fresh_node rfl (thrifty_each _ h)

end Arguments

section Bodies

/-- A whole program is its statements. -/
theorem thrifty_program {r : Raw} (h : Thrifty .code r) : Thrifty .program (node "program" [r]) :=
  fresh_node rfl h

/-- Statements in parentheses. -/
theorem thrifty_paren {r : Raw} (h : Thrifty .code r) : Thrifty .expr (node "paren" [r]) :=
  fresh_node rfl (fresh_lowerParen h)

/-- `()`. -/
theorem thrifty_emptyParen : Thrifty .expr (node "paren" [.bool false]) :=
  fresh_node rfl (@fresh_lowerParen lower [.bool false] (fresh_atom _))

/-- Code that is not there. -/
theorem thrifty_nothing : Thrifty .code .null :=
  fresh_atom _

/-- A statement that is empty. -/
theorem thrifty_emptyStatement {fields : List Raw} : Thrifty .code (node "void_stmt" fields) :=
  fresh_node rfl (fresh_lowerEmpty _)

/-- Statements one after the other. -/
theorem thrifty_statements {rs : List Raw} (h : ∀ r ∈ rs, Thrifty .code r) :
    Thrifty .code (node "stmts" rs) :=
  fresh_node rfl (fresh_lowerStatements h)

/-- What `else` leads to. -/
theorem thrifty_otherwise {r : Raw} (h : Thrifty .code r) : Thrifty .code (node "else" [r]) :=
  fresh_node rfl (fresh_visitBody h)

/-- Statements that are read one by one. -/
theorem thrifty_sequence {rs : List Raw} (h : ∀ r ∈ rs, Thrifty .code r) :
    Thrifty .sequence (node "stmts" rs) :=
  freshAll_statementList_stmts h

/-- The statements of a body are those its tree is made of, so they cost the same. -/
theorem thrifty_single {r : Raw} (h : Thrifty .expr r) : Thrifty .sequence r := by
  unfold Thrifty statementList
  split
  · rename_i statements
    have hlower : lower (node "stmts" statements) = lowerStatements lower statements :=
      lower_node "stmts" statements
    unfold Thrifty at h
    rw [hlower, lowerStatements] at h
    have hmap : Spends [] (statements.mapM lower) Tree.rejectVoid := by
      intro options scope ts scope' hrun k
      have hspent (t : Tree) := h options scope t scope'
      simp only [runIn_bind, hrun] at hspent
      -- What the whole may spend is known for each number of statements that are kept.
      cases hkept : Tree.rejectVoid ts with
      | nil =>
        simp only [hkept] at hspent
        simpa using hspent _ rfl k
      | cons t rest =>
        cases rest with
        | nil =>
          simp only [hkept] at hspent
          simpa using hspent _ rfl k
        | cons _ _ =>
          simp only [hkept] at hspent
          simpa using hspent _ rfl k
    exact hmap.bind fun _ _ => spends_pure fun _ => Nat.le_refl _
  · exact Spends.andThen h fun t _ => spends_pure fun k => Tree.usesAll_filter_le k _ [t]

/-- A body without `rescue` or `else`. -/
theorem thrifty_body {statements ensure : Raw} (hstatements : Thrifty .sequence statements)
    (hensure : Thrifty (.optional .ensure) ensure) :
    Thrifty .body (node "bodystmt" [statements, .null, .null, ensure]) := by
  refine fresh_node rfl (fresh_lowerBody hstatements (fun h => ?_) (fresh_atom _)
    (fresh_of_optional hensure id))
  exact absurd h.symm Bool.false_ne_true

/-- A body with `rescue` clauses. -/
theorem thrifty_rescueBody {statements rescues otherwise ensure : Raw}
    (hstatements : Thrifty .sequence statements) (hrescues : Thrifty .rescues rescues)
    (hotherwise : Thrifty .code otherwise) (hensure : Thrifty (.optional .ensure) ensure) :
    Thrifty .body (node "bodystmt" [statements, rescues, otherwise, ensure]) :=
  fresh_node rfl (fresh_lowerBody hstatements (fun _ => hrescues) hotherwise
    (fresh_of_optional hensure id))

/-- What `ensure` leads to. -/
theorem thrifty_ensure {r : Raw} (h : Thrifty .code r) : Thrifty .ensure (node "ensure" [r]) :=
  fresh_node rfl (fresh_visitBody h)

/-- A chain of `rescue` clauses. -/
theorem thrifty_rescues {exceptions captured statements next : Raw}
    (hexceptions : Thrifty .exceptions exceptions)
    (hsound : Sound (.optional (.item false)) captured)
    (hcaptured : Thrifty (.optional (.item false)) captured)
    (hstatements : Thrifty .code statements) (hnext : Thrifty (.optional .rescues) next) :
    Thrifty .rescues (node "rescue" [exceptions, captured, statements, next]) := by
  have hclause : Fresh (rescueClause lower exceptions captured statements) := by
    refine fresh_rescueClause hexceptions (fun hpresent => ?_) hstatements
    rcases hsound with rfl | hsound
    · cases hpresent
    · exact ⟨fresh_of_optional hcaptured id, fun t ht => (Yields.of_returns hsound ht).1⟩
  have hrest : FreshAll (rescueClauses lower next) := by
    rcases hnext with rfl | hnext
    · rw [rescueClauses]
      exact spends_pure fun _ => Nat.le_refl _
    · exact hnext
  unfold Thrifty
  rw [rescueClauses]
  exact hclause.andThen fun _ _ => hrest.andThen fun _ _ => spends_pure fun _ => Nat.le_refl _

/-- A clause that names no exceptions. -/
theorem thrifty_everyException : Thrifty .exceptions .null :=
  spends_pure fun _ => by simp

/-- The exceptions that a clause names. -/
theorem thrifty_exceptions {rs : List Raw} (hshaped : ∀ r ∈ rs, Shaped .expr r)
    (h : ∀ r ∈ rs, Thrifty .expr r) : Thrifty .exceptions (.list rs) := by
  refine fresh_exceptionList_list h ?_
  cases rs with
  | nil => rfl
  | cons r rs =>
    obtain ⟨tag, fields, rfl⟩ :=
      exists_node_of_sound (sound_of_shaped (hshaped r List.mem_cons_self))
    rfl

/-- Exceptions with a splat among them. -/
theorem thrifty_exceptionRow {tag : String} {fields : List Raw}
    (h : Thrifty .row (node tag fields)) : Thrifty .exceptions (node tag fields) :=
  fresh_exceptionList_node rfl h

/-- A `begin` block. -/
theorem thrifty_begin {fields rest : List Raw} (h : Thrifty .body (node "bodystmt" fields)) :
    Thrifty .expr (node "begin" (node "bodystmt" fields :: rest)) :=
  fresh_node rfl (@fresh_lowerBegin lower (node "bodystmt" fields :: rest) h)

/-- `a rescue b`. -/
theorem thrifty_rescueModifier {r handler : Raw} (h : Thrifty .expr r)
    (hhandler : Thrifty .expr handler) : Thrifty .expr (node "rescue_mod" [r, handler]) :=
  fresh_node rfl (fresh_lowerRescueModifier h hhandler)

end Bodies

section Operators

/-- A binary operation that is no match. -/
theorem thrifty_binary {left right : Raw} {op : String} (hop : op ≠ "=>")
    (hleft : Thrifty .expr left) (hright : Thrifty .expr right) :
    Thrifty .expr (node "binary" [left, .sym op, right]) :=
  fresh_node rfl (fresh_lowerBinary (fun h => hop (Option.some.inj h)) hleft hright)

/-- A unary operation. -/
theorem thrifty_unary {r : Raw} {op : String} (h : Thrifty .expr r) :
    Thrifty .expr (node "unary" [.sym op, r]) :=
  fresh_node rfl (fresh_lowerUnary h)

/-- A range, which may be open at an end. -/
theorem thrifty_range {tag : String} {low high : Raw} (htag : tag ∈ ["dot2", "dot3"])
    (hlow : Thrifty (.optional .expr) low) (hhigh : Thrifty (.optional .expr) high) :
    Thrifty .expr (node tag [low, high]) := by
  have hlow := fresh_of_optional hlow id
  have hhigh := fresh_of_optional hhigh id
  simp only [List.mem_cons, List.not_mem_nil, or_false] at htag
  rcases htag with rfl | rfl
  all_goals exact fresh_node rfl (fresh_lowerDouble _ hlow hhigh)

/-- `defined?(a)`. -/
theorem thrifty_defined {r : Raw} (h : Thrifty .expr r) : Thrifty .expr (node "defined" [r]) :=
  fresh_node rfl (fresh_lowerSingle _ h)

/-- `a ? b : c`. -/
theorem thrifty_ternary {cond yes no : Raw} (hcond : Thrifty .expr cond)
    (hyes : Thrifty .expr yes) (hno : Thrifty .expr no) :
    Thrifty .expr (node "ifop" [cond, yes, no]) :=
  fresh_node rfl (fresh_lowerTernary hcond hyes hno)

end Operators

section Branches

/-- `if`, `elsif` and `unless`. -/
theorem thrifty_conditional {tag : String} {cond yes no : Raw}
    (htag : tag ∈ ["if", "elsif", "unless"]) (hcond : Thrifty .expr cond)
    (hyes : Thrifty .code yes) (hno : Thrifty .code no) :
    Thrifty .expr (node tag [cond, yes, no]) := by
  simp only [List.mem_cons, List.not_mem_nil, or_false] at htag
  rcases htag with rfl | rfl | rfl
  · exact fresh_node rfl (fresh_lowerIf hcond hyes hno)
  · exact fresh_node rfl (fresh_lowerIf hcond hyes hno)
  · exact fresh_node rfl (fresh_lowerUnless hcond hyes hno)

/-- `a if b` and `a unless b`. -/
theorem thrifty_modifier {tag : String} {cond r : Raw} (htag : tag ∈ ["if_mod", "unless_mod"])
    (hcond : Thrifty .expr cond) (h : Thrifty .expr r) : Thrifty .expr (node tag [cond, r]) := by
  simp only [List.mem_cons, List.not_mem_nil, or_false] at htag
  rcases htag with rfl | rfl
  · exact fresh_node rfl (fresh_lowerIfModifier hcond h)
  · exact fresh_node rfl (fresh_lowerUnlessModifier hcond h)

/-- `while` and `until`. -/
theorem thrifty_loop {tag : String} {cond body : Raw} (htag : tag ∈ ["while", "until"])
    (hcond : Thrifty .expr cond) (hbody : Thrifty .code body) :
    Thrifty .expr (node tag [cond, body]) := by
  simp only [List.mem_cons, List.not_mem_nil, or_false] at htag
  rcases htag with rfl | rfl
  all_goals exact fresh_node rfl (fresh_lowerLoop _ hcond hbody)

/-- `a while b` and `a until b`. -/
theorem thrifty_loopModifier {tag : String} {cond body : Raw}
    (htag : tag ∈ ["while_mod", "until_mod"]) (hcond : Thrifty .expr cond)
    (hbody : Thrifty .expr body) : Thrifty .expr (node tag [cond, body]) := by
  simp only [List.mem_cons, List.not_mem_nil, or_false] at htag
  rcases htag with rfl | rfl
  all_goals exact fresh_node rfl (fresh_lowerLoopModifier _ hcond hbody)

/-- A `for` loop. -/
theorem thrifty_forLoop {target collection body : Raw} (hsound : Sound (.item false) target)
    (htarget : Thrifty (.item false) target) (hcollection : Thrifty .expr collection)
    (hbody : Thrifty .code body) : Thrifty .expr (node "for" [target, collection, body]) := by
  have hitem : ∀ t, Returns (lower _) t → Assignable t :=
    fun t ht => (Yields.of_returns hsound ht).1
  exact fresh_node rfl (fresh_lowerFor htarget hitem hcollection hbody)

end Branches

section Choices

/-- A chain of `when` clauses. -/
theorem thrifty_whens {values statements next : Raw} (hvalues : Thrifty .args values)
    (hstatements : Thrifty .code statements) (hnext : Thrifty .whens next) :
    Thrifty .whens (node "when" [values, statements, next]) := by
  unfold Thrifty
  rw [whenClauses]
  exact (fresh_whenClause hvalues hstatements).andThen fun _ _ =>
    Spends.andThen hnext fun _ _ => spends_pure fun _ => Nat.le_refl _

theorem thrifty_endOfWhens {r : Raw} (h : Fresh (lower r)) (htag : r.hasTag "when" ≠ true) :
    Thrifty .whens r := by
  unfold Thrifty
  rw [whenClauses]
  · exact (fresh_visitBranch h).andThen fun _ _ => spends_pure fun _ => Nat.le_refl _
  all_goals
    intros
    subst_vars
    exact htag rfl

/-- A chain of `when` clauses ends. -/
theorem thrifty_noWhens : Thrifty .whens .null :=
  thrifty_endOfWhens (fresh_atom _) (by decide)

/-- A chain of `when` clauses ends in `else`. -/
theorem thrifty_elseWhens {r : Raw} (h : Thrifty .code r) : Thrifty .whens (node "else" [r]) :=
  thrifty_endOfWhens (fresh_node rfl (fresh_visitBody h)) Bool.false_ne_true

/-- A `case` with `when` clauses. -/
theorem thrifty_choice {subject values statements next : Raw} (hsubject : Fresh (lower subject))
    (hvalues : Thrifty .args values) (hstatements : Thrifty .code statements)
    (hnext : Thrifty .whens next) :
    Thrifty .expr (node "case" [subject, node "when" [values, statements, next]]) := by
  refine fresh_node rfl (hsubject.andThen fun t _ => ?_)
  exact Spends.andThen (thrifty_whens hvalues hstatements hnext) fun _ _ =>
    spends_bare fun _ => Nat.le_refl _

/-- A chain of `in` clauses. -/
theorem thrifty_ins {pattern statements next : Raw} (hpattern : Thrifty .guarded pattern)
    (hstatements : Thrifty .code statements) (hnext : Thrifty .ins next) :
    Thrifty .ins (node "in" [pattern, statements, next]) := by
  unfold Thrifty
  rw [inClauses]
  exact (fresh_inClause hpattern hstatements).andThen fun _ _ =>
    Spends.andThen hnext fun _ _ => spends_pure fun _ => Nat.le_refl _

theorem thrifty_endOfIns {r : Raw} (h : Fresh (lower r)) (htag : r.hasTag "in" ≠ true) :
    Thrifty .ins r := by
  unfold Thrifty
  rw [inClauses]
  · exact (fresh_visitBranch h).andThen fun _ _ => spends_pure fun _ => Nat.le_refl _
  all_goals
    intros
    subst_vars
    exact htag rfl

/-- A chain of `in` clauses ends. -/
theorem thrifty_noIns : Thrifty .ins .null :=
  thrifty_endOfIns (fresh_atom _) (by decide)

/-- A chain of `in` clauses ends in `else`. -/
theorem thrifty_elseIns {r : Raw} (h : Thrifty .code r) : Thrifty .ins (node "else" [r]) :=
  thrifty_endOfIns (fresh_node rfl (fresh_visitBody h)) Bool.false_ne_true

/-- A `case` with `in` clauses. -/
theorem thrifty_patternChoice {subject pattern statements next : Raw}
    (hsubject : Thrifty .expr subject) (hpattern : Thrifty .guarded pattern)
    (hstatements : Thrifty .code statements) (hnext : Thrifty .ins next) :
    Thrifty .expr (node "case" [subject, node "in" [pattern, statements, next]]) := by
  refine fresh_node rfl (Spends.andThen hsubject fun t _ => ?_)
  refine Quiet.andThen (congruence_quiet.isLonePattern _) fun lone _ => ?_
  split
  · refine Quiet.andThen (congruence_quiet.require (some pattern)) fun r hr => ?_
    cases returns_require hr
    exact Spends.andThen hpattern fun p _ => spends_bare fun k => by simp
  · exact Spends.andThen (thrifty_ins hpattern hstatements hnext) fun _ _ =>
      spends_bare fun _ => Nat.le_refl _

/-- `a => pattern`. -/
theorem thrifty_patternMatch {subject pattern : Raw} {rest : List Raw}
    (hsubject : Thrifty .expr subject) (hpattern : Thrifty .guarded pattern) :
    Thrifty .expr (node "case" [subject, node "right_assign" (pattern :: rest)]) := by
  refine fresh_node rfl (Spends.andThen hsubject fun t _ => ?_)
  refine Quiet.andThen (congruence_quiet.require (some pattern)) fun r hr => ?_
  cases returns_require hr
  exact Spends.andThen hpattern fun p _ => spends_bare fun k => by simp

/-- A pattern without a guard. -/
theorem thrifty_ofPattern {r : Raw} (hshaped : Shaped .pattern r) (h : Thrifty .pattern r) :
    Thrifty .guarded r := by
  unfold Thrifty lowerGuarded
  rw [guardTag?_of_pattern hshaped]
  exact Spends.andThen h fun _ _ => spends_pure fun _ => by simp

/-- A pattern and its guard. -/
theorem thrifty_guarded {tag : String} {cond r : Raw} (htag : tag ∈ ["if_mod", "unless_mod"])
    (hcond : Thrifty .expr cond) (h : Thrifty .pattern r) :
    Thrifty .guarded (node tag [cond, r]) := by
  simp only [List.mem_cons, List.not_mem_nil, or_false] at htag
  rcases htag with rfl | rfl
  all_goals
    refine Spends.andThen h fun _ _ => Spends.andThen hcond fun _ _ => ?_
    exact spends_pure fun _ => by simp

end Choices

section Patterns

/-- Values and names as they are, but for those that have a meaning as a pattern. -/
theorem thrifty_valuePattern {r : Raw} (h : Thrifty .expr r)
    (htag : ∀ tag ∈ patternTags, r.hasTag tag = false) : Thrifty .pattern r := by
  unfold Thrifty
  rw [lowerPattern_eq htag]
  exact h

/-- Two patterns of which one is to match, or a pattern with a name for it. -/
theorem thrifty_alternatives {left right : Raw} {op : String} (hop : op ∈ ["|", "=>"])
    (hleft : Thrifty .pattern left) (hright : Thrifty .pattern right) :
    Thrifty .pattern (node "binary" [left, .sym op, right]) := by
  unfold Thrifty
  rw [lowerPattern]
  simp only [List.mem_cons, List.not_mem_nil, or_false] at hop
  rcases hop with rfl | rfl
  all_goals
    exact Spends.andThen hleft fun _ _ => Spends.andThen hright fun _ _ =>
      spends_bare fun _ => Nat.le_refl _

/-- A name that a pattern binds. -/
theorem thrifty_bound {r : Raw} (h : RestPattern r) : Thrifty .pattern r := by
  cases h with
  | unnamed | named =>
    unfold Thrifty
    rw [lowerPattern]
    exact fresh_matchVariable _

/-- A variable that is compared with, and not bound. -/
theorem thrifty_pinned {r : Raw} (h : Thrifty .leaf r) : Thrifty .pattern (node "var_ref" [r]) := by
  have hreference : Fresh (lower (node "var_ref" [r])) := fresh_node rfl h
  unfold Thrifty
  rw [lowerPattern]
  refine hreference.andThen fun t _ => ?_
  refine Quiet.andThen (congruence_quiet.require _) fun tag _ => ?_
  refine Quiet.andThen (congruence_quiet.isAmong _ _) fun pinned _ => ?_
  split
  · exact spends_bare fun _ => Nat.le_refl _
  · exact spends_pure fun _ => Nat.le_refl _

/-- An expression that is compared with. -/
theorem thrifty_pinnedExpr {r : Raw} (h : Thrifty .expr r) :
    Thrifty .pattern (node "begin" [r]) := by
  have hbegin : Fresh (lower (node "begin" [r])) := fresh_node rfl (fresh_lowerBegin h)
  unfold Thrifty
  rw [lowerPattern]
  exact hbegin.andThen fun _ _ => spends_bare fun _ => Nat.le_refl _

/-- A node that is a pattern by its tag. -/
theorem thrifty_patternNode {tag : String} {fields : List Raw} (htag : tag ∉ patternTags)
    (h : Fresh (lower (node tag fields))) : Thrifty .pattern (node tag fields) := by
  refine thrifty_valuePattern h fun tag' htag' => hasTag_node fields ?_
  rintro rfl
  exact htag htag'

theorem freshAll_patterns {r : Raw} (h : Thrifty (.optional (.listOf .pattern)) r) :
    FreshAll (patterns lower r) :=
  freshAll_overElements fun _ => thrifty_elements h

/-- A pattern for the elements of an array. -/
theorem thrifty_arrayPattern {const before rest after : Raw}
    (hconst : Thrifty (.optional .expr) const)
    (hbefore : Thrifty (.optional (.listOf .pattern)) before)
    (hafter : Thrifty (.optional (.listOf .pattern)) after) :
    Thrifty .pattern (node "aryptn" [const, before, rest, after]) := by
  refine thrifty_patternNode (by decide) (fresh_node rfl ?_)
  exact fresh_lowerArrayPattern (fresh_of_optional hconst id) (freshAll_patterns hbefore)
    (freshAll_patterns hafter)

/-- A pattern for elements somewhere in an array. -/
theorem thrifty_findPattern {const before items after : Raw}
    (hconst : Thrifty (.optional .expr) const)
    (hitems : Thrifty (.optional (.listOf .pattern)) items) :
    Thrifty .pattern (node "fndptn" [const, before, items, after]) := by
  refine thrifty_patternNode (by decide) (fresh_node rfl ?_)
  exact fresh_lowerFindPattern (fresh_of_optional hconst id) (freshAll_patterns hitems)

/-- A pattern for the pairs of a hash. -/
theorem thrifty_hashPattern {const pairs rest : Raw} (hconst : Thrifty (.optional .expr) const)
    (hpairs : Thrifty (.optional (.listOf .keyPattern)) pairs) :
    Thrifty .pattern (node "hshptn" [const, pairs, rest]) := by
  refine thrifty_patternNode (by decide) (fresh_node rfl ?_)
  exact fresh_lowerHashPattern (fresh_of_optional hconst id) fun _ => thrifty_elements hpairs

/-- A key and the pattern for its value. -/
theorem thrifty_keyPattern {key value : Raw} (hkey : Thrifty .key key)
    (hvalue : value.isNull = false → Thrifty .pattern value) :
    Thrifty .keyPattern (.list [key, value]) := by
  show Fresh (lower key >>= fun k => if value.isNull then _ else _)
  refine Spends.andThen hkey fun k _ => ?_
  split
  · refine Quiet.andThen (congruence_quiet.firstChild _) fun name _ => ?_
    refine Quiet.andThen (congruence_quiet.nameFrom _) fun text _ => ?_
    exact (fresh_bindName _ _).mono fun k => by simp
  · rename_i hpresent
    refine Spends.andThen (hvalue (Bool.eq_false_iff.2 hpresent)) fun _ _ => ?_
    exact spends_bare fun _ => Nat.le_refl _

/-- A key alone, which is bound as a name. -/
theorem thrifty_boundKey {name : String} {place : Raw} :
    Thrifty .keyPattern (.list [token "@label" name place, .null]) := by
  refine thrifty_keyPattern (fresh_node rfl (fresh_lowerLabel _)) fun h => ?_
  exact absurd h.symm Bool.false_ne_true

end Patterns

end LowerM

end RubyTree
