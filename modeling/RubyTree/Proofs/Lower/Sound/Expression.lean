import RubyTree.Proofs.Lower.Interim
import RubyTree.Proofs.Lower.Shape

/-!
# Soundness of Expressions

What lowering makes of a raw tree depends on the sort of the tree: a finished
value of an expression, a list of arguments of an argument list, a target that
waits for its value of the left side of an assignment. `Sound` says for each sort
what that is, and that lowering gives it and does not fail.

Here is one lemma for each production of tokens, names, calls, arguments,
operators and assignments: if the fields are sound, the node is.

## Main definitions

* `Sound`: What lowering gives for a raw tree of a sort.

## Theorems

* `yields_node`: A node is lowered by its production.
* `exists_node_of_sound`: Only a node is lowered to a value.
* `sound_variable`, `sound_integer`, `sound_keyword`: Tokens.
* `sound_bareName`, `sound_call`, `sound_callWithArgs`: Calls.
* `sound_argsBlock`, `lowerArgsStar_yields`: Arguments.
* `sound_binary`, `sound_unary`: Operators.
* `sound_assign`, `sound_operatorAssign`, `sound_targetsStar`: Assignments.
-/

namespace RubyTree

namespace LowerM

open Raw (node token)

/-- What lowering gives for a raw tree of a sort. Some sorts are read by a
    function of their own rather than lowered. -/
def Sound : Kind → Raw → Prop
  | .program, r => Yields (lower r) Suite
  | .leaf, r => Yields (lower r) (Finished .value)
  | .expr, r => Yields (lower r) (Finished .value)
  | .body, r => Yields (lower r) (Finished .optional)
  | .code, r => Yields (lower r) Suite
  | .sequence, r => Yields (statementList lower r) fun ts => ∀ t ∈ ts, Finished .value t
  | .ensure, r => Yields (lower r) (Finished .optional)
  | .callee, r => Yields (lower r) Callee
  | .args, r => Yields (lower r) Args
  | .arglist, r => Yields (lower r) (Holds "arglist" .argument)
  | .argument, r => Yields (lower r) (Finished .argument)
  | .row, r => Yields (lower r) (Holds "mrhs" .argument)
  | .values, r => Yields (lower r) fun t => Finished .value t ∨ Holds "mrhs" .argument t
  | .params, r => Yields (lower r) ParamList ∧ ∃ b, hasTrailingComma r = pure b
  | .paramList, r => Yields (lower r) (Finished .params)
  | .blockParams, r => Yields (lower r) (Finished .params)
  | .optionalParam, r => Yields (LowerM.optional lower r) Parameter
  | .keywordParam, r => Yields (LowerM.keyword lower r) Parameter
  | .block, r => Yields (lower r) BlockBody
  | .target plain, r => Yields (lower r) fun t => Target t ∧ (plain = true → Binder t)
  | .item plain, r => Yields (lower r) fun t => Assignable t ∧ (plain = true → Binder t)
  | .targets plain, r => Yields (lower r) fun t => Finished .targets t ∧ (plain = true → Binder t)
  | .pair, r => Yields (lower r) (Finished .pair)
  | .key, r => Yields (lower r) (Finished .value)
  | .pairs, r => Yields (lower r) (Holds "assocs" .pair)
  | .words, r => Yields (lower r) (Holds "words" .argument)
  | .literal kind, r =>
      Yields (lower r) fun t => ∃ parts, t = kind.node parts ∧ ∀ p ∈ parts, Finished .piece p
  | .quote, r => Yields (lower r) (Finished .quoted)
  | .interpolation, r => Yields (lower r) (Holds "dstr" .piece)
  | .pattern, r => Yields (lowerPattern lower r) (Finished .pattern)
  | .guarded, r =>
      Yields (lowerGuarded lower r) fun p => Finished .pattern p.1 ∧ Finished .guard p.2
  | .keyPattern, r => Yields (pairPattern lower r) (Finished .keyPattern)
  | .exceptions, r => Yields (exceptionList lower r) (Finished .exceptions)
  | .rescues, r => r.isEmpty = false ∧
      Yields (rescueClauses lower r) fun ts => ∀ t ∈ ts, Finished .rescueClause t
  | .whens, r => Yields (whenClauses lower r) (FinishedAll [.many .whenClause, .one .optional])
  | .ins, r => Yields (inClauses lower r) (FinishedAll [.many .inClause, .one .optional])
  | .optional k, r => r = .null ∨ Sound k r
  | .listOf k, r => ∃ rs, r = .list rs ∧ ∀ x ∈ rs, Sound k x

/-- What a node yields is what its production yields. -/
theorem yields_node {tag : String} {fs : Fields} {P : Tree → Prop} {p : Production}
    (hp : Production.ofTag? tag = some p) (h : Yields (p.lower lower fs) P) :
    Yields (lower (node tag fs)) P := by
  rw [lower_node, hp]
  exact h

/-- What is absent stays absent. -/
theorem yields_null {P : Tree → Prop} (h : P .null) : Yields (lower .null) P := by
  rw [lower_eq_lowerWith]
  exact yields_pure h

/-- A value is not absent. -/
theorem ne_null_of_value {t : Tree} (h : Finished .value t) : t ≠ .null := by
  rintro rfl
  obtain ⟨_, _, _, heq⟩ := h.exists_node
  cases heq

/-- A failure yields nothing. -/
theorem not_yields_throw {α : Type} {e : Error} {P : α → Prop} : ¬ Yields (throw e) P := by
  intro h
  obtain ⟨_, _, hrun, -⟩ := h {} {}
  rw [runIn_throw] at hrun
  injection hrun with hok
  cases hok

/-- Only a node is lowered to a value. -/
theorem exists_node_of_sound {r : Raw} (h : Sound .expr r) : ∃ tag fs, r = node tag fs := by
  unfold Sound at h
  by_cases hempty : r.isEmpty
  · -- Nothing is lowered to nothing, which is no value.
    rw [lower_of_isEmpty hempty] at h
    obtain ⟨t, _, hrun, ht⟩ := h {} {}
    cases hrun
    exact absurd rfl (ne_null_of_value ht)
  · rw [lower_eq_lowerWith] at h
    unfold lowerWith at h
    rw [if_neg hempty] at h
    split at h
    · exact ⟨_, _, rfl⟩
    · exact absurd h not_yields_throw

section Tokens

variable {text : String} {place : Raw}

/-- A token of a variable is a leaf, whatever its kind. -/
theorem sound_variable {tag : String} (htag : tag ∈ variableTags) :
    Sound .leaf (token tag text place) := by
  simp only [variableTags, List.mem_cons, List.not_mem_nil, or_false] at htag
  rcases htag with rfl | rfl | rfl | rfl
  all_goals
    refine yields_node rfl (yields_pure ?_)
    exact .node rfl rfl rfl (.one (.symbol _) .nil)

/-- A constant by its name. -/
theorem sound_constant : Sound .leaf (token "@const" text place) :=
  yields_node rfl (yields_pure (.node rfl rfl rfl (.one (.leaf rfl) (.one (.symbol _) .nil))))

/-- The key before a value is a symbol, without the colon of its label. -/
theorem label_yields (name : String) (place : Raw) :
    Yields (lower (token "@label" name place)) fun t =>
      ∃ mark, t = .node (.str "sym") mark [.sym (String.ofList name.toList.dropLast)] :=
  yields_node rfl (yields_pure ⟨_, rfl⟩)

/-- The text of a token without a number of lines behind it. -/
theorem literalText_token (text : String) (place : Raw) :
    literalText [.str text, place] = pure text.toList :=
  rfl

/-- An integer literal. -/
theorem sound_integer {n : Int} (h : integerLiteral text.toList = .ok n) :
    Sound .leaf (token "@int" text place) := by
  refine yields_node (p := .integer) rfl ?_
  rw [Production.lower, lowerInteger, literalText_token, pure_bind, h]
  exact yields_pure (.node rfl rfl rfl (.one (.leaf rfl) .nil))

/-- A decimal literal. -/
theorem sound_float {x : Binary64} (h : floatLiteral text.toList = .ok x) :
    Sound .leaf (token "@float" text place) := by
  refine yields_node (p := .float) rfl ?_
  rw [Production.lower, lowerFloat, literalText_token, pure_bind, h]
  exact yields_pure (.node rfl rfl rfl (.one (.leaf rfl) .nil))

/-- A rational literal, which ends in `r`. -/
theorem sound_rational {q : Rat} (h : rationalLiteral text.toList.dropLast = .ok q) :
    Sound .leaf (token "@rational" text place) := by
  refine yields_node (p := .rational) rfl ?_
  rw [Production.lower, lowerRational, literalText_token, pure_bind, h]
  exact yields_pure (.node rfl rfl rfl (.one (.leaf rfl) .nil))

/-- An imaginary literal, which ends in `i`. -/
theorem sound_imaginary {x : RealNumber} {im : Binary64}
    (h : realLiteral text.toList.dropLast = .ok x) (him : imaginaryPart x = .ok im) :
    Sound .leaf (token "@imaginary" text place) := by
  refine yields_node (p := .imaginary) rfl ?_
  rw [Production.lower, lowerImaginary, literalText_token, pure_bind, h, ofExcept, pure_bind, him]
  exact yields_pure (.node rfl rfl rfl (.one (.leaf rfl) .nil))

/-- A character literal, such as `?a`. -/
theorem sound_character {cs : List Char} (h : unescapeChar text.toList.tail = .ok (.inl cs)) :
    Sound .quote (token "@CHAR" text place) := by
  refine yields_node (p := .character) rfl ?_
  show Yields (literalText _ >>= fun cs => ofExcept (unescapeChar cs.tail) >>= _) _
  rw [literalText_token, pure_bind, h]
  exact yields_pure (.node rfl rfl rfl (.one (.leaf rfl) .nil))

/-- A keyword that is a value, such as `self` or `nil`. -/
theorem sound_keyword {word : String} {line : Int} {rest : List Raw} (h : word ∈ valueKeywords) :
    Sound .leaf (token "@kw" word (.list (.int line :: rest))) := by
  refine yields_node rfl ?_
  simp only [valueKeywords, List.mem_cons, List.not_mem_nil, or_false] at h
  rcases h with rfl | rfl | rfl | rfl | rfl | rfl | rfl
  · exact yields_pure (.node rfl rfl rfl .nil)
  · exact yields_pure (.node rfl rfl rfl .nil)
  · exact yields_pure (.node rfl rfl rfl .nil)
  · exact yields_pure (.node rfl rfl rfl .nil)
  -- The file and the line are a text and a number.
  · exact yields_read.bind fun _ _ => yields_pure (.node rfl rfl rfl (.one (.leaf rfl) .nil))
  · exact yields_pure (.node rfl rfl rfl (.one (.leaf rfl) .nil))
  · exact yields_pure (.node rfl rfl rfl .nil)

/-- What the last match has captured, such as `$1`. -/
theorem sound_backReference
    (h : text.toList.tail.all Text.isDigit → (Numeral.readInt? 10 text.toList.tail).isSome) :
    Sound .leaf (token "@backref" text place) := by
  refine yields_node rfl ?_
  show Yields (reference _ Text.isDigit text.toList.tail _) _
  unfold reference
  split
  · rename_i hdigits
    obtain ⟨n, hn⟩ := Option.isSome_iff_exists.1 (h (Bool.and_eq_true_iff.1 hdigits).2)
    rw [hn]
    exact yields_pure (.node rfl rfl rfl (.one (.leaf rfl) .nil))
  · exact yields_pure (.node rfl rfl rfl (.one (.symbol _) .nil))

end Tokens

section Names

/-- The name of what carries one. -/
theorem nameOf_named {r : Raw} {name : String} (h : Named r name) : nameOf r = pure name := by
  cases h <;> rfl

/-- A joining operator makes a plain call or a safe one. -/
theorem callTag_joined {op : Raw} (h : Joined op) :
    Yields (callTag op) fun tag => tag = "send" ∨ tag = "safe_call" := by
  cases h with
  | bare h | token h =>
    simp only [joiners, List.mem_cons, List.not_mem_nil, or_false] at h
    rcases h with rfl | rfl | rfl
    · exact yields_pure (.inl rfl)
    · exact yields_pure (.inl rfl)
    · exact yields_pure (.inr rfl)

/-- A name that is read. -/
theorem sound_reference {tag : String} {r : Raw} (htag : tag ∈ ["var_ref", "const_ref"])
    (h : Sound .leaf r) : Sound .expr (node tag [r]) := by
  simp only [List.mem_cons, List.not_mem_nil, or_false] at htag
  rcases htag with rfl | rfl
  · exact yields_node rfl h
  · exact yields_node rfl h

variable {r : Raw} {name : String}

/-- `A::B`, a constant in a scope. -/
theorem sound_constPath {scope : Raw} (hscope : Sound .expr scope) (hname : Named r name) :
    Sound .expr (node "const_path_ref" [scope, r]) := by
  refine yields_node rfl (hscope.bind fun root hroot => ?_)
  show Yields (nameOf r >>= _) _
  rw [nameOf_named hname]
  exact yields_pure (.node rfl rfl rfl (.one (hroot.within rfl) (.one (.symbol _) .nil)))

/-- The top of all constants, in which a constant may be. -/
theorem finished_cbase : Finished .root (.bare "cbase" []) :=
  .node rfl rfl rfl .nil

/-- `::A`, a constant at the top level. -/
theorem sound_topConst (hname : Named r name) : Sound .expr (node "top_const_ref" [r]) := by
  refine yields_node (p := .topConstant) rfl ?_
  rw [Production.lower, lowerTopConstant]
  show Yields (nameOf r >>= _) _
  rw [nameOf_named hname]
  exact yields_pure (.node rfl rfl rfl (.one finished_cbase (.one (.symbol _) .nil)))

/-- A name alone, which may be a local or a call. -/
theorem sound_bareName (hname : Named r name) (h : name ≠ "!") :
    Sound .expr (node "vcall" [r]) := by
  refine yields_node (p := .bareName) rfl ?_
  rw [Production.lower, lowerBareName]
  show Yields (nameOf r >>= _) _
  rw [nameOf_named hname, pure_bind]
  -- Which of the two a name is depends on the scope, and either will do.
  refine (yields_isLocal _).bind fun isLocal _ => ?_
  split
  · exact yields_pure (.node rfl rfl rfl (.one (.symbol _) .nil))
  · exact yields_pure (.call rfl (.inl rfl) (.leaf rfl) (nofun) fun _ _ => h)

/-- The name of a call without a receiver. -/
theorem sound_function (hname : Named r name) (h : name ≠ "!") :
    Sound .callee (node "fcall" [r]) := by
  refine yields_node (p := .function) rfl ?_
  rw [Production.lower, lowerFunction]
  show Yields (nameOf r >>= _) _
  rw [nameOf_named hname]
  exact yields_pure ⟨_, _, _, _, rfl, .inl rfl, .leaf rfl, fun _ => h⟩

/-- `a.b`, a call with a receiver. -/
theorem sound_call {receiver op : Raw} (hreceiver : Sound .expr receiver) (hop : Joined op)
    (hname : Named r name) : Sound .callee (node "call" [receiver, op, r]) := by
  refine yields_node rfl ((callTag_joined hop).bind fun tag htag => hreceiver.bind fun t ht => ?_)
  show Yields (nameOf r >>= _) _
  rw [nameOf_named hname]
  refine yields_pure ⟨_, _, _, _, rfl, htag, ht.within rfl, fun hnull => ?_⟩
  exact absurd hnull (ne_null_of_value ht)

/-- A call and its arguments in parentheses. -/
theorem sound_callWithArgs {callee args : Raw} (hcallee : Sound .callee callee)
    (hargs : Sound .args args) : Sound .expr (node "method_add_arg" [callee, args]) := by
  refine yields_node rfl (hcallee.bind fun t ht => ?_)
  obtain ⟨children, hchildren, hfinished⟩ := ht.withArgs
  refine (yields_require hchildren).bind ?_
  rintro _ rfl
  exact (argumentList_yields hargs).bind fun ts hts => yields_pure (hfinished ts hts)

/-- `p x`, a call whose arguments have no parentheses. -/
theorem sound_command {args : Raw} (hname : Named r name) (h : name ≠ "!")
    (hargs : Sound .args args) : Sound .expr (node "command" [r, args]) := by
  refine yields_node (p := .command) rfl ?_
  rw [Production.lower, lowerCommand]
  show Yields (nameOf r >>= _) _
  rw [nameOf_named hname, pure_bind]
  refine (argumentList_yields hargs).bind fun ts hts => ?_
  exact yields_pure (.call rfl (.inl rfl) (.leaf rfl) hts fun _ _ => h)

/-- `a.b x`, the same with a receiver. -/
theorem sound_commandCall {receiver op args : Raw} (hreceiver : Sound .expr receiver)
    (hop : Joined op) (hname : Named r name) (hargs : Sound .args args) :
    Sound .expr (node "command_call" [receiver, op, r, args]) := by
  refine yields_node rfl ((callTag_joined hop).bind fun tag htag => hreceiver.bind fun t ht => ?_)
  show Yields (nameOf r >>= _) _
  rw [nameOf_named hname, pure_bind]
  refine (argumentList_yields hargs).bind fun ts hts => ?_
  refine yields_pure (.call rfl htag (ht.within rfl) hts fun hnull => ?_)
  exact absurd hnull (ne_null_of_value ht)

end Names

section Arguments

variable {args : Raw}

/-- `a[i]`, an element access. -/
theorem sound_index {collection : Raw} (hcollection : Sound .expr collection)
    (hargs : Sound .args args) : Sound .expr (node "aref" [collection, args]) := by
  refine yields_node rfl (hcollection.bind fun t ht => ?_)
  refine (argumentList_yields hargs).bind fun ts hts => ?_
  exact yields_pure (.node rfl rfl rfl (.one ht (.all hts)))

/-- `super`, `return`, `yield`, `next` and `break` with arguments. -/
theorem sound_withArgs {tag : String} (htag : tag ∈ ["super", "return", "yield", "next", "break"])
    (hargs : Sound .args args) : Sound .expr (node tag [args]) := by
  simp only [List.mem_cons, List.not_mem_nil, or_false] at htag
  rcases htag with rfl | rfl | rfl | rfl | rfl
  all_goals
    refine yields_node rfl ((argumentList_yields hargs).bind fun ts hts => ?_)
    exact yields_pure (.node rfl rfl rfl (.all hts))

/-- The same without arguments, and `redo` and `retry`. -/
theorem sound_withoutArgs {tag : String}
    (htag : tag ∈ ["zsuper", "return0", "yield0", "redo", "retry"]) :
    Sound .expr (node tag []) := by
  simp only [List.mem_cons, List.not_mem_nil, or_false] at htag
  rcases htag with rfl | rfl | rfl | rfl | rfl
  · exact yields_node rfl (yields_pure (.node rfl rfl rfl .nil))
  · exact yields_node rfl (yields_pure (.node rfl rfl rfl (.all nofun)))
  · exact yields_node rfl (yields_pure (.node rfl rfl rfl (.all nofun)))
  · exact yields_node rfl (yields_pure (.node rfl rfl rfl .nil))
  · exact yields_node rfl (yields_pure (.node rfl rfl rfl .nil))

/-- Arguments in the parentheses of a call. -/
theorem sound_argParen (hargs : Sound .args args) : Sound .args (node "arg_paren" [args]) := by
  refine yields_node (p := .argParen) rfl ?_
  show Yields (lowerArgParen lower [args]) _
  unfold lowerArgParen
  dsimp only
  split
  · exact yields_pure (.inr (.inr (.inl ⟨_, _, rfl, nofun⟩)))
  · refine (argumentList_yields hargs).bind fun ts hts => ?_
    exact yields_pure (.inr (.inr (.inl ⟨_, _, rfl, hts⟩)))

/-- Arguments one after the other. -/
theorem sound_arglist {rs : List Raw} (h : ∀ r ∈ rs, Sound .argument r) :
    Sound .arglist (node "args" rs) :=
  yields_node rfl ((Yields.mapM h).bind fun _ hts => yields_pure ⟨_, _, rfl, hts⟩)

/-- A block argument, which may be anonymous. -/
theorem finished_blockPass {t : Tree} (h : Finished .optional t) :
    Finished .argument (.bare "block_pass" [t]) :=
  .node rfl rfl rfl (.one h .nil)

/-- One more argument at the end. -/
theorem argument_of_mem_concat {ts : List Tree} {t : Tree} (hts : ∀ u ∈ ts, Finished .argument u)
    (ht : Finished .argument t) : ∀ u ∈ ts ++ [t], Finished .argument u := by
  rw [List.forall_mem_append]
  exact ⟨hts, List.forall_mem_singleton.2 ht⟩

/-- Arguments and a block that is passed on with `&`. -/
theorem sound_argsBlock {block : Raw} (hargs : Sound .args args) (hblock : Sound .expr block) :
    Sound .arglist (node "args_add_block" [args, block]) := by
  obtain ⟨tag, fields, rfl⟩ := exists_node_of_sound hblock
  refine yields_node rfl ((argumentList_yields hargs).bind fun ts hts => hblock.bind fun t ht => ?_)
  exact yields_pure ⟨_, _, rfl, argument_of_mem_concat hts (finished_blockPass (ht.within rfl))⟩

/-- Arguments without a block that is passed on. -/
theorem sound_argsNoBlock {block : Raw} (hargs : Sound .args args)
    (hblock : block = .null ∨ ∃ b, block = .bool b) :
    Sound .arglist (node "args_add_block" [args, block]) := by
  have hanonymous : Finished .argument (.bare "block_pass" [.null]) :=
    finished_blockPass (.leaf rfl)
  refine yields_node rfl ((argumentList_yields hargs).bind fun ts hts => ?_)
  -- Only `false` says that there is no block; anything else is an anonymous one.
  rcases hblock with rfl | ⟨b, rfl⟩
  · exact yields_pure ⟨_, _, rfl, argument_of_mem_concat hts hanonymous⟩
  · cases b with
    | false => exact yields_pure ⟨_, _, rfl, hts⟩
    | true => exact yields_pure ⟨_, _, rfl, argument_of_mem_concat hts hanonymous⟩

/-- A splat and the arguments after it are added to those before it. -/
theorem lowerArgsStar_yields {tag : String} {splatted : Raw} {rs : List Raw}
    (hargs : Yields (lower args) fun t => t = .null ∨ Holds tag .argument t)
    (hsplatted : Yields (lower splatted) (Finished .optional)) (h : ∀ r ∈ rs, Sound .argument r) :
    Yields (lowerArgsStar lower (args :: splatted :: rs)) fun t =>
      Holds "arglist" .argument t ∨ Holds tag .argument t := by
  have hrest : ∀ (tag : String) (mark : Mark) (children : List Tree),
      (∀ c ∈ children, Finished .argument c) →
      Yields (do
        let splat := Tree.bare "splat" [← lower splatted]
        return (Tree.node (.str tag) mark children).withChildren
          (children ++ splat :: (← rs.mapM lower))) (Holds tag .argument) := by
    intro tag mark children hchildren
    refine hsplatted.bind fun s hs => (Yields.mapM h).bind fun ts hts => ?_
    refine yields_pure ⟨_, _, rfl, fun c hc => ?_⟩
    rcases List.mem_append.1 hc with hc | hc
    · exact hchildren c hc
    · rcases List.mem_cons.1 hc with rfl | hc
      · exact .node rfl rfl rfl (.maybe (hs.within rfl) .nil)
      · exact hts c hc
  refine hargs.bind fun t ht => ?_
  -- What stands before the splat is a list, be it empty.
  rcases ht with rfl | ⟨mark, children, rfl, hchildren⟩
  · exact (hrest "arglist" {} [] nofun).mono fun t ht => .inl ht
  · exact (hrest tag mark children hchildren).mono fun t ht => .inr ht

/-- What an optional field is lowered to. -/
theorem yields_optional {k : Kind} {r : Raw} {P : Tree → Prop} (h : Sound (.optional k) r)
    (hnull : P .null) (hk : Sound k r → Yields (lower r) P) : Yields (lower r) P := by
  rcases h with rfl | h
  · exact yields_null hnull
  · exact hk h

/-- What may be absent. -/
theorem optional_yields {r : Raw} (h : Sound (.optional .expr) r) :
    Yields (lower r) (Finished .optional) :=
  yields_optional h (.leaf rfl) fun h => h.mono fun _ ht => ht.within rfl

/-- Arguments with a splat among them. -/
theorem sound_argsStar {splatted : Raw} {rs : List Raw} (hargs : Sound (.optional .arglist) args)
    (hsplatted : Sound (.optional .expr) splatted) (h : ∀ r ∈ rs, Sound .argument r) :
    Sound .arglist (node "args_add_star" (args :: splatted :: rs)) := by
  have hlist : Yields (lower args) fun t => t = .null ∨ Holds "arglist" .argument t :=
    yields_optional hargs (.inl rfl) fun h => h.mono fun _ ht => .inr ht
  refine yields_node rfl ((lowerArgsStar_yields hlist (optional_yields hsplatted) h).mono ?_)
  exact fun t ht => ht.elim id id

/-- `...`, all arguments of the method around the call. -/
theorem sound_forwarded : Sound .argument (node "args_forward" []) :=
  yields_node rfl (yields_pure (.node rfl rfl rfl .nil))

/-- The elements of a list. -/
theorem elementsOf_list (rs : List Raw) : elementsOf (.list rs) = pure rs := by
  cases rs <;> rfl

/-- Pairs at the end of the arguments. -/
theorem sound_keywordArgs {rs : List Raw} (h : ∀ r ∈ rs, Sound .pair r) :
    Sound .argument (node "bare_assoc_hash" [.list rs]) := by
  refine yields_node (p := .each "kwargs") rfl ?_
  show Yields (elementsOf (.list rs) >>= (·.mapM lower) >>= _) _
  rw [elementsOf_list, pure_bind]
  exact (Yields.mapM h).bind fun ts hts => yields_pure (.node rfl rfl rfl (.all hts))

end Arguments

section Operators

/-- An operator that is no call is `and` or `or`. -/
theorem logicalTag?_eq {op tag : String} (h : logicalTag? op = some tag) :
    tag = "and" ∨ tag = "or" := by
  unfold logicalTag? at h
  split at h <;> simp_all

/-- An operator that can be looked up is taken as it is. -/
theorem returns_operatorOf {r op : Raw} (h : Returns (operatorOf r) op) : op = r := by
  unfold operatorOf at h
  split at h
  · exact (returns_pure h).symm
  · exact absurd h not_returns_throw

/-- A binary operation that is no match. -/
theorem sound_binary {left right : Raw} {op : String} (hop : op ≠ "=>") (hleft : Sound .expr left)
    (hright : Sound .expr right) : Sound .expr (node "binary" [left, .sym op, right]) := by
  have hlookup : operatorOf (.sym op) = pure (.sym op) := rfl
  refine yields_node (p := .binary) rfl ?_
  rw [Production.lower, lowerBinary]
  show Yields (operatorOf (.sym op) >>= _) _
  rw [hlookup, pure_bind]
  split
  · exact hleft.bind fun l hl => hright.bind fun r hr => lowerMatch_yields hl hr
  · split
    · rename_i tag htag
      refine hleft.bind fun l hl => hright.bind fun r hr => yields_pure ?_
      rcases logicalTag?_eq htag with rfl | rfl
      · exact .node rfl rfl rfl (.one hl (.one hr .nil))
      · exact .node rfl rfl rfl (.one hl (.one hr .nil))
    · -- The operator is excluded that would make patterns of its operands.
      have hplain : ((Raw.sym op).text? == some "=>") = false :=
        beq_eq_false_iff_ne.2 fun h => hop (Option.some.inj h)
      rw [hplain, if_neg Bool.false_ne_true]
      refine hleft.bind fun l hl => hright.bind fun r hr => ?_
      exact yields_pure (finished_operation op hl hr)

/-- A unary operation. -/
theorem sound_unary {r : Raw} {op : String} (h : Sound .expr r) :
    Sound .expr (node "unary" [.sym op, r]) := by
  refine yields_node rfl (h.bind fun t ht => ?_)
  refine yields_pure (.call rfl (.inl rfl) (ht.within rfl) (nofun) fun hnull => ?_)
  exact absurd hnull (ne_null_of_value ht)

/-- A range, which may be open at an end. -/
theorem sound_range {tag : String} {low high : Raw} (htag : tag ∈ ["dot2", "dot3"])
    (hlow : Sound (.optional .expr) low) (hhigh : Sound (.optional .expr) high) :
    Sound .expr (node tag [low, high]) := by
  simp only [List.mem_cons, List.not_mem_nil, or_false] at htag
  rcases htag with rfl | rfl
  all_goals
    refine yields_node rfl ((optional_yields hlow).bind fun l hl => ?_)
    refine (optional_yields hhigh).bind fun h hh => ?_
    exact yields_pure (.node rfl rfl rfl (.one hl (.one hh .nil)))

/-- `defined?(a)`. -/
theorem sound_defined {r : Raw} (h : Sound .expr r) : Sound .expr (node "defined" [r]) :=
  yields_node rfl (h.bind fun _ ht => yields_pure (.node rfl rfl rfl (.one ht .nil)))

/-- `a ? b : c`. -/
theorem sound_ternary {cond yes no : Raw} (hcond : Sound .expr cond) (hyes : Sound .expr yes)
    (hno : Sound .expr no) : Sound .expr (node "ifop" [cond, yes, no]) := by
  refine yields_node rfl (hcond.bind fun c hc => hyes.bind fun y hy => hno.bind fun n hn => ?_)
  refine yields_pure (.node rfl rfl rfl (.one (hc.within rfl) ?_))
  exact .one (hy.within rfl) (.one (hn.within rfl) .nil)

end Operators

section Assignment

variable {plain : Bool}

/-- What is assigned is a value, or several in an array. -/
theorem arrayOfValues_value {t : Tree} (h : Finished .value t ∨ Holds "mrhs" .argument t) :
    Finished .value (arrayOfValues t) := by
  rcases h with h | ⟨mark, children, rfl, hchildren⟩
  · unfold arrayOfValues
    split
    · exact absurd (h.hasTag_eq_false "mrhs" rfl) (by simp [Tree.hasTag])
    · exact h
  · exact .node rfl rfl rfl (.all hchildren)

/-- `a = b`. -/
theorem sound_assign {target value : Raw} (htarget : Sound (.target false) target)
    (hvalue : Sound .values value) : Sound .expr (node "assign" [target, value]) := by
  refine yields_node rfl (htarget.bind fun t ht => hvalue.bind fun v hv => ?_)
  have hpresent : ∀ u ∈ present (arrayOfValues v), Finished .value u := by
    intro u hu
    unfold present at hu
    split at hu
    · cases hu
    · cases hu
      exact arrayOfValues_value hv
  refine (assignTo_yields ht.1 hpresent).bind fun u hu => yields_pure ?_
  exact finished_withLine (hu.within rfl) _

/-- `a, b = c`. -/
theorem sound_multiAssign {targets value : Raw} (htargets : Sound (.targets false) targets)
    (hvalue : Sound .values value) : Sound .expr (node "massign" [targets, value]) := by
  refine yields_node rfl (htargets.bind fun t ht => hvalue.bind fun v hv => ?_)
  exact yields_pure (.node rfl rfl rfl (.one ht.1 (.one (arrayOfValues_value hv) .nil)))

/-- An indexed or attribute target reads before it sets; a variable does not. -/
theorem accessTarget?_yields {t : Tree} (h : Target t) :
    Yields (accessTarget? t) fun o => (o = none → Variable t) ∧ ∀ u ∈ o, Finished .target u := by
  have hnone : ∀ u ∈ (none : Option Tree), Finished .target u :=
    fun u hu => absurd hu (Option.not_mem_none u)
  -- By the target: a variable gives nothing, the others an access of their own.
  cases h with
  | ofVariable h =>
    have hvariable := h
    cases h with
    | simple htag =>
      simp only [pinnable, List.mem_cons, List.not_mem_nil, or_false] at htag
      rcases htag with rfl | rfl | rfl | rfl
      all_goals exact yields_pure ⟨fun _ => hvariable, hnone⟩
    | constant hroot => exact yields_pure ⟨fun _ => hvariable, hnone⟩
  | element hcollection hargs =>
    refine yields_pure ⟨fun h => absurd h (Option.some_ne_none _), fun u hu => ?_⟩
    cases hu
    exact .node rfl rfl rfl (.one hcollection (.all hargs))
  | field hreceiver hkind =>
    refine yields_pure ⟨fun h => absurd h (Option.some_ne_none _), fun u hu => ?_⟩
    cases hu
    have hargs : ∀ a ∈ ([] : List Tree), Finished .argument a :=
      fun a ha => absurd ha List.not_mem_nil
    refine .call rfl hkind (hreceiver.within rfl) hargs fun hnull => ?_
    exact absurd hnull (ne_null_of_value hreceiver)

/-- An operator that assigns on a condition is one of two. -/
theorem shortcutTag?_eq {op tag : String} (h : shortcutTag? op = some tag) :
    tag = "or_asgn" ∨ tag = "and_asgn" := by
  unfold shortcutTag? at h
  split at h <;> simp_all

/-- `a ||= b` and `a &&= b` are values. -/
theorem finished_shortcut {tag : String} (htag : tag = "or_asgn" ∨ tag = "and_asgn") {t v : Tree}
    (ht : Finished .target t) (hv : Finished .value v) : Finished .value (.bare tag [t, v]) := by
  rcases htag with rfl | rfl
  · exact .node rfl rfl rfl (.one ht (.one hv .nil))
  · exact .node rfl rfl rfl (.one ht (.one hv .nil))

/-- The assignment of an operation's result to the variable that it reads. -/
theorem assignResult_yields {t v : Tree} (ht : Variable t) (hv : Finished .value v) (op : String) :
    Yields (do
      let target ← withSharedChildren t
      let result := Tree.bare "send" [target, .sym op, v]
      return (← assignTo target (some result)).withLine target.line?) (Finished .value) := by
  refine (withSharedChildren_yields ht).bind fun u hu => ?_
  have hresult : Finished .value (.bare "send" [u, .sym op, v]) :=
    finished_operation op hu.value hv
  refine (assignTo_variable hu fun w hw => ?_).bind fun w hw => ?_
  · cases hw
    exact hresult
  · exact yields_pure (finished_withLine (hw.within rfl) _)

/-- `a += b`. -/
theorem sound_operatorAssign {target value place : Raw} {tag op : String}
    (htarget : Sound (.target false) target) (hvalue : Sound .expr value) :
    Sound .expr (node "opassign" [target, token tag op place, value]) := by
  refine yields_node rfl (htarget.bind fun t ht => hvalue.bind fun v hv => ?_)
  show Yields (accessTarget? t >>= _) _
  refine (accessTarget?_yields ht.1).bind fun access haccess => ?_
  -- The target is accessed or a variable, and the operator a shortcut or not.
  split
  · rename_i access' hshortcut
    exact yields_pure (finished_shortcut (shortcutTag?_eq hshortcut) (haccess.2 _ rfl) hv)
  · exact yields_pure (.node rfl rfl rfl (.one (haccess.2 _ rfl) (.one (.symbol _) (.one hv .nil))))
  · rename_i tag' hshortcut
    refine (targetOf_yields (.inl ht.1)).bind fun u hu => ?_
    exact yields_pure (finished_shortcut (shortcutTag?_eq hshortcut) hu hv)
  · exact assignResult_yields (haccess.1 rfl) hv _

/-- Values one after the other. -/
theorem sound_row {rs : List Raw} (h : ∀ r ∈ rs, Sound .argument r) :
    Sound .row (node "mrhs" rs) :=
  yields_node rfl ((Yields.mapM h).bind fun _ hts => yields_pure ⟨_, _, rfl, hts⟩)

/-- Values that were read as arguments first. -/
theorem sound_rowFromArgs {args : Raw} {rs : List Raw} (hargs : Sound .args args)
    (h : ∀ r ∈ rs, Sound .argument r) : Sound .row (node "mrhs_new_from_args" (args :: rs)) := by
  refine yields_node rfl ((argumentList_yields hargs).bind fun as has => ?_)
  refine (Yields.mapM h).bind fun ts hts => yields_pure ⟨_, _, rfl, fun c hc => ?_⟩
  exact (List.mem_append.1 hc).elim (has c) (hts c)

/-- Values with a splat among them. -/
theorem sound_rowStar {items splatted : Raw} {rs : List Raw} (hitems : Sound (.optional .row) items)
    (hsplatted : Sound .expr splatted) (h : ∀ r ∈ rs, Sound .argument r) :
    Sound .row (node "mrhs_add_star" (items :: splatted :: rs)) := by
  have hlist : Yields (lower items) fun t => t = .null ∨ Holds "mrhs" .argument t :=
    yields_optional hitems (.inl rfl) fun h => h.mono fun _ ht => .inr ht
  have hvalue : Yields (lower splatted) (Finished .optional) :=
    hsplatted.mono fun _ ht => ht.within rfl
  refine yields_node rfl ((lowerArgsStar_yields hlist hvalue h).bind fun t ht => ?_)
  rcases ht with ⟨mark, children, rfl, hchildren⟩ | ⟨mark, children, rfl, hchildren⟩
  · exact yields_pure ⟨_, _, rfl, hchildren⟩
  · exact yields_pure ⟨_, _, rfl, hchildren⟩

/-- A name that is assigned to or is a parameter. -/
theorem sound_plainTarget {name : String} {place : Raw} :
    Sound (.target plain) (token "@ident" name place) :=
  yields_node rfl (yields_pure ⟨.ofVariable (.simple (by decide)), fun _ => .name (.inl rfl)⟩)

/-- Any variable that is assigned to. -/
theorem sound_variableTarget {tag name : String} {place : Raw} (htag : tag ∈ variableTags) :
    Sound (.target false) (token tag name place) := by
  simp only [variableTags, List.mem_cons, List.not_mem_nil, or_false] at htag
  rcases htag with rfl | rfl | rfl | rfl
  all_goals exact yields_node rfl (yields_pure ⟨.ofVariable (.simple (by decide)), nofun⟩)

/-- A constant that is assigned to. -/
theorem sound_constTarget {name : String} {place : Raw} :
    Sound (.target false) (token "@const" name place) :=
  yields_node rfl (yields_pure ⟨.ofVariable (.constant (.leaf rfl)), nofun⟩)

/-- A variable in its place as a target. -/
theorem sound_varField {r : Raw} (h : Sound (.target plain) r) :
    Sound (.target plain) (node "var_field" [r]) :=
  yields_node rfl h

/-- `A::B` as a target. -/
theorem sound_constPathTarget {scope r : Raw} {name : String} (hscope : Sound .expr scope)
    (hname : Named r name) : Sound (.target false) (node "const_path_field" [scope, r]) := by
  refine yields_node rfl (hscope.bind fun root hroot => ?_)
  show Yields (nameOf r >>= _) _
  rw [nameOf_named hname]
  exact yields_pure ⟨.ofVariable (.constant (hroot.within rfl)), nofun⟩

/-- `::A` as a target. -/
theorem sound_topConstTarget {r : Raw} {name : String} (hname : Named r name) :
    Sound (.target false) (node "top_const_field" [r]) := by
  refine yields_node (p := .topConstant) rfl ?_
  rw [Production.lower, lowerTopConstant]
  show Yields (nameOf r >>= _) _
  rw [nameOf_named hname]
  exact yields_pure ⟨.ofVariable (.constant finished_cbase), nofun⟩

/-- `a[i]` as a target. -/
theorem sound_indexTarget {collection args : Raw} (hcollection : Sound .expr collection)
    (hargs : Sound .args args) : Sound (.target false) (node "aref_field" [collection, args]) := by
  refine yields_node rfl (hcollection.bind fun t ht => ?_)
  exact (argumentList_yields hargs).bind fun ts hts => yields_pure ⟨.element ht hts, nofun⟩

/-- `a.b` as a target. -/
theorem sound_attributeTarget {receiver op r : Raw} {name : String}
    (hreceiver : Sound .expr receiver) (hop : Joined op) (hname : Named r name) :
    Sound (.target false) (node "field" [receiver, op, r]) := by
  refine yields_node rfl (hreceiver.bind fun t ht => (callTag_joined hop).bind fun kind hkind => ?_)
  show Yields (nameOf r >>= _) _
  rw [nameOf_named hname]
  exact yields_pure ⟨.field ht hkind, nofun⟩

/-- A target in parentheses. -/
theorem sound_itemParen {r : Raw} (h : Sound (.item plain) r) :
    Sound (.item plain) (node "mlhs_paren" [r]) :=
  yields_node rfl h

/-- Targets in parentheses. -/
theorem sound_targetsParen {r : Raw} (h : Sound (.targets plain) r) :
    Sound (.targets plain) (node "mlhs_paren" [r]) :=
  yields_node rfl h

/-- A target without a value, which stays a binder if it was one. -/
theorem targetOf_item {t : Tree} (h : Assignable t ∧ (plain = true → Binder t)) :
    Yields (targetOf t) fun u => Finished .target u ∧ (plain = true → Binder u) := by
  cases plain with
  | false => exact (targetOf_yields h.1).mono fun u hu => ⟨hu, nofun⟩
  | true => exact (targetOf_binder h.1 (h.2 rfl)).mono fun u hu => ⟨hu.1, fun _ => hu.2⟩

/-- Targets one after the other. -/
theorem sound_targets {rs : List Raw} (h : ∀ r ∈ rs, Sound (.item plain) r) :
    Sound (.targets plain) (node "mlhs" rs) := by
  refine yields_node rfl ((Yields.mapM h).bind fun ts hts => ?_)
  refine (Yields.mapM fun t ht => targetOf_item (hts t ht)).bind fun us hus => ?_
  refine yields_pure ⟨.node rfl rfl rfl (.all fun u hu => (hus u hu).1.within rfl), ?_⟩
  exact fun hplain => .list fun u hu => (hus u hu).2 hplain

/-- More children for a list of targets. -/
theorem addTargets_yields {t : Tree} (h : Finished .targets t ∧ (plain = true → Binder t))
    {more : List Tree} (hmore : ∀ u ∈ more, Finished .listed u ∧ (plain = true → Binder u)) :
    Yields (addChildren t more) fun u => Finished .targets u ∧ (plain = true → Binder u) := by
  obtain ⟨mark, children, rfl⟩ := targets_node h.1
  have hlisted := (h.1.children rfl).of_many
  refine yields_pure ⟨.node rfl rfl rfl (.all fun u hu => ?_), fun hplain => .list fun u hu => ?_⟩
  · exact (List.mem_append.1 hu).elim (hlisted u) fun hu => (hmore u hu).1
  · rcases List.mem_append.1 hu with hu | hu
    · exact (h.2 hplain).children u hu
    · exact (hmore u hu).2 hplain

/-- A local in the place of a target is assigned to. -/
theorem targetOf_name (mark : Mark) (name : String) :
    Yields (targetOf (.node (.str "lvar") mark [.sym name])) fun t =>
      ∃ mark', t = .node (.str "lvasgn") mark' [.sym name] := by
  refine yields_pure ?_
  simp only [Tree.line?]
  cases mark.line with
  | none => exact ⟨_, rfl⟩
  | some line => exact ⟨_, rfl⟩

/-- Targets that end in a splat. -/
theorem sound_targetsStar {targets r : Raw} (htargets : Sound (.targets plain) targets)
    (h : Sound (.optional (.target plain)) r) :
    Sound (.targets plain) (node "mlhs_add_star" [targets, r]) := by
  have hstar : Yields (lower r) fun t => t = .null ∨ Target t ∧ (plain = true → Binder t) :=
    yields_optional h (.inl rfl) fun h => h.mono fun _ ht => .inr ht
  refine yields_node rfl (htargets.bind fun t ht => hstar.bind fun u hu => ?_)
  rcases hu with rfl | ⟨htarget, hbinder⟩
  · refine addTargets_yields ht (List.forall_mem_singleton.2 ?_)
    exact ⟨.node rfl rfl rfl (.left .nil), fun _ => .rest⟩
  -- A parameter has to stay a name after the star, so the two kinds part here.
  · cases plain with
    | false =>
      obtain ⟨tag, -, mark, children, rfl⟩ := htarget.tagged
      refine (targetOf_yields (.inl htarget)).bind fun v hv => ?_
      refine addTargets_yields ht (List.forall_mem_singleton.2 ?_)
      exact ⟨.node rfl rfl rfl (.maybe (hv.within rfl) .nil), nofun⟩
    | true =>
      obtain ⟨mark, name, rfl⟩ := (hbinder rfl).eq_of_target htarget
      refine (targetOf_name mark name).bind ?_
      rintro _ ⟨mark', rfl⟩
      refine addTargets_yields ht (List.forall_mem_singleton.2 ?_)
      refine ⟨.node rfl rfl rfl (.maybe (.node rfl rfl rfl ?_) .nil), fun _ => .namedRest⟩
      exact .one (.symbol _) (.left .nil)

/-- Targets after a splat. -/
theorem sound_targetsPost {targets after : Raw} (htargets : Sound (.targets plain) targets)
    (hafter : Sound (.targets plain) after) :
    Sound (.targets plain) (node "mlhs_add_post" [targets, after]) := by
  refine yields_node rfl (htargets.bind fun t ht => hafter.bind fun u hu => ?_)
  obtain ⟨mark, children, rfl⟩ := targets_node hu.1
  have hlisted := (hu.1.children rfl).of_many
  exact addTargets_yields ht fun v hv => ⟨hlisted v hv, fun hplain => (hu.2 hplain).children v hv⟩

end Assignment

end LowerM

end RubyTree
