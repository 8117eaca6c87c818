import RubyTree.Proofs.Lower.Spending.Thrifty

/-!
# Spending by Definitions and Literals

The parts of an assignment, a definition or a literal draw their own numbers, one
after the other, and the production takes each of them once. An assignment with an
operator is the exception that the count is made for: its target stands in two places.

## Theorems

* `thrifty_operatorAssign`: The target stands twice, and may share its parts.
* `thrifty_targetsStar`, `thrifty_targetsPost`: Targets with a splat.
* `thrifty_params`: Parameters and their defaults.
* `thrifty_literal`, `thrifty_words`: Literals.
-/

namespace RubyTree

namespace LowerM

open Raw (node token)

section Assignment

/-- `a = b`. -/
theorem thrifty_assign {target value : Raw} (hsound : Sound (.target false) target)
    (htarget : Thrifty (.target false) target) (hvalue : Thrifty .values value) :
    Thrifty .expr (node "assign" [target, value]) := by
  have hform : ∀ t, Returns (lower _) t → Target t :=
    fun t ht => (Yields.of_returns hsound ht).1
  exact fresh_node rfl (fresh_lowerAssign htarget hform hvalue)

/-- `a, b = c`. -/
theorem thrifty_multiAssign {targets value : Raw} (htargets : Thrifty (.targets false) targets)
    (hvalue : Thrifty .values value) : Thrifty .expr (node "massign" [targets, value]) :=
  fresh_node rfl (fresh_lowerMultiAssign htargets hvalue)

/-- `a += b`. -/
theorem thrifty_operatorAssign {target value place : Raw} {tag op : String}
    (hsound : Sound (.target false) target) (htarget : Thrifty (.target false) target)
    (hvalue : Thrifty .expr value) :
    Thrifty .expr (node "opassign" [target, token tag op place, value]) := by
  have hform : ∀ t, Returns (lower _) t → Target t :=
    fun t ht => (Yields.of_returns hsound ht).1
  exact fresh_node rfl (fresh_lowerOperatorAssign htarget hform hvalue)

/-- Values one after the other. -/
theorem thrifty_row {rs : List Raw} (h : ∀ r ∈ rs, Thrifty .argument r) :
    Thrifty .row (node "mrhs" rs) :=
  fresh_node rfl (fresh_lowerFields _ h)

/-- Values that were read as arguments first. -/
theorem thrifty_rowFromArgs {args : Raw} {rs : List Raw} (hargs : Thrifty .args args)
    (h : ∀ r ∈ rs, Thrifty .argument r) : Thrifty .row (node "mrhs_new_from_args" (args :: rs)) :=
  fresh_node rfl (fresh_lowerValuesFromArgs hargs h)

/-- Values with a splat among them. -/
theorem thrifty_rowStar {items splatted : Raw} {rs : List Raw}
    (hitems : Sound (.optional .row) items) (hsplatted : Sound .expr splatted)
    (hsound : ∀ r ∈ rs, Sound .argument r) (hfresh : Fresh (lower items))
    (hfresh' : Fresh (lower splatted)) (h : ∀ r ∈ rs, Thrifty .argument r) :
    Thrifty .row (node "mrhs_add_star" (items :: splatted :: rs)) := by
  have hlist : Yields (lower items) fun t => t = .null ∨ Holds "mrhs" .argument t :=
    yields_optional hitems (.inl rfl) fun h => h.mono fun _ ht => .inr ht
  have hvalue : Yields (lower splatted) (Finished .optional) :=
    Yields.mono hsplatted fun _ ht => ht.within rfl
  have hstar := thrifty_star (by decide) hlist hfresh hfresh' h
  refine fresh_node rfl (fresh_lowerValuesStar hstar fun t ht => ?_)
  rcases (lowerArgsStar_yields hlist hvalue hsound).of_returns ht with ht | ht
  · exact ht.not_casgn (by decide)
  · exact ht.not_casgn (by decide)

/-- A name that is assigned to or is a parameter. -/
theorem thrifty_plainTarget {plain : Bool} {name : String} {place : Raw} :
    Thrifty (.target plain) (token "@ident" name place) :=
  fresh_node rfl (fresh_lowerName _ _)

/-- Any variable that is assigned to. -/
theorem thrifty_variableTarget {tag name : String} {place : Raw} (htag : tag ∈ variableTags) :
    Thrifty (.target false) (token tag name place) := by
  simp only [variableTags, List.mem_cons, List.not_mem_nil, or_false] at htag
  rcases htag with rfl | rfl | rfl | rfl
  all_goals exact fresh_node rfl (fresh_lowerName _ _)

/-- A constant that is assigned to. -/
theorem thrifty_constTarget {name : String} {place : Raw} :
    Thrifty (.target false) (token "@const" name place) :=
  fresh_node rfl (fresh_lowerConstant _)

/-- A variable in its place as a target. -/
theorem thrifty_varField {plain : Bool} {r : Raw} (h : Thrifty (.target plain) r) :
    Thrifty (.target plain) (node "var_field" [r]) :=
  fresh_node rfl h

/-- `A::B` as a target. -/
theorem thrifty_constPathTarget {scope r : Raw} (hscope : Thrifty .expr scope) :
    Thrifty (.target false) (node "const_path_field" [scope, r]) :=
  fresh_node rfl (fresh_lowerScopedConstant hscope)

/-- `::A` as a target. -/
theorem thrifty_topConstTarget {r : Raw} : Thrifty (.target false) (node "top_const_field" [r]) :=
  fresh_node rfl (fresh_lowerTopConstant _)

/-- `a[i]` as a target. -/
theorem thrifty_indexTarget {collection args : Raw} (hcollection : Thrifty .expr collection)
    (hargs : Thrifty .args args) :
    Thrifty (.target false) (node "aref_field" [collection, args]) :=
  fresh_node rfl (fresh_lowerIndexTarget hcollection hargs)

/-- `a.b` as a target. -/
theorem thrifty_attributeTarget {receiver op r : Raw} (hreceiver : Thrifty .expr receiver) :
    Thrifty (.target false) (node "field" [receiver, op, r]) :=
  fresh_node rfl (fresh_lowerAttributeTarget hreceiver)

/-- A target in parentheses. -/
theorem thrifty_itemParen {plain : Bool} {r : Raw} (h : Thrifty (.item plain) r) :
    Thrifty (.item plain) (node "mlhs_paren" [r]) :=
  fresh_node rfl h

/-- Targets one after the other. -/
theorem thrifty_targets {plain : Bool} {rs : List Raw} (hsound : ∀ r ∈ rs, Sound (.item plain) r)
    (h : ∀ r ∈ rs, Thrifty (.item plain) r) : Thrifty (.targets plain) (node "mlhs" rs) := by
  refine fresh_node rfl (fresh_lowerTargets h fun r hr t ht => ?_)
  exact (Yields.of_returns (hsound r hr) ht).1

/-- Targets that end in a splat. -/
theorem thrifty_targetsStar {plain : Bool} {targets r : Raw}
    (hsound : Sound (.targets plain) targets) (hstar : Sound (.optional (.target plain)) r)
    (htargets : Thrifty (.targets plain) targets) (h : Fresh (lower r)) :
    Thrifty (.targets plain) (node "mlhs_add_star" [targets, r]) := by
  have htarget : Yields (lower r) fun t => t = .null ∨ Target t :=
    yields_optional hstar (.inl rfl) fun h => h.mono fun _ ht => .inr ht.1
  refine fresh_node rfl (fresh_lowerTargetsStar htargets (fun t ht => ?_) h fun t ht =>
    htarget.of_returns ht)
  exact targets_not_casgn (Yields.of_returns hsound ht).1

/-- Targets after a splat. -/
theorem thrifty_targetsPost {plain : Bool} {targets after : Raw}
    (hsound : Sound (.targets plain) targets) (hafter : Sound (.targets plain) after)
    (htargets : Thrifty (.targets plain) targets) (h : Thrifty (.targets plain) after) :
    Thrifty (.targets plain) (node "mlhs_add_post" [targets, after]) := by
  refine fresh_node rfl (fresh_lowerTargetsPost htargets (fun t ht => ?_) h fun t ht => ?_)
  · exact targets_not_casgn (Yields.of_returns hsound ht).1
  · exact .inr (Yields.of_returns hafter ht).1

/-- Targets in parentheses. -/
theorem thrifty_targetsParen {plain : Bool} {r : Raw} (h : Thrifty (.targets plain) r) :
    Thrifty (.targets plain) (node "mlhs_paren" [r]) :=
  fresh_node rfl h

end Assignment

section Parameters

theorem thrifty_positional {r : Raw} (hsound : Sound (.optional (.listOf (.item true))) r)
    (h : Thrifty (.optional (.listOf (.item true))) r) : FreshAll (positional lower r) := by
  refine freshAll_positional fun rs hrs x hx => ⟨thrifty_elements h hrs x hx, fun t ht => ?_⟩
  exact (Yields.of_returns ((elementsOf_yields hsound).of_returns hrs x hx) ht).2 rfl

/-- A parameter with a mark in front is one already, and has no number. -/
theorem freshAll_special {r : Raw} (h : Special r) : FreshAll (special lower r) := by
  -- All forms but the absent and the bare one are visited and turned into a parameter.
  have hone {r : Raw} (hfresh : Fresh (lower r))
      (hparameter : Yields (lower r) fun t => Spends [t] (asParameter t) fun p => [p]) :
      FreshAll (do return [← asParameter (← lower r)]) :=
    hfresh.andThen fun t ht => (hparameter.of_returns ht).bind fun p _ =>
      spends_pure fun _ => Nat.le_refl _
  cases h with
  | absent => exact spends_pure fun _ => Nat.le_refl _
  | named htag hname =>
    simp only [List.mem_cons, List.not_mem_nil, or_false] at htag
    rcases htag with rfl | rfl | rfl
    all_goals
      refine hone (fresh_node rfl (fresh_lowerNamedParam _ _))
        (yields_node rfl ((lowerNamedParam_yields _ hname).mono ?_))
      rintro _ ⟨mark, children, rfl, -⟩
      exact spends_pure fun _ => Nat.le_refl _
  | noKeywords =>
    exact hone (fresh_node rfl (spends_bare fun _ => Nat.le_refl _))
      (yields_node rfl (yields_pure (spends_pure fun _ => Nat.le_refl _)))
  | noKeywordsByName => exact spends_pure fun _ => by simp
  | forwarded =>
    exact hone (fresh_node rfl (spends_bare fun _ => Nat.le_refl _))
      (yields_node rfl (yields_pure (spends_bare fun _ => by simp)))

/-- The parameters of a method or of a block. -/
theorem thrifty_params {required optionals rest post keywords kwrest block : Raw}
    (hsound : Sound (.optional (.listOf (.item true))) required)
    (hrest : isExtraComma rest ∨ Special rest)
    (hsoundpost : Sound (.optional (.listOf (.item true))) post) (hkwrest : Special kwrest)
    (hblock : Special block) (hrequired : Thrifty (.optional (.listOf (.item true))) required)
    (hoptionals : Thrifty (.optional (.listOf .optionalParam)) optionals)
    (hpost : Thrifty (.optional (.listOf (.item true))) post)
    (hkeywords : Thrifty (.optional (.listOf .keywordParam)) keywords) :
    Thrifty .params (node "params" [required, optionals, rest, post, keywords, kwrest, block]) := by
  refine fresh_node rfl (fresh_lowerParams ?_ (fun _ => thrifty_elements hoptionals) ?_ ?_
    (fun _ => thrifty_elements hkeywords) (freshAll_special hkwrest) (freshAll_special hblock))
  · exact thrifty_positional hsound hrequired
  · intro hcomma
    exact freshAll_special (hrest.resolve_left (Bool.eq_false_iff.1 hcomma))
  · exact thrifty_positional hsoundpost hpost

/-- A parameter with a default. -/
theorem thrifty_optionalParam {r value : Raw} (hvalue : Thrifty .expr value) :
    Thrifty .optionalParam (.list [r, value]) :=
  fresh_optional hvalue

/-- A keyword parameter that has to be given. -/
theorem thrifty_requiredKeyword {tag label : String} {place value : Raw} (h : value.isEmpty) :
    Thrifty .keywordParam (.list [token tag label place, value]) :=
  fresh_keyword fun hempty => absurd h (Bool.eq_false_iff.1 hempty)

/-- A keyword parameter with a default. -/
theorem thrifty_optionalKeyword {tag label : String} {place value : Raw}
    (hvalue : Thrifty .expr value) :
    Thrifty .keywordParam (.list [token tag label place, value]) :=
  fresh_keyword fun _ => hvalue

/-- Parameters in parentheses. -/
theorem thrifty_parenParams {r : Raw} (h : Thrifty .params r) :
    Thrifty .paramList (node "paren" [r]) :=
  fresh_node rfl (fresh_lowerParen h)

/-- Parameters of a block, and names that are local to it. -/
theorem thrifty_blockParams {params locals : Raw} (hsound : Sound .params params)
    (hparams : Thrifty .params params) :
    Thrifty .blockParams (node "block_var" [params, locals]) := by
  refine fresh_node rfl (fresh_lowerBlockParams hparams fun t ht => ?_)
  exact (hsound.1.of_returns ht).not_casgn

/-- A block in braces, or from `do` to `end`. -/
theorem thrifty_block {tag : String} {params body : Raw}
    (htag : tag ∈ ["brace_block", "do_block"]) (hparams : Thrifty (.optional .blockParams) params)
    (hbody : Thrifty .code body) : Thrifty .block (node tag [params, body]) := by
  have hparams := fresh_of_optional hparams id
  simp only [List.mem_cons, List.not_mem_nil, or_false] at htag
  rcases htag with rfl | rfl
  all_goals exact fresh_node rfl (fresh_lowerBlockBody hparams hbody)

/-- A call and its block. -/
theorem thrifty_blockCall {call block : Raw} (hsound : Sound .block block)
    (hcall : Thrifty .expr call) (hblock : Thrifty .block block) :
    Thrifty .expr (node "method_add_block" [call, block]) := by
  refine fresh_node rfl (fresh_lowerBlockCall hcall hblock fun t ht => ?_)
  exact (Yields.of_returns hsound ht).not_casgn

/-- `->(a) { b }`. -/
theorem thrifty_lambda {params body : Raw} (hparams : Thrifty .paramList params)
    (hbody : Thrifty .code body) : Thrifty .expr (node "lambda" [params, body]) :=
  fresh_node rfl (fresh_lowerLambda hparams hbody)

end Parameters

section Definitions

/-- A method definition. -/
theorem thrifty_method {tag name : String} {place params body : Raw} {rest : List Raw}
    (hparams : Thrifty (.optional .paramList) params) (hbody : Thrifty .body body) :
    Thrifty .expr (node "def" (token tag name place :: params :: body :: rest)) :=
  fresh_node rfl (fresh_lowerMethod (fresh_of_optional hparams id) hbody)

/-- A method definition for one object. -/
theorem thrifty_singletonMethod {tag name : String} {receiver dot place params body : Raw}
    {rest : List Raw} (hreceiver : Thrifty .expr receiver)
    (hparams : Thrifty (.optional .paramList) params) (hbody : Thrifty .body body) :
    Thrifty .expr (node "defs" (receiver :: dot :: token tag name place :: params :: body ::
      rest)) :=
  fresh_node rfl
    (fresh_lowerSingletonMethod hreceiver (fresh_of_optional hparams id) hbody)

/-- A class, whose body is outside of any method. -/
theorem thrifty_classDef {const parent body : Raw} {rest : List Raw}
    (hconst : Thrifty .expr const) (hparent : Thrifty (.optional .expr) parent)
    (hbody : Thrifty .code body) :
    Thrifty .expr (node "class" (const :: parent :: body :: rest)) :=
  fresh_node rfl (fresh_lowerClass hconst (fresh_of_optional hparent id) hbody)

/-- A module, or the class of one object. -/
theorem thrifty_moduleDef {tag : String} {const body : Raw} {rest : List Raw}
    (htag : tag ∈ ["module", "sclass"]) (hconst : Thrifty .expr const)
    (hbody : Thrifty .code body) : Thrifty .expr (node tag (const :: body :: rest)) := by
  simp only [List.mem_cons, List.not_mem_nil, or_false] at htag
  rcases htag with rfl | rfl
  · exact fresh_node rfl (fresh_lowerModule hconst hbody)
  · exact fresh_node rfl (fresh_lowerSingletonClass hconst hbody)

/-- `BEGIN` and `END` blocks. -/
theorem thrifty_hook {tag : String} {body : Raw} {rest : List Raw} (htag : tag ∈ ["BEGIN", "END"])
    (hbody : Thrifty .code body) : Thrifty .expr (node tag (body :: rest)) := by
  simp only [List.mem_cons, List.not_mem_nil, or_false] at htag
  rcases htag with rfl | rfl
  all_goals exact fresh_node rfl (fresh_lowerHook _ hbody)

/-- A construct and the comments before it. -/
theorem thrifty_documented {comment r : Raw} (h : Thrifty .expr r) :
    Thrifty .expr (node "comment" [comment, r]) :=
  fresh_node rfl (fresh_lowerDocumented h)

/-- `alias` for a method. -/
theorem thrifty_methodAlias {new old : Raw} (hnew : Thrifty .expr new) (hold : Thrifty .expr old) :
    Thrifty .expr (node "alias" [new, old]) :=
  fresh_node rfl (fresh_lowerDouble _ hnew hold)

/-- `alias` for a global variable. -/
theorem thrifty_globalAlias {new old : Raw} : Thrifty .expr (node "var_alias" [new, old]) :=
  fresh_node rfl (fresh_lowerGlobalAlias _)

/-- `undef` and the names that it takes away. -/
theorem thrifty_undef {rs : List Raw} (h : ∀ r ∈ rs, Thrifty .expr r) :
    Thrifty .expr (node "undef" [.list rs]) :=
  fresh_node rfl (thrifty_each _ h)

end Definitions

section Literals

theorem literal_returned {kind : LiteralKind} {r : Raw} {t : Tree} (h : Sound (.literal kind) r)
    (ht : Returns (lower r) t) : t.hasTag "casgn" = false := by
  obtain ⟨parts, rfl, -⟩ := Yields.of_returns h ht
  exact literal_not_casgn

/-- A literal of content tokens and interpolations. -/
theorem thrifty_literal {kind : LiteralKind} {delimiter : Option String} {items : List LiteralItem}
    (h : ∀ r ∈ interpolations items, Thrifty .interpolation r) :
    Thrifty (.literal kind) (kind.raw delimiter items) := by
  have hparts : FreshAll (literalParts lower (items.map (·.raw delimiter))) := by
    refine freshAll_literalParts (fun r hr => fresh_content hr) fun r hr htag => ?_
    obtain ⟨item, hitem, rfl⟩ := List.mem_map.1 hr
    cases item with
    | content token => cases htag
    | interpolation i => exact h _ (mem_interpolations hitem)
  cases kind with
  | string | word => exact fresh_node rfl (fresh_lowerString hparts)
  | command | regexp => exact fresh_node rfl (fresh_lowerParts _ hparts)

/-- An interpolation. -/
theorem thrifty_embedded {r : Raw} (h : Thrifty .code r) :
    Thrifty .interpolation (node "string_embexpr" [r]) :=
  fresh_node rfl (fresh_lowerEmbedded h)

/-- An interpolation without braces. -/
theorem thrifty_embeddedVariable {r : Raw} (h : Thrifty .expr r) :
    Thrifty .interpolation (node "string_dvar" [r]) :=
  fresh_node rfl (fresh_lowerEmbeddedVariable h)

/-- A string in quotes. -/
theorem thrifty_string {r : Raw} (h : Thrifty (.literal .string) r) :
    Thrifty .quote (node "string_literal" [r]) :=
  fresh_node rfl h

/-- A character literal in the place of a string. -/
theorem thrifty_quotedCharacter {text : String} {place : Raw} :
    Thrifty .quote (token "@CHAR" text place) :=
  fresh_node rfl (fresh_lowerCharacter [.str text, place])

/-- String literals next to each other. -/
theorem thrifty_concatenation {left right : Raw} (hleft : Thrifty .quote left)
    (hright : Thrifty .quote right) : Thrifty .quote (node "string_concat" [left, right]) :=
  fresh_node rfl (fresh_lowerDouble _ hleft hright)

/-- A command in backticks. -/
theorem thrifty_commandLiteral {r : Raw} (h : Thrifty (.literal .command) r) :
    Thrifty .expr (node "xstring_literal" [r]) :=
  fresh_node rfl h

/-- A regular expression with its flags. -/
theorem thrifty_regexp {r place : Raw} {tag flags : String} (hsound : Sound (.literal .regexp) r)
    (h : Thrifty (.literal .regexp) r) :
    Thrifty .expr (node "regexp_literal" [r, token tag flags place]) :=
  fresh_node rfl (fresh_lowerRegexp h fun _ ht => literal_returned hsound ht)

/-- A symbol by a name. -/
theorem thrifty_symbol {tag name : String} {place : Raw} :
    Thrifty .expr (node "symbol_literal" [node "symbol" [token tag name place]]) := by
  have hsymbol : Fresh (lower (node "symbol" [token tag name place])) :=
    fresh_node rfl (fresh_symbolContent fresh_content)
  exact fresh_node rfl hsymbol

/-- A symbol that is only a token, as `alias` and `undef` have it. -/
theorem thrifty_symbolName {tag name : String} {place : Raw}
    (htag : tag ∉ ["symbol", "@tstring_content"]) :
    Thrifty .expr (node "symbol_literal" [token tag name place]) := by
  refine fresh_node rfl (fresh_lowerSymbolLiteral (fun hsymbol => ?_) fresh_content)
  have hname := Option.some.inj (eq_of_beq hsymbol)
  exact absurd (hname ▸ List.mem_cons_self) htag

/-- A symbol in quotes. -/
theorem thrifty_quotedSymbol {kind : LiteralKind} {r : Raw} (hsound : Sound (.literal kind) r)
    (h : Thrifty (.literal kind) r) : Thrifty .expr (node "dyna_symbol" [r]) :=
  fresh_node rfl (fresh_quotedSymbolContent h fun _ ht => literal_returned hsound ht)

end Literals

section Collections

/-- `[]` and `{}`. -/
theorem thrifty_emptyCollection {tag : String} (htag : tag ∈ ["array", "hash"]) :
    Thrifty .expr (node tag [.null]) := by
  simp only [List.mem_cons, List.not_mem_nil, or_false] at htag
  rcases htag with rfl | rfl
  all_goals exact fresh_node rfl (spends_bare fun _ => Nat.le_refl _)

/-- A list or a row of pairs becomes a collection, if it is lowered to a tree that may be
    taken apart. -/
theorem fresh_collection {tag : String} {r : Raw} (htag : tag ∈ ["array", "hash"])
    (hnode : ∀ t, Returns (lower r) t → t.hasTag "casgn" = false) (h : Fresh (lower r)) :
    Fresh (lower (node tag [r])) := by
  simp only [List.mem_cons, List.not_mem_nil, or_false] at htag
  rcases htag with rfl | rfl
  all_goals exact fresh_node rfl (fresh_lowerCollection _ h hnode)

/-- An array of values. -/
theorem thrifty_array {r : Raw} (hsound : Sound .arglist r) (h : Thrifty .arglist r) :
    Thrifty .expr (node "array" [r]) :=
  fresh_collection (by decide)
    (fun _ hr => (Yields.of_returns hsound hr).not_casgn (by decide)) h

/-- An array of words or of symbols. -/
theorem thrifty_wordArray {r : Raw} (hsound : Sound .words r) (h : Thrifty .words r) :
    Thrifty .expr (node "array" [r]) :=
  fresh_collection (by decide)
    (fun _ hr => (Yields.of_returns hsound hr).not_casgn (by decide)) h

/-- Words that may have interpolations. -/
theorem thrifty_words {tag : String} {rs : List Raw} (htag : tag ∈ ["words", "symbols"])
    (hsound : ∀ r ∈ rs, Sound (.literal .word) r) (h : ∀ r ∈ rs, Thrifty (.literal .word) r) :
    Thrifty .words (node tag rs) := by
  have hsymbols : ∀ r ∈ rs, Fresh (quotedSymbolContent lower r) :=
    fun r hr => fresh_quotedSymbolContent (h r hr) fun t ht => literal_returned (hsound r hr) ht
  simp only [List.mem_cons, List.not_mem_nil, or_false] at htag
  rcases htag with rfl | rfl
  · exact fresh_node rfl (fresh_lowerFields _ h)
  · exact fresh_node rfl ((freshAll_mapM hsymbols).andThen fun _ _ =>
      spends_bare fun _ => Nat.le_refl _)

/-- Words without interpolations. -/
theorem thrifty_plainWords {tag : String} {delimiter : Option String} {tokens : List ContentToken}
    (htag : tag ∈ ["qwords", "qsymbols"]) :
    Thrifty .words (node tag (tokens.map (·.raw delimiter))) := by
  have htokens : ∀ r ∈ tokens.map (·.raw delimiter), Fresh (lower r) := by
    intro r hr
    obtain ⟨token, -, rfl⟩ := List.mem_map.1 hr
    exact fresh_content rfl
  have hsymbols : ∀ r ∈ tokens.map (·.raw delimiter), Fresh (symbolContent lower r) :=
    fun r hr => fresh_symbolContent fun _ => htokens r hr
  simp only [List.mem_cons, List.not_mem_nil, or_false] at htag
  rcases htag with rfl | rfl
  · exact fresh_node rfl (fresh_lowerFields _ htokens)
  · exact fresh_node rfl ((freshAll_mapM hsymbols).andThen fun _ _ =>
      spends_bare fun _ => Nat.le_refl _)

/-- A hash. -/
theorem thrifty_hash {r : Raw} (hsound : Sound .pairs r) (h : Thrifty .pairs r) :
    Thrifty .expr (node "hash" [r]) :=
  fresh_collection (by decide)
    (fun _ hr => (Yields.of_returns hsound hr).not_casgn (by decide)) h

/-- The pairs of a hash. -/
theorem thrifty_pairs {rs : List Raw} (h : ∀ r ∈ rs, Thrifty .pair r) :
    Thrifty .pairs (node "assoclist_from_args" [.list rs]) :=
  fresh_node rfl (thrifty_each _ h)

/-- A key and its value. -/
theorem thrifty_pair {key value : Raw} (hkey : Thrifty .key key) (hvalue : Thrifty .expr value) :
    Thrifty .pair (node "assoc_new" [key, value]) :=
  fresh_node rfl (fresh_lowerPair hkey fun _ => hvalue)

/-- A key that is its own value, such as `a:`. -/
theorem thrifty_shorthandPair {name : String} {place : Raw} :
    Thrifty .pair (node "assoc_new" [token "@label" name place, .null]) := by
  refine fresh_node rfl (fresh_lowerPair (fresh_node rfl (fresh_lowerLabel _)) fun h => ?_)
  exact absurd h.symm Bool.false_ne_true

/-- `**a` among pairs. -/
theorem thrifty_doubleSplat {r : Raw} (h : Thrifty (.optional .expr) r) :
    Thrifty .pair (node "assoc_splat" [r]) :=
  fresh_node rfl (fresh_lowerSingle _ (fresh_of_optional h id))

/-- A key that is a label. -/
theorem thrifty_label {name : String} {place : Raw} : Thrifty .key (token "@label" name place) :=
  fresh_node rfl (fresh_lowerLabel _)

end Collections

end LowerM

end RubyTree
