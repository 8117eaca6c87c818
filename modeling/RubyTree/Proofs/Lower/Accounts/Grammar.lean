import RubyTree.Proofs.Lower.Accounts.Branch
import RubyTree.Proofs.Lower.Accounts.Definition

/-!
# Accounts of the Grammar

Whatever a tidy raw tree of the grammar is lowered to, inside of a method or outside
of one, counts for what the raw tree has to be counted for. The proof is an induction
over the grammar, like that of soundness, and it needs soundness too: the form that a
sort gives to its nodes tells which of them may be taken apart. Each production has a
lemma of its own.

A wrapper is the only node that is counted for something of its own. The construct
that it is around carries its comment then, under the tag that this construct has in a
syntax tree.

## Theorems

* `returns_construct`: The tag of a construct that may have comments.
* `settled_documented`: A construct and the comments before it.
* `settled_of_shaped`: Lowering keeps accounts, for every sort of raw tree.
-/

namespace RubyTree

open RubyTree.Tree (isDocumentable)

namespace LowerM

open Raw (node token)

variable {L : Ledger}

section Comments

variable {t : Tree} {fields : Fields}

/-- A construct that may have comments gets its own tag, and none but the comments
    before it. -/
theorem returns_construct {tag tag' : String} (h : (tag, tag') ∈ Raw.constructs)
    (ht : Returns (lower (node tag fields)) t) :
    ∃ line children, t = .placed line tag' children := by
  have hproduction {p : Production} (hp : Production.ofTag? tag = some p) :
      Returns (p.lower lower fields) t := by
    rwa [lower_node, hp] at ht
  -- Each of the seven visits its fields first and then puts one node together.
  simp only [Raw.constructs, List.mem_cons, Prod.mk.injEq, List.not_mem_nil, or_false] at h
  rcases h with ⟨rfl, rfl⟩ | ⟨rfl, rfl⟩ | ⟨rfl, rfl⟩ | ⟨rfl, rfl⟩ | ⟨rfl, rfl⟩ | ⟨rfl, rfl⟩ |
    ⟨rfl, rfl⟩
  · obtain ⟨const, -, hrest⟩ := returns_bind (hproduction rfl)
    obtain ⟨parent, -, hrest⟩ := returns_bind hrest
    obtain ⟨body, -, hrest⟩ := returns_bind hrest
    exact ⟨_, _, (returns_pure hrest).symm⟩
  · obtain ⟨const, -, hrest⟩ := returns_bind (hproduction rfl)
    obtain ⟨body, -, hrest⟩ := returns_bind hrest
    exact ⟨_, _, (returns_pure hrest).symm⟩
  · obtain ⟨target, -, hrest⟩ := returns_bind (hproduction rfl)
    obtain ⟨body, -, hrest⟩ := returns_bind hrest
    exact ⟨_, _, (returns_pure hrest).symm⟩
  · obtain ⟨parts, -, hrest⟩ := returns_bind (hproduction rfl)
    obtain ⟨name, -, hrest⟩ := returns_bind hrest
    exact ⟨_, _, (returns_pure hrest).symm⟩
  · obtain ⟨receiver, -, hrest⟩ := returns_bind (hproduction rfl)
    obtain ⟨parts, -, hrest⟩ := returns_bind hrest
    obtain ⟨name, -, hrest⟩ := returns_bind hrest
    exact ⟨_, _, (returns_pure hrest).symm⟩
  · obtain ⟨body, -, hrest⟩ := returns_bind (hproduction rfl)
    exact ⟨_, _, (returns_pure hrest).symm⟩
  · obtain ⟨body, -, hrest⟩ := returns_bind (hproduction rfl)
    exact ⟨_, _, (returns_pure hrest).symm⟩

/-- A `begin` block carries no comments. -/
theorem returns_begin (ht : Returns (lower (node "begin" fields)) t) :
    t.hasTag "begin" ∨ t.hasTag "kwbegin" := by
  have ht : Returns (lowerBegin lower fields) t := by
    rwa [lower_node] at ht
  unfold lowerBegin at ht
  dsimp only at ht
  split at ht
  · obtain ⟨body, -, ht⟩ := returns_bind ht
    exact .inl (returns_pure ht ▸ rfl)
  · obtain ⟨body, -, ht⟩ := returns_bind ht
    split at ht
    all_goals exact .inr (returns_pure ht ▸ rfl)

variable {m : Bool} {comment r tag : Raw} {mark : Mark} {children : List Tree}

/-- A comment that is carried is the one in the wrapper. -/
theorem settles_carried (ht : L.Tidy (node "comment" [comment, r]))
    (hcomment : comment.isEmpty = false) (hreturned : Returns (lower r) (.node tag mark children))
    (h : isDocumentable tag) :
    L.Settles (L.weigh m (.node tag mark children) +
        L.expects (Raw.wrapped [.str "comment", comment, r]))
      (L.weigh m (.node tag { mark with comments := some comment } children)) := by
  have hvoid : tag ≠ .str "void_stmt" := by
    rintro rfl
    exact absurd h (by decide)
  rw [Ledger.weigh_of_ne hvoid, Ledger.weigh_commented h]
  cases L with
  | disorder =>
    intro hsum
    obtain ⟨hnode, -⟩ := Nat.add_eq_zero_iff.1 hsum
    exact (Nat.zero_add _).trans (Nat.add_eq_zero_iff.1 hnode).2
  | comment name text =>
    -- A `begin` block has no comments of its own, so nothing is carried there.
    obtain ⟨rtag, fields, rfl, hrtag⟩ := ht.wrapped
    rcases hrtag with rfl | ⟨tag', htag'⟩
    · rcases returns_begin hreturned with hbegin | hbegin
      all_goals
        obtain ⟨mark', children', heq⟩ := Tree.eq_of_hasTag hbegin
        cases heq
        exact absurd h (by decide)
    · obtain ⟨line, parts, heq⟩ := returns_construct htag' hreturned
      cases heq
      rw [Raw.wrapped_construct hcomment htag',
        Ledger.own_none (Ledger.isMisplaced_of_documentable h)]
      exact Ledger.settles_of_eq (by omega)

/-- A wrapper around something that carries no comments is of no account. -/
theorem expects_dropped (ht : L.Tidy (node "comment" [comment, r]))
    (hcomment : comment.isEmpty = false) (hreturned : Returns (lower r) (.node tag mark children))
    (h : isDocumentable tag = false) :
    L.expects (Raw.wrapped [.str "comment", comment, r]) = 0 := by
  cases L with
  | disorder => rfl
  | comment name text =>
    obtain ⟨rtag, fields, rfl, hrtag⟩ := ht.wrapped
    -- A comment stands at a construct, and the construct's tag is not one that drops comments.
    rcases hrtag with rfl | ⟨tag', htag'⟩
    · rw [Raw.wrapped_of_present hcomment]
      exact Ledger.expects_nil
    · obtain ⟨line, parts, heq⟩ := returns_construct htag' hreturned
      cases heq
      rw [Ledger.isDocumentable_construct htag'] at h
      cases h

/-- A construct and the comments before it. -/
theorem settled_documented (hsound : Sound .expr r) (h : Settled L .expr r) :
    Settled L .expr (node "comment" [comment, r]) := by
  intro ht m
  have hnone : L.due comment = 0 := ht.due_idle List.mem_cons_self
  have hdue : L.due (node "comment" [comment, r]) =
      L.due r + L.expects (Raw.wrapped [.str "comment", comment, r]) := by
    rw [Ledger.due_list]
    simp +arith [hnone]
  have hlower : lower (node "comment" [comment, r]) = lowerDocumented lower [comment, r] :=
    lower_node "comment" _
  rw [hdue, hlower]
  unfold lowerDocumented
  refine Accounts.andThen (h (ht.get 1) m) fun t hreturned => ?_
  split
  · rename_i hempty
    have hcomment : comment.isEmpty := hempty
    rw [Raw.wrapped_of_isEmpty hcomment, Ledger.expects_nil]
    exact accounts_pure rfl
  · rename_i hpresent
    have hcomment : comment.isEmpty = false := Bool.eq_false_iff.2 hpresent
    obtain ⟨tag, mark, children, rfl⟩ := (Yields.of_returns hsound hreturned).exists_node
    dsimp only
    -- The tag decides whether the comments are carried or dropped.
    refine Restores.andThen (congruence_restores.isAmong _ _) fun carries hcarries => ?_
    have hcarries : isDocumentable (.str tag) = carries := returns_pure hcarries
    split
    · rename_i htrue
      have hcarried := settles_carried (m := m) ht hcomment hreturned (hcarries.trans htrue)
      exact (accounts_settled hcarried).congr (by omega)
    · rename_i hfalse
      rw [expects_dropped ht hcomment hreturned (hcarries.trans (Bool.eq_false_iff.2 hfalse))]
      exact accounts_pure rfl

end Comments

/-- What lowering gives for a tidy raw tree of any sort is what it has to be counted
    for. -/
theorem settled_of_shaped {k : Kind} {r : Raw} (h : Shaped k r) : Settled L k r := by
  -- By the shape: each part counts for itself, and the lemma of the production adds them up.
  -- Parts that are not visited are idle in a tidy tree.
  induction h with
  | program _ ih => exact settled_program ih
  | absent => exact .inl rfl
  | present _ ih => exact .inr ih
  | list _ ih => exact ⟨_, rfl, ih⟩
  | variableName htag => exact settled_variableName htag
  | constant => exact settled_constant
  | integer => exact settled_integer
  | float => exact settled_float
  | rational => exact settled_rational
  | imaginary => exact settled_imaginary
  | character => exact settled_character
  | keyword h => exact settled_keyword h
  | backReference => exact settled_backReference
  | ofLeaf _ ih => exact ih
  | reference htag _ ih => exact settled_reference htag ih
  | constPath _ _ ih => exact settled_constPath ih
  | topConst => exact settled_topConst
  | bareName => exact settled_bareName
  | function => exact settled_function
  | call _ _ _ ih => exact settled_call ih
  | ofCallee _ ih => exact ih
  | callWithArgs hcallee _ ihcallee ihargs =>
    exact settled_callWithArgs (sound_of_shaped hcallee) ihcallee ihargs
  | command _ _ _ ih => exact settled_command ih
  | commandCall _ _ _ _ ihreceiver ihargs => exact settled_commandCall ihreceiver ihargs
  | index _ _ ihcollection ihargs => exact settled_index ihcollection ihargs
  | withArgs htag _ ih => exact settled_withArgs htag ih
  | withoutArgs htag => exact settled_withoutArgs htag
  | noArgs => exact settled_noArgs
  | argParen _ ih => exact settled_argParen ih
  | parenArgs _ ih => exact settled_parenArgs ih
  | ofArglist _ ih => exact ih
  | ofArgument _ ih => exact ih
  | ofRow _ ih => exact ih
  | arglist _ ih => exact settled_arglist ih
  | argsBlock _ _ ihargs ihblock => exact settled_argsBlock ihargs ihblock
  | argsNoBlock _ hblock ih => exact settled_argsNoBlock ih hblock
  | argsStar hargs _ _ ihargs ihsplatted ih =>
    exact settled_argsStar (sound_of_shaped hargs) ihargs ihsplatted ih
  | ofExpr _ ih => exact ih
  | forwarded => exact settled_forwarded
  | keywordArgs h ih => exact settled_keywordArgs h ih
  | paren _ ih => exact settled_paren ih
  | emptyParen => exact settled_emptyParen
  | nothing => exact settled_nothing
  | emptyStatement => exact settled_emptyStatement
  | ofBody _ ih => exact ih
  | statements _ ih => exact settled_statements ih
  | otherwise _ ih => exact settled_otherwise ih
  | sequence _ ih => exact settled_sequence ih
  | single _ ih => exact settled_single ih
  | ofValue _ ih => exact ih
  | body _ _ ihstatements ihensure => exact settled_body ihstatements ihensure
  | rescueBody _ _ _ _ ihstatements ihrescues ihotherwise ihensure =>
    exact settled_rescueBody ihstatements ihrescues ihotherwise ihensure
  | ensure _ ih => exact settled_ensure ih
  | rescues _ hcaptured _ _ ihexceptions ihcaptured ihstatements ihnext =>
    exact settled_rescues ihexceptions (sound_of_shaped hcaptured) ihcaptured ihstatements ihnext
  | everyException => exact settled_everyException
  | exceptions h ih => exact settled_exceptions h ih
  | exceptionRow _ ih => exact settled_exceptionRow ih
  | begin _ ih => exact settled_begin ih
  | rescueModifier _ _ ih ihhandler => exact settled_rescueModifier ih ihhandler
  | binary hop _ _ ihleft ihright => exact settled_binary hop ihleft ihright
  | unary _ ih => exact settled_unary ih
  | range htag _ _ ihlow ihhigh => exact settled_range htag ihlow ihhigh
  | defined _ ih => exact settled_defined ih
  | ternary _ _ _ ihcond ihyes ihno => exact settled_ternary ihcond ihyes ihno
  | conditional htag _ _ _ ihcond ihyes ihno => exact settled_conditional htag ihcond ihyes ihno
  | modifier htag _ _ ihcond ih => exact settled_modifier htag ihcond ih
  | loop htag _ _ ihcond ihbody => exact settled_loop htag ihcond ihbody
  | loopModifier htag _ _ ihcond ihbody => exact settled_loopModifier htag ihcond ihbody
  | forLoop htarget _ _ ihtarget ihcollection ihbody =>
    exact settled_forLoop (sound_of_shaped htarget) ihtarget ihcollection ihbody
  | choice _ _ _ _ ihsubject ihvalues ihstatements ihnext =>
    exact settled_choice ihsubject ihvalues ihstatements ihnext
  | whens _ _ _ ihvalues ihstatements ihnext => exact settled_whens ihvalues ihstatements ihnext
  | noWhens => exact settled_noWhens
  | elseWhens _ ih => exact settled_elseWhens ih
  | patternChoice _ _ _ _ ihsubject ihpattern ihstatements ihnext =>
    exact settled_patternChoice ihsubject ihpattern ihstatements ihnext
  | patternMatch _ _ ihsubject ihpattern => exact settled_patternMatch ihsubject ihpattern
  | ins _ _ _ ihpattern ihstatements ihnext => exact settled_ins ihpattern ihstatements ihnext
  | noIns => exact settled_noIns
  | elseIns _ ih => exact settled_elseIns ih
  | ofPattern h ih => exact settled_ofPattern h ih
  | guarded htag _ _ ihcond ih => exact settled_guarded htag ihcond ih
  | valuePattern _ htag ih => exact settled_valuePattern ih htag
  | alternatives hop _ _ ihleft ihright => exact settled_alternatives hop ihleft ihright
  | bound h => exact settled_bound h
  | pinned _ ih => exact settled_pinned ih
  | pinnedExpr _ ih => exact settled_pinnedExpr ih
  | arrayPattern _ hbefore _ hafter ihconst ihbefore ihafter =>
    exact settled_arrayPattern hbefore hafter ihconst ihbefore ihafter
  | findPattern _ _ hitems _ ihconst ihitems => exact settled_findPattern hitems ihconst ihitems
  | hashPattern _ hpairs _ ihconst ihpairs => exact settled_hashPattern hpairs ihconst ihpairs
  | keyPattern hkey hpattern ihkey ihpattern =>
    exact settled_keyPattern hkey hpattern ihkey ihpattern
  | boundKey => exact settled_boundKey
  | assign htarget _ ihtarget ihvalue =>
    exact settled_assign (sound_of_shaped htarget) ihtarget ihvalue
  | multiAssign _ _ ihtargets ihvalue => exact settled_multiAssign ihtargets ihvalue
  | operatorAssign htarget _ ihtarget ihvalue =>
    exact settled_operatorAssign (sound_of_shaped htarget) ihtarget ihvalue
  | valueOfExpr _ ih => exact ih
  | valueOfRow _ ih => exact ih
  | row _ ih => exact settled_row ih
  | rowFromArgs _ _ ihargs ih => exact settled_rowFromArgs ihargs ih
  | rowStar hitems hsplatted h ihitems ihsplatted ih =>
    exact settled_rowStar (sound_of_shaped hitems) (sound_of_shaped hsplatted)
      (fun r hr => sound_of_shaped (h r hr)) ihitems ihsplatted ih
  | plainTarget => exact settled_plainTarget
  | variableTarget htag => exact settled_variableTarget htag
  | constTarget => exact settled_constTarget
  | varField _ ih => exact settled_varField ih
  | constPathTarget _ _ ih => exact settled_constPathTarget ih
  | topConstTarget => exact settled_topConstTarget
  | indexTarget _ _ ihcollection ihargs => exact settled_indexTarget ihcollection ihargs
  | attributeTarget _ _ _ ih => exact settled_attributeTarget ih
  | itemOfTarget _ ih => exact ih
  | itemOfTargets _ ih => exact ih
  | itemParen _ ih => exact settled_itemParen ih
  | targets h ih => exact settled_targets (fun r hr => sound_of_shaped (h r hr)) ih
  | targetsStar htargets h ihtargets ih =>
    exact settled_targetsStar (sound_of_shaped htargets) (sound_of_shaped h) ihtargets ih
  | targetsPost htargets hafter ihtargets ihafter =>
    exact settled_targetsPost (sound_of_shaped htargets) (sound_of_shaped hafter) ihtargets ihafter
  | targetsParen _ ih => exact settled_targetsParen ih
  | params hrequired hoptionals hrest hpost hkeywords hkwrest hblock ihrequired ihoptionals
      ihpost ihkeywords =>
    exact settled_params hrequired hoptionals hrest hpost hkeywords hkwrest hblock ihrequired
      ihoptionals ihpost ihkeywords
  | optionalParam hname _ ih => exact settled_optionalParam hname ih
  | requiredKeyword h => exact settled_requiredKeyword h
  | optionalKeyword _ ih => exact settled_optionalKeyword ih
  | ofParams _ ih => exact ih
  | parenParams _ ih => exact settled_parenParams ih
  | blockParams hparams _ ih => exact settled_blockParams (sound_of_shaped hparams) ih
  | block htag _ _ ihparams ihbody => exact settled_block htag ihparams ihbody
  | blockCall _ hblock ihcall ihblock =>
    exact settled_blockCall (sound_of_shaped hblock) ihcall ihblock
  | lambda hparams _ ihparams ihbody =>
    exact settled_lambda (sound_of_shaped hparams) ihparams ihbody
  | method hparams _ ihparams ihbody =>
    exact settled_method (sound_of_shaped hparams) ihparams ihbody
  | singletonMethod _ hparams _ ihreceiver ihparams ihbody =>
    exact settled_singletonMethod (sound_of_shaped hparams) ihreceiver ihparams ihbody
  | classDef _ _ _ ihconst ihparent ihbody => exact settled_classDef ihconst ihparent ihbody
  | moduleDef htag _ _ ihconst ihbody => exact settled_moduleDef htag ihconst ihbody
  | hook htag _ ih => exact settled_hook htag ih
  | documented h ih => exact settled_documented (sound_of_shaped h) ih
  | methodAlias _ _ ihnew ihold => exact settled_methodAlias ihnew ihold
  | globalAlias => exact settled_globalAlias
  | undef h ih => exact settled_undef h ih
  | literal hruns _ ih => exact settled_literal ih
  | embedded _ ih => exact settled_embedded ih
  | embeddedVariable _ ih => exact settled_embeddedVariable ih
  | string _ ih => exact settled_string ih
  | quotedCharacter => exact settled_quotedCharacter
  | concatenation _ _ ihleft ihright => exact settled_concatenation ihleft ihright
  | ofQuote _ ih => exact ih
  | commandLiteral _ ih => exact settled_commandLiteral ih
  | regexp h ih => exact settled_regexp (sound_of_shaped h) ih
  | symbol => exact settled_symbol
  | symbolName htag => exact settled_symbolName htag
  | quotedSymbol _ h ih => exact settled_quotedSymbol (sound_of_shaped h) ih
  | emptyCollection htag => exact settled_emptyCollection htag
  | array h ih => exact settled_array (sound_of_shaped h) ih
  | wordArray h ih => exact settled_wordArray (sound_of_shaped h) ih
  | words htag h ih => exact settled_words htag (fun r hr => sound_of_shaped (h r hr)) ih
  | plainWords htag h => exact settled_plainWords htag
  | hash h ih => exact settled_hash (sound_of_shaped h) ih
  | pairs h ih => exact settled_pairs h ih
  | pair _ _ ihkey ihvalue => exact settled_pair ihkey ihvalue
  | shorthandPair => exact settled_shorthandPair
  | doubleSplat _ ih => exact settled_doubleSplat ih
  | keyOfExpr _ ih => exact ih
  | label => exact settled_label

end LowerM

end RubyTree
