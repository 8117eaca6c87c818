import RubyTree.Proofs.Lower.Sound.Branch
import RubyTree.Proofs.Lower.Sound.Literal

/-!
# Soundness of Lowering

Every raw tree of the grammar is lowered, from every scope and under all options,
and the result is finished: no list of arguments, no empty statement, no target
that waits for its value and no block without a call is left in it, and each node
has the children that its tag asks for.

The proof is an induction over the grammar. Each of its rules has a lemma of its
own, so all that is left to do is to hand the parts of a rule to its lemma.

## Theorems

* `sound_of_shaped`: Lowering is sound for every sort of raw tree.
-/

namespace RubyTree

namespace LowerM

open Raw (node token)

theorem sound_of_shaped {k : Kind} {r : Raw} (h : Shaped k r) : Sound k r := by
  -- A rule that only says that one sort stands for another changes what is known
  -- of the tree; every other rule is a production.
  induction h with
  | program _ ih => exact yields_node rfl ih
  | absent => exact .inl rfl
  | present _ ih => exact .inr ih
  | list _ ih => exact ⟨_, rfl, ih⟩
  | variableName htag => exact sound_variable htag
  | constant => exact sound_constant
  | integer h => exact sound_integer h
  | float h => exact sound_float h
  | rational h => exact sound_rational h
  | imaginary h him => exact sound_imaginary h him
  | character h => exact (sound_character h).mono fun t ht => ht.within rfl
  | keyword h => exact sound_keyword h
  | backReference h => exact sound_backReference h
  | ofLeaf _ ih => exact ih
  | reference htag _ ih => exact sound_reference htag ih
  | constPath _ hname ih => exact sound_constPath ih hname
  | topConst hname => exact sound_topConst hname
  | bareName hname h => exact sound_bareName hname h
  | function hname h => exact sound_function hname h
  | call _ hop hname ih => exact sound_call ih hop hname
  | ofCallee _ ih => exact Yields.mono ih fun t ht => ht.value
  | callWithArgs _ _ ihcallee ihargs => exact sound_callWithArgs ihcallee ihargs
  | command hname h _ ih => exact sound_command hname h ih
  | commandCall _ hop hname _ ihreceiver ihargs =>
    exact sound_commandCall ihreceiver hop hname ihargs
  | index _ _ ihcollection ihargs => exact sound_index ihcollection ihargs
  | withArgs htag _ ih => exact sound_withArgs htag ih
  | withoutArgs htag => exact sound_withoutArgs htag
  | noArgs => exact yields_null (.inl rfl)
  | argParen _ ih => exact sound_argParen ih
  | parenArgs _ ih => exact sound_parenArgs ih
  | ofArglist _ ih => exact Yields.mono ih fun t ht => .inr (.inr (.inl ht))
  | ofArgument _ ih => exact Yields.mono ih fun t ht => .inr (.inl ht)
  | ofRow _ ih => exact Yields.mono ih fun t ht => .inr (.inr (.inr ht))
  | arglist _ ih => exact sound_arglist ih
  | argsBlock _ _ ihargs ihblock => exact sound_argsBlock ihargs ihblock
  | argsNoBlock _ hblock ih => exact sound_argsNoBlock ih hblock
  | argsStar _ _ _ ihargs ihsplatted ih => exact sound_argsStar ihargs ihsplatted ih
  | ofExpr _ ih => exact Yields.mono ih fun t ht => ht.within rfl
  | forwarded => exact sound_forwarded
  | keywordArgs _ ih => exact sound_keywordArgs ih
  | paren _ ih => exact sound_paren ih
  | emptyParen => exact sound_emptyParen
  | nothing => exact yields_null (.leaf rfl)
  | emptyStatement => exact sound_emptyStatement
  | ofBody _ ih => exact Yields.mono ih fun t ht => suite_of_optional ht
  | statements _ ih => exact sound_statements ih
  | otherwise _ ih => exact sound_otherwise ih
  | sequence _ ih => exact sound_sequence ih
  | single _ ih => exact sound_single ih
  | ofValue _ ih => exact Yields.mono ih fun t ht => ht.within rfl
  | body _ _ ihstatements ihensure => exact sound_body ihstatements ihensure
  | rescueBody _ _ _ _ ihstatements ihrescues ihotherwise ihensure =>
    exact sound_rescueBody ihstatements ihrescues ihotherwise ihensure
  | ensure _ ih => exact sound_ensure ih
  | rescues _ _ _ _ ihexceptions ihcaptured ihstatements ihnext =>
    exact sound_rescues ihexceptions ihcaptured ihstatements ihnext
  | everyException => exact sound_everyException
  | exceptions _ ih => exact sound_exceptions ih
  | exceptionRow _ ih => exact sound_exceptionRow ih
  | begin _ ih => exact sound_begin ih
  | rescueModifier _ _ ih ihhandler => exact sound_rescueModifier ih ihhandler
  | binary hop _ _ ihleft ihright => exact sound_binary hop ihleft ihright
  | unary _ ih => exact sound_unary ih
  | range htag _ _ ihlow ihhigh => exact sound_range htag ihlow ihhigh
  | defined _ ih => exact sound_defined ih
  | ternary _ _ _ ihcond ihyes ihno => exact sound_ternary ihcond ihyes ihno
  | conditional htag _ _ _ ihcond ihyes ihno => exact sound_conditional htag ihcond ihyes ihno
  | modifier htag _ _ ihcond ih => exact sound_modifier htag ihcond ih
  | loop htag _ _ ihcond ihbody => exact sound_loop htag ihcond ihbody
  | loopModifier htag _ _ ihcond ihbody => exact sound_loopModifier htag ihcond ihbody
  | forLoop _ _ _ ihtarget ihcollection ihbody => exact sound_forLoop ihtarget ihcollection ihbody
  | choice _ _ _ _ ihsubject ihvalues ihstatements ihnext =>
    exact sound_choice ihsubject ihvalues ihstatements ihnext
  | whens _ _ _ ihvalues ihstatements ihnext => exact sound_whens ihvalues ihstatements ihnext
  | noWhens => exact sound_noWhens
  | elseWhens _ ih => exact sound_elseWhens ih
  | patternChoice _ _ _ _ ihsubject ihpattern ihstatements ihnext =>
    exact sound_patternChoice ihsubject ihpattern ihstatements ihnext
  | patternMatch _ _ ihsubject ihpattern => exact sound_patternMatch ihsubject ihpattern
  | ins _ _ _ ihpattern ihstatements ihnext => exact sound_ins ihpattern ihstatements ihnext
  | noIns => exact sound_noIns
  | elseIns _ ih => exact sound_elseIns ih
  | ofPattern h ih => exact sound_ofPattern h ih
  | guarded htag _ _ ihcond ih => exact sound_guarded htag ihcond ih
  | valuePattern _ htag ih => exact sound_valuePattern ih htag
  | alternatives hop _ _ ihleft ihright => exact sound_alternatives hop ihleft ihright
  | bound h => exact sound_bound h
  | pinned _ ih => exact sound_pinned ih
  | pinnedExpr _ ih => exact sound_pinnedExpr ih
  | arrayPattern _ _ hrest _ ihconst ihbefore ihafter =>
    exact sound_arrayPattern ihconst ihbefore hrest ihafter
  | findPattern _ hbefore _ hafter ihconst ihitems =>
    exact sound_findPattern ihconst hbefore ihitems hafter
  | hashPattern _ _ hrest ihconst ihpairs => exact sound_hashPattern ihconst ihpairs hrest
  | keyPattern _ _ ihkey ihpattern => exact sound_keyPattern ihkey ihpattern
  | boundKey => exact sound_boundKey
  | assign _ _ ihtarget ihvalue => exact sound_assign ihtarget ihvalue
  | multiAssign _ _ ihtargets ihvalue => exact sound_multiAssign ihtargets ihvalue
  | operatorAssign _ _ ihtarget ihvalue => exact sound_operatorAssign ihtarget ihvalue
  | valueOfExpr _ ih => exact Yields.mono ih fun t ht => .inl ht
  | valueOfRow _ ih => exact Yields.mono ih fun t ht => .inr ht
  | row _ ih => exact sound_row ih
  | rowFromArgs _ _ ihargs ih => exact sound_rowFromArgs ihargs ih
  | rowStar _ _ _ ihitems ihsplatted ih => exact sound_rowStar ihitems ihsplatted ih
  | plainTarget => exact sound_plainTarget
  | variableTarget htag => exact sound_variableTarget htag
  | constTarget => exact sound_constTarget
  | varField _ ih => exact sound_varField ih
  | constPathTarget _ hname ih => exact sound_constPathTarget ih hname
  | topConstTarget hname => exact sound_topConstTarget hname
  | indexTarget _ _ ihcollection ihargs => exact sound_indexTarget ihcollection ihargs
  | attributeTarget _ hop hname ih => exact sound_attributeTarget ih hop hname
  | itemOfTarget _ ih => exact Yields.mono ih fun t ht => ⟨.inl ht.1, ht.2⟩
  | itemOfTargets _ ih => exact Yields.mono ih fun t ht => ⟨.inr ht.1, ht.2⟩
  | itemParen _ ih => exact sound_itemParen ih
  | targets _ ih => exact sound_targets ih
  | targetsStar _ _ ihtargets ih => exact sound_targetsStar ihtargets ih
  | targetsPost _ _ ihtargets ihafter => exact sound_targetsPost ihtargets ihafter
  | targetsParen _ ih => exact sound_targetsParen ih
  | params _ _ hrest _ _ hkwrest hblock ihrequired ihoptionals ihpost ihkeywords =>
    exact sound_params ihrequired ihoptionals hrest ihpost ihkeywords hkwrest hblock
  | optionalParam hname _ ih => exact sound_optionalParam hname ih
  | requiredKeyword h => exact sound_requiredKeyword h
  | optionalKeyword _ ih => exact sound_optionalKeyword ih
  | ofParams _ ih => exact sound_ofParams ih
  | parenParams _ ih => exact sound_parenParams ih
  | blockParams _ hlocals ih => exact sound_blockParams ih hlocals
  | block htag _ _ ihparams ihbody => exact sound_block htag ihparams ihbody
  | blockCall _ _ ihcall ihblock => exact sound_blockCall ihcall ihblock
  | lambda _ _ ihparams ihbody => exact sound_lambda ihparams ihbody
  | method _ _ ihparams ihbody => exact sound_method ihparams ihbody
  | singletonMethod _ _ _ ihreceiver ihparams ihbody =>
    exact sound_singletonMethod ihreceiver ihparams ihbody
  | classDef _ _ _ ihconst ihparent ihbody => exact sound_classDef ihconst ihparent ihbody
  | moduleDef htag _ _ ihconst ihbody => exact sound_moduleDef htag ihconst ihbody
  | hook htag _ ih => exact sound_hook htag ih
  | documented _ ih => exact sound_documented ih
  | methodAlias _ _ ihnew ihold => exact sound_methodAlias ihnew ihold
  | globalAlias hnew hold => exact sound_globalAlias hnew hold
  | undef _ ih => exact sound_undef ih
  | literal hruns _ ih => exact sound_literal hruns ih
  | embedded _ ih => exact sound_embedded ih
  | embeddedVariable _ ih => exact sound_embeddedVariable ih
  | string _ ih => exact sound_string ih
  | quotedCharacter h => exact sound_character h
  | concatenation _ _ ihleft ihright => exact sound_concatenation ihleft ihright
  | ofQuote _ ih => exact Yields.mono ih fun t ht => ht.within rfl
  | commandLiteral _ ih => exact sound_commandLiteral ih
  | regexp _ ih => exact sound_regexp ih
  | symbol htag => exact sound_symbol htag
  | symbolName htag => exact sound_symbolName htag
  | quotedSymbol hkind _ ih => exact sound_quotedSymbol hkind ih
  | emptyCollection htag => exact sound_emptyCollection htag
  | array _ ih => exact sound_array ih
  | wordArray _ ih => exact sound_wordArray ih
  | words htag _ ih => exact sound_words htag ih
  | plainWords htag h => exact sound_plainWords htag h
  | hash _ ih => exact sound_hash ih
  | pairs _ ih => exact sound_pairs ih
  | pair _ _ ihkey ihvalue => exact sound_pair ihkey ihvalue
  | shorthandPair h => exact sound_shorthandPair h
  | doubleSplat _ ih => exact sound_doubleSplat ih
  | keyOfExpr _ ih => exact ih
  | label => exact sound_label

end LowerM

end RubyTree
