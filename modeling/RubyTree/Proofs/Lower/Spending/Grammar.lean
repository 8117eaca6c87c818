import RubyTree.Proofs.Lower.Spending.Branch
import RubyTree.Proofs.Lower.Spending.Definition

/-!
# Spending by the Grammar

Whatever a raw tree of the grammar is lowered to has been paid for: its numbers
are new, and none of them counts twice. The proof is an induction over the
grammar, like that of soundness, and it needs soundness too. What tells that a
node may be taken apart is the form that its sort gives it. Each production has a
lemma of its own.

## Theorems

* `thrifty_of_shaped`: Lowering spends new numbers only, for every sort of raw tree.
-/

namespace RubyTree

namespace LowerM

open Raw (node token)

/-- Lowering spends new numbers only, for every sort of raw tree. -/
theorem thrifty_of_shaped {k : Kind} {r : Raw} (h : Shaped k r) : Thrifty k r := by
  -- By the shape: the parts draw their own numbers, and a production takes each of them once.
  induction h with
  | program _ ih => exact thrifty_program ih
  | absent => exact .inl rfl
  | present _ ih => exact .inr ih
  | list _ ih => exact ⟨_, rfl, ih⟩
  | variableName htag => exact thrifty_variableName htag
  | constant => exact thrifty_constant
  | integer => exact thrifty_integer
  | float => exact thrifty_float
  | rational => exact thrifty_rational
  | imaginary => exact thrifty_imaginary
  | character => exact thrifty_character
  | keyword => exact thrifty_keyword
  | backReference => exact thrifty_backReference
  | ofLeaf _ ih => exact ih
  | reference htag _ ih => exact thrifty_reference htag ih
  | constPath _ _ ih => exact thrifty_constPath ih
  | topConst => exact thrifty_topConst
  | bareName => exact thrifty_bareName
  | function => exact thrifty_function
  | call _ _ _ ih => exact thrifty_call ih
  | ofCallee _ ih => exact ih
  | callWithArgs hcallee _ ihcallee ihargs =>
    exact thrifty_callWithArgs (sound_of_shaped hcallee) ihcallee ihargs
  | command _ _ _ ih => exact thrifty_command ih
  | commandCall _ _ _ _ ihreceiver ihargs => exact thrifty_commandCall ihreceiver ihargs
  | index _ _ ihcollection ihargs => exact thrifty_index ihcollection ihargs
  | withArgs htag _ ih => exact thrifty_withArgs htag ih
  | withoutArgs htag => exact thrifty_withoutArgs htag
  | noArgs => exact thrifty_noArgs
  | argParen _ ih => exact thrifty_argParen ih
  | parenArgs _ ih => exact thrifty_parenArgs ih
  | ofArglist _ ih => exact ih
  | ofArgument _ ih => exact ih
  | ofRow _ ih => exact ih
  | arglist _ ih => exact thrifty_arglist ih
  | argsBlock _ _ ihargs ihblock => exact thrifty_argsBlock ihargs ihblock
  | argsNoBlock _ hblock ih => exact thrifty_argsNoBlock ih hblock
  | argsStar hargs _ _ ihargs ihsplatted ih =>
    exact thrifty_argsStar (sound_of_shaped hargs) ihargs ihsplatted ih
  | ofExpr _ ih => exact ih
  | forwarded => exact thrifty_forwarded
  | keywordArgs _ ih => exact thrifty_keywordArgs ih
  | paren _ ih => exact thrifty_paren ih
  | emptyParen => exact thrifty_emptyParen
  | nothing => exact thrifty_nothing
  | emptyStatement => exact thrifty_emptyStatement
  | ofBody _ ih => exact ih
  | statements _ ih => exact thrifty_statements ih
  | otherwise _ ih => exact thrifty_otherwise ih
  | sequence _ ih => exact thrifty_sequence ih
  | single _ ih => exact thrifty_single ih
  | ofValue _ ih => exact ih
  | body _ _ ihstatements ihensure => exact thrifty_body ihstatements ihensure
  | rescueBody _ _ _ _ ihstatements ihrescues ihotherwise ihensure =>
    exact thrifty_rescueBody ihstatements ihrescues ihotherwise ihensure
  | ensure _ ih => exact thrifty_ensure ih
  | rescues _ hcaptured _ _ ihexceptions ihcaptured ihstatements ihnext =>
    exact thrifty_rescues ihexceptions (sound_of_shaped hcaptured) ihcaptured ihstatements ihnext
  | everyException => exact thrifty_everyException
  | exceptions h ih => exact thrifty_exceptions h ih
  | exceptionRow _ ih => exact thrifty_exceptionRow ih
  | begin _ ih => exact thrifty_begin ih
  | rescueModifier _ _ ih ihhandler => exact thrifty_rescueModifier ih ihhandler
  | binary hop _ _ ihleft ihright => exact thrifty_binary hop ihleft ihright
  | unary _ ih => exact thrifty_unary ih
  | range htag _ _ ihlow ihhigh => exact thrifty_range htag ihlow ihhigh
  | defined _ ih => exact thrifty_defined ih
  | ternary _ _ _ ihcond ihyes ihno => exact thrifty_ternary ihcond ihyes ihno
  | conditional htag _ _ _ ihcond ihyes ihno => exact thrifty_conditional htag ihcond ihyes ihno
  | modifier htag _ _ ihcond ih => exact thrifty_modifier htag ihcond ih
  | loop htag _ _ ihcond ihbody => exact thrifty_loop htag ihcond ihbody
  | loopModifier htag _ _ ihcond ihbody => exact thrifty_loopModifier htag ihcond ihbody
  | forLoop htarget _ _ ihtarget ihcollection ihbody =>
    exact thrifty_forLoop (sound_of_shaped htarget) ihtarget ihcollection ihbody
  | choice _ _ _ _ ihsubject ihvalues ihstatements ihnext =>
    exact thrifty_choice (fresh_of_optional ihsubject id) ihvalues ihstatements ihnext
  | whens _ _ _ ihvalues ihstatements ihnext => exact thrifty_whens ihvalues ihstatements ihnext
  | noWhens => exact thrifty_noWhens
  | elseWhens _ ih => exact thrifty_elseWhens ih
  | patternChoice _ _ _ _ ihsubject ihpattern ihstatements ihnext =>
    exact thrifty_patternChoice ihsubject ihpattern ihstatements ihnext
  | patternMatch _ _ ihsubject ihpattern => exact thrifty_patternMatch ihsubject ihpattern
  | ins _ _ _ ihpattern ihstatements ihnext => exact thrifty_ins ihpattern ihstatements ihnext
  | noIns => exact thrifty_noIns
  | elseIns _ ih => exact thrifty_elseIns ih
  | ofPattern h ih => exact thrifty_ofPattern h ih
  | guarded htag _ _ ihcond ih => exact thrifty_guarded htag ihcond ih
  | valuePattern _ htag ih => exact thrifty_valuePattern ih htag
  | alternatives hop _ _ ihleft ihright => exact thrifty_alternatives hop ihleft ihright
  | bound h => exact thrifty_bound h
  | pinned _ ih => exact thrifty_pinned ih
  | pinnedExpr _ ih => exact thrifty_pinnedExpr ih
  | arrayPattern _ _ _ _ ihconst ihbefore ihafter =>
    exact thrifty_arrayPattern ihconst ihbefore ihafter
  | findPattern _ _ _ _ ihconst ihitems => exact thrifty_findPattern ihconst ihitems
  | hashPattern _ _ _ ihconst ihpairs => exact thrifty_hashPattern ihconst ihpairs
  | keyPattern _ _ ihkey ihpattern => exact thrifty_keyPattern ihkey fun _ => ihpattern
  | boundKey => exact thrifty_boundKey
  | assign htarget _ ihtarget ihvalue =>
    exact thrifty_assign (sound_of_shaped htarget) ihtarget ihvalue
  | multiAssign _ _ ihtargets ihvalue => exact thrifty_multiAssign ihtargets ihvalue
  | operatorAssign htarget _ ihtarget ihvalue =>
    exact thrifty_operatorAssign (sound_of_shaped htarget) ihtarget ihvalue
  | valueOfExpr _ ih => exact ih
  | valueOfRow _ ih => exact ih
  | row _ ih => exact thrifty_row ih
  | rowFromArgs _ _ ihargs ih => exact thrifty_rowFromArgs ihargs ih
  | rowStar hitems hsplatted h ihitems ihsplatted ih =>
    exact thrifty_rowStar (sound_of_shaped hitems) (sound_of_shaped hsplatted)
      (fun r hr => sound_of_shaped (h r hr)) (fresh_of_optional ihitems id) ihsplatted ih
  | plainTarget => exact thrifty_plainTarget
  | variableTarget htag => exact thrifty_variableTarget htag
  | constTarget => exact thrifty_constTarget
  | varField _ ih => exact thrifty_varField ih
  | constPathTarget _ _ ih => exact thrifty_constPathTarget ih
  | topConstTarget => exact thrifty_topConstTarget
  | indexTarget _ _ ihcollection ihargs => exact thrifty_indexTarget ihcollection ihargs
  | attributeTarget _ _ _ ih => exact thrifty_attributeTarget ih
  | itemOfTarget _ ih => exact ih
  | itemOfTargets _ ih => exact ih
  | itemParen _ ih => exact thrifty_itemParen ih
  | targets h ih => exact thrifty_targets (fun r hr => sound_of_shaped (h r hr)) ih
  | targetsStar htargets h ihtargets ih =>
    exact thrifty_targetsStar (sound_of_shaped htargets) (sound_of_shaped h) ihtargets
      (fresh_of_optional ih id)
  | targetsPost htargets hafter ihtargets ihafter =>
    exact thrifty_targetsPost (sound_of_shaped htargets) (sound_of_shaped hafter) ihtargets ihafter
  | targetsParen _ ih => exact thrifty_targetsParen ih
  | params hrequired _ hrest hpost _ hkwrest hblock ihrequired ihoptionals ihpost ihkeywords =>
    exact thrifty_params (sound_of_shaped hrequired) hrest (sound_of_shaped hpost) hkwrest hblock
      ihrequired ihoptionals ihpost ihkeywords
  | optionalParam _ _ ih => exact thrifty_optionalParam ih
  | requiredKeyword h => exact thrifty_requiredKeyword h
  | optionalKeyword _ ih => exact thrifty_optionalKeyword ih
  | ofParams _ ih => exact ih
  | parenParams _ ih => exact thrifty_parenParams ih
  | blockParams hparams _ ih => exact thrifty_blockParams (sound_of_shaped hparams) ih
  | block htag _ _ ihparams ihbody => exact thrifty_block htag ihparams ihbody
  | blockCall _ hblock ihcall ihblock =>
    exact thrifty_blockCall (sound_of_shaped hblock) ihcall ihblock
  | lambda _ _ ihparams ihbody => exact thrifty_lambda ihparams ihbody
  | method _ _ ihparams ihbody => exact thrifty_method ihparams ihbody
  | singletonMethod _ _ _ ihreceiver ihparams ihbody =>
    exact thrifty_singletonMethod ihreceiver ihparams ihbody
  | classDef _ _ _ ihconst ihparent ihbody => exact thrifty_classDef ihconst ihparent ihbody
  | moduleDef htag _ _ ihconst ihbody => exact thrifty_moduleDef htag ihconst ihbody
  | hook htag _ ih => exact thrifty_hook htag ih
  | documented _ ih => exact thrifty_documented ih
  | methodAlias _ _ ihnew ihold => exact thrifty_methodAlias ihnew ihold
  | globalAlias => exact thrifty_globalAlias
  | undef _ ih => exact thrifty_undef ih
  | literal hruns _ ih => exact thrifty_literal ih
  | embedded _ ih => exact thrifty_embedded ih
  | embeddedVariable _ ih => exact thrifty_embeddedVariable ih
  | string _ ih => exact thrifty_string ih
  | quotedCharacter => exact thrifty_quotedCharacter
  | concatenation _ _ ihleft ihright => exact thrifty_concatenation ihleft ihright
  | ofQuote _ ih => exact ih
  | commandLiteral _ ih => exact thrifty_commandLiteral ih
  | regexp h ih => exact thrifty_regexp (sound_of_shaped h) ih
  | symbol => exact thrifty_symbol
  | symbolName htag => exact thrifty_symbolName htag
  | quotedSymbol _ h ih => exact thrifty_quotedSymbol (sound_of_shaped h) ih
  | emptyCollection htag => exact thrifty_emptyCollection htag
  | array h ih => exact thrifty_array (sound_of_shaped h) ih
  | wordArray h ih => exact thrifty_wordArray (sound_of_shaped h) ih
  | words htag h ih => exact thrifty_words htag (fun r hr => sound_of_shaped (h r hr)) ih
  | plainWords htag h => exact thrifty_plainWords htag
  | hash h ih => exact thrifty_hash (sound_of_shaped h) ih
  | pairs _ ih => exact thrifty_pairs ih
  | pair _ _ ihkey ihvalue => exact thrifty_pair ihkey ihvalue
  | shorthandPair => exact thrifty_shorthandPair
  | doubleSplat _ ih => exact thrifty_doubleSplat ih
  | keyOfExpr _ ih => exact ih
  | label => exact thrifty_label

end LowerM

end RubyTree
