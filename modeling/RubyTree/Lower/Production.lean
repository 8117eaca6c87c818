/-!
# Productions

Every tag of a raw node names a way to build a node from its fields. Tags that
build alike share a production, with the tag of the result as a parameter.

## Main definitions

* `Production`: How a node is built from its fields.
* `Production.ofTag?`: The production a tag names.
-/

namespace RubyTree

/-- How a node is built from the fields of a raw node. -/
inductive Production where
  /-- The only field, as it is. -/
  | within
  /-- The only field, absent if it is an empty statement. -/
  | part
  /-- One operand. -/
  | single (tag : String)
  /-- Two operands. -/
  | double (tag : String)
  /-- No operands. -/
  | bare (tag : String)
  /-- Arguments as children. -/
  | withArgs (tag : String)
  /-- Every field as a child. -/
  | fields (tag : String)
  /-- Every element of the only field as a child. -/
  | each (tag : String)
  | statements
  | empty
  | documented
  | paren
  | hook (tag : String)
  | moduleDef
  | classDef
  | singletonClass
  | method
  | singletonMethod
  | globalAlias
  | name (tag : String)
  | constant
  | scopedConstant
  | topConstant
  | label
  | keyword
  | backReference
  | integer
  | float
  | rational
  | imaginary
  | character
  | content
  | string
  | parts (tag : String)
  | embedded
  | embeddedVariable
  | regexp
  | symbolLiteral
  | symbol
  | quotedSymbol
  | symbolWords
  | quotedSymbolWords
  | collection (tag : String)
  | pair
  | assign
  | multiAssign
  | operatorAssign
  | targets
  | targetsStar
  | targetsPost
  | valuesFromArgs
  | valuesStar
  | indexTarget
  | attributeTarget
  | call
  | command
  | commandCall
  | bareName
  | function
  | callWithArgs
  | argParen
  | argsBlock
  | argsStar
  | index
  | blockCall
  | blockBody
  | lambda
  | blockParams
  | params
  | namedParam (tag : String)
  | begin
  | body
  | rescueModifier
  | conditional
  | unlessConditional
  | ifModifier
  | unlessModifier
  | ternary
  | choice
  | loop (word : String)
  | loopModifier (word : String)
  | forLoop
  | arrayPattern
  | findPattern
  | hashPattern
  | binary
  | unary
  deriving DecidableEq, Repr

namespace Production

/-- The production that each tag names. -/
def table : List (String × Production) :=
  [ ("program", within), ("stmts", statements), ("void_stmt", empty), ("comment", documented),
    ("module", moduleDef), ("class", classDef), ("sclass", singletonClass),
    ("const_ref", within), ("const_path_ref", scopedConstant),
    ("const_path_field", scopedConstant), ("top_const_ref", topConstant),
    ("top_const_field", topConstant), ("var_ref", within), ("var_field", within),
    ("var_alias", globalAlias), ("paren", paren), ("BEGIN", hook "preexe"),
    ("END", hook "postexe"), ("defined", single "defined?"), ("alias", double "alias"),
    ("undef", each "undef"),
    ("assign", assign), ("massign", multiAssign), ("opassign", operatorAssign),
    ("mlhs", targets), ("mlhs_add_star", targetsStar), ("mlhs_add_post", targetsPost),
    ("mlhs_paren", within), ("mrhs", fields "mrhs"), ("mrhs_new_from_args", valuesFromArgs),
    ("mrhs_add_star", valuesStar), ("aref_field", indexTarget), ("field", attributeTarget),
    ("call", call), ("command", command), ("command_call", commandCall), ("vcall", bareName),
    ("fcall", function), ("method_add_arg", callWithArgs), ("arg_paren", argParen),
    ("args", fields "arglist"), ("args_add_block", argsBlock), ("args_add_star", argsStar),
    ("args_forward", bare "forwarded_args"), ("bare_assoc_hash", each "kwargs"),
    ("super", withArgs "super"), ("zsuper", bare "zsuper"), ("aref", index),
    ("method_add_block", blockCall), ("brace_block", blockBody), ("do_block", blockBody),
    ("lambda", lambda), ("block_var", blockParams), ("params", params),
    ("rest_param", namedParam "restarg"), ("kwrest_param", namedParam "kwrestarg"),
    ("blockarg", namedParam "blockarg"), ("nokw_param", bare "kwnilarg"), ("begin", begin),
    ("bodystmt", body), ("rescue_mod", rescueModifier), ("ensure", part),
    ("next", withArgs "next"), ("break", withArgs "break"), ("redo", bare "redo"),
    ("retry", bare "retry"),
    ("if", conditional), ("elsif", conditional), ("unless", unlessConditional),
    ("if_mod", ifModifier), ("unless_mod", unlessModifier), ("else", part), ("case", choice),
    ("aryptn", arrayPattern), ("fndptn", findPattern), ("hshptn", hashPattern),
    ("while", loop "while"), ("until", loop "until"), ("while_mod", loopModifier "while"),
    ("until_mod", loopModifier "until"), ("for", forLoop),
    ("def", method), ("defs", singletonMethod), ("return", withArgs "return"),
    ("return0", bare "return"), ("yield", withArgs "yield"), ("yield0", bare "yield"),
    ("binary", binary), ("unary", unary), ("dot2", double "irange"), ("dot3", double "erange"),
    ("ifop", ternary),
    ("array", collection "array"), ("hash", collection "hash"),
    ("assoclist_from_args", each "assocs"), ("assoc_new", pair),
    ("assoc_splat", single "kwsplat"),
    ("string_literal", within), ("string_content", string), ("word", string),
    ("string_embexpr", embedded), ("string_dvar", embeddedVariable),
    ("string_concat", double "dstr"), ("xstring_literal", within), ("xstring", parts "xstr"),
    ("regexp_literal", regexp), ("regexp", parts "regexp"), ("symbol_literal", symbolLiteral),
    ("symbol", symbol), ("dyna_symbol", quotedSymbol), ("words", fields "words"),
    ("qwords", fields "words"), ("qsymbols", symbolWords), ("symbols", quotedSymbolWords),
    ("@ident", name "lvar"), ("@ivar", name "ivar"), ("@gvar", name "gvar"),
    ("@cvar", name "cvar"), ("@op", name "op"), ("@const", constant), ("@label", label),
    ("@kw", keyword), ("@backref", backReference), ("@int", integer), ("@float", float),
    ("@rational", rational), ("@imaginary", imaginary), ("@CHAR", character),
    ("@tstring_content", content) ]

/-- The production a tag names. -/
def ofTag? (tag : String) : Option Production :=
  table.lookup tag

end Production

end RubyTree
