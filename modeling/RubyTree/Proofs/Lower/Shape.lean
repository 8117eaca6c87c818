import RubyTree.Proofs.Lower.LiteralContent

/-!
# Shapes of Raw Trees

Nothing is known about a raw tree in general, and lowering refuses most of them.
Here is the grammar of those that a program leaves behind: which nodes may stand
for an expression, for an argument list or for a pattern, and what their fields
are in turn. It is as wide as lowering allows. Wherever code may stand, a body,
a sequence, a branch or a single expression may, and a name may be a token or a
bare symbol.

Some values are not free. A number has a value, a character and the content of a
literal can be decoded, and a keyword is one that stands for a value. A method
called without a receiver is not named like the negation, which is what makes an
operator and a name different things.

## Main definitions

* `Raw.node`, `Raw.token`: Nodes and tokens.
* `Named`: A name as it is written.
* `Joined`: The operator between a receiver and a name.
* `Special`: A parameter of which there is at most one.
* `RestPattern`: What a pattern binds the rest to.
* `Kind`: The sorts of the grammar.
* `Shaped`: A raw tree of a sort.
-/

namespace RubyTree

namespace Raw

/-- A node with its fields. -/
abbrev node (tag : String) (fields : Fields) : Raw :=
  list (str tag :: fields)

/-- A scanned token. -/
abbrev token (tag text : String) (place : Raw) : Raw :=
  node tag [str text, place]

end Raw

namespace LowerM

open Raw (node token)

/-- What a name is written as: a bare symbol, or a token. -/
inductive Named : Raw → String → Prop where
  | bare (name : String) : Named (.sym name) name
  | token (tag name : String) (place : Raw) : Named (token tag name place) name

/-- The operators between a receiver and a name. -/
def joiners : List String :=
  [".", "::", "&."]

/-- Such an operator, given as a token or by itself. -/
inductive Joined : Raw → Prop where
  | bare {op : String} (h : op ∈ joiners) : Joined (.sym op)
  | token {tag op : String} {place : Raw} (h : op ∈ joiners) : Joined (token tag op place)

/-- A name that may be left out. -/
inductive OptionallyNamed : Raw → Prop where
  | absent : OptionallyNamed .null
  | named {r : Raw} {name : String} (h : Named r name) : OptionallyNamed r

/-- A parameter of which there is at most one in a list, or nothing. -/
inductive Special : Raw → Prop where
  | absent : Special .null
  | named {tag : String} {name : Raw} (htag : tag ∈ ["rest_param", "kwrest_param", "blockarg"])
      (hname : OptionallyNamed name) : Special (node tag [name])
  | noKeywords : Special (node "nokw_param" [])
  | noKeywordsByName : Special (.sym "nil")
  | forwarded : Special (node "args_forward" [])

/-- What a pattern binds the rest of a list or hash to. -/
inductive RestPattern : Raw → Prop where
  | unnamed : RestPattern (node "var_field" [.null])
  | named (tag name : String) (place : Raw) : RestPattern (node "var_field" [token tag name place])

/-- The keywords that are values. -/
def valueKeywords : List String :=
  ["self", "nil", "true", "false", "__FILE__", "__LINE__", "__ENCODING__"]

/-- The tags of variables. -/
def variableTags : List String :=
  ["@ident", "@ivar", "@gvar", "@cvar"]

/-- The tags that have a meaning of their own in the position of a pattern. -/
def patternTags : List String :=
  ["binary", "var_field", "var_ref", "begin", "if_mod", "unless_mod"]

/-- The names that are local to a block, if there are any. -/
inductive Locals : Raw → Prop where
  | absent : Locals .null
  | none : Locals (.bool false)
  | names {rs : List Raw} (h : ∀ r ∈ rs, ∃ name, Named r name) : Locals (.list rs)

/-- The sorts of the grammar. -/
inductive Kind where
  | program
  /-- A token that is a value. -/
  | leaf
  | expr
  /-- A body with its clauses, or an expression in place of one. -/
  | body
  /-- A statement, a sequence, a body or a branch, or nothing. -/
  | code
  /-- The statements of a body. -/
  | sequence
  | ensure
  /-- A call that arguments may follow. -/
  | callee
  /-- Arguments, with or without brackets, or none. -/
  | args
  | arglist
  | argument
  /-- Several values on the right of an assignment. -/
  | row
  /-- What is assigned. -/
  | values
  | params
  /-- The parameters of a lambda or method, which may be in parentheses. -/
  | paramList
  /-- The parameters of a block, between bars. -/
  | blockParams
  | optionalParam
  | keywordParam
  | block
  /-- What is assigned to. It can be a parameter as well, if it is `plain`. -/
  | target (plain : Bool)
  /-- A target in a list of them. -/
  | item (plain : Bool)
  | targets (plain : Bool)
  | pair
  | key
  | pairs
  | words
  | literal (kind : LiteralKind)
  /-- A string, or several side by side. -/
  | quote
  | interpolation
  | pattern
  /-- A pattern with or without a guard. -/
  | guarded
  | keyPattern
  | exceptions
  /-- The rescue clauses of a body, from one on. -/
  | rescues
  /-- The clauses of a choice, from one on, and what is done otherwise. -/
  | whens
  | ins
  | optional (k : Kind)
  | listOf (k : Kind)

/-- A raw tree of a sort. -/
inductive Shaped : Kind → Raw → Prop where
  | program {r : Raw} (h : Shaped .code r) : Shaped .program (node "program" [r])
  | absent {k : Kind} : Shaped (.optional k) .null
  | present {k : Kind} {r : Raw} (h : Shaped k r) : Shaped (.optional k) r
  | list {k : Kind} {rs : List Raw} (h : ∀ r ∈ rs, Shaped k r) : Shaped (.listOf k) (.list rs)
  -- Tokens that are values.
  | variableName {tag name : String} {place : Raw} (htag : tag ∈ variableTags) :
      Shaped .leaf (token tag name place)
  | constant {name : String} {place : Raw} : Shaped .leaf (token "@const" name place)
  | integer {text : String} {place : Raw} {n : Int} (h : integerLiteral text.toList = .ok n) :
      Shaped .leaf (token "@int" text place)
  | float {text : String} {place : Raw} {x : Binary64} (h : floatLiteral text.toList = .ok x) :
      Shaped .leaf (token "@float" text place)
  | rational {text : String} {place : Raw} {q : Rat}
      (h : rationalLiteral text.toList.dropLast = .ok q) :
      Shaped .leaf (token "@rational" text place)
  | imaginary {text : String} {place : Raw} {x : RealNumber} {im : Binary64}
      (h : realLiteral text.toList.dropLast = .ok x) (him : imaginaryPart x = .ok im) :
      Shaped .leaf (token "@imaginary" text place)
  | character {text : String} {place : Raw} {cs : List Char}
      (h : unescapeChar text.toList.tail = .ok (.inl cs)) : Shaped .leaf (token "@CHAR" text place)
  | keyword {word : String} {line : Int} {rest : List Raw} (h : word ∈ valueKeywords) :
      Shaped .leaf (token "@kw" word (.list (.int line :: rest)))
  | backReference {text : String} {place : Raw}
      (h : text.toList.tail.all Text.isDigit → (Numeral.readInt? 10 text.toList.tail).isSome) :
      Shaped .leaf (token "@backref" text place)
  -- Names and constants.
  | ofLeaf {r : Raw} (h : Shaped .leaf r) : Shaped .expr r
  | reference {tag : String} {r : Raw} (htag : tag ∈ ["var_ref", "const_ref"])
      (h : Shaped .leaf r) : Shaped .expr (node tag [r])
  | constPath {scope r : Raw} {name : String} (hscope : Shaped .expr scope) (hname : Named r name) :
      Shaped .expr (node "const_path_ref" [scope, r])
  | topConst {r : Raw} {name : String} (hname : Named r name) :
      Shaped .expr (node "top_const_ref" [r])
  -- Calls.
  | bareName {r : Raw} {name : String} (hname : Named r name) (h : name ≠ "!") :
      Shaped .expr (node "vcall" [r])
  | function {r : Raw} {name : String} (hname : Named r name) (h : name ≠ "!") :
      Shaped .callee (node "fcall" [r])
  | call {receiver op r : Raw} {name : String} (hreceiver : Shaped .expr receiver) (hop : Joined op)
      (hname : Named r name) : Shaped .callee (node "call" [receiver, op, r])
  | ofCallee {r : Raw} (h : Shaped .callee r) : Shaped .expr r
  | callWithArgs {callee args : Raw} (hcallee : Shaped .callee callee) (hargs : Shaped .args args) :
      Shaped .expr (node "method_add_arg" [callee, args])
  | command {r args : Raw} {name : String} (hname : Named r name) (h : name ≠ "!")
      (hargs : Shaped .args args) : Shaped .expr (node "command" [r, args])
  | commandCall {receiver op r args : Raw} {name : String} (hreceiver : Shaped .expr receiver)
      (hop : Joined op) (hname : Named r name) (hargs : Shaped .args args) :
      Shaped .expr (node "command_call" [receiver, op, r, args])
  | index {collection args : Raw} (hcollection : Shaped .expr collection)
      (hargs : Shaped .args args) : Shaped .expr (node "aref" [collection, args])
  | withArgs {tag : String} {args : Raw}
      (htag : tag ∈ ["super", "return", "yield", "next", "break"])
      (hargs : Shaped .args args) : Shaped .expr (node tag [args])
  | withoutArgs {tag : String} (htag : tag ∈ ["zsuper", "return0", "yield0", "redo", "retry"]) :
      Shaped .expr (node tag [])
  -- Arguments.
  | noArgs : Shaped .args .null
  | argParen {r : Raw} (h : Shaped .args r) : Shaped .args (node "arg_paren" [r])
  | parenArgs {r : Raw} (h : Shaped .arglist r) : Shaped .args (node "paren" [r])
  | ofArglist {r : Raw} (h : Shaped .arglist r) : Shaped .args r
  | ofArgument {r : Raw} (h : Shaped .argument r) : Shaped .args r
  | ofRow {r : Raw} (h : Shaped .row r) : Shaped .args r
  | arglist {rs : List Raw} (h : ∀ r ∈ rs, Shaped .argument r) : Shaped .arglist (node "args" rs)
  | argsBlock {args block : Raw} (hargs : Shaped .args args) (hblock : Shaped .expr block) :
      Shaped .arglist (node "args_add_block" [args, block])
  | argsNoBlock {args block : Raw} (hargs : Shaped .args args)
      (hblock : block = .null ∨ ∃ b, block = .bool b) :
      Shaped .arglist (node "args_add_block" [args, block])
  | argsStar {args splatted : Raw} {rs : List Raw} (hargs : Shaped (.optional .arglist) args)
      (hsplatted : Shaped (.optional .expr) splatted) (h : ∀ r ∈ rs, Shaped .argument r) :
      Shaped .arglist (node "args_add_star" (args :: splatted :: rs))
  | ofExpr {r : Raw} (h : Shaped .expr r) : Shaped .argument r
  | forwarded : Shaped .argument (node "args_forward" [])
  | keywordArgs {rs : List Raw} (h : ∀ r ∈ rs, Shaped .pair r) :
      Shaped .argument (node "bare_assoc_hash" [.list rs])
  -- Sequences and bodies.
  | paren {r : Raw} (h : Shaped .code r) : Shaped .expr (node "paren" [r])
  | emptyParen : Shaped .expr (node "paren" [.bool false])
  | nothing : Shaped .code .null
  | emptyStatement {fields : List Raw} : Shaped .code (node "void_stmt" fields)
  | ofBody {r : Raw} (h : Shaped .body r) : Shaped .code r
  | statements {rs : List Raw} (h : ∀ r ∈ rs, Shaped .code r) : Shaped .code (node "stmts" rs)
  | otherwise {r : Raw} (h : Shaped .code r) : Shaped .code (node "else" [r])
  | sequence {rs : List Raw} (h : ∀ r ∈ rs, Shaped .code r) : Shaped .sequence (node "stmts" rs)
  | single {r : Raw} (h : Shaped .expr r) : Shaped .sequence r
  | ofValue {r : Raw} (h : Shaped .expr r) : Shaped .body r
  | body {statements ensure : Raw} (hstatements : Shaped .sequence statements)
      (hensure : Shaped (.optional .ensure) ensure) :
      Shaped .body (node "bodystmt" [statements, .null, .null, ensure])
  | rescueBody {statements rescues otherwise ensure : Raw}
      (hstatements : Shaped .sequence statements) (hrescues : Shaped .rescues rescues)
      (hotherwise : Shaped .code otherwise) (hensure : Shaped (.optional .ensure) ensure) :
      Shaped .body (node "bodystmt" [statements, rescues, otherwise, ensure])
  | ensure {r : Raw} (h : Shaped .code r) : Shaped .ensure (node "ensure" [r])
  | rescues {exceptions captured statements next : Raw}
      (hexceptions : Shaped .exceptions exceptions)
      (hcaptured : Shaped (.optional (.item false)) captured)
      (hstatements : Shaped .code statements)
      (hnext : Shaped (.optional .rescues) next) :
      Shaped .rescues (node "rescue" [exceptions, captured, statements, next])
  | everyException : Shaped .exceptions .null
  | exceptions {rs : List Raw} (h : ∀ r ∈ rs, Shaped .expr r) : Shaped .exceptions (.list rs)
  | exceptionRow {tag : String} {fields : List Raw} (h : Shaped .row (node tag fields)) :
      Shaped .exceptions (node tag fields)
  | begin {fields rest : List Raw} (h : Shaped .body (node "bodystmt" fields)) :
      Shaped .expr (node "begin" (node "bodystmt" fields :: rest))
  | rescueModifier {r handler : Raw} (h : Shaped .expr r) (hhandler : Shaped .expr handler) :
      Shaped .expr (node "rescue_mod" [r, handler])
  -- Operators.
  | binary {left right : Raw} {op : String} (hop : op ≠ "=>") (hleft : Shaped .expr left)
      (hright : Shaped .expr right) : Shaped .expr (node "binary" [left, .sym op, right])
  | unary {r : Raw} {op : String} (h : Shaped .expr r) : Shaped .expr (node "unary" [.sym op, r])
  | range {tag : String} {low high : Raw} (htag : tag ∈ ["dot2", "dot3"])
      (hlow : Shaped (.optional .expr) low) (hhigh : Shaped (.optional .expr) high) :
      Shaped .expr (node tag [low, high])
  | defined {r : Raw} (h : Shaped .expr r) : Shaped .expr (node "defined" [r])
  | ternary {cond yes no : Raw} (hcond : Shaped .expr cond) (hyes : Shaped .expr yes)
      (hno : Shaped .expr no) : Shaped .expr (node "ifop" [cond, yes, no])
  -- Branches and loops.
  | conditional {tag : String} {cond yes no : Raw} (htag : tag ∈ ["if", "elsif", "unless"])
      (hcond : Shaped .expr cond) (hyes : Shaped .code yes) (hno : Shaped .code no) :
      Shaped .expr (node tag [cond, yes, no])
  | modifier {tag : String} {cond r : Raw} (htag : tag ∈ ["if_mod", "unless_mod"])
      (hcond : Shaped .expr cond) (h : Shaped .expr r) : Shaped .expr (node tag [cond, r])
  | loop {tag : String} {cond body : Raw} (htag : tag ∈ ["while", "until"])
      (hcond : Shaped .expr cond) (hbody : Shaped .code body) : Shaped .expr (node tag [cond, body])
  | loopModifier {tag : String} {cond body : Raw} (htag : tag ∈ ["while_mod", "until_mod"])
      (hcond : Shaped .expr cond) (hbody : Shaped .expr body) : Shaped .expr (node tag [cond, body])
  | forLoop {target collection body : Raw} (htarget : Shaped (.item false) target)
      (hcollection : Shaped .expr collection) (hbody : Shaped .code body) :
      Shaped .expr (node "for" [target, collection, body])
  | choice {subject values statements next : Raw} (hsubject : Shaped (.optional .expr) subject)
      (hvalues : Shaped .args values) (hstatements : Shaped .code statements)
      (hnext : Shaped .whens next) :
      Shaped .expr (node "case" [subject, node "when" [values, statements, next]])
  | whens {values statements next : Raw} (hvalues : Shaped .args values)
      (hstatements : Shaped .code statements) (hnext : Shaped .whens next) :
      Shaped .whens (node "when" [values, statements, next])
  | noWhens : Shaped .whens .null
  | elseWhens {r : Raw} (h : Shaped .code r) : Shaped .whens (node "else" [r])
  | patternChoice {subject pattern statements next : Raw} (hsubject : Shaped .expr subject)
      (hpattern : Shaped .guarded pattern) (hstatements : Shaped .code statements)
      (hnext : Shaped .ins next) :
      Shaped .expr (node "case" [subject, node "in" [pattern, statements, next]])
  | patternMatch {subject pattern : Raw} {rest : List Raw} (hsubject : Shaped .expr subject)
      (hpattern : Shaped .guarded pattern) :
      Shaped .expr (node "case" [subject, node "right_assign" (pattern :: rest)])
  | ins {pattern statements next : Raw} (hpattern : Shaped .guarded pattern)
      (hstatements : Shaped .code statements) (hnext : Shaped .ins next) :
      Shaped .ins (node "in" [pattern, statements, next])
  | noIns : Shaped .ins .null
  | elseIns {r : Raw} (h : Shaped .code r) : Shaped .ins (node "else" [r])
  -- Patterns.
  | ofPattern {r : Raw} (h : Shaped .pattern r) : Shaped .guarded r
  | guarded {tag : String} {cond r : Raw} (htag : tag ∈ ["if_mod", "unless_mod"])
      (hcond : Shaped .expr cond) (h : Shaped .pattern r) : Shaped .guarded (node tag [cond, r])
  | valuePattern {r : Raw} (h : Shaped .expr r) (htag : ∀ tag ∈ patternTags, r.hasTag tag = false) :
      Shaped .pattern r
  | alternatives {left right : Raw} {op : String} (hop : op ∈ ["|", "=>"])
      (hleft : Shaped .pattern left) (hright : Shaped .pattern right) :
      Shaped .pattern (node "binary" [left, .sym op, right])
  | bound {r : Raw} (h : RestPattern r) : Shaped .pattern r
  | pinned {r : Raw} (h : Shaped .leaf r) : Shaped .pattern (node "var_ref" [r])
  | pinnedExpr {r : Raw} (h : Shaped .expr r) : Shaped .pattern (node "begin" [r])
  | arrayPattern {const before rest after : Raw} (hconst : Shaped (.optional .expr) const)
      (hbefore : Shaped (.optional (.listOf .pattern)) before)
      (hrest : rest = .null ∨ RestPattern rest)
      (hafter : Shaped (.optional (.listOf .pattern)) after) :
      Shaped .pattern (node "aryptn" [const, before, rest, after])
  | findPattern {const before items after : Raw} (hconst : Shaped (.optional .expr) const)
      (hbefore : RestPattern before) (hitems : Shaped (.optional (.listOf .pattern)) items)
      (hafter : RestPattern after) : Shaped .pattern (node "fndptn" [const, before, items, after])
  | hashPattern {const pairs rest : Raw} (hconst : Shaped (.optional .expr) const)
      (hpairs : Shaped (.optional (.listOf .keyPattern)) pairs)
      (hrest : rest = .null ∨ refusesRest rest ∨ RestPattern rest) :
      Shaped .pattern (node "hshptn" [const, pairs, rest])
  | keyPattern {key pattern : Raw} (hkey : Shaped .key key) (hpattern : Shaped .pattern pattern) :
      Shaped .keyPattern (.list [key, pattern])
  | boundKey {name : String} {place : Raw} :
      Shaped .keyPattern (.list [token "@label" name place, .null])
  -- Assignment.
  | assign {target value : Raw} (htarget : Shaped (.target false) target)
      (hvalue : Shaped .values value) : Shaped .expr (node "assign" [target, value])
  | multiAssign {targets value : Raw} (htargets : Shaped (.targets false) targets)
      (hvalue : Shaped .values value) : Shaped .expr (node "massign" [targets, value])
  | operatorAssign {target value place : Raw} {tag op : String}
      (htarget : Shaped (.target false) target) (hvalue : Shaped .expr value) :
      Shaped .expr (node "opassign" [target, token tag op place, value])
  | valueOfExpr {r : Raw} (h : Shaped .expr r) : Shaped .values r
  | valueOfRow {r : Raw} (h : Shaped .row r) : Shaped .values r
  | row {rs : List Raw} (h : ∀ r ∈ rs, Shaped .argument r) : Shaped .row (node "mrhs" rs)
  | rowFromArgs {args : Raw} {rs : List Raw} (hargs : Shaped .args args)
      (h : ∀ r ∈ rs, Shaped .argument r) : Shaped .row (node "mrhs_new_from_args" (args :: rs))
  | rowStar {items splatted : Raw} {rs : List Raw} (hitems : Shaped (.optional .row) items)
      (hsplatted : Shaped .expr splatted) (h : ∀ r ∈ rs, Shaped .argument r) :
      Shaped .row (node "mrhs_add_star" (items :: splatted :: rs))
  | plainTarget {plain : Bool} {name : String} {place : Raw} :
      Shaped (.target plain) (token "@ident" name place)
  | variableTarget {tag name : String} {place : Raw} (htag : tag ∈ variableTags) :
      Shaped (.target false) (token tag name place)
  | constTarget {name : String} {place : Raw} : Shaped (.target false) (token "@const" name place)
  | varField {plain : Bool} {r : Raw} (h : Shaped (.target plain) r) :
      Shaped (.target plain) (node "var_field" [r])
  | constPathTarget {scope r : Raw} {name : String} (hscope : Shaped .expr scope)
      (hname : Named r name) : Shaped (.target false) (node "const_path_field" [scope, r])
  | topConstTarget {r : Raw} {name : String} (hname : Named r name) :
      Shaped (.target false) (node "top_const_field" [r])
  | indexTarget {collection args : Raw} (hcollection : Shaped .expr collection)
      (hargs : Shaped .args args) : Shaped (.target false) (node "aref_field" [collection, args])
  | attributeTarget {receiver op r : Raw} {name : String} (hreceiver : Shaped .expr receiver)
      (hop : Joined op) (hname : Named r name) :
      Shaped (.target false) (node "field" [receiver, op, r])
  | itemOfTarget {plain : Bool} {r : Raw} (h : Shaped (.target plain) r) : Shaped (.item plain) r
  | itemOfTargets {plain : Bool} {r : Raw} (h : Shaped (.targets plain) r) : Shaped (.item plain) r
  | itemParen {plain : Bool} {r : Raw} (h : Shaped (.item plain) r) :
      Shaped (.item plain) (node "mlhs_paren" [r])
  | targets {plain : Bool} {rs : List Raw} (h : ∀ r ∈ rs, Shaped (.item plain) r) :
      Shaped (.targets plain) (node "mlhs" rs)
  | targetsStar {plain : Bool} {targets r : Raw} (htargets : Shaped (.targets plain) targets)
      (h : Shaped (.optional (.target plain)) r) :
      Shaped (.targets plain) (node "mlhs_add_star" [targets, r])
  | targetsPost {plain : Bool} {targets after : Raw} (htargets : Shaped (.targets plain) targets)
      (hafter : Shaped (.targets plain) after) :
      Shaped (.targets plain) (node "mlhs_add_post" [targets, after])
  | targetsParen {plain : Bool} {r : Raw} (h : Shaped (.targets plain) r) :
      Shaped (.targets plain) (node "mlhs_paren" [r])
  -- Parameters and blocks.
  | params {required optionals rest post keywords kwrest block : Raw}
      (hrequired : Shaped (.optional (.listOf (.item true))) required)
      (hoptionals : Shaped (.optional (.listOf .optionalParam)) optionals)
      (hrest : isExtraComma rest ∨ Special rest)
      (hpost : Shaped (.optional (.listOf (.item true))) post)
      (hkeywords : Shaped (.optional (.listOf .keywordParam)) keywords)
      (hkwrest : Special kwrest) (hblock : Special block) :
      Shaped .params (node "params" [required, optionals, rest, post, keywords, kwrest, block])
  | optionalParam {r value : Raw} {name : String} (hname : Named r name)
      (hvalue : Shaped .expr value) : Shaped .optionalParam (.list [r, value])
  | requiredKeyword {tag label : String} {place value : Raw} (h : value.isEmpty) :
      Shaped .keywordParam (.list [token tag label place, value])
  | optionalKeyword {tag label : String} {place value : Raw} (hvalue : Shaped .expr value) :
      Shaped .keywordParam (.list [token tag label place, value])
  | ofParams {r : Raw} (h : Shaped .params r) : Shaped .paramList r
  | parenParams {r : Raw} (h : Shaped .params r) : Shaped .paramList (node "paren" [r])
  | blockParams {params locals : Raw} (hparams : Shaped .params params) (hlocals : Locals locals) :
      Shaped .blockParams (node "block_var" [params, locals])
  | block {tag : String} {params body : Raw} (htag : tag ∈ ["brace_block", "do_block"])
      (hparams : Shaped (.optional .blockParams) params) (hbody : Shaped .code body) :
      Shaped .block (node tag [params, body])
  | blockCall {call block : Raw} (hcall : Shaped .expr call) (hblock : Shaped .block block) :
      Shaped .expr (node "method_add_block" [call, block])
  | lambda {params body : Raw} (hparams : Shaped .paramList params) (hbody : Shaped .code body) :
      Shaped .expr (node "lambda" [params, body])
  -- Definitions.
  | method {tag name : String} {place params body : Raw} {rest : List Raw}
      (hparams : Shaped (.optional .paramList) params) (hbody : Shaped .body body) :
      Shaped .expr (node "def" (token tag name place :: params :: body :: rest))
  | singletonMethod {tag name : String} {receiver dot place params body : Raw} {rest : List Raw}
      (hreceiver : Shaped .expr receiver) (hparams : Shaped (.optional .paramList) params)
      (hbody : Shaped .body body) :
      Shaped .expr (node "defs" (receiver :: dot :: token tag name place :: params :: body :: rest))
  | classDef {const parent body : Raw} {rest : List Raw} (hconst : Shaped .expr const)
      (hparent : Shaped (.optional .expr) parent) (hbody : Shaped .code body) :
      Shaped .expr (node "class" (const :: parent :: body :: rest))
  | moduleDef {tag : String} {const body : Raw} {rest : List Raw}
      (htag : tag ∈ ["module", "sclass"])
      (hconst : Shaped .expr const) (hbody : Shaped .code body) :
      Shaped .expr (node tag (const :: body :: rest))
  | hook {tag : String} {body : Raw} {rest : List Raw} (htag : tag ∈ ["BEGIN", "END"])
      (hbody : Shaped .code body) : Shaped .expr (node tag (body :: rest))
  | documented {comment r : Raw} (h : Shaped .expr r) : Shaped .expr (node "comment" [comment, r])
  | methodAlias {new old : Raw} (hnew : Shaped .expr new) (hold : Shaped .expr old) :
      Shaped .expr (node "alias" [new, old])
  | globalAlias {new old : Raw} {newName oldName : String} (hnew : Named new newName)
      (hold : Named old oldName) : Shaped .expr (node "var_alias" [new, old])
  | undef {rs : List Raw} (h : ∀ r ∈ rs, Shaped .expr r) : Shaped .expr (node "undef" [.list rs])
  -- Literals and collections.
  | literal {kind : LiteralKind} {delimiter : Option String} {items : List LiteralItem}
      (hruns : ∀ tokens, .run tokens ∈ segments items → ∃ text, runText delimiter tokens = .ok text)
      (h : ∀ r ∈ interpolations items, Shaped .interpolation r) :
      Shaped (.literal kind) (kind.raw delimiter items)
  | embedded {r : Raw} (h : Shaped .code r) : Shaped .interpolation (node "string_embexpr" [r])
  | embeddedVariable {r : Raw} (h : Shaped .expr r) : Shaped .interpolation (node "string_dvar" [r])
  | string {r : Raw} (h : Shaped (.literal .string) r) : Shaped .quote (node "string_literal" [r])
  | quotedCharacter {text : String} {place : Raw} {cs : List Char}
      (h : unescapeChar text.toList.tail = .ok (.inl cs)) : Shaped .quote (token "@CHAR" text place)
  | concatenation {left right : Raw} (hleft : Shaped .quote left) (hright : Shaped .quote right) :
      Shaped .quote (node "string_concat" [left, right])
  | ofQuote {r : Raw} (h : Shaped .quote r) : Shaped .expr r
  | commandLiteral {r : Raw} (h : Shaped (.literal .command) r) :
      Shaped .expr (node "xstring_literal" [r])
  | regexp {r place : Raw} {tag flags : String} (h : Shaped (.literal .regexp) r) :
      Shaped .expr (node "regexp_literal" [r, token tag flags place])
  | symbol {tag name : String} {place : Raw} (htag : tag ≠ "@tstring_content") :
      Shaped .expr (node "symbol_literal" [node "symbol" [token tag name place]])
  | symbolName {tag name : String} {place : Raw} (htag : tag ∉ ["symbol", "@tstring_content"]) :
      Shaped .expr (node "symbol_literal" [token tag name place])
  | quotedSymbol {kind : LiteralKind} {r : Raw} (hkind : kind ≠ .regexp)
      (h : Shaped (.literal kind) r) : Shaped .expr (node "dyna_symbol" [r])
  | emptyCollection {tag : String} (htag : tag ∈ ["array", "hash"]) :
      Shaped .expr (node tag [.null])
  | array {r : Raw} (h : Shaped .arglist r) : Shaped .expr (node "array" [r])
  | wordArray {r : Raw} (h : Shaped .words r) : Shaped .expr (node "array" [r])
  | words {tag : String} {rs : List Raw} (htag : tag ∈ ["words", "symbols"])
      (h : ∀ r ∈ rs, Shaped (.literal .word) r) : Shaped .words (node tag rs)
  | plainWords {tag : String} {delimiter : Option String} {tokens : List ContentToken}
      (htag : tag ∈ ["qwords", "qsymbols"])
      (h : ∀ token ∈ tokens, ∃ text, runText delimiter [token] = .ok text) :
      Shaped .words (node tag (tokens.map (·.raw delimiter)))
  | hash {r : Raw} (h : Shaped .pairs r) : Shaped .expr (node "hash" [r])
  | pairs {rs : List Raw} (h : ∀ r ∈ rs, Shaped .pair r) :
      Shaped .pairs (node "assoclist_from_args" [.list rs])
  | pair {key value : Raw} (hkey : Shaped .key key) (hvalue : Shaped .expr value) :
      Shaped .pair (node "assoc_new" [key, value])
  | shorthandPair {name : String} {place : Raw} (h : String.ofList name.toList.dropLast ≠ "!") :
      Shaped .pair (node "assoc_new" [token "@label" name place, .null])
  | doubleSplat {r : Raw} (h : Shaped (.optional .expr) r) : Shaped .pair (node "assoc_splat" [r])
  | keyOfExpr {r : Raw} (h : Shaped .expr r) : Shaped .key r
  | label {name : String} {place : Raw} : Shaped .key (token "@label" name place)

end LowerM

end RubyTree
