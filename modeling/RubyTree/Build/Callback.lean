/-!
# What an Event Does

Most events leave a node with their name as its tag. The others keep the side
tables up to date or change the tree: they open and close literals, attach
comments to constructs, tell the two readings of `in` and `=>` apart, fold a
sign into the number after it, and build flat lists one item at a time.

Which of these an event does is decided by its name alone, without the `@` of a
token, so an event for a token and one for a construct of the same name do the
same.

## Main definitions

* `Callback`: What an event does.
* `Callback.ofName`: The same, by the name of the event.
-/

namespace RubyTree

/-- What an event does besides leaving a node. -/
inductive Callback where
  /-- Leaves a node and nothing more. -/
  | plain
  /-- A comment: adds its text to the buffer. -/
  | comment
  /-- A keyword, which may open a construct or be the operator `in`. -/
  | keyword
  /-- A construct that can have comments is complete. -/
  | construct (tag : String)
  /-- A `begin` block, or a pinned expression without the keyword. -/
  | begin
  /-- The opening of a literal. -/
  | openLiteral
  /-- The opening of a list of words, where blanks may follow the delimiter. -/
  | openWords
  /-- The end of a literal. -/
  | closeLiteral
  /-- A backtick, which opens a command or is a method name. -/
  | backtick
  /-- The colon of a symbol. -/
  | openSymbol
  /-- A plain symbol is complete. -/
  | closeSymbol
  /-- A quoted symbol is complete. -/
  | closeQuotedSymbol
  /-- An interpolation starts. -/
  | interpolation
  /-- Content of a literal. -/
  | content
  /-- The common indentation of a heredoc is known. -/
  | dedent
  /-- An operator token, which may be the arrow. -/
  | operator
  /-- A clause that `in` or the arrow started is complete. -/
  | clause
  /-- A binary operation, which may be a capture by the arrow. -/
  | binary
  /-- A pair of a hash. -/
  | pair
  /-- A rescue clause. -/
  | rescue
  /-- A `for` loop. -/
  | loop
  /-- A unary operation, which may fold a sign. -/
  | unary
  /-- An empty statement. -/
  | empty
  /-- A comma after the last block parameter. -/
  | extraComma
  /-- The start of a flat list. -/
  | start (tag : String)
  /-- One more item of a flat list. -/
  | addItem
  /-- One more target of a multiple assignment. -/
  | addTarget
  /-- A complaint of the parser, which is fatal if it starts in a certain way. -/
  | complaint
  /-- A misuse of a name, which is always fatal. -/
  | misuse
  /-- A fatal error. -/
  | fatal
  /-- A warning. -/
  | warning
  deriving DecidableEq, Repr

namespace Callback

/-- The events that do something of their own. -/
def table : List (String × Callback) :=
  [ ("comment", comment), ("embdoc_beg", comment), ("embdoc", comment), ("embdoc_end", comment),
    ("kw", keyword), ("module", construct "module"), ("class", construct "class"),
    ("sclass", construct "sclass"), ("def", construct "def"), ("defs", construct "defs"),
    ("BEGIN", construct "BEGIN"), ("END", construct "END"), ("begin", begin),
    ("heredoc_beg", openLiteral), ("regexp_beg", openLiteral), ("tstring_beg", openLiteral),
    ("qsymbols_beg", openWords), ("qwords_beg", openWords), ("symbols_beg", openWords),
    ("words_beg", openWords), ("heredoc_end", closeLiteral), ("regexp_end", closeLiteral),
    ("tstring_end", closeLiteral), ("label_end", closeLiteral), ("backtick", backtick),
    ("symbeg", openSymbol), ("symbol", closeSymbol), ("dyna_symbol", closeQuotedSymbol),
    ("embexpr_beg", interpolation), ("tstring_content", content), ("heredoc_dedent", dedent),
    ("op", operator), ("in", clause), ("binary", binary), ("assoc_new", pair),
    ("rescue", rescue), ("for", loop), ("unary", unary), ("void_stmt", empty),
    ("excessed_comma", extraComma),
    ("args_new", start "args"), ("mlhs_new", start "mlhs"), ("mrhs_new", start "mrhs"),
    ("qsymbols_new", start "qsymbols"), ("qwords_new", start "qwords"),
    ("regexp_new", start "regexp"), ("stmts_new", start "stmts"),
    ("symbols_new", start "symbols"), ("word_new", start "word"), ("words_new", start "words"),
    ("xstring_new", start "xstring"),
    ("args_add", addItem), ("mrhs_add", addItem), ("qsymbols_add", addItem),
    ("qwords_add", addItem), ("regexp_add", addItem), ("stmts_add", addItem),
    ("string_add", addItem), ("symbols_add", addItem), ("word_add", addItem),
    ("words_add", addItem), ("xstring_add", addItem), ("mlhs_add", addTarget),
    ("parse_error", complaint), ("class_name_error", misuse), ("alias_error", misuse),
    ("assign_error", misuse), ("param_error", misuse), ("compile_error", fatal),
    ("warning", warning) ]

/-- What an event does, by its name without the `@` of a token. -/
def ofName (name : String) : Callback :=
  (table.lookup name).getD .plain

end Callback

end RubyTree
