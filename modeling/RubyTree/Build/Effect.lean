import RubyTree.Build.Builder
import RubyTree.Build.Callback
import RubyTree.Literal.Indent
import RubyTree.Text.Blank

/-!
# The Effects of Events

What each callback does to the builder, and the value it leaves. Every callback
takes a fixed number of arguments or any number; a wrong number is a wrong shape
and changes nothing.

Tokens arrive as nodes of tag, text and position, and a callback for a token
leaves that very node, so that later events which refer to it see what was added
to it. A callback for a construct leaves a new node or, for flat lists, the list
it has added to.

## Main definitions

* `Effect.noArgs`, `Effect.oneArg`, `Effect.twoArgs`, `Effect.threeArgs`: Fixed
  numbers of arguments.
* `Effect.documented`: A construct with its comments is complete.
* `Effect.clause`, `Effect.binary`, `Effect.pair`, `Effect.rescue`: Constructs
  that claim an operator.
* `Effect.dedent`: The lines of a heredoc lose their common indentation.
* `Effect.foldSign`: A sign becomes part of the number after it.
* `Callback.run`: The effect of a callback.
-/

namespace RubyTree

namespace Effect

open BuildM

/-- No argument. -/
def noArgs (f : BuildM Item) : List Item → BuildM Item
  | [] => f
  | _ => throw .shape

/-- Exactly one argument. -/
def oneArg (f : Item → BuildM Item) : List Item → BuildM Item
  | [a] => f a
  | _ => throw .shape

/-- Exactly two arguments. -/
def twoArgs (f : Item → Item → BuildM Item) : List Item → BuildM Item
  | [a, b] => f a b
  | _ => throw .shape

/-- Exactly three arguments. -/
def threeArgs (f : Item → Item → Item → BuildM Item) : List Item → BuildM Item
  | [a, b, c] => f a b c
  | _ => throw .shape

/-! ## Comments and constructs -/

/-- Tokens after which a keyword or a backtick is a method name. -/
def namesNext : List (String × String) :=
  [("@kw", "def"), ("@kw", "alias"), ("@kw", "undef"), ("@period", "."), ("@op", "&."),
   ("@op", "::")]

/-- Whether the token is one of these. Only a token that can be a key can be
    looked up. -/
def isOneOf (tokens : List (String × String)) : Option Token → BuildM Bool
  | some (name, text) => do
    let text ← key text
    return tokens.any fun (n, t) => n == name && text.text? == some t
  | none => return false

/-- Whether a keyword or backtick that comes now is only a name. -/
def namePosition : BuildM Bool := do
  let b ← get
  if b.inSymbol then return true else isOneOf namesNext b.lastSignificant

/-- A comment goes to the buffer. -/
def comment (node : Item) : BuildM Item := do
  let text ← textAt node 1
  modify fun b => { b with comments := b.comments.add text }
  return node

/-- Keywords that open a construct which can have comments. -/
def opensConstruct : List String :=
  ["class", "def", "module", "BEGIN", "begin", "END"]

/-- An operator no construct has claimed. -/
def pushOperator (op : String) : BuildM Unit :=
  modify fun b => { b with operators := op :: b.operators }

/-- Claims the operator on top, if it is this one. -/
def claimOperator (op : String) : BuildM Unit :=
  modify fun b =>
    match b.operators with
    | top :: rest => if top == op then { b with operators := rest } else b
    | [] => b

/-- A keyword opens a construct, is the operator `in`, or does nothing. -/
def keyword (node : Item) : BuildM Item := do
  if ← namePosition then return node
  let word ← key (← itemAt node 1)
  if opensConstruct.any (word.text? == some ·) then
    modify fun b => { b with comments := b.comments.enter node }
  else if word.text? == some "in" then
    pushOperator "in"
  return node

/-- Completes a construct: its node gets the position of its keyword and is
    wrapped with its comments. -/
def documented (tag : String) (args : List Item) : BuildM Item := do
  let node ← newNode tag args
  match (← get).comments.leave with
  | .error e => throw e
  | .ok ((opener, text), comments) =>
    modify fun b => { b with comments }
    -- The opener is the token of the keyword, whose third item is its position.
    append node (← itemAt opener 2)
    newNode "comment" [.str text, node]

/-- A `begin` block is a construct; a pinned expression has no keyword and is
    none. -/
def beginBlock (body : Item) : BuildM Item := do
  if (← tagOf body) == some "bodystmt" then documented "begin" [body]
  else newNode "begin" [body]

/-! ## Literals -/

/-- A literal with this delimiter is open. -/
def pushDelimiter (d : Item) : BuildM Unit :=
  modify fun b => { b with delimiters := d :: b.delimiters }

def setInSymbol (value : Bool) : BuildM Unit :=
  modify fun b => { b with inSymbol := value }

/-- A literal starts with this token. -/
def openLiteral (node : Item) : BuildM Item := do
  pushDelimiter (← itemAt node 1)
  return node

/-- A delimiter without blanks at its ends. -/
def trimmed? : Item → Option Item
  | .atom (.octets bs) => some (.atom (.octets (Text.trimList Text.isOctetBlank bs)))
  | d => d.text?.map fun t => .str (Text.trim t)

/-- A list of words starts; blanks after its delimiter do not count. -/
def openWords (node : Item) : BuildM Item := do
  pushDelimiter (← require (trimmed? (← itemAt node 1)))
  return node

/-- The innermost literal ends. -/
def closeLiteral (node : Item) : BuildM Item := do
  let b ← get
  match b.delimiters with
  | _ :: delimiters =>
    set { b with delimiters }
    return node
  | [] => throw (.unbalancedDelimiter (← freeze (← itemAt node 1)) b.line)

/-- A backtick opens a command unless it is a method name. -/
def backtick (node : Item) : BuildM Item := do
  if ← namePosition then return node
  openLiteral node

/-- A symbol starts. -/
def openSymbol (node : Item) : BuildM Item := do
  setInSymbol true
  openLiteral node

/-- A plain symbol is complete; its colon was a delimiter. -/
def closeSymbol (args : List Item) : BuildM Item := do
  modify fun b => { b with inSymbol := false, delimiters := b.delimiters.tail }
  newNode "symbol" args

/-- A quoted symbol is complete; its closing quote has closed the literal. -/
def closeQuotedSymbol (args : List Item) : BuildM Item := do
  setInSymbol false
  newNode "dyna_symbol" args

/-- An interpolation is outside of the symbol around it. -/
def interpolation (node : Item) : BuildM Item := do
  setInSymbol false
  return node

/-- Content remembers the delimiter of its literal. -/
def content (node : Item) : BuildM Item := do
  append node ((← get).delimiters.headD .null)
  return node

/-- Content without the indentation, as a new value. -/
def withoutIndent (width content : Item) : BuildM Item :=
  match content with
  | .atom a => return .atom (← require (a.dedent? width.atom?))
  | .list _ => do
    let items ← itemsOf content
    newList (← require (dedentElements? (·.text?.bind Text.onlyChar?) width.atom? items))

/-- Dedents the content at the start of each line. The flag says whether the
    next piece of content starts a line; what stands between pieces leaves it. -/
def dedentItems (parts width : Item) : Nat → Bool → List Item → BuildM Unit
  | _, _, [] => return
  | place, lineStart, item :: rest => do
    if (← tagOf item) != some "@tstring_content" then
      dedentItems parts width (place + 1) lineStart rest
    else
      let content ← itemAt item 1
      if lineStart then
        -- The piece is a new list: events that hold the old one do not see the change.
        let left ← withoutIndent width content
        let piece ← newList ((← itemsOf item).set 1 left)
        setItems parts ((← itemsOf parts).set place piece)
      -- The text before dedenting says whether the line ends here.
      let text ← require content.text?
      dedentItems parts width (place + 1) (text.toList.getLast? == some '\n') rest

/-- The lines of a heredoc lose their common indentation. A text has no parts
    to change. -/
def dedent (parts width : Item) : BuildM Item := do
  if !parts.isTextual then
    dedentItems parts width 0 true (← itemsOf parts)
  return parts

/-! ## Operators -/

/-- The arrow waits for the construct it belongs to. -/
def operator (node : Item) : BuildM Item := do
  if (← itemAt node 1).isText "=>" then pushOperator "=>"
  return node

/-- A clause takes the operator on top, which tells its two readings apart. -/
def clause (args : List Item) : BuildM Item := do
  let b ← get
  match b.operators with
  | [] => throw .missingOperator
  | op :: operators =>
    set { b with operators }
    if op == "in" then newNode "in" args
    else if op == "=>" then newNode "right_assign" args
    else throw (.unexpectedOperator op)

/-- A capture takes its arrow; other operations have none. -/
def binary (left op right : Item) : BuildM Item := do
  if op.isText "=>" then
    match (← get).operators with
    | [] => throw (.missingArrow "nothing")
    | top :: _ => if top == "=>" then claimOperator "=>" else throw (.missingArrow top)
  newNode "binary" [left, op, right]

/-- A pair takes its arrow, unless its key is a label. -/
def pair (key value : Item) : BuildM Item := do
  if !(← isLabel key) then claimOperator "=>"
  newNode "assoc_new" [key, value]

/-- A rescue clause takes the arrow before its variable, if it has one. -/
def rescue : List Item → BuildM Item
  | exceptions :: captured :: rest => do
    if !(← get).arena.isEmpty captured then claimOperator "=>"
    newNode "rescue" (exceptions :: captured :: rest)
  | _ => throw .shape

/-- A `for` loop takes its `in`. -/
def loop (args : List Item) : BuildM Item := do
  claimOperator "in"
  newNode "for" args

/-- The tags of number tokens. -/
def numberTags : List String :=
  ["@int", "@float", "@rational", "@imaginary"]

/-- The sign of an operator that could be one. -/
def sign? (op : Item) : Option String :=
  if op.isText "-@" then some "-" else if op.isText "+@" then some "+" else none

/-- A text with a sign in front; a plus is left out, and the text stays as it
    is. -/
def withSign (sign text : String) (item : Item) : Item :=
  if sign == "-" then .str (sign ++ text) else item

/-- The sign is folded into the number token right after it; otherwise this is
    an operation. -/
def foldSign (op value : Item) : BuildM Item := do
  let number := (← tagOf value).any numberTags.contains
  match sign? op with
  | some sign =>
    if number && (← get).signed.contains value then
      -- A number scanned with this sign has its own; the one before it is an operation.
      let text ← textAt value 1
      if !sign.toList.isPrefixOf text.toList then
        let signed := withSign sign text (← itemAt value 1)
        return ← newList [← itemAt value 0, signed, ← itemAt value 2]
    newNode "unary" [op, value]
  | none => newNode "unary" [op, value]

/-! ## Flat lists -/

/-- One more item, in the list itself. -/
def addItem (items item : Item) : BuildM Item := do
  append items item
  return items

/-- One more target, in the list itself unless a splat came before. -/
def addTarget (items item : Item) : BuildM Item := do
  if (← tagOf items) == some "mlhs" then addItem items item
  else newNode "mlhs_add_post" [items, item]

/-! ## Complaints -/

/-- The source is invalid at the current line. -/
def invalid {α : Type} (message : Item) : BuildM α := do
  let b ← get
  throw (.invalidSource (← freeze message).display (some b.line) (some b.filename))

/-- A complaint is fatal if it is about syntax. -/
def complaint (message : Item) : BuildM Item := do
  let text ← require message.text?
  if "syntax error,".toList.isPrefixOf text.toList then invalid message
  newNode "parse_error" [message]

/-- A misuse of a name is fatal, whatever else is said about it. -/
def misuse : List Item → BuildM Item
  | message :: _ => invalid message
  | [] => throw .shape

/-- A warning is a text and leaves nothing. -/
def warning (message : Item) : BuildM Item := do
  if message.isTextual then return .null else throw .shape

end Effect

open Effect BuildM in
/-- What an event of this name does with its arguments, and the value it leaves. -/
def Callback.run (name : String) : Callback → List Item → BuildM Item
  | .plain => newNode name
  | .comment => oneArg Effect.comment
  | .keyword => oneArg Effect.keyword
  | .construct tag => documented tag
  | .begin => oneArg beginBlock
  | .openLiteral => oneArg Effect.openLiteral
  | .openWords => oneArg Effect.openWords
  | .closeLiteral => oneArg Effect.closeLiteral
  | .backtick => oneArg Effect.backtick
  | .openSymbol => oneArg Effect.openSymbol
  | .closeSymbol => Effect.closeSymbol
  | .closeQuotedSymbol => Effect.closeQuotedSymbol
  | .interpolation => oneArg Effect.interpolation
  | .content => oneArg Effect.content
  | .dedent => twoArgs Effect.dedent
  | .operator => oneArg Effect.operator
  | .clause => Effect.clause
  | .binary => threeArgs Effect.binary
  | .pair => twoArgs Effect.pair
  | .rescue => Effect.rescue
  | .loop => Effect.loop
  | .unary => twoArgs foldSign
  | .empty => noArgs do newNode "void_stmt" [← here]
  | .extraComma => fun _ => newNode "excessed_comma" []
  | .start tag => noArgs (newNode tag [])
  | .addItem => twoArgs Effect.addItem
  | .addTarget => twoArgs Effect.addTarget
  | .complaint => oneArg Effect.complaint
  | .misuse => Effect.misuse
  | .fatal => oneArg invalid
  | .warning => oneArg Effect.warning

end RubyTree
