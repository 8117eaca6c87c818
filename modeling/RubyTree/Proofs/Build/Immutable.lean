import RubyTree.Build.Replay

/-!
# Replaying Without Growing Lists

The builder as it would be if nothing ever changed. A value is a raw tree: an
event that adds to a list makes a new list with one more item, an event that
dedents a heredoc makes a new list with other items, and there is no arena.
Whether a number may take a sign cannot be told from its tree, since it depends
on the token before it and not on what the token says; so it is a mark on the
value, which stays when an item is added.

Every callback is written out again, in the order of the callbacks of the
builder and with the same errors. That the two agree is not a matter of reading
them side by side: it holds only if no value is used twice.

## Main definitions

* `Immutable.Value`: A raw tree with its mark.
* `Immutable.State`: What is remembered between events.
* `Immutable.run`: The effect of a callback.
* `Immutable.replay`: A sequence of events.
* `immutableTree`: The raw tree that events describe, and the state they leave.
-/

namespace RubyTree

namespace Immutable

/-- What an event leaves: a raw tree, and whether it is a number token right
    after a sign. -/
structure Value where
  tree : Raw
  signed : Bool := false
  deriving Repr

/-- What is remembered between events. The stacks have their top first. -/
structure State where
  filename : String
  line : Int
  column : Int := 0
  comments : Comments Raw := {}
  delimiters : List Raw := []
  operators : List String := []
  inSymbol : Bool := false
  lastToken : Option (String × Raw) := none
  lastSignificant : Option (String × Raw) := none

/-- A step that may fail. -/
abbrev Step := ExceptT Error (StateM State)

/-- A value that has to be there. -/
def require {α : Type} : Option α → Step α
  | some a => pure a
  | none => throw .shape

/-- A node without a mark. -/
def node (tag : String) (fields : List Raw) : Value :=
  { tree := .list (.str tag :: fields) }

/-- The trees of some values. -/
def trees (values : List Value) : List Raw :=
  values.map (·.tree)

/-- A value with one more item in its list. -/
def append (v : Value) (item : Raw) : Step Value :=
  match v.tree with
  | .list items => return { v with tree := .list (items ++ [item]) }
  | .atom _ => throw .shape

/-- The current place, as a position. -/
def here : Step Raw := do
  let s ← get
  return .list [.int s.line, .int s.column]

/-- A value that is looked up, which must be able to be a key. -/
def key (r : Raw) : Step Atom :=
  require (r.atom?.filter Atom.isKey)

section Callbacks

def noArgs (f : Step Value) : List Value → Step Value
  | [] => f
  | _ => throw .shape

def oneArg (f : Value → Step Value) : List Value → Step Value
  | [a] => f a
  | _ => throw .shape

def twoArgs (f : Value → Value → Step Value) : List Value → Step Value
  | [a, b] => f a b
  | _ => throw .shape

def threeArgs (f : Value → Value → Value → Step Value) : List Value → Step Value
  | [a, b, c] => f a b c
  | _ => throw .shape

/-- Whether the token is one of these. -/
def isOneOf (tokens : List (String × String)) : Option (String × Raw) → Step Bool
  | some (name, text) => do
    let text ← key text
    return tokens.any fun (n, t) => n == name && text.text? == some t
  | none => return false

/-- Whether a keyword or backtick that comes now is only a name. -/
def namePosition : Step Bool := do
  let s ← get
  if s.inSymbol then return true else isOneOf Effect.namesNext s.lastSignificant

def comment (v : Value) : Step Value := do
  let text ← require (← require (v.tree.item? 1)).text?
  modify fun s => { s with comments := s.comments.add text }
  return v

def pushOperator (op : String) : Step Unit :=
  modify fun s => { s with operators := op :: s.operators }

def claimOperator (op : String) : Step Unit :=
  modify fun s =>
    match s.operators with
    | top :: rest => if top == op then { s with operators := rest } else s
    | [] => s

def keyword (v : Value) : Step Value := do
  if ← namePosition then return v
  let word ← key (← require (v.tree.item? 1))
  if Effect.opensConstruct.any (word.text? == some ·) then
    modify fun s => { s with comments := s.comments.enter v.tree }
  else if word.text? == some "in" then
    pushOperator "in"
  return v

/-- Completes a construct, which gets the position of its keyword. -/
def documented (tag : String) (args : List Raw) : Step Value := do
  match (← get).comments.leave with
  | .error e => throw e
  | .ok ((opener, text), comments) =>
    modify fun s => { s with comments }
    let place ← require (opener.item? 2)
    return node "comment" [.str text, .list (.str tag :: (args ++ [place]))]

def beginBlock (body : Value) : Step Value := do
  if body.tree.tag? == some "bodystmt" then documented "begin" [body.tree]
  else return node "begin" [body.tree]

def pushDelimiter (d : Raw) : Step Unit :=
  modify fun s => { s with delimiters := d :: s.delimiters }

def openLiteral (v : Value) : Step Value := do
  pushDelimiter (← require (v.tree.item? 1))
  return v

/-- A delimiter without blanks at its ends. -/
def trimmed? : Raw → Option Raw
  | .atom (.octets bs) => some (.atom (.octets (Text.trimList Text.isOctetBlank bs)))
  | d => d.text?.map fun t => .str (Text.trim t)

def openWords (v : Value) : Step Value := do
  pushDelimiter (← require (trimmed? (← require (v.tree.item? 1))))
  return v

def closeLiteral (v : Value) : Step Value := do
  let s ← get
  match s.delimiters with
  | _ :: delimiters =>
    set { s with delimiters }
    return v
  | [] => throw (.unbalancedDelimiter (← require (v.tree.item? 1)) s.line)

def backtick (v : Value) : Step Value := do
  if ← namePosition then return v
  openLiteral v

def setInSymbol (value : Bool) : Step Unit :=
  modify fun s => { s with inSymbol := value }

def openSymbol (v : Value) : Step Value := do
  setInSymbol true
  openLiteral v

def closeSymbol (args : List Value) : Step Value := do
  modify fun s => { s with inSymbol := false, delimiters := s.delimiters.tail }
  return node "symbol" (trees args)

def closeQuotedSymbol (args : List Value) : Step Value := do
  setInSymbol false
  return node "dyna_symbol" (trees args)

def interpolation (v : Value) : Step Value := do
  setInSymbol false
  return v

def content (v : Value) : Step Value := do
  append v ((← get).delimiters.headD .null)

/-- Items of a heredoc without the indentation of its lines. -/
def dedentItems (width : Raw) : Bool → List Raw → Step (List Raw)
  | _, [] => return []
  | lineStart, item :: rest =>
    if item.hasTag "@tstring_content" then do
      let content ← require (item.item? 1)
      let piece ←
        if lineStart then do
          let left ← require (content.dedent? width.atom?)
          match item with
          | .list items => pure (.list (items.set 1 left))
          | .atom _ => throw .shape
        else pure item
      let text ← require content.text?
      return piece :: (← dedentItems width (text.toList.getLast? == some '\n') rest)
    else return item :: (← dedentItems width lineStart rest)

def dedent (parts width : Value) : Step Value :=
  match parts.tree with
  | .list items => do
    let items ← dedentItems width.tree true items
    return { parts with tree := .list items }
  | .atom a => if a.isTextual then return parts else throw .shape

def operator (v : Value) : Step Value := do
  if (← require (v.tree.item? 1)).isText "=>" then pushOperator "=>"
  return v

def clause (args : List Value) : Step Value := do
  let s ← get
  match s.operators with
  | [] => throw .missingOperator
  | op :: operators =>
    set { s with operators }
    if op == "in" then return node "in" (trees args)
    else if op == "=>" then return node "right_assign" (trees args)
    else throw (.unexpectedOperator op)

def binary (left op right : Value) : Step Value := do
  if op.tree.isText "=>" then
    match (← get).operators with
    | [] => throw (.missingArrow "nothing")
    | top :: _ => if top == "=>" then claimOperator "=>" else throw (.missingArrow top)
  return node "binary" [left.tree, op.tree, right.tree]

def pair (key value : Value) : Step Value := do
  if !(← require key.tree.isLabel?) then claimOperator "=>"
  return node "assoc_new" [key.tree, value.tree]

def rescue (args : List Value) : Step Value :=
  match args with
  | _ :: captured :: _ => do
    if !captured.tree.isEmpty then claimOperator "=>"
    return node "rescue" (trees args)
  | _ => throw .shape

def loop (args : List Value) : Step Value := do
  claimOperator "in"
  return node "for" (trees args)

def sign? (op : Raw) : Option String :=
  if op.isText "-@" then some "-" else if op.isText "+@" then some "+" else none

/-- A sign is folded into the marked number after it. -/
def foldSign (op value : Value) : Step Value := do
  match sign? op.tree with
  | some sign =>
    if value.tree.tag?.any Effect.numberTags.contains && value.signed then
      let text ← require (← require (value.tree.item? 1)).text?
      if !sign.toList.isPrefixOf text.toList then
        let number ← require (value.tree.item? 1)
        let name ← require (value.tree.item? 0)
        let place ← require (value.tree.item? 2)
        return { tree := .list [name, if sign == "-" then .str (sign ++ text) else number, place] }
    return node "unary" [op.tree, value.tree]
  | none => return node "unary" [op.tree, value.tree]

def addItem (items item : Value) : Step Value :=
  append items item.tree

def addTarget (items item : Value) : Step Value := do
  if items.tree.tag? == some "mlhs" then addItem items item
  else return node "mlhs_add_post" [items.tree, item.tree]

def invalid {α : Type} (message : Raw) : Step α := do
  let s ← get
  throw (.invalidSource message.display (some s.line) (some s.filename))

def complaint (message : Value) : Step Value := do
  let text ← require message.tree.text?
  if "syntax error,".toList.isPrefixOf text.toList then invalid message.tree
  return node "parse_error" [message.tree]

def misuse : List Value → Step Value
  | message :: _ => invalid message.tree
  | [] => throw .shape

def warning (message : Value) : Step Value := do
  if message.tree.atom?.any Atom.isTextual then return { tree := .null } else throw .shape

/-- What an event of this name does with its arguments, and the value it leaves. -/
def run (name : String) : Callback → List Value → Step Value
  | .plain => fun args => return node name (trees args)
  | .comment => oneArg comment
  | .keyword => oneArg keyword
  | .construct tag => fun args => documented tag (trees args)
  | .begin => oneArg beginBlock
  | .openLiteral => oneArg openLiteral
  | .openWords => oneArg openWords
  | .closeLiteral => oneArg closeLiteral
  | .backtick => oneArg backtick
  | .openSymbol => oneArg openSymbol
  | .closeSymbol => closeSymbol
  | .closeQuotedSymbol => closeQuotedSymbol
  | .interpolation => oneArg interpolation
  | .content => oneArg content
  | .dedent => twoArgs dedent
  | .operator => oneArg operator
  | .clause => clause
  | .binary => threeArgs binary
  | .pair => twoArgs pair
  | .rescue => rescue
  | .loop => loop
  | .unary => twoArgs foldSign
  | .empty => noArgs do return node "void_stmt" [← here]
  | .extraComma => fun _ => return node "excessed_comma" []
  | .start tag => noArgs (return node tag [])
  | .addItem => twoArgs addItem
  | .addTarget => twoArgs addTarget
  | .complaint => oneArg complaint
  | .misuse => misuse
  | .fatal => oneArg fun message => invalid message.tree
  | .warning => oneArg warning

end Callbacks

/-- Whether a number that is scanned now comes right after a sign. -/
def afterSign (name : String) : Step Bool := do
  if Effect.numberTags.contains name then isOneOf BuildM.signs (← get).lastToken
  else return false

/-- The value a token leaves. -/
def tokenValue (name : String) (token : Value) : Step Value :=
  match Callback.ofName (BuildM.bareName name) with
  | .plain => pure token
  | callback => run name callback [token]

/-- A token is remembered, and comments are forgotten unless it is layout. -/
def remember (name : String) (text : Raw) : Step Unit :=
  modify fun s =>
    if BuildM.layout.contains name then { s with lastToken := some (name, text) }
    else
      { s with
        lastToken := some (name, text)
        lastSignificant := some (name, text)
        comments := s.comments.discard }

/-- A scanned token. -/
def scan (name : String) (text : Raw) : Step Value := do
  let place ← here
  let signed ← afterSign name
  let value ← tokenValue name { tree := .list [.str name, text, place], signed }
  remember name text
  return value

/-- A completed construct. -/
def build (name : String) (args : List Value) : Step Value :=
  run name (Callback.ofName name) args

/-- The values of earlier events, by number, the latest first. -/
abbrev Values := List (Nat × Value)

mutual

/-- An argument with the values it refers to in place. -/
def resolve (values : Values) : Arg → Step Value
  | .atom a => return { tree := .atom a }
  | .ref id =>
    match values.lookup id with
    | some v => return v
    | none => throw (.unknownEvent id)
  | .list items => do return { tree := .list (trees (← resolveAll values items)) }

/-- Arguments with the values they refer to in place. -/
def resolveAll (values : Values) : List Arg → Step (List Value)
  | [] => return []
  | arg :: args => return (← resolve values arg) :: (← resolveAll values args)

end

/-- The value an event leaves. -/
def replayEvent (values : Values) (e : Event) : Step Value := do
  modify fun s => { s with line := e.line, column := e.column }
  let args ← resolveAll values e.args
  if e.isToken then
    match args with
    | [text] => scan e.name text.tree
    | _ => throw .shape
  else build e.name args

/-- Replays events; `program` is the value of the last one that completed a program. -/
def replayFrom (values : Values) (program : Option Value) : List Event → Step (Option Value)
  | [] => return program
  | e :: events => do
    let v ← replayEvent values e
    replayFrom ((e.id, v) :: values) (if e.name == "program" then some v else program) events

/-- The raw tree of the program that events describe. -/
def replay (events : List Event) : Step Raw := do
  match ← replayFrom [] none events with
  | some v => return v.tree
  | none => throw .noProgram

end Immutable

/-- The raw tree that events describe, or what is wrong with them, and the state
    after the last event, if no list is ever changed. -/
def immutableTree (filename : String) (line : Int) (events : List Event) :
    Except Error Raw × Immutable.State :=
  (Immutable.replay events).run.run { filename, line }

end RubyTree
