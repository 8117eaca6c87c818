import RubyTree.Lower.Field

/-!
# Statements

Empty statements are lowered to a mark that only keeps their line, and are
dropped from every sequence. A sequence of one statement is that statement, a
longer one is a `begin` node, and parentheses put a `begin` around what they
hold unless it already is one of their own making.

## Main definitions

* `Tree.isVoid`, `Tree.dropVoid`: Empty statements.
* `Tree.ofStatements`: A sequence as one tree.
* `lowerStatements`: A sequence of statements.
* `statementList`: The statements of a body.
* `lowerParen`: Parentheses.
* `lowerDocumented`: A construct with its comments.
-/

namespace RubyTree

namespace Tree

/-- An absent or empty statement. -/
def isVoid (t : Tree) : Bool :=
  t.isNull || t.hasTag "void_stmt"

/-- An empty statement counts as absent. -/
def dropVoid (t : Tree) : Tree :=
  if t.isVoid then null else t

/-- The statements that are not empty. -/
def rejectVoid (ts : List Tree) : List Tree :=
  ts.filter (!·.isVoid)

/-- Statements as one tree, absent if there are none. -/
def ofStatements : List Tree → Tree
  | [] => null
  | [t] => t
  | ts => bare "begin" ts

/-- What a `begin` around a single child holds. -/
def unwrapBegin : Tree → Tree
  | node (.str "begin") _ [t] => t
  | t => t

end Tree

namespace LowerM

/-- A sequence of statements. One without any keeps the line of its first. -/
def lowerStatements (go : Visit) (fs : Fields) : LowerM Tree := do
  let statements ← fs.mapM go
  match Tree.rejectVoid statements with
  | [] => return .placed (statements.head?.bind Tree.line?) "void_stmt" []
  | [t] => return t
  | ts => return .bare "begin" ts

/-- The statements of a body, which need not be a sequence. -/
def statementList (go : Visit) : Raw → LowerM (List Tree)
  | .list (.str "stmts" :: statements) => return Tree.rejectVoid (← statements.mapM go)
  | r => return Tree.rejectVoid [← go r]

/-- An empty statement. -/
def lowerEmpty (fs : Fields) : LowerM Tree :=
  return .placed (fs.get 0).positionLine? "void_stmt" []

/-- A field in which an empty statement counts as absent. -/
def visitBody (go : Visit) (r : Raw) : LowerM Tree :=
  return (← go r).dropVoid

/-- Whether the first statement of a sequence is in parentheses. -/
def startsWithParen : Raw → Bool
  | .list (.str "stmts" :: first :: _) => first.hasTag "paren"
  | _ => false

/-- Parentheses. Argument lists need none, and a sequence that is already a
    `begin` gets no second one, unless its first statement has parentheses. -/
def lowerParen (go : Visit) (fs : Fields) : LowerM Tree := do
  let body := fs.get 0
  if body.isEmpty then return .bare "nil" []
  let t ← go body
  if t.isVoid then return .bare "nil" []
  if t.hasTag "args" || t.hasTag "arglist" then return t
  if t.hasTag "begin" && !startsWithParen body then return t
  return .bare "begin" [t]

/-- The tags of constructs that carry comments. -/
def documentable : List String :=
  ["class", "module", "sclass", "def", "defs", "preexe", "postexe"]

/-- A construct with the comments before it. -/
def lowerDocumented (go : Visit) (fs : Fields) : LowerM Tree := do
  let comment := fs.get 0
  let t ← go (fs.get 1)
  if comment.isEmpty then return t
  match t with
  | .node tag mark children =>
    if ← isAmong documentable tag then
      return .node tag { mark with comments := some comment } children
    return t
  | .leaf _ => throw .shape

end LowerM

end RubyTree
