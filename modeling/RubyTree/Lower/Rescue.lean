import RubyTree.Lower.Sequence
import RubyTree.Lower.Target

/-!
# Bodies With Rescue Clauses

A body has statements, a chain of rescue clauses, an `else` part and an `ensure`
part, each wrapped around what comes before it. Each clause holds the next one
in its last field.

## Main definitions

* `rescueClauses`: The clauses of a chain.
* `lowerBody`: A body with its clauses.
* `lowerBegin`: A `begin` block.
* `lowerRescueModifier`: A rescue on one line.
-/

namespace RubyTree

namespace LowerM

/-- The exceptions a clause catches. -/
def exceptionList (go : Visit) (r : Raw) : LowerM Tree := do
  if r.isEmpty then return .null
  if r.tag?.isSome then return .bare "array" (← argumentList go r)
  return .bare "array" (← visitAll go r)

/-- One rescue clause, given its fields without the next clause. -/
def rescueClause (go : Visit) (exceptions captured statements : Raw) : LowerM Tree := do
  let exceptions ← exceptionList go exceptions
  let target ← if captured.isEmpty then pure .null else do targetOf (← go captured)
  return .bare "resbody" [exceptions, target, ← visitBody go statements]

/-- The clauses of a chain, the first one first. A text or binary text in place
    of a clause is read as the list of its elements, none of which is a clause
    to follow. -/
def rescueClauses (go : Visit) : Raw → LowerM (List Tree)
  | .list [] => return []
  | .list [_] => return [← rescueClause go .null .null .null]
  | .list [_, e] => return [← rescueClause go e .null .null]
  | .list [_, e, v] => return [← rescueClause go e v .null]
  | .list [_, e, v, s] => return [← rescueClause go e v s]
  | .list (_ :: e :: v :: s :: next :: _) => do
    let clause ← rescueClause go e v s
    return clause :: (← rescueClauses go next)
  | .atom a => do
    if a.isEmpty then return []
    let letters ← require (Raw.atom a).elements?
    let clause ← rescueClause go (letters.getD 1 .null) (letters.getD 2 .null)
      (letters.getD 3 .null)
    if (letters.getD 4 .null).isEmpty then return [clause] else throw .shape

/-- A body with its clauses. -/
def lowerBody (go : Visit) (fs : Fields) : LowerM Tree := do
  let rescue := fs.get 1
  let otherwise := fs.get 2
  let ensure := fs.get 3
  let body := Tree.ofStatements (← statementList go (fs.get 0))
  let body ←
    if !rescue.isEmpty then do
      let clauses ← rescueClauses go rescue
      pure (.bare "rescue" (body :: clauses ++ [← visitBody go otherwise]))
    else if !otherwise.isEmpty then do
      let branch := Tree.bare "begin" [← visitBody go otherwise]
      pure (Tree.ofStatements ((present body).toList ++ [branch]))
    else pure body
  if ensure.isEmpty then return body
  return .bare "ensure" [body, ← go ensure]

/-- A `begin` block, or a pinned expression. -/
def lowerBegin (go : Visit) (fs : Fields) : LowerM Tree := do
  let body := fs.get 0
  if !body.hasTag "bodystmt" then return .bare "begin" [← go body]
  let line := (fs.get 1).positionLine?
  match ← go body with
  | .null => return .placed line "kwbegin" []
  | .node (.str "begin") _ children => return .placed line "kwbegin" children
  | t => return .placed line "kwbegin" [t]

/-- A rescue on one line. -/
def lowerRescueModifier (go : Visit) (fs : Fields) : LowerM Tree := do
  let t ← go (fs.get 0)
  let clause := Tree.bare "resbody" [.null, .null, ← go (fs.get 1)]
  return .bare "rescue" [t, clause, .null]

end LowerM

end RubyTree
