import RubyTree.Lower.Pattern
import RubyTree.Lower.Sequence
import RubyTree.Lower.Target

/-!
# Conditions and Loops

A condition that is a bare regular expression or range has a meaning of its own.
A negated loop condition turns `while` into `until` and back. A loop written
after a `begin` block runs its body first.

## Main definitions

* `conditionForm`: A value used as a condition.
* `lowerIf`, `lowerUnless`, `lowerIfModifier`, `lowerUnlessModifier`.
* `lowerCase`: A choice by values or by patterns.
* `lowerLoop`, `lowerLoopModifier`, `lowerFor`: Loops.
-/

namespace RubyTree

namespace LowerM

/-- A value used as a condition. -/
def conditionForm : Tree → LowerM Tree
  | .leaf _ => throw .shape
  | .node (.str "regexp") mark children =>
    return .bare "match_current_line" [.node (.str "regexp") mark children]
  | .node (.str "irange") _ children => return .bare "iflipflop" children
  | .node (.str "erange") _ children => return .bare "eflipflop" children
  | t => return t

/-- A field that is a condition. -/
def visitCondition (go : Visit) (r : Raw) : LowerM Tree := do
  conditionForm (← go r)

/-- A branch, absent if it is not written. -/
def visitBranch (go : Visit) (r : Raw) : LowerM Tree :=
  if r.isEmpty then return .null else visitBody go r

def lowerIf (go : Visit) (fs : Fields) : LowerM Tree := do
  let cond ← visitCondition go (fs.get 0)
  let yes ← visitBranch go (fs.get 1)
  return .bare "if" [cond, yes, ← visitBranch go (fs.get 2)]

def lowerUnless (go : Visit) (fs : Fields) : LowerM Tree := do
  let cond ← visitCondition go (fs.get 0)
  let yes ← visitBranch go (fs.get 2)
  return .bare "if" [cond, yes, ← visitBranch go (fs.get 1)]

def lowerIfModifier (go : Visit) (fs : Fields) : LowerM Tree := do
  let cond ← visitCondition go (fs.get 0)
  return .bare "if" [cond, ← go (fs.get 1), .null]

def lowerUnlessModifier (go : Visit) (fs : Fields) : LowerM Tree := do
  let cond ← visitCondition go (fs.get 0)
  return .bare "if" [cond, .null, ← go (fs.get 1)]

/-- The conditional operator, whose condition is any value. -/
def lowerTernary (go : Visit) (fs : Fields) : LowerM Tree := do
  let cond ← go (fs.get 0)
  let yes ← go (fs.get 1)
  return .bare "if" [cond, yes, ← go (fs.get 2)]

/-- One clause of a choice by values. -/
def whenClause (go : Visit) (values statements : Raw) : LowerM Tree := do
  let values ← argumentList go values
  return .bare "when" (values ++ [← visitBody go statements])

/-- The clauses of a choice by values, and what is done otherwise. -/
def whenClauses (go : Visit) : Raw → LowerM (List Tree)
  | .list (.str "when" :: values :: statements :: next :: _) => do
    let clause ← whenClause go values statements
    return clause :: (← whenClauses go next)
  | .list (.str "when" :: fields) =>
    return [← whenClause go (fields.getD 0 .null) (fields.getD 1 .null), .null]
  | r => return [← visitBranch go r]

/-- One clause of a choice by patterns. -/
def inClause (go : Visit) (pattern statements : Raw) : LowerM Tree := do
  let (t, condition) ← lowerGuarded go pattern
  return .bare "in_pattern" [t, condition, ← visitBody go statements]

/-- The clauses of a choice by patterns, and what is done otherwise. -/
def inClauses (go : Visit) : Raw → LowerM (List Tree)
  | .list (.str "in" :: pattern :: statements :: next :: _) => do
    let clause ← inClause go pattern statements
    return clause :: (← inClauses go next)
  | .list (.str "in" :: fields) =>
    return [← inClause go (fields.getD 0 .null) (fields.getD 1 .null), .null]
  | r => return [← visitBranch go r]

/-- Whether a clause is a pattern alone, as in a match that gives a truth value. -/
def isLonePattern (clause : Raw) : LowerM Bool := do
  if !(← require (clause.item? 2)).isNull then return false
  return (← require (clause.item? 3)).isNull

/-- A choice, or a match on one line. -/
def lowerCase (go : Visit) (fs : Fields) : LowerM Tree := do
  let subject ← go (fs.get 0)
  let clauses := fs.get 1
  if clauses.hasTag "in" then
    if ← isLonePattern clauses then
      let (t, _) ← lowerGuarded go (← require (clauses.item? 1))
      return .bare "match_pattern_p" [subject, t]
    return .bare "case_match" (subject :: (← inClauses go clauses))
  if clauses.hasTag "right_assign" then
    let (t, _) ← lowerGuarded go (← require (clauses.item? 1))
    return .bare "match_pattern" [subject, t]
  return .bare "case" (subject :: (← whenClauses go clauses))

/-- The loop with the opposite condition. -/
def oppositeLoop : String → String
  | "while" => "until"
  | _ => "while"

/-- A loop keyword and its condition, with a negation moved into the keyword. -/
def unnegated (word : String) : Tree → LowerM (String × Tree)
  | .leaf _ => throw .shape
  | .node (.str "send") mark [receiver, name] =>
    if name.text? == some "!" then return (oppositeLoop word, receiver)
    else return (word, .node (.str "send") mark [receiver, name])
  | .node (.str "send") mark [receiver, name, argument] =>
    if name.text? == some "!~" then
      return (oppositeLoop word, .placed mark.line "send" [receiver, .sym "=~", argument])
    else return (word, .node (.str "send") mark [receiver, name, argument])
  | t => return (word, t)

/-- A loop around a lowered body. -/
def makeLoop (go : Visit) (word : String) (cond : Raw) (body : Tree) (checkFirst : Bool) :
    LowerM Tree := do
  let (word, cond) ← unnegated word (← go cond)
  let tag := if checkFirst then word else word ++ "_post"
  return .bare tag [← conditionForm cond, body, .flag checkFirst]

def lowerLoop (word : String) (go : Visit) (fs : Fields) : LowerM Tree := do
  makeLoop go word (fs.get 0) (← visitBody go (fs.get 1)) true

/-- Whether a body runs before its condition is looked at. -/
def runsFirst (body : Raw) : LowerM Bool := do
  let body ← if body.hasTag "comment" then require (body.item? 2) else pure body
  return body.hasTag "begin"

/-- A loop written after its body. -/
def lowerLoopModifier (word : String) (go : Visit) (fs : Fields) : LowerM Tree := do
  let checkFirst := !(← runsFirst (fs.get 1))
  makeLoop go word (fs.get 0) (← go (fs.get 1)) checkFirst

/-- A loop over a collection. -/
def lowerFor (go : Visit) (fs : Fields) : LowerM Tree := do
  let collection ← go (fs.get 1)
  let target ← targetOf (← go (fs.get 0))
  return .bare "for" [target, collection, ← visitBody go (fs.get 2)]

end LowerM

end RubyTree
