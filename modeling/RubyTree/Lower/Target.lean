import RubyTree.Lower.Call

/-!
# Assignment

What stands on the left of an assignment is lowered like a value and then turned
into a target: a variable becomes the assignment to it, an indexed or attribute
access becomes a call that sets it, and a list of targets stays a list. A
class variable is declared outside methods and assigned inside them.

An operator assignment is an assignment of the operation's result, except that
`||=` and `&&=` are nodes of their own, and that indexed and attribute targets
keep the operator. Where the target is both read and assigned, what it consists
of stands in both places.

## Main definitions

* `assignTo`: The assignment of a value to a target.
* `targetOf`: A target without a value.
* `withSharedChildren`: A target that is read and assigned.
* `lowerAssign`, `lowerMultiAssign`, `lowerOperatorAssign`: Assignments.
* `lowerTargets`, `lowerTargetsStar`, `lowerTargetsPost`: Lists of targets.
* `lowerValuesFromArgs`, `lowerValuesStar`: Lists of values.
* `lowerIndexTarget`, `lowerAttributeTarget`: Targets that are calls.
-/

namespace RubyTree

namespace LowerM

/-- The tag of the assignment to a variable or constant of this kind. -/
def assignmentTag (tag : Raw) : LowerM Raw := do
  if !tag.isKey then throw .shape
  match tag with
  | .str "cvar" => return .str (if (← get).inMethod then "cvasgn" else "cvdecl")
  | .str "ivar" => return .str "ivasgn"
  | .str "const" => return .str "casgn"
  | .str "lvar" => return .str "lvasgn"
  | .str "gvar" => return .str "gasgn"
  | tag => return tag

/-- The tag of a call to an attribute, kept among the children of the target. -/
def attributeTag : Tree → LowerM Raw
  | .leaf kind => return (kind.text?.map Raw.str).getD kind
  | .node _ _ _ => throw .shape

/-- The assignment of a value to a target; without a value the target alone. -/
def assignTo (target : Tree) (value : Option Tree) : LowerM Tree := do
  match target with
  | .leaf _ => throw .shape
  | .node (.str "aref_field") _ children =>
    if children.isEmpty then throw .shape
    return .bare "indexasgn" (children ++ value.toList)
  | .node (.str "field") _ [receiver, kind, name] =>
    let setter := Tree.sym (name.display ++ "=")
    return .node (← attributeTag kind) {} (receiver :: setter :: value.toList)
  | .node (.str "field") _ _ => throw .shape
  | .node (.str "mlhs") mark children => return .node (.str "mlhs") mark children
  | .node tag _ children => return .node (← assignmentTag tag) {} (children ++ value.toList)

/-- The target of a multiple assignment, of a rescue clause or of a loop. -/
def targetOf (t : Tree) : LowerM Tree :=
  return (← assignTo t none).withLine t.line?

/-- A list of values on the right is an array. -/
def arrayOfValues : Tree → Tree
  | .node (.str "mrhs") mark children => .node (.str "array") mark children
  | t => t

/-- A value that is absent is not assigned. -/
def present (t : Tree) : Option Tree :=
  if t.isNull then none else some t

def lowerAssign (go : Visit) (fs : Fields) : LowerM Tree := do
  let target ← go (fs.get 0)
  let value := arrayOfValues (← go (fs.get 1))
  return (← assignTo target (present value)).withLine target.line?

def lowerMultiAssign (go : Visit) (fs : Fields) : LowerM Tree := do
  let targets ← go (fs.get 0)
  return .bare "masgn" [targets, arrayOfValues (← go (fs.get 1))]

/-- The node of an operator assignment that evaluates its value only if needed. -/
def shortcutTag? : String → Option String
  | "||" => some "or_asgn"
  | "&&" => some "and_asgn"
  | _ => none

/-- An indexed or attribute target of an operator assignment, which reads before
    it sets. -/
def accessTarget? : Tree → LowerM (Option Tree)
  | .node (.str "aref_field") _ children =>
    if children.isEmpty then throw .shape else return some (.bare "indexasgn" children)
  | .node (.str "field") _ [receiver, kind, name] => do
    return some (.node (← attributeTag kind) {} [receiver, name])
  | .node (.str "field") _ _ => throw .shape
  | .node _ _ _ => return none
  | .leaf _ => throw .shape

/-- A node that is to stand in several places, with a number of its own. -/
def numbered : Tree → LowerM Tree
  | .leaf v => return .leaf v
  | .node tag mark children =>
    match mark.shared with
    | some _ => return .node tag mark children
    | none => return .node tag { mark with shared := some (← freshNumber) } children

/-- A node whose children are to stand in several places. -/
def withSharedChildren (t : Tree) : LowerM Tree :=
  return t.withChildren (← (← childrenOf t).mapM numbered)

def lowerOperatorAssign (go : Visit) (fs : Fields) : LowerM Tree := do
  let target ← go (fs.get 0)
  let value ← go (fs.get 2)
  let op ← clippedName (← require ((fs.get 1).item? 1))
  match ← accessTarget? target, shortcutTag? op with
  | some access, some tag => return .bare tag [access, value]
  | some access, none => return .bare "op_asgn" [access, .sym op, value]
  | none, some tag => return .bare tag [← targetOf target, value]
  | none, none =>
    let target ← withSharedChildren target
    let result := Tree.bare "send" [target, .sym op, value]
    return (← assignTo target (some result)).withLine target.line?

/-- Values on the right that start with an argument list. -/
def lowerValuesFromArgs (go : Visit) (fs : Fields) : LowerM Tree := do
  match fs with
  | [] => throw .shape
  | inner :: rest => return .bare "mrhs" ((← argumentList go inner) ++ (← rest.mapM go))

/-- Values on the right with a splat. -/
def lowerValuesStar (go : Visit) (fs : Fields) : LowerM Tree :=
  return (← lowerArgsStar go fs).withTag "mrhs"

/-- A list of targets. -/
def lowerTargets (go : Visit) (fs : Fields) : LowerM Tree := do
  let ts ← fs.mapM go
  return .bare "mlhs" (← ts.mapM targetOf)

/-- A list of targets and a splat, which may have no target. -/
def lowerTargetsStar (go : Visit) (fs : Fields) : LowerM Tree := do
  let targets ← go (fs.get 0)
  match ← go (fs.get 1) with
  | .null => addChildren targets [.bare "splat" []]
  | t => addChildren targets [.bare "splat" [← targetOf t]]

/-- A list of targets with a splat, and the targets after it. -/
def lowerTargetsPost (go : Visit) (fs : Fields) : LowerM Tree := do
  let targets ← go (fs.get 0)
  match ← go (fs.get 1) with
  | .node (.str "mlhs") _ children => addChildren targets children
  | t => addChildren targets [← targetOf t]

/-- An indexed access as a target. -/
def lowerIndexTarget (go : Visit) (fs : Fields) : LowerM Tree := do
  let receiver ← go (fs.get 0)
  return .bare "aref_field" (receiver :: (← argumentList go (fs.get 1)))

/-- An attribute as a target. -/
def lowerAttributeTarget (go : Visit) (fs : Fields) : LowerM Tree := do
  let receiver ← go (fs.get 0)
  let kind ← callTag (fs.get 1)
  return .bare "field" [receiver, .str kind, .sym (← nameOf (fs.get 2))]

end LowerM

end RubyTree
