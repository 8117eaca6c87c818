import RubyTree.Lower.Field

/-!
# Parameters

A parameter list has required, optional, rest, trailing, keyword, double-splat
and block parameters, in that order. A parameter is lowered as the value or
target it looks like and then turned into its own form.

A block with one parameter takes its argument apart only if a comma follows it,
so a lone parameter is wrapped unless there is one.

## Main definitions

* `asParameter`: A value or target as a parameter.
* `lowerParams`: A parameter list.
* `lowerNamedParam`: A rest, double-splat or block parameter.
* `lowerBlockParams`: The parameters of a block.
* `restName`: The name of the double-splat parameter.
-/

namespace RubyTree

namespace LowerM

/-- The parameter that a splat stands for. -/
def splatParameter (tag : String) : List Tree → LowerM Tree
  | [] => return .bare tag []
  | .null :: _ => return .bare tag []
  | inner :: _ => return .placed inner.line? tag [← firstChild inner]

mutual

/-- A value or target as a parameter. -/
def asParameter : Tree → LowerM Tree
  | .leaf _ => throw .shape
  | .node (.str "lvar") mark children => return .placed mark.line "arg" [← require children.head?]
  | .node (.str "lvasgn") mark children => return .placed mark.line "arg" [← require children.head?]
  | .node (.str "mlhs") mark children => return .placed mark.line "mlhs" (← asParameters children)
  | .node (.str "splat") _ children => splatParameter "restarg" children
  | .node (.str "kwsplat") _ children => splatParameter "kwrestarg" children
  | .node (.str "forwarded_args") _ _ => return .bare "forward_arg" []
  | .node tag mark children => return .node tag mark children

/-- Values or targets as parameters. -/
def asParameters : List Tree → LowerM (List Tree)
  | [] => return []
  | t :: ts => do
    let p ← asParameter t
    return p :: (← asParameters ts)

end

/-- Whether the rest parameter is only the mark of a comma. -/
def isExtraComma : Raw → Bool
  | .atom a => a.isZero
  | r => r.hasTag "excessed_comma"

/-- Parameters by position. -/
def positional (go : Visit) (r : Raw) : LowerM (List Tree) := do
  (← elementsOf r).mapM fun item => do asParameter (← go item)

/-- A parameter with a default. -/
def optional (go : Visit) (r : Raw) : LowerM Tree := do
  let (name, value) ← require r.pair?
  let symbol := Tree.sym (← nameOf name)
  return .placed name.line? "optarg" [symbol, ← go value]

/-- A keyword parameter, with or without a default. -/
def keyword (go : Visit) (r : Raw) : LowerM Tree := do
  let (label, value) ← require r.pair?
  let name := Tree.sym (← clippedName (← require (label.item? 1)))
  if value.isEmpty then return .placed label.line? "kwarg" [name]
  return .placed label.line? "kwoptarg" [name, ← go value]

/-- A parameter of which there is at most one. The bare name `nil` refuses
    keywords. -/
def special (go : Visit) (r : Raw) : LowerM (List Tree) := do
  match r with
  | .sym "nil" => return [.bare "kwnilarg" []]
  | r => if r.isEmpty then return [] else return [← asParameter (← go r)]

/-- A parameter list. -/
def lowerParams (go : Visit) (fs : Fields) : LowerM Tree := do
  let required ← positional go (fs.get 0)
  let optionals ← (← elementsOf (fs.get 1)).mapM (optional go)
  let rest ← if isExtraComma (fs.get 2) then pure [] else special go (fs.get 2)
  let post ← positional go (fs.get 3)
  let keywords ← (← elementsOf (fs.get 4)).mapM (keyword go)
  let kwrest ← special go (fs.get 5)
  let block ← special go (fs.get 6)
  return .bare "args" (required ++ optionals ++ rest ++ post ++ keywords ++ kwrest ++ block)

/-- A parameter that may go without a name. -/
def lowerNamedParam (tag : String) (fs : Fields) : LowerM Tree := do
  let name := fs.get 0
  if name.isNull then return .bare tag []
  return .placed name.line? tag [.sym (← nameOf name)]

/-- Whether a parameter list ends in a comma. -/
def hasTrailingComma (params : Raw) : LowerM Bool :=
  if params.hasTag "params" then return isExtraComma (← require (params.item? 3))
  else return false

/-- A lone parameter of a block, which takes its argument whole. -/
def wrapLone : List Tree → LowerM (List Tree)
  | [.leaf _] => throw .shape
  | [.node (.str "arg") mark children] =>
    return [.placed mark.line "procarg0" [.node (.str "arg") mark children]]
  | [.node (.str "mlhs") mark children] => return [.placed mark.line "procarg0" children]
  | ts => return ts

/-- A name that is local to a block. -/
def shadow (token : Raw) : LowerM Tree :=
  return .placed token.line? "shadowarg" [.sym (← nameOf token)]

/-- The parameters of a block, and the names local to it. -/
def lowerBlockParams (go : Visit) (fs : Fields) : LowerM Tree := do
  let args ← go (fs.get 0)
  let children ← childrenOf args
  let children ← if ← hasTrailingComma (fs.get 0) then pure children else wrapLone children
  let shadows ← (← elementsOf (fs.get 1)).mapM shadow
  return args.withChildren (children ++ shadows)

/-- What stands for the name of the double-splat parameter in a parameter list,
    absent if there is none. Only its value matters, not where it stands. -/
def restName : Tree → Tree
  | .node _ _ children => (children.findSome? fun
    | .node (.str "kwrestarg") _ (name :: _) => some name.unmarked
    | _ => none).getD .null
  | .leaf _ => .null

end LowerM

end RubyTree
