import RubyTree.Lower.Parameter
import RubyTree.Lower.Sequence
import RubyTree.Tree.Walk

/-!
# Blocks

A block is lowered in two steps: the braces hold a body together with its
parameters, and the call before them takes both. A block without parameters of
its own whose body reads `_1` to `_9` has as many parameters as the highest of
them; reads inside scopes of their own do not count.

## Main definitions

* `highestNumbered`: The highest numbered parameter a body reads.
* `makeBlock`: A call with its block.
* `lowerBlockBody`, `lowerBlockCall`, `lowerLambda`: The constructs.
-/

namespace RubyTree

namespace LowerM

/-- The tags of scopes whose numbered parameters are their own. -/
def scopeTags : List String :=
  ["block", "numblock", "def", "defs", "class", "module", "sclass"]

/-- The number of a numbered parameter, zero for every other name. -/
def parameterNumber (name : String) : Nat :=
  match name.toList with
  | ['_', d] => if '1' ≤ d ∧ d ≤ '9' then d.toNat - '0'.toNat else 0
  | _ => 0

/-- The number of the parameter a node reads, zero if it reads none. -/
def numberRead : Tree → LowerM Nat
  | .node (.str "lvar") _ children => do
    let name ← require children.head?
    return parameterNumber (← require name.text?)
  | _ => return 0

/-- The highest numbered parameter a body reads, zero if it reads none. -/
def highestNumbered (body : Tree) : LowerM Nat := do
  let nodes ← require (body.walk? scopeTags)
  return (← nodes.mapM numberRead).foldl max 0

/-- A call with its block. -/
def makeBlock (call args body : Tree) : LowerM Tree := do
  let args := if args.isNull then .bare "args" [] else args
  if (← read).numberedParams then
    if (← childrenOf args).isEmpty then
      let count ← highestNumbered body
      if count != 0 then return .bare "numblock" [call, .int count, body]
  return .bare "block" [call, args, body]

/-- The parameters of a block and its body. -/
def paramsAndBody (go : Visit) (fs : Fields) : LowerM (Tree × Tree) := do
  let args ← go (fs.get 0)
  let body ← withRest (restName args) (visitBody go (fs.get 1))
  return (args, body)

/-- A block by itself, to be taken by a call. -/
def lowerBlockBody (go : Visit) (fs : Fields) : LowerM Tree := do
  let (args, body) ← paramsAndBody go fs
  return .bare "block_body" [args, body]

/-- A call and the block after it. -/
def lowerBlockCall (go : Visit) (fs : Fields) : LowerM Tree := do
  let call ← go (fs.get 0)
  match ← childrenOf (← go (fs.get 1)) with
  | [args, body] => makeBlock call args body
  | _ => throw .shape

/-- A lambda literal. -/
def lowerLambda (go : Visit) (fs : Fields) : LowerM Tree := do
  let (args, body) ← paramsAndBody go fs
  makeBlock (.bare "lambda" []) args body

end LowerM

end RubyTree
