import RubyTree.Lower.Field

/-!
# Calls

Method calls in their written forms: with and without a receiver, with and
without brackets, and with arguments collected by a list of their own. A bare
name is a call unless it is known to be a local variable.

## Main definitions

* `callTag`: The kind of call an operator makes.
* `lowerCall`, `lowerCommand`, `lowerCommandCall`: Calls.
* `lowerBareName`, `lowerFunction`: Calls without receiver and arguments.
* `lowerCallWithArgs`: A call and the arguments in brackets after it.
* `lowerArgParen`, `lowerArgsBlock`, `lowerArgsStar`: Argument lists.
* `lowerWithArgs`, `lowerIndex`: Other nodes with arguments.
-/

namespace RubyTree

namespace LowerM

/-- The kind of call that an operator makes, given as a token or by itself. -/
def callTag (operator : Raw) : LowerM String := do
  let op ← if operator.tag?.isSome then require (operator.item? 1) else pure operator
  if !op.isKey then throw .shape
  match op.text? with
  | some "." => return "send"
  | some "::" => return "send"
  | some "&." => return "safe_call"
  | _ => throw (.unknownCallOperator op)

/-- A call without arguments. -/
def lowerCall (go : Visit) (fs : Fields) : LowerM Tree := do
  let kind ← callTag (fs.get 1)
  let receiver ← go (fs.get 0)
  let name := fs.get 2
  return .placed name.line? kind [receiver, .sym (← nameOf name)]

/-- A call of one's own method, without brackets. -/
def lowerCommand (go : Visit) (fs : Fields) : LowerM Tree := do
  let name := fs.get 0
  let symbol := Tree.sym (← nameOf name)
  return .placed name.line? "send" (.null :: symbol :: (← argumentList go (fs.get 1)))

/-- A call with a receiver, without brackets. -/
def lowerCommandCall (go : Visit) (fs : Fields) : LowerM Tree := do
  let kind ← callTag (fs.get 1)
  let receiver ← go (fs.get 0)
  let name := fs.get 2
  let symbol := Tree.sym (← nameOf name)
  return .placed name.line? kind (receiver :: symbol :: (← argumentList go (fs.get 3)))

/-- A bare name reads a local variable or calls a method. -/
def lowerBareName (fs : Fields) : LowerM Tree := do
  let token := fs.get 0
  let name ← nameOf token
  if ← isLocal (.sym name) then return .placed token.line? "lvar" [.sym name]
  return .placed token.line? "send" [.null, .sym name]

/-- The name of a method that is called with brackets. -/
def lowerFunction (fs : Fields) : LowerM Tree := do
  let token := fs.get 0
  return .placed token.line? "send" [.null, .sym (← nameOf token)]

/-- A call and the arguments after it. -/
def lowerCallWithArgs (go : Visit) (fs : Fields) : LowerM Tree := do
  let call ← go (fs.get 0)
  let children ← childrenOf call
  return call.withChildren (children ++ (← argumentList go (fs.get 1)))

/-- Arguments in brackets. -/
def lowerArgParen (go : Visit) (fs : Fields) : LowerM Tree := do
  let args := fs.get 0
  if args.isNull then return .bare "arglist" []
  return .bare "arglist" (← argumentList go args)

/-- A node with every field as a child. -/
def lowerFields (tag : String) (go : Visit) (fs : Fields) : LowerM Tree :=
  return .bare tag (← fs.mapM go)

/-- Arguments and a block argument, which may be anonymous. -/
def lowerArgsBlock (go : Visit) (fs : Fields) : LowerM Tree := do
  let args ← argumentList go (fs.get 0)
  match fs.tail with
  | [] => return .bare "arglist" args
  | .bool false :: _ => return .bare "arglist" args
  | .null :: _ => return .bare "arglist" (args ++ [.bare "block_pass" [.null]])
  | .bool true :: _ => return .bare "arglist" (args ++ [.bare "block_pass" [.null]])
  | block :: _ => return .bare "arglist" (args ++ [.bare "block_pass" [← go block]])

/-- Arguments, a splat, and the arguments after it. -/
def lowerArgsStar (go : Visit) (fs : Fields) : LowerM Tree := do
  match fs with
  | args :: splatted :: rest =>
    let items ← match ← go args with
      | .null => pure (.bare "arglist" [])
      | t => pure t
    let children ← childrenOf items
    let splat := Tree.bare "splat" [← go splatted]
    return items.withChildren (children ++ splat :: (← rest.mapM go))
  | _ => throw .shape

/-- A node whose children are arguments. -/
def lowerWithArgs (tag : String) (go : Visit) (fs : Fields) : LowerM Tree :=
  return .bare tag (← argumentList go (fs.get 0))

/-- An indexed access. -/
def lowerIndex (go : Visit) (fs : Fields) : LowerM Tree := do
  let collection ← go (fs.get 0)
  return .bare "index" (collection :: (← argumentList go (fs.get 1)))

end LowerM

end RubyTree
