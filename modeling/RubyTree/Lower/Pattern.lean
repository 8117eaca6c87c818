import RubyTree.Lower.Field

/-!
# Patterns

A pattern is built from ordinary nodes with other meanings: a bare name binds a
variable, a variable that is read is pinned, and `|` and `=>` are alternatives
and captures rather than operators. Every name a pattern binds is a local
variable from there on.

## Main definitions

* `lowerPattern`: A node in the position of a pattern.
* `lowerGuarded`: A pattern with its guard.
* `lowerArrayPattern`, `lowerFindPattern`, `lowerHashPattern`: Patterns of parts.
-/

namespace RubyTree

namespace LowerM

/-- Binds a name to what a pattern matches. -/
def bindName (name : String) (line : Option Raw) : LowerM Tree := do
  bindLocal name
  return .placed line "match_var" [.sym name]

/-- The variable that a name in a pattern binds. -/
def matchVariable (token : Raw) : LowerM Tree := do
  if token.isNull then return .bare "match_rest" []
  bindName (← nameIn token) token.line?

/-- Variables that are compared with rather than bound. -/
def pinnable : List String :=
  ["lvar", "ivar", "gvar", "cvar"]

/-- A node in the position of a pattern. -/
def lowerPattern (go : Visit) : Raw → LowerM Tree
  | .list (.str "binary" :: fields) =>
    match fields with
    | [] => throw .shape
    | [_] => throw .shape
    | [left, op] => do
      if op.isText "|" || op.isText "=>" then
        let _ ← lowerPattern go left
        throw .shape
      go (.list (.str "binary" :: fields))
    | left :: op :: right :: _ => do
      if op.isText "|" then
        let left ← lowerPattern go left
        return .bare "match_alt" [left, ← lowerPattern go right]
      if op.isText "=>" then
        let left ← lowerPattern go left
        return .bare "match_as" [left, ← lowerPattern go right]
      go (.list (.str "binary" :: fields))
  | .list (.str "var_field" :: fields) => matchVariable (fields.getD 0 .null)
  | .list (.str "var_ref" :: fields) => do
    let value ← go (.list (.str "var_ref" :: fields))
    if ← isAmong pinnable (← require value.tag?) then return .bare "pin" [value]
    return value
  | .list (.str "begin" :: fields) => return .bare "pin" [← go (.list (.str "begin" :: fields))]
  | r => go r

/-- The tag of a guard. -/
def guardTag? : Raw → Option String
  | .list (.str "if_mod" :: _) => some "if_guard"
  | .list (.str "unless_mod" :: _) => some "unless_guard"
  | _ => none

/-- A pattern and its guard, which is absent if it has none. -/
def lowerGuarded (go : Visit) (r : Raw) : LowerM (Tree × Tree) := do
  match guardTag? r with
  | none => return (← lowerPattern go r, .null)
  | some tag =>
    let t ← lowerPattern go ((r.item? 2).getD .null)
    return (t, .bare tag [← go ((r.item? 1).getD .null)])

/-- The rest of a list or hash, bound to a name or not. -/
def matchRest (r : Raw) : LowerM Tree := do
  if r.hasTag "var_field" then
    let token ← require (r.item? 1)
    if !token.isNull then return .bare "match_rest" [← matchVariable token]
  return .bare "match_rest" []

/-- Whether a hash pattern allows no other keys. -/
def refusesRest : Raw → Bool
  | .sym name => name == "nil"
  | .list (.str "var_field" :: token :: _) => token.isText "nil"
  | r => r.hasTag "nokw_param"

/-- A pattern for the parts of an object of a class. -/
def withConstant (go : Visit) (const : Raw) (t : Tree) : LowerM Tree := do
  if const.isNull then return t
  return .bare "const_pattern" [← go const, t]

/-- Every element of a field as a pattern. -/
def patterns (go : Visit) (r : Raw) : LowerM (List Tree) := do
  (← elementsOf r).mapM (lowerPattern go)

/-- A list by its elements and a rest among them. -/
def lowerArrayPattern (go : Visit) (fs : Fields) : LowerM Tree := do
  let before ← patterns go (fs.get 1)
  let rest ← if (fs.get 2).isNull then pure [] else do pure [← matchRest (fs.get 2)]
  let after ← patterns go (fs.get 3)
  withConstant go (fs.get 0) (.bare "array_pattern" (before ++ rest ++ after))

/-- Elements anywhere in a list. -/
def lowerFindPattern (go : Visit) (fs : Fields) : LowerM Tree := do
  let before ← matchRest (fs.get 1)
  let items ← patterns go (fs.get 2)
  let after ← matchRest (fs.get 3)
  withConstant go (fs.get 0) (.bare "find_pattern" (before :: items ++ [after]))

/-- A key of a hash with a pattern for its value; without one the key is bound. -/
def pairPattern (go : Visit) (r : Raw) : LowerM Tree := do
  let (key, value) ← require r.pair?
  let key ← go key
  if value.isNull then bindName (← nameFrom (← firstChild key)) key.line?
  else return .bare "pair" [key, ← lowerPattern go value]

/-- A hash by its keys. -/
def lowerHashPattern (go : Visit) (fs : Fields) : LowerM Tree := do
  let pairs ← (← elementsOf (fs.get 1)).mapM (pairPattern go)
  let rest ←
    if refusesRest (fs.get 2) then pure [.bare "match_nil_pattern" []]
    else if (fs.get 2).isNull then pure []
    else do pure [← matchRest (fs.get 2)]
  withConstant go (fs.get 0) (.bare "hash_pattern" (pairs ++ rest))

end LowerM

end RubyTree
