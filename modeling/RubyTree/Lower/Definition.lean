import RubyTree.Lower.Parameter
import RubyTree.Lower.Sequence

/-!
# Definitions

Methods, classes and modules start a body with locals of its own. In a method
body class variables are assigned rather than declared; the bodies of classes
and modules are never inside a method. The receiver of a singleton method, the
superclass and the target of a singleton class belong to the scope outside.

## Main definitions

* `lowerMethod`, `lowerSingletonMethod`: Methods.
* `lowerModule`, `lowerClass`, `lowerSingletonClass`: Namespaces.
* `lowerHook`: Code to run at the start or the end.
* `lowerGlobalAlias`: A second name for a global variable.
-/

namespace RubyTree

namespace LowerM

/-- The parameters of a method. -/
def methodParams (go : Visit) (r : Raw) : LowerM Tree := do
  if r.isEmpty then return .bare "args" []
  match ← go r with
  | .null => return .bare "args" []
  | .node (.str "nil") _ _ => return .bare "args" []
  | t => return t

/-- The statements of a method body; an empty one is `nil`. -/
def methodStatements (go : Visit) (body : Raw) : LowerM (List Tree) := do
  let t ← if body.hasTag "bodystmt" then go body else visitBody go body
  match t with
  | .null => return [.bare "nil" []]
  | .node (.str "begin") _ children => return children
  | t => return [t]

/-- The parameters and the statements of a method. -/
def methodParts (go : Visit) (params body : Raw) : LowerM (List Tree) :=
  inBody true do
    let args ← methodParams go params
    return args :: (← withRest (restName args) (methodStatements go body))

def lowerMethod (go : Visit) (fs : Fields) : LowerM Tree := do
  let parts ← methodParts go (fs.get 1) (fs.get 2)
  return .placed (fs.get 3).positionLine? "def" (.sym (← nameIn (fs.get 0)) :: parts)

def lowerSingletonMethod (go : Visit) (fs : Fields) : LowerM Tree := do
  let receiver := (← go (fs.get 0)).unwrapBegin
  let parts ← methodParts go (fs.get 3) (fs.get 4)
  return .placed (fs.get 5).positionLine? "defs"
    (receiver :: .sym (← nameIn (fs.get 2)) :: parts)

/-- The body of a class or module. -/
def namespaceBody (go : Visit) (body : Raw) : LowerM Tree :=
  inBody false (visitBody go body)

def lowerModule (go : Visit) (fs : Fields) : LowerM Tree := do
  let const ← go (fs.get 0)
  return .placed (fs.get 2).positionLine? "module" [const, ← namespaceBody go (fs.get 1)]

def lowerClass (go : Visit) (fs : Fields) : LowerM Tree := do
  let const ← go (fs.get 0)
  let parent ← go (fs.get 1)
  return .placed (fs.get 3).positionLine? "class" [const, parent, ← namespaceBody go (fs.get 2)]

def lowerSingletonClass (go : Visit) (fs : Fields) : LowerM Tree := do
  let target ← go (fs.get 0)
  return .placed (fs.get 2).positionLine? "sclass" [target, ← namespaceBody go (fs.get 1)]

/-- Code to run at the start or the end of the program. -/
def lowerHook (tag : String) (go : Visit) (fs : Fields) : LowerM Tree :=
  return .placed (fs.get 1).positionLine? tag [← visitBody go (fs.get 0)]

/-- A second name for a global variable. -/
def lowerGlobalAlias (fs : Fields) : LowerM Tree := do
  let left ← nameOf (fs.get 0)
  return .bare "valias" [.sym left, .sym (← nameOf (fs.get 1))]

end LowerM

end RubyTree
