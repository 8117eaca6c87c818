import RubyTree.Error
import RubyTree.Tree.Equality

/-!
# Scopes

Lowering the raw tree needs to know which bare names are local variables. Three
things are tracked: the names bound by patterns and named groups in the current
body, the double-splat parameters of the bodies around it, and whether the body
is that of a method. Nodes that come to stand in several places are numbered,
so the count of these is kept too.

A definition starts with no locals of its own and the outer ones come back when
it ends; a double-splat parameter is known inside its body only. Both hold on
every path, also when lowering the body fails, so a step is a computation that
gives a result or an error and in either case the scope it reached.

## Main definitions

* `Options`: What lowering is told from outside.
* `Scope`: What is known at a place.
* `LowerM`: A step that may fail.
* `LowerM.inBody`: A step in a body with locals of its own.
* `LowerM.withRest`: A step inside the reach of a double-splat parameter.
* `LowerM.freshNumber`: A number for a node that stands in several places.
* `Visit`: How the parts of a node are lowered.
-/

namespace RubyTree

/-- What lowering is told from outside. -/
structure Options where
  filename : String := "(string)"
  /-- Whether a block that reads `_1` to `_9` has them as parameters. -/
  numberedParams : Bool := true
  deriving DecidableEq, Repr

/-- The names known at a place, and the nodes numbered before it. -/
structure Scope where
  /-- Names bound in the current body, each once. -/
  locals : List String := []
  /-- What stands for the names of the double-splat parameters of the bodies
      around, innermost first; in a body without one the name is absent. -/
  rests : List Tree := []
  inMethod : Bool := false
  /-- How many nodes have been numbered. -/
  numbered : Nat := 0
  deriving Repr

namespace Scope

/-- One more local variable. -/
def bindLocal (s : Scope) (name : String) : Scope :=
  { s with locals := if s.locals.contains name then s.locals else name :: s.locals }

/-- Whether what stands for a name reads a local variable. The absent name
    counts as one inside a body without a double-splat parameter. -/
def isLocal (s : Scope) (name : Tree) : Bool :=
  name.text?.any s.locals.contains || s.rests.any name.same

/-- The scope at the start of a body with locals of its own. -/
def enterBody (s : Scope) (method : Bool) : Scope :=
  { s with locals := [], inMethod := method }

/-- The scope after such a body, which started in `outer`. -/
def leaveBody (s outer : Scope) : Scope :=
  { s with locals := outer.locals, inMethod := outer.inMethod }

/-- The scope inside the reach of a double-splat parameter. -/
def enterRest (s : Scope) (name : Tree) : Scope :=
  { s with rests := name :: s.rests }

/-- The scope after that reach: the innermost name is taken away again, whatever
    the scope was that the reach started in. -/
def leaveRest (s _outer : Scope) : Scope :=
  { s with rests := s.rests.tail }

end Scope

/-- A step of lowering. -/
abbrev LowerM := ReaderT Options (ExceptT Error (StateM Scope))

/-- How a part of a node is lowered. -/
abbrev Visit := Raw → LowerM Tree

namespace LowerM

/-- The result or error of a step, and the scope it reached. -/
def runIn {α : Type} (x : LowerM α) (options : Options) (scope : Scope) : Except Error α × Scope :=
  (x options).run scope

/-- A value that has to be there. -/
def require {α : Type} : Option α → LowerM α
  | some a => pure a
  | none => throw .shape

/-- A result that does not depend on the scope. -/
def ofExcept {α : Type} : Except Error α → LowerM α
  | .ok a => pure a
  | .error e => throw e

/-- A step in a body with locals of its own. -/
def inBody {α : Type} (method : Bool) (body : LowerM α) : LowerM α := fun options =>
  ExceptT.mk fun outer =>
    let (result, inner) := body.runIn options (outer.enterBody method)
    (result, inner.leaveBody outer)

/-- A step inside the reach of a double-splat parameter. -/
def withRest {α : Type} (name : Tree) (body : LowerM α) : LowerM α := fun options =>
  ExceptT.mk fun outer =>
    let (result, inner) := body.runIn options (outer.enterRest name)
    (result, inner.leaveRest outer)

/-- Binds a local variable. -/
def bindLocal (name : String) : LowerM Unit :=
  modify (·.bindLocal name)

/-- Whether what stands for a name reads a local variable. -/
def isLocal (name : Tree) : LowerM Bool :=
  return (← get).isLocal name

/-- A number that no node has yet. -/
def freshNumber : LowerM Nat :=
  modifyGet fun s => (s.numbered, { s with numbered := s.numbered + 1 })

end LowerM

end RubyTree
