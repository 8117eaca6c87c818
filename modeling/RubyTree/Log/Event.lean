import RubyTree.Atom

/-!
# Recorded Events

Ruby's own parser calls back for every token it scans and every construct it
completes. Each call is recorded as an event with a number, a name, the place
the parser had reached, and arguments. An argument is an atom, the value that
an earlier event left, or a list of arguments. Events for tokens have a name
that starts with `@`.

## Main definitions

* `Arg`: An argument of an event.
* `Event`: A recorded call.
* `Event.isToken`: Whether a token was scanned.
-/

namespace RubyTree

/-- An argument of an event. -/
inductive Arg where
  | atom (value : Atom)
  | ref (id : Nat)
  | list (items : List Arg)
  deriving Repr

/-- A recorded call of the parser. -/
structure Event where
  id : Nat
  name : String
  line : Nat
  column : Nat
  args : List Arg
  deriving Repr

namespace Event

/-- Whether the event is a scanned token. -/
def isToken (e : Event) : Bool :=
  e.name.toList.head? = some '@'

end Event

end RubyTree
