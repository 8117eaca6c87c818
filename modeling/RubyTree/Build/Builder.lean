import RubyTree.Build.Arena
import RubyTree.Build.Comments

/-!
# The State of the Builder

What is remembered from one event to the next. Besides the lists themselves
these are side tables: the delimiters of the open literals, the operators `in`
and `=>` that no construct has claimed yet, whether a symbol is being read, the
last tokens, and which number tokens came right after a sign.

A step may fail, and what it did before that stays done, so a computation gives
a result or an error and in either case the state it reached.

## Main definitions

* `Builder`: The state.
* `BuildM`: A step that may fail.
* `BuildM.newList`, `BuildM.itemAt`, `BuildM.append`: Work on lists.
-/

namespace RubyTree

/-- A scanned token: its event name and its text. -/
abbrev Token := String × Item

/-- What is remembered between events. The stacks have their top first. -/
structure Builder where
  filename : String
  line : Int
  column : Int := 0
  comments : Comments Item := {}
  delimiters : List Item := []
  operators : List String := []
  inSymbol : Bool := false
  /-- The token before this one, spaces included. -/
  lastToken : Option Token := none
  /-- The last token that is not layout. -/
  lastSignificant : Option Token := none
  /-- The number tokens that came right after a sign. -/
  signed : List Item := []
  arena : Arena := {}

/-- A step of the builder. -/
abbrev BuildM := ExceptT Error (StateM Builder)

namespace BuildM

/-- A value that has to be there. -/
def require {α : Type} : Option α → BuildM α
  | some a => pure a
  | none => throw .shape

/-- A new list with these items. -/
def newList (items : List Item) : BuildM Item := do
  let (v, arena) := (← get).arena.new items
  modify fun b => { b with arena }
  return v

/-- A new node. -/
def newNode (tag : String) (fields : List Item) : BuildM Item :=
  newList (.str tag :: fields)

/-- The items of a list. -/
def itemsOf (v : Item) : BuildM (List Item) := do
  require ((← get).arena.items? v)

/-- The element at a place of a list or text. -/
def itemAt (v : Item) (i : Nat) : BuildM Item := do
  require ((← get).arena.item? v i)

/-- A value that is looked up, which must be able to be a key. -/
def key (v : Item) : BuildM Atom :=
  require (v.atom?.filter Atom.isKey)

/-- The text at a place of a list. -/
def textAt (v : Item) (i : Nat) : BuildM String := do
  require (← itemAt v i).text?

/-- Whether a key is written as a label. -/
def isLabel (key : Item) : BuildM Bool := do
  require ((← get).arena.isLabel? key)

/-- The tag of a node. -/
def tagOf (v : Item) : BuildM (Option String) := do
  return (← get).arena.tag? v

/-- Other items for a list. -/
def setItems (v : Item) (items : List Item) : BuildM Unit :=
  modify fun b => { b with arena := b.arena.set v items }

/-- Adds an item to the end of a list. -/
def append (v item : Item) : BuildM Unit := do
  setItems v ((← itemsOf v) ++ [item])

/-- The raw tree of a value. -/
def freeze (v : Item) : BuildM Raw := do
  require ((← get).arena.freeze? v)

/-- The current place, as a position. -/
def here : BuildM Item := do
  let b ← get
  newList [.int b.line, .int b.column]

end BuildM

end RubyTree
