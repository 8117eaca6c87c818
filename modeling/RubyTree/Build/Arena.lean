import RubyTree.Raw

/-!
# Growing Lists

While the raw tree is built, its lists still grow: an event that adds to a list
changes the list itself, and everything that refers to it sees the addition. A
value is therefore an atom or the number of a list, and an arena holds the
current items of every list. Two lists with equal items are still two lists.

Once nothing changes any more, a value can be frozen into a raw tree. Following
lists from one to the next visits each at most once on any path, unless a list
contains itself, so the number of lists bounds the depth of the result.

## Main definitions

* `Item`: An atom, or a list by its number.
* `Arena`: The items of all lists.
* `Arena.new`, `Arena.set`: A new list, and new items for a list.
* `Arena.freeze?`: A value as a raw tree, if it is one.
* `Arena.isLabel?`: Whether a value is a hash key written as a label.
-/

namespace RubyTree

/-- A value of the tree under construction. -/
inductive Item where
  | atom (value : Atom)
  | list (id : Nat)
  deriving DecidableEq, Repr

namespace Item

@[match_pattern] abbrev null : Item := atom .null

@[match_pattern] abbrev str (t : String) : Item := atom (.str t)

@[match_pattern] abbrev int (i : Int) : Item := atom (.int i)

/-- The value, if it is an atom. -/
def atom? : Item → Option Atom
  | atom a => some a
  | list _ => none

/-- The content of a text or a symbol. -/
def text? : Item → Option String
  | atom a => a.text?
  | list _ => none

/-- Whether the value is a text, a symbol, or binary text. -/
def isTextual (v : Item) : Bool :=
  v.atom?.any Atom.isTextual

/-- Whether the value is this text, as a text or as a symbol. -/
def isText (t : String) (v : Item) : Bool :=
  v.text? == some t

end Item

/-- The items of every list, by number. -/
structure Arena where
  lists : Array (List Item) := #[]

namespace Arena

/-- The items of a value that is a list. -/
def items? (a : Arena) : Item → Option (List Item)
  | .list id => a.lists[id]?
  | .atom _ => none

/-- A new list. -/
def new (a : Arena) (items : List Item) : Item × Arena :=
  (.list a.lists.size, { lists := a.lists.push items })

/-- Other items for a list; an atom has none. -/
def set (a : Arena) (v : Item) (items : List Item) : Arena :=
  match v with
  | .list id => { lists := a.lists.setIfInBounds id items }
  | .atom _ => a

/-- Whether the value counts as absent. -/
def isEmpty (a : Arena) (v : Item) : Bool :=
  match v with
  | .atom a => a.isEmpty
  | .list _ => (a.items? v).all List.isEmpty

/-- The tag of a node. -/
def tag? (a : Arena) (v : Item) : Option String :=
  match a.items? v with
  | some (.str t :: _) => some t
  | _ => none

/-- The element at a place of a list or text. -/
def item? (a : Arena) (v : Item) (i : Nat) : Option Item :=
  match v with
  | .list _ => (a.items? v).bind (·[i]?)
  | .atom (.octets bs) => bs[i]?.map fun b => .int b.toNat
  | .atom b => b.text?.bind fun t => t.toList[i]?.map fun c => .str c.toString

/-- The items of a node behind its tag. A node with an empty tag counts as none. -/
def pieces (a : Arena) (v : Item) : List Item :=
  match a.items? v with
  | some (.str tag :: parts) => if tag == "" then [] else parts
  | _ => []

/-- Whether a key is written as a label. No more of the key is looked at than
    tells, so a key with a list inside of itself is judged like any other. -/
def isLabel? (a : Arena) (key : Item) : Option Bool :=
  if a.tag? key == some "@label" then some true
  else if !(a.tag? key == some "dyna_symbol") then some false
  else do
    match (a.pieces (← a.item? key 1)).find? (a.tag? · == some "@tstring_content") with
    | none => return true
    | some content =>
      let delimiter ← a.item? content 3
      if a.isEmpty delimiter then return true
      return !Raw.opensSymbol (← delimiter.text?)

/-- A value as a raw tree in which lists nest at most `depth` deep. -/
def freezeAt (a : Arena) : Nat → Item → Option Raw
  | _, .atom v => some (.atom v)
  | 0, .list _ => none
  | depth + 1, .list id => do
    let items ← a.lists[id]?
    return .list (← items.mapM (a.freezeAt depth))

/-- A value as a raw tree, unless some list in it contains itself. -/
def freeze? (a : Arena) (v : Item) : Option Raw :=
  -- A path through lists that repeats none is no longer than there are lists.
  a.freezeAt a.lists.size v

end Arena

end RubyTree
