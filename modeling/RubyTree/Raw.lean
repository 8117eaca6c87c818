import RubyTree.Atom

/-!
# Raw Trees

The tree that replaying the events leaves behind: nested lists, in which a list
that starts with a text is a node and that text is its tag. Nothing is known
about the other fields, which may be missing or of any kind, so each way of
reading a field says for which values it is defined.

A scanned token is a node of the form tag, text, position, where a position is
a list of the line and the column. Content of a literal has the delimiter of
the literal as a fourth item.

## Main definitions

* `Raw`: Atoms and lists.
* `Raw.tag?`: The tag of a node.
* `Raw.positionLine?`, `Raw.line?`: The line of a position and of a token.
* `Raw.linesBelow?`: A line counted from another one.
* `Raw.item?`: An item by its place.
* `Raw.elements?`: The items of a list or the characters of a text.
* `Raw.dropLast?`: A list or text without its end.
* `Raw.pieces`: What stands behind the tag of a node.
* `Raw.isLabel?`: Whether a node is a hash key written as a label.
* `Raw.depth`: How deep the lists nest.

## Theorems

* `depth_lt_of_mem`: An item is less deep than its list.
-/

namespace RubyTree

/-- A tree of lists and atoms. -/
inductive Raw where
  | atom (value : Atom)
  | list (items : List Raw)
  deriving Repr

namespace Raw

@[match_pattern] abbrev null : Raw := atom .null

@[match_pattern] abbrev bool (b : Bool) : Raw := atom (.bool b)

@[match_pattern] abbrev int (i : Int) : Raw := atom (.int i)

@[match_pattern] abbrev str (t : String) : Raw := atom (.str t)

@[match_pattern] abbrev sym (n : String) : Raw := atom (.sym n)

/-- Empty lists and empty atoms count as absent. -/
def isEmpty : Raw → Bool
  | atom a => a.isEmpty
  | list items => items.isEmpty

def isNull : Raw → Bool
  | null => true
  | _ => false

/-- Whether the value can be looked up among others; a list cannot. -/
def isKey : Raw → Bool
  | atom a => a.isKey
  | list _ => false

/-- The value, if it is an atom. -/
def atom? : Raw → Option Atom
  | atom a => some a
  | list _ => none

/-- The content of a text or a symbol. -/
def text? : Raw → Option String
  | atom a => a.text?
  | list _ => none

/-- What stands before the first half of a character, if there is one. -/
def beforeHalf? : Raw → Option (List Char)
  | atom a => a.beforeHalf?
  | list _ => none

/-- Whether the value is this text, as a text or as a symbol. -/
def isText (t : String) (r : Raw) : Bool :=
  r.text? == some t

/-- The tag of a node. A list that starts with a symbol is not a node. -/
def tag? : Raw → Option String
  | list (str t :: _) => some t
  | _ => none

/-- Whether the value is a node with this tag. -/
def hasTag (t : String) (r : Raw) : Bool :=
  r.tag? == some t

/-- The line of a position, which is its first item. That is an integer unless
    the position is broken. -/
def positionLine? : Raw → Option Raw
  | list (null :: _) => none
  | list (line :: _) => some line
  | _ => none

/-- The position of a token, which is the third item of its node. -/
def position : Raw → Raw
  | list (str _ :: _ :: p :: _) => p
  | _ => null

/-- The line of a token. -/
def line? (r : Raw) : Option Raw :=
  r.position.positionLine?

/-- The line that is so many lines below this one. Only a number can be counted
    from. -/
def linesBelow? (n : Nat) : Raw → Option Raw
  | atom line => (line.plus? n).map atom
  | list _ => none

/-- The items of a list, the octets of a binary text as numbers, or the
    characters of a text as texts. -/
def elements? : Raw → Option (List Raw)
  | list items => some items
  | atom (.octets bs) => some (bs.map fun b => int b.toNat)
  | atom a => a.text?.map fun t => t.toList.map fun c => str c.toString

/-- The item at a place of a list or text. -/
def item? (r : Raw) (i : Nat) : Option Raw :=
  r.elements?.bind (·[i]?)

/-- A list or text without its last element. -/
def dropLast? : Raw → Option Raw
  | list items => some (list items.dropLast)
  | atom (.octets bs) => some (atom (.octets bs.dropLast))
  | atom a => a.text?.map fun t => str (String.ofList t.toList.dropLast)

/-- A pair, as two fields. -/
def pair? (r : Raw) : Option (Raw × Raw) :=
  match r.elements? with
  | some [a, b] => some (a, b)
  | _ => none

/-- The items of a node behind its tag. A node with an empty tag counts as none. -/
def pieces : Raw → List Raw
  | list (str tag :: parts) => if tag == "" then [] else parts
  | _ => []

/-- Whether a delimiter starts a symbol. -/
def opensSymbol (text : String) : Bool :=
  [':'].isPrefixOf text.toList || ['%', 's'].isPrefixOf text.toList

/-- Whether a key is written as a label. A quoted key is, unless the delimiter
    of its first piece of content is that of a symbol. `none` if a quoted key
    is not a node of the expected form. -/
def isLabel? (key : Raw) : Option Bool :=
  if key.hasTag "@label" then some true
  else if !key.hasTag "dyna_symbol" then some false
  else do
    match (← key.item? 1).pieces.find? (·.hasTag "@tstring_content") with
    | none => return true
    | some content =>
      let delimiter ← content.item? 3
      if delimiter.isEmpty then return true
      return !opensSymbol (← delimiter.text?)

mutual

/-- A value as messages name it. -/
def quoted : Raw → String
  | atom a => a.quoted
  | list items => "[" ++ quotedItems items ++ "]"

/-- Values as messages name them, divided by commas. -/
def quotedItems : List Raw → String
  | [] => ""
  | [r] => r.quoted
  | r :: rs => r.quoted ++ ", " ++ quotedItems rs

end

/-- A value as a name made from it reads. -/
def display : Raw → String
  | atom a => a.display
  | list items => (list items).quoted

mutual

/-- How deep the lists nest; an atom has depth zero. -/
def depth : Raw → Nat
  | atom _ => 0
  | list items => depthItems items + 1

/-- The depth of the deepest item. -/
def depthItems : List Raw → Nat
  | [] => 0
  | r :: rs => max r.depth (depthItems rs)

end

theorem depth_le_depthItems {r : Raw} {items : List Raw} (h : r ∈ items) :
    r.depth ≤ depthItems items := by
  induction items with
  | nil => cases h
  | cons a as ih =>
    rw [depthItems]
    rcases List.mem_cons.1 h with rfl | h
    · exact Nat.le_max_left _ _
    · exact Nat.le_trans (ih h) (Nat.le_max_right _ _)

theorem depth_lt_of_mem {r : Raw} {items : List Raw} (h : r ∈ items) :
    r.depth < (list items).depth := by
  rw [depth]
  exact Nat.lt_succ_of_le (depth_le_depthItems h)

end Raw

end RubyTree
