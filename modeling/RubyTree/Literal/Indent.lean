import RubyTree.Raw
import RubyTree.Text.Blank

/-!
# Removing Indentation

A squiggly heredoc loses the indentation that its lines have in common. The
width to remove is counted in columns, where a tab goes on to the next multiple
of eight; a tab that would pass the width stays.

A width is a whole number unless the events are broken. A width of another kind
is compared with columns, which are whole, so all that matters of it are the
two whole numbers around it. In the same way content need not be a text: what
is not a blank is never removed, whatever it is.

## Main definitions

* `tabStop`: The column after a tab.
* `Width`: How far blanks are removed.
* `dedentFrom`: The elements after the blanks that fit into a width.
* `dedent`: A text without the blanks that fit into a width.
* `Atom.dedent?`, `Raw.dedent?`: The same for content of any kind.
-/

namespace RubyTree

/-- Tabs stop at the multiples of this. -/
def tabWidth : Nat := 8

/-- The column after a tab that starts at `col`. -/
def tabStop (col : Nat) : Nat :=
  tabWidth * (col / tabWidth + 1)

/-- How far blanks are removed: they start before `below`, and a tab ends at
    `most` or before. -/
structure Width where
  below : Int
  most : Int
  deriving DecidableEq, Repr

namespace Width

/-- A whole number of columns. -/
def whole (columns : Int) : Width := ⟨columns, columns⟩

/-- A rational number of columns. -/
def ofRat (q : Rat) : Width := ⟨-(-q.num / (q.den : Int)), q.num / (q.den : Int)⟩

/-- A floating number of columns, for so many elements. Nothing is below a NaN;
    infinity is past every column that the elements can reach. -/
def ofReal (count : Nat) (x : Binary64) : Width :=
  match x.toRat? with
  | some q => ofRat q
  | none => whole (if x.isPositive then (tabStop (tabWidth * count) : Nat) else 0)

/-- The width that an atom stands for, for so many elements. -/
def ofAtom? (count : Nat) : Atom → Option Width
  | .bool b => some (whole (if b then 1 else 0))
  | .int i => some (whole i)
  | .real x => some (ofReal count x)
  | .rational q => some (ofRat q)
  | _ => none

end Width

/-- Removes blanks from column `col` on while they fit into the width. An
    element may have no character, and then it is not a blank. -/
def dedentFrom {α : Type} (char? : α → Option Char) (width : Width) : Nat → List α → List α
  | _, [] => []
  | col, c :: cs =>
    if (col : Int) < width.below then
      if char? c = some ' ' then dedentFrom char? width (col + 1) cs
      else if char? c = some '\t' ∧ (tabStop col : Int) ≤ width.most then
        dedentFrom char? width (tabStop col) cs
      else c :: cs
    else c :: cs

/-- A text without up to `width` columns of blanks at its start. -/
def dedent (width : Int) (cs : List Char) : List Char :=
  dedentFrom some (.whole width) 0 cs

/-- Elements without the blanks at their start. The width is looked at only if
    there are elements. -/
def dedentElements? {α : Type} (char? : α → Option Char) (width : Option Atom) :
    List α → Option (List α)
  | [] => some []
  | cs => do return dedentFrom char? (← Width.ofAtom? cs.length (← width)) 0 cs

/-- A text without the blanks at its start. The octets of a binary text are
    numbers, not characters. -/
def Atom.dedent? (width : Option Atom) : Atom → Option Atom
  | .octets bs => (dedentElements? (fun _ => none) width bs).map .octets
  | .torn points => (dedentElements? (some ∘ Text.shownPoint) width points).map .torn
  | a => do return .str (String.ofList (← dedentElements? some width (← a.text?).toList))

/-- A text or a list without the blanks at its start. -/
def Raw.dedent? (width : Option Atom) : Raw → Option Raw
  | .atom a => (a.dedent? width).map .atom
  | .list items =>
    (dedentElements? (fun r => r.text?.bind Text.onlyChar?) width items).map .list

end RubyTree
