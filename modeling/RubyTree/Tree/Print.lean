import RubyTree.Error
import RubyTree.Number.Numeral
import RubyTree.Tree

/-!
# Printed Trees

A tree prints on one line as nested `s(:tag, …)`, or indented with one node or
leaf per line and the lines of the nodes beside their tags. A symbol is printed
with its colon and otherwise raw; a text is printed between double quotes, in
which the backslash, the quote and the line break are escaped.

A tree that holds a number too long to be written out has no printed form.

## Main definitions

* `Raw.print`, `Tree.print`: The one-line form.
* `Tree.pretty`: The indented form.
* `Tree.display`: The text of a name made from a tree.
* `Atom.written`, `Tree.written`: A value or a tree, if it can be written out.
-/

namespace RubyTree

/-- A text between double quotes. -/
def doubleQuoted (t : String) : String :=
  let escape (c : Char) : List Char :=
    if c = '\\' ∨ c = '"' then ['\\', c] else if c = '\n' then ['\\', 'n'] else [c]
  String.ofList ('"' :: t.toList.flatMap escape ++ ['"'])

namespace Atom

/-- Whether the value can be written out, which only its length may prevent. -/
def isWritable : Atom → Bool
  | int i => Numeral.isWritable i.natAbs
  | rational q => Numeral.isWritable q.num.natAbs && Numeral.isWritable q.den
  | _ => true

/-- The value, if it can be written out. -/
def written (a : Atom) : Except Error Atom :=
  if a.isWritable then .ok a else .error .noValue

end Atom

namespace Raw

mutual

/-- Whether each value in the tree can be written out. -/
def isWritable : Raw → Bool
  | atom a => a.isWritable
  | list items => areWritable items

/-- Whether each value in the trees can be written out. -/
def areWritable : List Raw → Bool
  | [] => true
  | r :: rs => r.isWritable && areWritable rs

end

/-- A value as it stands in a printed tree. -/
def print : Raw → String
  | null => "nil"
  | bool b => if b then "true" else "false"
  | str t => doubleQuoted t
  | atom (.torn points) => doubleQuoted (Text.shownPoints points)
  | r => r.quoted

end Raw

namespace Tree

mutual

/-- The one-line form. -/
def print : Tree → String
  | leaf v => v.print
  | node tag _ children => "s(:" ++ tag.display ++ printChildren children ++ ")"

/-- The children of a node in the one-line form, each after a comma. -/
def printChildren : List Tree → String
  | [] => ""
  | t :: ts => ", " ++ t.print ++ printChildren ts

end

/-- The text of a name made from a tree. -/
def display : Tree → String
  | leaf v => v.display
  | tree => tree.print

mutual

/-- Whether each leaf can be written out. -/
def isWritable : Tree → Bool
  | leaf v => v.isWritable
  | node tag _ children => tag.isWritable && areWritable children

/-- Whether each leaf of the trees can be written out. -/
def areWritable : List Tree → Bool
  | [] => true
  | t :: ts => t.isWritable && areWritable ts

end

/-- The tree, if it can be written out. -/
def written (t : Tree) : Except Error Tree :=
  if t.isWritable then .ok t else .error .noValue

/-- The indentation of a level. -/
def margin (indent : String) (level : Nat) : String :=
  String.join (List.replicate level indent)

mutual

/-- The indented form from a level on. -/
def prettyAt (indent : String) (level : Nat) : Tree → String
  | leaf v => margin indent level ++ v.print ++ "\n"
  | node tag mark children =>
    let place := match mark.line with
      | some line => "  @" ++ line.display
      | none => ""
    margin indent level ++ ":" ++ tag.display ++ place ++ "\n" ++
      prettyAll indent (level + 1) children

/-- The indented forms of all the trees. -/
def prettyAll (indent : String) (level : Nat) : List Tree → String
  | [] => ""
  | t :: ts => prettyAt indent level t ++ prettyAll indent level ts

end

/-- The indented form. -/
def pretty (indent : String) (t : Tree) : String :=
  prettyAt indent 0 t

end Tree

end RubyTree
