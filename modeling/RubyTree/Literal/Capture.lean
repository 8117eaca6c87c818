import RubyTree.Text.Identifier
import RubyTree.Text.Word

/-!
# Named Groups

A regular expression literal on the left of a match binds its named groups as
local variables. A group is found wherever `(?<name>` stands and the character
before it is not a backslash.

## Main definitions

* `groupName?`: The name of a group, and the text after its bracket.
* `groupNames`: The names of all groups, in order.
-/

namespace RubyTree

/-- The name of the group that starts here, and what follows it. -/
def groupName? : List Char → Option (List Char × List Char)
  | '(' :: '?' :: '<' :: c :: cs =>
    let rest := cs.takeWhile Text.isWord
    match Text.startsIdentifier c, cs.drop rest.length with
    | true, '>' :: after => some (c :: rest, after)
    | _, _ => none
  | _ => none

/-- The names of the groups in a text of at most `fuel` characters; the flag
    says whether a backslash stands before the text. -/
def groupNamesFrom : Nat → Bool → List Char → List String
  | 0, _, _ => []
  | _ + 1, _, [] => []
  | fuel + 1, afterBackslash, c :: cs =>
    match if afterBackslash then none else groupName? (c :: cs) with
    | some (name, rest) => String.ofList name :: groupNamesFrom fuel false rest
    | none => groupNamesFrom fuel (c = '\\') cs

/-- The names of the groups in the source of a regular expression. -/
def groupNames (source : String) : List String :=
  groupNamesFrom source.toList.length false source.toList

end RubyTree
