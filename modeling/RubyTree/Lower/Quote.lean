import RubyTree.Literal.Content
import RubyTree.Lower.Sequence
import RubyTree.Lower.Name

/-!
# Strings, Symbols and Regular Expressions

A literal is a sequence of content tokens and interpolations. Content tokens
that stand side by side are joined before they are decoded, since an escape may
run across them; a literal of several lines has one `str` for each, and an
interpolation is a `begin` among them.

## Main definitions

* `mergeContent`: Content tokens side by side joined into one.
* `lowerContent`: A content token.
* `literalParts`: The parts of a literal, in order.
* `lowerString`, `lowerParts`, `lowerRegexp`: Literals with parts.
* `lowerEmbedded`, `lowerEmbeddedVariable`: Interpolations.
* `lowerCharacter`: A character literal.
* `symbolContent`, `quotedSymbolContent`: What a symbol is made from.
* `staticSource?`: The source of a regular expression without interpolations.
-/

namespace RubyTree

namespace LowerM

/-- One token for content tokens side by side; those without text are dropped. -/
def joinRun (run : List Raw) : LowerM (List Raw) := do
  let texts ← run.mapM fun token => require (token.item? 1)
  match (run.zip texts).filter fun (_, text) => !text.isText "" with
  | [] => return []
  | [(token, _)] => return [token]
  | (head, text) :: rest =>
    let atoms ← ((head, text) :: rest).mapM fun (_, text) => require text.atom?
    let joined ← require (Atom.joinTexts? atoms)
    let tail := match head with
      | .list items => items.drop 2
      | .atom _ => []
    return [.list (.str "@tstring_content" :: .atom joined :: tail)]

/-- Joins the content tokens that stand side by side. The second argument holds
    the content tokens right before the items, the latest first. -/
def mergeFrom : List Raw → List Raw → LowerM (List Raw)
  | run, [] => joinRun run.reverse
  | run, item :: items => do
    if item.hasTag "@tstring_content" then mergeFrom (item :: run) items
    else
      let joined ← joinRun run.reverse
      return joined ++ item :: (← mergeFrom [] items)

/-- The items of a literal with content tokens side by side joined into one. -/
def mergeContent (items : List Raw) : LowerM (List Raw) :=
  mergeFrom [] items

/-- The opening delimiter a content token belongs to. -/
def delimiterOf : Raw → LowerM (Option String)
  | .null => return none
  | r => return some (← require r.text?)

/-- The line that is so many lines below this one, if there is one. -/
def lineBelow (n : Nat) : Option Raw → LowerM (Option Raw)
  | none => return none
  | some line => return some (← require (line.linesBelow? n))

/-- A `str` for each piece of content, on lines from the one at `index` on. -/
def lowerPieces (delimiter : Option String) (line : Option Raw) :
    Nat → List (List Char) → LowerM (List Tree)
  | _, [] => return []
  | index, piece :: pieces => do
    let text ← ofExcept (decodeContent delimiter piece)
    let place ← lineBelow index line
    let t := Tree.placed place "str" [.str (String.ofList text)]
    return t :: (← lowerPieces delimiter line (index + 1) pieces)

/-- Content with half of a character cannot be decoded where escapes are read,
    since the half has no octets. What is wrong before it comes first, line by
    line. -/
def refuseTorn (delimiter : Option String) (line : Option Raw) (before : List Char) :
    LowerM Tree := do
  let pieces := contentPieces delimiter before
  let isWhole (piece : List Char) : Bool :=
    !(Style.ofDelimiter delimiter).isWords && piece.getLast? == some '\n'
  let _ ← lowerPieces delimiter line 0 (pieces.takeWhile isWhole)
  ofExcept (refuseHalf ((pieces.dropWhile isWhole).headD []))

/-- Whether content that is no plain text stands for itself: nothing in it is to
    be decoded, and it has no line break. -/
def standsForItself (style : Style) : Raw → Bool
  | .sym name => style = .verbatim && !name.toList.contains '\n'
  | .atom (.torn points) => style = .verbatim && !points.contains 10
  | .list items => style = .verbatim && !items.any (·.isText "\n")
  | _ => false

/-- A content token: one `str`, or a `dstr` of one for each line. -/
def lowerContent (fs : Fields) : LowerM Tree := do
  let line := tokenLine fs
  let delimiter ← delimiterOf (fs.get 2)
  let content := fs.get 0
  if standsForItself (.ofDelimiter delimiter) content then
    return .placed (← lineBelow 0 line) "str" [.leaf content]
  if (Style.ofDelimiter delimiter).decodesEscapes then
    if let some before := content.beforeHalf? then return ← refuseTorn delimiter line before
  let text ← require content.text?
  match ← lowerPieces delimiter line 0 (contentPieces delimiter text.toList) with
  | [t] => return t
  | ts => return .placed line "dstr" ts

/-- The parts of a literal that a lowered item contributes. -/
def partsOf (t : Tree) : LowerM (List Tree) := do
  if ← isTagged "dstr" t then childrenOf t
  else if ← isTagged "str" t then return [t]
  else return []

/-- The parts of a literal, in order. -/
def literalParts (go : Visit) (items : List Raw) : LowerM (List Tree) := do
  let ts ← (← mergeContent items).mapM go
  return (← ts.mapM partsOf).flatten

/-- A string: one piece of text by itself, else all parts together. -/
def lowerString (go : Visit) (fs : Fields) : LowerM Tree := do
  match ← literalParts go fs with
  | [] => return .bare "str" [.str ""]
  | [t] => if ← isTagged "str" t then return t else return .bare "dstr" [t]
  | ts => return .bare "dstr" ts

/-- A literal that always keeps its parts together. -/
def lowerParts (tag : String) (go : Visit) (fs : Fields) : LowerM Tree :=
  return .bare tag (← literalParts go fs)

/-- Whether a sequence has more than one statement. -/
def hasSeveral : Raw → Bool
  | .list (.str "stmts" :: _ :: _ :: _) => true
  | _ => false

/-- An interpolation. -/
def lowerEmbedded (go : Visit) (fs : Fields) : LowerM Tree := do
  let statements := fs.get 0
  match ← visitBody go statements with
  | .null => return .bare "dstr" [.bare "begin" []]
  | .node (.str "begin") mark children =>
    -- The `begin` of a sequence serves as that of the interpolation; one that the source
    -- wrote is kept inside it.
    if hasSeveral statements then return .bare "dstr" [.bare "begin" children]
    else return .bare "dstr" [.bare "begin" [.node (.str "begin") mark children]]
  | body => return .bare "dstr" [.bare "begin" [body]]

/-- An interpolated variable without braces. -/
def lowerEmbeddedVariable (go : Visit) (fs : Fields) : LowerM Tree :=
  return .bare "dstr" [.bare "begin" [← go (fs.get 0)]]

/-- The flags after a regular expression: small letters, each once, in order. -/
def regexpFlags (ending : Raw) : LowerM (List String) := do
  let marks ← require (← require (ending.item? 1)).elements?
  let marks ← marks.mapM fun m => require m.text?
  let flags := marks.filter fun m => "a" ≤ m && m ≤ "z"
  return flags.eraseDups.mergeSort fun a b => decide (a ≤ b)

/-- A regular expression with its flags. -/
def lowerRegexp (go : Visit) (fs : Fields) : LowerM Tree := do
  let regexp ← go (fs.get 0)
  let flags ← regexpFlags (fs.get 1)
  addChildren regexp [.bare "regopt" (flags.map Tree.sym)]

/-- A symbol made from a token. Content of several lines names the first one,
    as it prints. -/
def symbolContent (go : Visit) (content : Raw) : LowerM Tree := do
  if content.hasTag "@tstring_content" then
    let t ← go content
    return .placed t.line? "sym" [.sym (← firstChild t).display]
  return .placed content.line? "sym" [.sym (← nameOf content)]

/-- A symbol made from a literal. -/
def quotedSymbolContent (go : Visit) (content : Raw) : LowerM Tree := do
  let t ← go content
  if ← isTagged "str" t then
    let value ← firstChild t
    if value.text? == some "" then return .bare "dsym" []
    return .placed t.line? "sym" [.sym value.display]
  return .bare "dsym" (← childrenOf t)

/-- A symbol literal holds a symbol or a bare name. -/
def lowerSymbolLiteral (go : Visit) (fs : Fields) : LowerM Tree :=
  let content := fs.get 0
  if content.hasTag "symbol" then go content else symbolContent go content

/-- A character literal, without the question mark. -/
def lowerCharacter (fs : Fields) : LowerM Tree := do
  if let .atom (.torn points) := fs.get 0 then
    if let some before := Text.beforeHalf? points.tail then ofExcept (refuseHalf before)
  let value ← ofExcept (unescapeChar (← literalText fs).tail)
  let leaf := match value with
    | .inl cs => Tree.str (String.ofList cs)
    | .inr octets => .leaf (.atom (.octets octets))
  return .placed (tokenLine fs) "str" [leaf]

/-- The text of a `str`. -/
def pieceText (t : Tree) : LowerM Tree :=
  firstChild t

/-- Whether all children are `str`, looking no further than the first that is not. -/
def allText : List Tree → LowerM Bool
  | [] => return true
  | t :: ts => do if ← isTagged "str" t then allText ts else return false

/-- The texts of the parts of a regular expression; `none` if one of them is
    computed when the program runs. -/
def staticTexts : List Tree → LowerM (Option (List Tree))
  | [] => return some []
  | t :: ts => do
    let texts ←
      if ← isTagged "str" t then pure (some [← pieceText t])
      else if ← isTagged "begin" t then
        let children ← childrenOf t
        if ← allText children then pure (some (← children.mapM pieceText)) else pure none
      else pure none
    match texts with
    | none => return none
    | some texts => return (← staticTexts ts).map (texts ++ ·)

/-- The source of a regular expression literal without interpolations. -/
def staticSource? (t : Tree) : LowerM (Option String) := do
  match t with
  | .node (.str "regexp") _ children =>
    match ← staticTexts children.dropLast with
    | none => return none
    | some texts => return some (String.join (← texts.mapM fun t => require t.text?))
  | _ => return none

end LowerM

end RubyTree
