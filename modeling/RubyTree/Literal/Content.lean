import RubyTree.Literal.Escape

/-!
# Content of Literals

What the characters between the delimiters of a literal mean depends on its
opening delimiter alone. A delimiter has one of six styles: escapes may be
decoded in full, only where they protect the delimiter, or not at all, and the
content may be a list of words. A backslash before a line break joins two lines
where escapes or a regular expression are read, and is removed before anything
else is done.

Content is cut after each line break, so that each piece has a line of its own,
and the pieces are decoded one by one. Words are never cut.

## Main definitions

* `Style`: How the content of a literal is read.
* `Style.ofDelimiter`: The style an opening delimiter asks for.
* `unescapeSimple`: Escapes that protect some characters.
* `joinContinued`: A text without its line continuations.
* `Style.decode`: A piece of content decoded.
* `decodeValue`: The same for content of any kind.
* `splitLines`: A text cut after each line break.
* `contentPieces`: The pieces of a content token.
-/

namespace RubyTree

/-- How the content of a literal is read. -/
inductive Style where
  /-- As it stands. -/
  | verbatim
  /-- With every escape decoded. -/
  | escaped
  /-- Words with every escape decoded. -/
  | escapedWords
  /-- With only the delimiter and the backslash protected. -/
  | simple
  /-- Words with the delimiter, the backslash and blanks protected. -/
  | simpleWords
  /-- As it stands, but for line continuations. -/
  | regexp
  deriving DecidableEq, Repr

namespace Style

/-- A heredoc is read with escapes unless its identifier is in single quotes. -/
def ofHeredoc : List Char → Style
  | [] => verbatim
  | '\x27' :: _ => verbatim
  | '-' :: '\x27' :: _ => verbatim
  | '~' :: '\x27' :: _ => verbatim
  | _ => escaped

/-- The style of a percent literal with a letter. -/
def ofLetter : Char → Style
  | 'Q' => escaped
  | 'q' => simple
  | 's' => simple
  | 'W' => escapedWords
  | 'I' => escapedWords
  | 'w' => simpleWords
  | 'i' => simpleWords
  | 'r' => regexp
  | _ => verbatim

/-- The style of a delimiter; one that opens no known literal leaves the
    content as it stands. -/
def ofChars : List Char → Style
  | '<' :: '<' :: rest => ofHeredoc rest
  | ['"'] => escaped
  | ['\x60'] => escaped
  | [':', '"'] => escaped
  | ['\x27'] => simple
  | [':', '\x27'] => simple
  | ['/'] => regexp
  | ['%', c] => if c = '\n' then verbatim else escaped
  | ['%', letter, c] => if c = '\n' then verbatim else ofLetter letter
  | _ => verbatim

/-- The style an opening delimiter asks for. -/
def ofDelimiter : Option String → Style
  | some d => ofChars d.toList
  | none => verbatim

/-- Whether the content is a list of words. -/
def isWords : Style → Bool
  | escapedWords => true
  | simpleWords => true
  | _ => false

/-- Whether every escape is decoded, so that the content passes through octets. -/
def decodesEscapes : Style → Bool
  | escaped => true
  | escapedWords => true
  | _ => false

/-- Whether a backslash before a line break joins two lines. -/
def joinsLines : Style → Bool
  | escaped => true
  | regexp => true
  | _ => false

end Style

/-- The characters that close or open the same literal as this one. -/
def brackets (c : Char) : List Char :=
  if c = '(' ∨ c = ')' then ['(', ')']
  else if c = '[' ∨ c = ']' then ['[', ']']
  else if c = '\x7b' ∨ c = '\x7d' then ['\x7b', '\x7d']
  else if c = '<' ∨ c = '>' then ['<', '>']
  else [c]

/-- Takes the backslash from before the given characters and from before
    another backslash, and leaves every other one. -/
def unescapeSimple (special : List Char) : List Char → List Char
  | [] => []
  | [c] => [c]
  | c :: d :: cs =>
    if c = '\\' then
      -- A backslash that protects nothing stays, and what follows it is read on its own.
      if d = '\\' ∨ special.contains d then d :: unescapeSimple special cs
      else c :: unescapeSimple special (d :: cs)
    else c :: unescapeSimple special (d :: cs)

/-- A text in which the ends of a delimiter are protected. A delimiter needs a
    last character to be protected from. -/
def unescapeDelimiter? (d : List Char) (cs : List Char) : Option (List Char) :=
  d.getLast?.map fun c => unescapeSimple (brackets c) cs

/-- A word in which the ends of a delimiter and blanks are protected. -/
def unescapeWord? (d : List Char) (cs : List Char) : Option (List Char) :=
  d.getLast?.map fun c => unescapeSimple (brackets c ++ [' ', '\n']) cs

/-- Removes each backslash that stands before a line break, and that line
    break; a backslash and any other character after it stay together. -/
def joinContinued : List Char → List Char
  | [] => []
  | [c] => [c]
  | c :: d :: cs =>
    if c = '\\' then
      -- The second of two backslashes goes with the first and joins no lines.
      if d = '\n' then joinContinued cs else c :: d :: joinContinued cs
    else c :: joinContinued (d :: cs)

namespace Style

/-- A piece of content decoded. The delimiter is given for its last character. -/
def decode (style : Style) (d : List Char) (cs : List Char) : Except Error (List Char) :=
  match style with
  | verbatim => return cs
  | regexp => return cs
  | escaped => unescape cs
  | escapedWords => unescape cs
  | simple => return (unescapeDelimiter? d cs).getD cs
  | simpleWords => return (unescapeWord? d cs).getD cs

end Style

/-- A piece of content decoded as its delimiter asks. -/
def decodeContent (delimiter : Option String) (cs : List Char) : Except Error (List Char) :=
  (Style.ofDelimiter delimiter).decode (delimiter.getD "").toList cs

/-- Content of any kind decoded. Where nothing is decoded it stands for itself;
    elsewhere it must be a text. -/
def decodeValue (delimiter : Option String) (content : Raw) : Except Error Raw :=
  match Style.ofDelimiter delimiter, content.text? with
  | .verbatim, _ => .ok content
  | .regexp, _ => .ok content
  | _, some t => do return .str (String.ofList (← decodeContent delimiter t.toList))
  | _, none => .error .shape

/-- A text cut after each line break. -/
def splitLines : List Char → List (List Char)
  | [] => []
  | c :: cs =>
    if c = '\n' then [c] :: splitLines cs
    else match splitLines cs with
      | [] => [[c]]
      | l :: ls => (c :: l) :: ls

/-- The pieces of a content token: lines with continuations joined, or a whole
    word. Content without a line break is one piece, be it empty. -/
def contentPieces (delimiter : Option String) (cs : List Char) : List (List Char) :=
  let style := Style.ofDelimiter delimiter
  let cs := if style.joinsLines then joinContinued cs else cs
  if style.isWords || !cs.contains '\n' then [cs] else splitLines cs

end RubyTree
