/-!
# Blank Characters

Three sets of blanks are in use. Texts that people write, such as settings and
the opening of a word list, are trimmed of every character the standard calls
white space. Number texts are stricter: the four information separators do not
count there. In a binary text only the white space of ASCII is known.

## Main definitions

* `isBlank`: White space of any script.
* `isNumeralBlank`: White space that may stand around a number.
* `trim`: A text without the blanks at its ends.
* `trimList`: The same for any list and any class of its elements.
* `isOctetBlank`: White space in a binary text.
* `onlyChar?`: The character of a text that is no longer.
* `lowerAscii`: A text with its ASCII capitals made small.
-/

namespace RubyTree

namespace Text

/-- White space: the ASCII controls for it, the information separators, and
    the spaces of every script. -/
def isBlank (c : Char) : Bool :=
  let n := c.toNat
  (0x09 ≤ n && n ≤ 0x0D) || (0x1C ≤ n && n ≤ 0x20) || n == 0x85 || n == 0xA0 || n == 0x1680 ||
    (0x2000 ≤ n && n ≤ 0x200A) || n == 0x2028 || n == 0x2029 || n == 0x202F || n == 0x205F ||
    n == 0x3000

/-- White space around a number, which leaves the information separators out. -/
def isNumeralBlank (c : Char) : Bool :=
  isBlank c && !(0x1C ≤ c.toNat && c.toNat ≤ 0x1F)

/-- White space in a binary text, which is that of ASCII. -/
def isOctetBlank (b : UInt8) : Bool :=
  (0x09 ≤ b && b ≤ 0x0D) || b == 0x20

/-- What stands between the first and the last element that are not in `p`. -/
def trimList {α : Type} (p : α → Bool) (cs : List α) : List α :=
  ((cs.dropWhile p).reverse.dropWhile p).reverse

/-- A text without the blanks at its ends. -/
def trim (s : String) : String :=
  String.ofList (trimList isBlank s.toList)

/-- The character of a text that has only one. -/
def onlyChar? (s : String) : Option Char :=
  match s.toList with
  | [c] => some c
  | _ => none

/-- ASCII capitals made small; the words that settings and numbers are compared
    with are ASCII, and no other capital has an ASCII small form in them. -/
def lowerAscii (s : String) : String :=
  String.ofList (s.toList.map Char.toLower)

end Text

end RubyTree
