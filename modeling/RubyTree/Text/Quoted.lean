import RubyTree.Text.Printable
import RubyTree.Text.Surrogate

/-!
# Quoted Text

Messages and printed values show text between quotes. The quote is `'`, unless
the text has that character and not `"`, so that a quote is escaped only if the
text has both. What cannot be shown as itself is written by its code point, in
two, four or eight hexadecimal digits.

## Main definitions

* `hexDigits`: A number in a fixed count of hexadecimal digits.
* `quoteFor`: The quote that suits a text.
* `quoted`: A text between quotes.
* `quotedPoints`: A text given by its code points between quotes.
* `quotedOctets`: Octets between quotes, with a `b` in front.
-/

namespace RubyTree

namespace Text

/-- The last `width` hexadecimal digits of `n`, leading zeros included. -/
def hexDigits : Nat → Nat → List Char
  | 0, _ => []
  | width + 1, n => hexDigits width (n / 16) ++ [Nat.digitChar (n % 16)]

/-- The quote with which the fewest characters of the text need an escape. -/
def quoteFor (cs : List Char) : Char :=
  if cs.contains '\x27' && !cs.contains '"' then '"' else '\x27'

/-- Escapes that quoted texts and quoted octets have in common. -/
def shortEscape? (quote c : Char) : Option (List Char) :=
  if c = quote || c = '\\' then some ['\\', c]
  else if c = '\n' then some ['\\', 'n']
  else if c = '\r' then some ['\\', 'r']
  else if c = '\t' then some ['\\', 't']
  else none

/-- How a quoted text shows one of its characters. -/
def quotedChar (quote c : Char) : List Char :=
  match shortEscape? quote c with
  | some cs => cs
  | none =>
    let n := c.toNat
    if isPrintable c then [c]
    else if n < 0x100 then '\\' :: 'x' :: hexDigits 2 n
    else if n < 0x10000 then '\\' :: 'u' :: hexDigits 4 n
    else '\\' :: 'U' :: hexDigits 8 n

/-- A text between quotes. -/
def quoted (s : String) : String :=
  let cs := s.toList
  let quote := quoteFor cs
  String.ofList (quote :: cs.flatMap (quotedChar quote) ++ [quote])

/-- A text given by its code points between quotes. Half of a character is
    written by its code point. -/
def quotedPoints (points : List Nat) : String :=
  let quote := quoteFor (points.map shownPoint)
  let escape (n : Nat) : List Char :=
    if isSurrogate n then '\\' :: 'u' :: hexDigits 4 n else quotedChar quote (Char.ofNat n)
  String.ofList (quote :: points.flatMap escape ++ [quote])

/-- How quoted octets show one of them: ASCII that is visible as itself. -/
def quotedOctet (quote : Char) (b : UInt8) : List Char :=
  let c := Char.ofNat b.toNat
  match shortEscape? quote c with
  | some cs => cs
  | none => if 0x20 ≤ b && b < 0x7F then [c] else '\\' :: 'x' :: hexDigits 2 b.toNat

/-- Octets between quotes. -/
def quotedOctets (bs : List UInt8) : String :=
  let quote := quoteFor (bs.map fun b => Char.ofNat b.toNat)
  String.ofList ('b' :: quote :: bs.flatMap (quotedOctet quote) ++ [quote])

end Text

end RubyTree
