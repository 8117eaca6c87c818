import RubyTree.Text.Utf8

/-!
# Surrogates

Code points past the first plane may be written as two code units, a high and a
low surrogate. A surrogate by itself is half of a character: it is no character
and has no encoding, yet a text given by its code points may hold one. Such a
text is shown with a replacement character for each half.

## Main definitions

* `isHigh`, `isLow`, `isSurrogate`: The two kinds of halves.
* `joinSurrogates`: The character of a pair.
* `shownPoints`: A text given by its code points, as it is shown.
* `beforeHalf?`: What stands before the first half.
-/

namespace RubyTree

namespace Text

def isHigh (n : Nat) : Bool := 0xD800 ≤ n && n < 0xDC00

def isLow (n : Nat) : Bool := 0xDC00 ≤ n && n < 0xE000

/-- Whether a code point is half of a surrogate pair. -/
def isSurrogate (n : Nat) : Bool :=
  0xD800 ≤ n && n ≤ 0xDFFF

/-- The code point of a surrogate pair. -/
def joinSurrogates (high low : Nat) : Nat :=
  0x10000 + (high - 0xD800) * 0x400 + (low - 0xDC00)

/-- The character a code point is shown as. -/
def shownPoint (n : Nat) : Char :=
  if isSurrogate n then Utf8.replacement else Char.ofNat n

/-- The text that code points are shown as. -/
def shownPoints (points : List Nat) : String :=
  String.ofList (points.map shownPoint)

/-- The characters before the first half, if there is a half. -/
def beforeHalf? (points : List Nat) : Option (List Char) :=
  if points.any isSurrogate then some ((points.takeWhile (!isSurrogate ·)).map Char.ofNat)
  else none

end Text

end RubyTree
