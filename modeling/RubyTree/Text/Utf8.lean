/-!
# UTF-8

Escapes in a literal produce octets, so literal text passes through UTF-8 both
ways. Decoding reads one octet at a time: between characters it waits for a
lead octet, inside one it knows how many continuations are still due and which
range the next may come from. The narrowed range after a lead of `E0`, `ED`,
`F0` or `F4` is what keeps overlong forms, surrogates and values past the last
code point out, and also what makes a broken sequence end at its earliest octet.

## Main definitions

* `encodeChar`, `encode`: The octets of a character and of a text.
* `Pending`: What the decoder waits for.
* `decode`: The text of a sequence of octets, if it is well formed.
* `decodeLossy`: Decoding that writes one replacement character for each
  maximal broken part.
-/

namespace RubyTree

namespace Text

namespace Utf8

/-- The octets of one character. -/
def encodeChar (c : Char) : List UInt8 :=
  let n := c.toNat
  if n < 0x80 then
    [n.toUInt8]
  else if n < 0x800 then
    [(0xC0 + n / 0x40).toUInt8, (0x80 + n % 0x40).toUInt8]
  else if n < 0x10000 then
    [(0xE0 + n / 0x1000).toUInt8, (0x80 + n / 0x40 % 0x40).toUInt8, (0x80 + n % 0x40).toUInt8]
  else
    [(0xF0 + n / 0x40000).toUInt8, (0x80 + n / 0x1000 % 0x40).toUInt8,
      (0x80 + n / 0x40 % 0x40).toUInt8, (0x80 + n % 0x40).toUInt8]

/-- The octets of a text. -/
def encode (cs : List Char) : List UInt8 :=
  cs.flatMap encodeChar

/-- Between characters, or inside one with `more + 1` continuations due, the
    next of which lies between `lo` and `hi`; `value` holds the bits so far. -/
inductive Pending where
  | idle
  | inside (more lo hi value : Nat)
  deriving Repr, DecidableEq

/-- What a lead octet leads to, or `none` if no character starts with it. -/
def lead? (b : Nat) : Option (List Char × Pending) :=
  if b < 0x80 then some ([Char.ofNat b], .idle)
  else if b < 0xC2 then none
  else if b < 0xE0 then some ([], .inside 0 0x80 0xBF (b - 0xC0))
  else if b < 0xF0 then
    let lo := if b = 0xE0 then 0xA0 else 0x80
    let hi := if b = 0xED then 0x9F else 0xBF
    some ([], .inside 1 lo hi (b - 0xE0))
  else if b < 0xF5 then
    let lo := if b = 0xF0 then 0x90 else 0x80
    let hi := if b = 0xF4 then 0x8F else 0xBF
    some ([], .inside 2 lo hi (b - 0xF0))
  else none

/-- One octet: the characters it completes and what the decoder waits for
    next, or `none` if it may not stand here. -/
def step? : Pending → UInt8 → Option (List Char × Pending)
  | .idle, b => lead? b.toNat
  | .inside more lo hi value, b =>
    if lo ≤ b.toNat ∧ b.toNat ≤ hi then
      let value := value * 0x40 + (b.toNat - 0x80)
      match more with
      | 0 => some ([Char.ofNat value], .idle)
      | more + 1 => some ([], .inside more 0x80 0xBF value)
    else none

/-- Decodes the octets that follow what `st` has already taken. -/
def decodeFrom : Pending → List UInt8 → Option (List Char)
  | .idle, [] => some []
  | .inside .., [] => none
  | st, b :: bs => do
    let (cs, st) ← step? st b
    return cs ++ (← decodeFrom st bs)

/-- The text of well-formed octets, else `none`. -/
def decode (bs : List UInt8) : Option (List Char) :=
  decodeFrom .idle bs

/-- Stands for a broken part. -/
def replacement : Char := Char.ofNat 0xFFFD

/-- A lead octet that starts no character is a broken part by itself. -/
def leadLossy (b : UInt8) : List Char × Pending :=
  (lead? b.toNat).getD ([replacement], .idle)

/-- Decodes what follows `st`. An octet that may not stand where it does ends
    the broken part before it and is read again as a lead. -/
def decodeLossyFrom : Pending → List UInt8 → List Char
  | .idle, [] => []
  | .inside .., [] => [replacement]
  | .idle, b :: bs =>
    let (cs, st) := leadLossy b
    cs ++ decodeLossyFrom st bs
  | .inside more lo hi value, b :: bs =>
    match step? (.inside more lo hi value) b with
    | some (cs, st) => cs ++ decodeLossyFrom st bs
    | none =>
      let (cs, st) := leadLossy b
      replacement :: cs ++ decodeLossyFrom st bs

/-- The text of any octets, with a replacement character for each maximal
    broken part. -/
def decodeLossy (bs : List UInt8) : List Char :=
  decodeLossyFrom .idle bs

end Utf8

end Text

end RubyTree
