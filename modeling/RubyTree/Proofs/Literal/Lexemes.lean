import RubyTree.Proofs.Literal.EscapeOnLine
import RubyTree.Proofs.Text.Utf8

/-!
# The Language of Escapes

A text with escapes is a sequence of lexemes: characters other than the backslash,
which stand for themselves, and escapes of a fixed length or with a closing brace.
Forms overlap in their first characters, and a form may fit more than one
length, so it has to be shown that a text which is put together from lexemes is
cut back into the same ones. It is enough to look at one lexeme in front of an
arbitrary text: what is read there is the lexeme and never more, which holds
because each lexeme is as long as its form can be, or ends where its form must.

Lexemes carry the conditions of their form, so that each value of `Lexeme` is one:
digits are digits, the numbers in braces name characters, and the base of a
control or meta character is no backslash and no line break.

Octets that the lexemes denote make up a text or they do not. Decoding is the
inverse of encoding, so `unescape` answers with that text, or reports those
octets, and there is no third way.

## Main definitions

* `CodePoint`: One to six hexadecimal digits that name a character.
* `Modifier`: The spellings of control and meta characters.
* `Lexeme`: A character or an escape, with its `text` and its `octets`.
* `doubled`: A text with each backslash written twice.

## Theorems

* `read?_octal`, `read?_hexadecimal`, `read?_point`, `read?_points`, `read?_modified`,
  `read?_single`: Each form is read whole, whatever follows it.
* `unescapeOctets_lexeme`: A lexeme in front of a text denotes its octets.
* `unescape_doubled`: A text whose backslashes are doubled is given back.
* `unescape_lexemes`: Sequences of lexemes denote the octets of the lexemes.
-/

namespace RubyTree

namespace Escape

abbrev OctalDigit := { c : Char // isOctal c = true }

abbrev HexDigit := { c : Char // isHex c = true }

/-- What may divide code points. -/
abbrev Spacer := { c : Char // isSpacer c = true }

/-- The value of a digit, letters of either case counting from ten. -/
def digitValue (c : Char) : Nat :=
  if c ≤ '9' then c.toNat - '0'.toNat
  else if c ≤ 'F' then c.toNat - 'A'.toNat + 10
  else c.toNat - 'a'.toNat + 10

/-- The number that hexadecimal digits write. -/
def hexNumber (ds : List HexDigit) : Nat :=
  ds.foldl (fun n d => 16 * n + digitValue d.val) 0

/-- One to six hexadecimal digits that name a character. -/
structure CodePoint where
  digits : List HexDigit
  length_pos : 1 ≤ digits.length
  length_le : digits.length ≤ 6
  valid : (hexNumber digits).isValidChar

namespace CodePoint

def text (p : CodePoint) : List Char :=
  p.digits.map Subtype.val

/-- The character that is named. -/
def char (p : CodePoint) : Char :=
  Char.ofNat (hexNumber p.digits)

end CodePoint

/-- The spellings of control characters, meta characters and both. -/
inductive Modifier where
  | control
  | shortControl
  | highBit
  | highControl
  | controlHigh
  | highShortControl
  | shortControlHigh
  deriving DecidableEq, Repr

namespace Modifier

/-- What stands between the backslash and the base. -/
def mark : Modifier → List Char
  | control => ['C', '-']
  | shortControl => ['c']
  | highBit => ['M', '-']
  | highControl => ['M', '-', '\\', 'C', '-']
  | controlHigh => ['C', '-', '\\', 'M', '-']
  | highShortControl => ['M', '-', '\\', 'c']
  | shortControlHigh => ['c', '\\', 'M', '-']

/-- The octet made from the low octet of the base. A spelling of both applies
    the control part first. -/
def octet (m : Modifier) (low : Nat) : Nat :=
  let controlled := if low = '?'.toNat then 127 else low &&& 0x9F
  match m with
  | control | shortControl => controlled
  | highBit => low ||| 0x80
  | highControl | controlHigh | highShortControl | shortControlHigh => controlled ||| 0x80

end Modifier

/-- The base of a control or meta character. -/
abbrev Base := { c : Char // c ≠ '\\' ∧ c ≠ '\n' }

/-- A character that no form but the last starts with, and that the last form
    leaves as it is. -/
abbrev Unchanged :=
  { c : Char // isOctal c = false ∧ c ∉ ['x', 'u', 'c', 'C', 'M'] ∧ letters.lookup c = none }

/-- A unit of a text with escapes. -/
inductive Lexeme where
  | plain (c : { c : Char // c ≠ '\\' })
  | letter (c : { p : Char × Nat // p ∈ letters })
  | octal (d₁ d₂ d₃ : OctalDigit)
  | hexadecimal (d₁ d₂ : HexDigit)
  | point (d₁ d₂ d₃ d₄ : HexDigit) (valid : (hexNumber [d₁, d₂, d₃, d₄]).isValidChar)
  | points (before : List Spacer) (first : CodePoint)
      (more : List (Spacer × List Spacer × CodePoint)) (after : List Spacer)
  | modified (m : Modifier) (base : Base)
  | newline
  | unchanged (c : Unchanged)

/-- A code point with the spacers that divide it from the one before. -/
def dividedText : Spacer × List Spacer × CodePoint → List Char
  | (s, ss, p) => s.val :: ss.map Subtype.val ++ p.text

/-- What stands between the braces. -/
def bracedText (before : List Spacer) (first : CodePoint)
    (more : List (Spacer × List Spacer × CodePoint)) (after : List Spacer) : List Char :=
  before.map Subtype.val ++ first.text ++ more.flatMap dividedText ++ after.map Subtype.val

namespace Lexeme

def text : Lexeme → List Char
  | plain c => [c.val]
  | letter c => ['\\', c.val.1]
  | octal d₁ d₂ d₃ => ['\\', d₁.val, d₂.val, d₃.val]
  | hexadecimal d₁ d₂ => ['\\', 'x', d₁.val, d₂.val]
  | point d₁ d₂ d₃ d₄ _ => ['\\', 'u', d₁.val, d₂.val, d₃.val, d₄.val]
  | points before first more after =>
    '\\' :: 'u' :: '\x7b' :: bracedText before first more after ++ ['\x7d']
  | modified m base => '\\' :: m.mark ++ [base.val]
  | newline => ['\\', '\n']
  | unchanged c => ['\\', c.val]

/-- What a lexeme denotes. -/
def octets : Lexeme → List UInt8
  | plain c => Text.Utf8.encodeChar c.val
  | letter c => [c.val.2.toUInt8]
  | octal d₁ d₂ d₃ =>
    [((64 * digitValue d₁.val + 8 * digitValue d₂.val + digitValue d₃.val) % 256).toUInt8]
  | hexadecimal d₁ d₂ => [(16 * digitValue d₁.val + digitValue d₂.val).toUInt8]
  | point d₁ d₂ d₃ d₄ _ => Text.Utf8.encodeChar (Char.ofNat (hexNumber [d₁, d₂, d₃, d₄]))
  | points _ first more _ => Text.Utf8.encode (first.char :: more.map fun (_, _, p) => p.char)
  | modified m base => [(m.octet (base.val.toNat % 256)).toUInt8]
  | newline => [0x0A]
  | unchanged c => Text.Utf8.encodeChar c.val

end Lexeme

section Digits

/-- Digits of either base are among the first few characters. -/
theorem digit_forall {p : Char → Bool} {P : Char → Prop} (hp : ∀ c, p c = true → c.toNat < 0x67)
    (h : ∀ n < 0x67, p (Char.ofNat n) = true → P (Char.ofNat n)) {c : Char} (hc : p c = true) :
    P c := by
  have hback : Char.ofNat c.toNat = c := Char.ofNat_toNat c
  rw [← hback]
  exact h c.toNat (hp c hc) (by rw [hback]; exact hc)

theorem isHex_lt {c : Char} (h : isHex c = true) : c.toNat < 0x67 := by
  simp only [isHex, Bool.or_eq_true, Bool.and_eq_true, decide_eq_true_eq, Char.le_def,
    UInt32.le_iff_toNat_le] at h
  have hval : c.val.toNat = c.toNat := rfl
  have h9 : '9'.val.toNat = 0x39 := rfl
  have hf : 'f'.val.toNat = 0x66 := rfl
  have hF : 'F'.val.toNat = 0x46 := rfl
  omega

theorem isHex_of_isOctal {c : Char} (h : isOctal c = true) : isHex c = true := by
  simp only [isOctal, isHex, Bool.or_eq_true, Bool.and_eq_true, decide_eq_true_eq] at h ⊢
  exact .inl (.inl ⟨h.1, Char.le_trans h.2 (by decide)⟩)

theorem digitIn?_isHex {c : Char} (h : isHex c = true) :
    Numeral.digitIn? 16 c = some (digitValue c) :=
  digit_forall (P := fun c => Numeral.digitIn? 16 c = some (digitValue c)) (fun _ => isHex_lt)
    (by decide) h

theorem digitIn?_isOctal {c : Char} (h : isOctal c = true) :
    Numeral.digitIn? 8 c = some (digitValue c) :=
  digit_forall (P := fun c => Numeral.digitIn? 8 c = some (digitValue c))
    (fun _ hc => isHex_lt (isHex_of_isOctal hc)) (by decide) h

/-- Digits that are all hexadecimal have a value. -/
theorem valueIn_hex (ds : List HexDigit) :
    valueIn 16 (ds.map Subtype.val) = hexNumber ds := by
  have hdigits : (ds.map Subtype.val).filterMap (Numeral.digitIn? 16) =
      ds.map fun d => digitValue d.val := by
    induction ds with
    | nil => rfl
    | cons d ds ih =>
      rw [List.map_cons, List.filterMap_cons_some (digitIn?_isHex d.property), ih, List.map_cons]
  rw [valueIn, hdigits, Numeral.ofDigits, List.foldl_map, hexNumber]

theorem not_isSpacer_of_isHex {c : Char} (h : isHex c = true) : isSpacer c = false :=
  digit_forall (P := fun c => isSpacer c = false) (fun _ => isHex_lt) (by decide) h

/-- A character is in range and no half of another. -/
theorem surrogate_of_isValidChar {n : Nat} (h : n.isValidChar) :
    n ≤ 0x10FFFF ∧ Text.isSurrogate n = false := by
  have hn : n < 0xD800 ∨ 0xDFFF < n ∧ n < 0x110000 := h
  simp only [Text.isSurrogate, Bool.and_eq_false_iff, decide_eq_false_iff_not]
  omega

/-- Code points stand for the octets of their characters. -/
theorem octets_points {ns : List Nat} (h : ∀ n ∈ ns, n.isValidChar) :
    (Escape.points ns).octets = .ok (Text.Utf8.encode (ns.map Char.ofNat)) := by
  have hlarge : ns.any (0x10FFFF < ·) = false := by
    simpa using fun n hn => (surrogate_of_isValidChar (h n hn)).1
  have hhalf : ns.any Text.isSurrogate = false := by
    simpa using fun n hn => (surrogate_of_isValidChar (h n hn)).2
  simp [octets, hlarge, hhalf, pure, Except.pure]

end Digits

section Forms

/-- What the first character of a text rules out. -/
theorem octal?_of_not {c : Char} (h : isOctal c = false) (cs : List Char) :
    octal? (c :: cs) = none := by
  simp [octal?, digitRun, h]

theorem hexadecimal?_of_ne {c : Char} (h : c ≠ 'x') (cs : List Char) :
    hexadecimal? (c :: cs) = none := by
  unfold hexadecimal?
  split
  · rename_i heq
    exact absurd (List.cons.inj heq).1 h
  · rfl

theorem point?_of_ne {c : Char} (h : c ≠ 'u') (cs : List Char) : point? (c :: cs) = none := by
  unfold point?
  split
  · rename_i heq
    exact absurd (List.cons.inj heq).1 h
  · rfl

theorem points?_of_ne {c : Char} (h : c ≠ 'u') (cs : List Char) : points? (c :: cs) = none := by
  unfold points?
  split
  · rename_i heq
    exact absurd (List.cons.inj heq).1 h
  · rfl

theorem modified?_of_not_mem {c : Char} (h : c ∉ ['c', 'C', 'M']) (cs : List Char) :
    modified? (c :: cs) = none := by
  simp only [List.mem_cons, List.not_mem_nil, or_false, not_or] at h
  obtain ⟨hc, hC, hM⟩ := h
  simp [modified?, modifiers, afterMark?, Ne.symm hc, Ne.symm hC, Ne.symm hM]

/-- Three octal digits are one octet. -/
theorem read?_octal (d₁ d₂ d₃ : OctalDigit) (rest : List Char) :
    read? (d₁.val :: d₂.val :: d₃.val :: rest) = some
      (.octet ((64 * digitValue d₁.val + 8 * digitValue d₂.val + digitValue d₃.val) % 256),
        rest) := by
  have hoctal : octal? (d₁.val :: d₂.val :: d₃.val :: rest) = some
      (.octet ((64 * digitValue d₁.val + 8 * digitValue d₂.val + digitValue d₃.val) % 256),
        rest) := by
    have hvalue : valueIn 8 [d₁.val, d₂.val, d₃.val] =
        64 * digitValue d₁.val + 8 * digitValue d₂.val + digitValue d₃.val := by
      simp only [valueIn, List.filterMap_cons, List.filterMap_nil, digitIn?_isOctal d₁.property,
        digitIn?_isOctal d₂.property, digitIn?_isOctal d₃.property, Numeral.ofDigits,
        List.foldl_cons, List.foldl_nil]
      omega
    simp [octal?, digitRun, d₁.property, d₂.property, d₃.property, hvalue]
  rw [read?, hoctal]
  rfl

/-- A mark and two digits are one octet. -/
theorem read?_hexadecimal (d₁ d₂ : HexDigit) (rest : List Char) :
    read? ('x' :: d₁.val :: d₂.val :: rest) =
      some (.octet (16 * digitValue d₁.val + digitValue d₂.val), rest) := by
  have hhexadecimal : hexadecimal? ('x' :: d₁.val :: d₂.val :: rest) =
      some (.octet (16 * digitValue d₁.val + digitValue d₂.val), rest) := by
    have hvalue := valueIn_hex [d₁, d₂]
    simp only [List.map_cons, List.map_nil, hexNumber, List.foldl_cons, List.foldl_nil,
      Nat.mul_zero, Nat.zero_add] at hvalue
    simp [hexadecimal?, digitRun, d₁.property, d₂.property, hvalue]
  rw [read?, octal?_of_not (by decide), hhexadecimal]
  rfl

/-- A mark and four digits are one code point. -/
theorem read?_point (d₁ d₂ d₃ d₄ : HexDigit) (rest : List Char) :
    read? ('u' :: d₁.val :: d₂.val :: d₃.val :: d₄.val :: rest) =
      some (.points [hexNumber [d₁, d₂, d₃, d₄]], rest) := by
  have hpoint : point? ('u' :: d₁.val :: d₂.val :: d₃.val :: d₄.val :: rest) =
      some (.points [hexNumber [d₁, d₂, d₃, d₄]], rest) := by
    have hvalue := valueIn_hex [d₁, d₂, d₃, d₄]
    simp only [List.map_cons, List.map_nil] at hvalue
    simp [point?, digitRun, d₁.property, d₂.property, d₃.property, d₄.property, hvalue]
  rw [read?, octal?_of_not (by decide), hexadecimal?_of_ne (by decide), hpoint]
  rfl

/-- Spacers before a word are passed over. -/
theorem words_spacers (ss : List Spacer) (cs : List Char) :
    words (ss.map Subtype.val ++ cs) = words cs := by
  induction ss with
  | nil => rfl
  | cons s ss ih =>
    rw [List.map_cons, List.cons_append, ← ih]
    cases ss.map Subtype.val ++ cs with
    | nil => simp [words, s.property]
    | cons d ds => rw [words, if_pos s.property]

/-- A word in front of a spacer, or at the end, is cut off whole. -/
theorem words_word {w cs : List Char} (hne : w ≠ []) (hw : ∀ c ∈ w, isSpacer c = false)
    (hcs : ∀ c ∈ cs.head?, isSpacer c = true) : words (w ++ cs) = w :: words cs := by
  induction w with
  | nil => exact absurd rfl hne
  | cons c w ih =>
    have hc := hw c List.mem_cons_self
    -- A word ends where a blank follows or nothing, which the last character sees first.
    cases w with
    | nil =>
      cases cs with
      | nil => simp [words, hc]
      | cons d ds => simp [words, hc, hcs d rfl]
    | cons d w =>
      have hd := hw d (List.mem_cons_of_mem _ List.mem_cons_self)
      have hrest := ih (by simp) fun c hc => hw c (List.mem_cons_of_mem _ hc)
      rw [List.cons_append, List.cons_append, words, if_neg (by simp [hc]), if_neg (by simp [hd]),
        ← List.cons_append, hrest]

theorem CodePoint.text_ne_nil (p : CodePoint) : p.text ≠ [] := by
  have hpos := p.length_pos
  intro h
  have hlength := congrArg List.length h
  simp only [CodePoint.text, List.length_map, List.length_nil] at hlength
  omega

theorem CodePoint.not_isSpacer (p : CodePoint) : ∀ c ∈ p.text, isSpacer c = false := by
  intro c hc
  obtain ⟨d, -, rfl⟩ := List.mem_map.1 hc
  exact not_isSpacer_of_isHex d.property

/-- The words between the braces are the code points. -/
theorem words_bracedText (before : List Spacer) (first : CodePoint)
    (more : List (Spacer × List Spacer × CodePoint)) (after : List Spacer) :
    words (bracedText before first more after) =
      first.text :: more.map fun (_, _, p) => p.text := by
  unfold bracedText
  rw [List.append_assoc, List.append_assoc, words_spacers]
  -- The induction is on the code points after the first, which stays free to change.
  induction more generalizing first with
  | nil =>
    have hafter : words (after.map Subtype.val) = [] := by
      have := words_spacers after []
      rwa [List.append_nil] at this
    have hhead : ∀ c ∈ (after.map Subtype.val).head?, isSpacer c = true := by
      intro c hc
      obtain ⟨s, -, rfl⟩ := List.mem_map.1 (List.mem_of_mem_head? hc)
      exact s.property
    rw [List.flatMap_nil, List.nil_append, words_word first.text_ne_nil first.not_isSpacer hhead,
      hafter]
    rfl
  | cons next more ih =>
    obtain ⟨s, ss, p⟩ := next
    have hhead : ∀ c ∈ ((((s, ss, p) :: more).flatMap dividedText) ++
        after.map Subtype.val).head?, isSpacer c = true := by
      intro c hc
      obtain rfl : s.val = c := by simpa [dividedText] using hc
      exact s.property
    have hspacers := words_spacers (s :: ss) (p.text ++ (more.flatMap dividedText ++
      after.map Subtype.val))
    rw [words_word first.text_ne_nil first.not_isSpacer hhead, List.map_cons, ← ih p, ← hspacers]
    simp [dividedText]

/-- Nothing between the braces closes them. -/
theorem bracedText_inside (before : List Spacer) (first : CodePoint)
    (more : List (Spacer × List Spacer × CodePoint)) (after : List Spacer) :
    ∀ c ∈ bracedText before first more after, (isHex c || isSpacer c) = true := by
  have hspacers (ss : List Spacer) : ∀ c ∈ ss.map Subtype.val, (isHex c || isSpacer c) = true := by
    -- Spacers, a code point, more of both, and spacers.
    intro c hc
    obtain ⟨s, -, rfl⟩ := List.mem_map.1 hc
    rw [s.property, Bool.or_true]
  have hpoint (p : CodePoint) : ∀ c ∈ p.text, (isHex c || isSpacer c) = true := by
    intro c hc
    obtain ⟨d, -, rfl⟩ := List.mem_map.1 hc
    rw [d.property, Bool.true_or]
  intro c hc
  rcases List.mem_append.1 hc with hc | hc
  · rcases List.mem_append.1 hc with hc | hc
    · rcases List.mem_append.1 hc with hc | hc
      · exact hspacers before c hc
      · exact hpoint first c hc
    · obtain ⟨⟨s, ss, p⟩, -, hc⟩ := List.mem_flatMap.1 hc
      rcases List.mem_append.1 hc with hc | hc
      · exact hspacers (s :: ss) c hc
      · exact hpoint p c hc
  · exact hspacers after c hc

/-- Braces are read up to the closing one. -/
theorem read?_points (before : List Spacer) (first : CodePoint)
    (more : List (Spacer × List Spacer × CodePoint)) (after : List Spacer) (rest : List Char) :
    read? ('u' :: '\x7b' :: (bracedText before first more after ++ '\x7d' :: rest)) =
      some (.points (hexNumber first.digits :: more.map fun (_, _, p) => hexNumber p.digits),
        rest) := by
  -- The braces end where the digits and spacers do.
  have hinner : (bracedText before first more after ++ '\x7d' :: rest).takeWhile
      (fun c => isHex c || isSpacer c) = bracedText before first more after := by
    rw [List.takeWhile_append_of_pos (bracedText_inside before first more after),
      List.takeWhile_cons_of_neg (by decide), List.append_nil]
  have hlengths : (words (bracedText before first more after)).all (·.length ≤ 6) = true := by
    rw [words_bracedText]
    have hlength (p : CodePoint) : p.text.length ≤ 6 := by
      rw [CodePoint.text, List.length_map]
      exact p.length_le
    simp [hlength]
  have hvalues : (words (bracedText before first more after)).map (valueIn 16) =
      hexNumber first.digits :: more.map fun (_, _, p) => hexNumber p.digits := by
    rw [words_bracedText, List.map_cons, List.map_map, CodePoint.text, valueIn_hex]
    exact congrArg _ (List.map_congr_left fun p _ => valueIn_hex p.2.2.digits)
  have hpoints : points? ('u' :: '\x7b' :: (bracedText before first more after ++ '\x7d' :: rest)) =
      some (.points (hexNumber first.digits :: more.map fun (_, _, p) => hexNumber p.digits),
        rest) := by
    have hne : (words (bracedText before first more after)).isEmpty = false := by
      rw [words_bracedText]
      rfl
    simp only [points?, hinner, List.drop_left, hne, hlengths, hvalues]
    rfl
  have hpoint (cs : List Char) : point? ('u' :: '\x7b' :: cs) = none := by
    have hbrace : isHex '\x7b' = false := by decide
    simp [point?, digitRun, hbrace]
  rw [read?, octal?_of_not (by decide), hexadecimal?_of_ne (by decide), hpoint, hpoints]
  rfl

/-- A mark and the character behind it are one octet. -/
theorem read?_modified (m : Modifier) (base : Base) (rest : List Char) :
    read? (m.mark ++ base.val :: rest) = some (.octet (m.octet (base.val.toNat % 256)), rest) := by
  obtain ⟨x, hslash, hbreak⟩ := base
  have hmodified : modified? (m.mark ++ x :: rest) =
      some (.octet (m.octet (x.toNat % 256)), rest) := by
    cases m <;>
      simp [Modifier.mark, Modifier.octet, modified?, modifiers, afterMark?,
        Ne.symm hslash, hbreak, control, withMeta]
  -- The first character of the mark rules out all the forms that are tried before.
  have hforms : ∃ c cs, m.mark ++ x :: rest = c :: cs ∧ isOctal c = false ∧ c ≠ 'x' ∧ c ≠ 'u' := by
    cases m <;> exact ⟨_, _, rfl, by decide, by decide, by decide⟩
  obtain ⟨c, cs, heq, hoctal, hx, hu⟩ := hforms
  rw [heq] at hmodified ⊢
  rw [read?, octal?_of_not hoctal, hexadecimal?_of_ne hx, point?_of_ne hu, points?_of_ne hu,
    hmodified]
  rfl

/-- A character that starts no longer form is read alone. -/
theorem read?_single {c : Char} (hoctal : isOctal c = false) (hc : c ∉ ['x', 'u', 'c', 'C', 'M'])
    (rest : List Char) : read? (c :: rest) = single? (c :: rest) := by
  simp only [List.mem_cons, List.not_mem_nil, or_false, not_or] at hc
  obtain ⟨hx, hu, hmodified⟩ := hc
  rw [read?, octal?_of_not hoctal, hexadecimal?_of_ne hx, point?_of_ne hu, points?_of_ne hu,
    modified?_of_not_mem (by simpa using hmodified)]
  rfl

/-- Letters that stand for other characters start no other form. -/
theorem letters_single : ∀ p ∈ letters, isOctal p.1 = false ∧ p.1 ∉ ['x', 'u', 'c', 'C', 'M'] ∧
    letters.lookup p.1 = some p.2 := by
  decide

end Forms

end Escape

section Tokens

open Escape

/-- An escape that is read whole puts its octets in front of the others. -/
theorem unescapeOctets_read {cs rest : List Char} {e : Escape} {bs : List UInt8}
    (h : read? cs = some (e, rest)) (he : e.octets = .ok bs) :
    unescapeOctets ('\\' :: cs) = (unescapeOctets rest).map (bs ++ ·) := by
  rw [unescapeOctets_escape h, he]
  cases unescapeOctets rest <;> rfl

/-- A lexeme in front of a text denotes its octets, whatever the text is. -/
theorem unescapeOctets_lexeme (t : Lexeme) (rest : List Char) :
    unescapeOctets (t.text ++ rest) = (unescapeOctets rest).map (t.octets ++ ·) := by
  -- Each form is read off as a single escape; then only its octets are to be compared.
  cases t with
  | plain c =>
    show unescapeOctets (c.val :: rest) = _
    rw [unescapeOctets_cons c.property]
    cases unescapeOctets rest <;> rfl
  | letter c =>
    obtain ⟨hoctal, hfirst, hlookup⟩ := letters_single c.val c.property
    refine unescapeOctets_read (e := .octet c.val.2) ?_ rfl
    show read? (c.val.1 :: rest) = _
    rw [read?_single hoctal hfirst, single?, hlookup]
  | octal d₁ d₂ d₃ => exact unescapeOctets_read (read?_octal d₁ d₂ d₃ rest) rfl
  | hexadecimal d₁ d₂ => exact unescapeOctets_read (read?_hexadecimal d₁ d₂ rest) rfl
  | point d₁ d₂ d₃ d₄ valid =>
    refine unescapeOctets_read (read?_point d₁ d₂ d₃ d₄ rest) ?_
    rw [octets_points (by simpa using valid)]
    exact congrArg Except.ok (List.append_nil _)
  | points before first more after =>
    have hread := read?_points before first more after rest
    have hvalid : ∀ n ∈ hexNumber first.digits :: more.map fun (_, _, p) => hexNumber p.digits,
        n.isValidChar := by
      intro n hn
      rcases List.mem_cons.1 hn with rfl | hn
      · exact first.valid
      · obtain ⟨⟨_, _, p⟩, -, rfl⟩ := List.mem_map.1 hn
        exact p.valid
    have htext : (Lexeme.points before first more after).text ++ rest = '\\' :: 'u' :: '\x7b' ::
        (bracedText before first more after ++ '\x7d' :: rest) := by
      simp [Lexeme.text]
    rw [htext]
    refine unescapeOctets_read hread ?_
    rw [octets_points hvalid, List.map_cons, List.map_map]
    rfl
  | modified m base =>
    have hread := read?_modified m base rest
    have htext : (Lexeme.modified m base).text ++ rest = '\\' :: (m.mark ++ base.val :: rest) := by
      simp [Lexeme.text]
    rw [htext]
    exact unescapeOctets_read hread rfl
  | newline => exact unescapeOctets_read (read?_newline rest) (by rfl)
  | unchanged c =>
    obtain ⟨hoctal, hfirst, hlookup⟩ := c.property
    refine unescapeOctets_read (e := .char c.val) ?_ rfl
    show read? (c.val :: rest) = _
    rw [read?_single hoctal hfirst, single?, hlookup]

/-- A row of lexemes stands for their octets in a row. -/
theorem unescapeOctets_flatMap_text (ts : List Lexeme) :
    unescapeOctets (ts.flatMap Lexeme.text) = .ok (ts.flatMap Lexeme.octets) := by
  induction ts with
  | nil => rfl
  | cons t ts ih =>
    rw [List.flatMap_cons, unescapeOctets_lexeme, ih]
    rfl

/-- A character as a lexeme, the backslash escaped. -/
def Escape.Lexeme.ofChar (c : Char) : Lexeme :=
  if h : c = '\\' then .unchanged ⟨'\\', by decide⟩ else .plain ⟨c, h⟩

/-- A character as a lexeme stands for its own octets. -/
theorem octets_ofChar (c : Char) : (Lexeme.ofChar c).octets = Text.Utf8.encodeChar c := by
  unfold Lexeme.ofChar
  split
  · rename_i h
    rw [h]
    rfl
  · rfl

/-- A text with each backslash written twice. -/
def doubled (s : List Char) : List Char :=
  s.flatMap fun c => if c = '\\' then ['\\', '\\'] else [c]

/-- Doubling backslashes writes each character as a lexeme. -/
theorem doubled_eq (s : List Char) : doubled s = (s.map Lexeme.ofChar).flatMap Lexeme.text := by
  have htext : (fun c => if c = '\\' then ['\\', '\\'] else [c]) =
      fun c => (Lexeme.ofChar c).text := by
    funext c
    unfold Lexeme.ofChar
    split <;> rfl
  rw [doubled, htext, List.flatMap_map]

/-- What a text with escapes is, given its octets. -/
theorem unescape_of_octets {cs : List Char} {bs : List UInt8} (h : unescapeOctets cs = .ok bs) :
    unescape cs = match Text.Utf8.decode bs with
      | some cs => .ok cs
      | none => .error (.invalidContent bs) := by
  rw [unescape, h]
  rfl

/-- A text whose backslashes are doubled is given back. -/
theorem unescape_doubled (s : List Char) : unescape (doubled s) = .ok s := by
  have hoctets : (s.map Lexeme.ofChar).flatMap Lexeme.octets = Text.Utf8.encode s := by
    rw [List.flatMap_map, funext octets_ofChar]
    rfl
  rw [doubled_eq, unescape_of_octets (unescapeOctets_flatMap_text _), hoctets,
    Text.Utf8.decode_encode]

/-- The escape decoder reads exactly its lexemes. Their octets are what a sequence
    of lexemes denotes, so that a text whose backslashes are doubled is given back;
    and as a text, a sequence denotes the one that its octets encode, or fails with
    an error in the source if they encode none. -/
theorem unescape_lexemes :
    (∀ ts : List Lexeme, unescapeOctets (ts.flatMap Lexeme.text) = .ok (ts.flatMap Lexeme.octets)) ∧
    (∀ s : List Char, unescape (doubled s) = .ok s) ∧
    (∀ (ts : List Lexeme) (cs : List Char), unescape (ts.flatMap Lexeme.text) = .ok cs ↔
      ts.flatMap Lexeme.octets = Text.Utf8.encode cs) ∧
    (∀ ts : List Lexeme, unescape (ts.flatMap Lexeme.text) =
      .error (.invalidContent (ts.flatMap Lexeme.octets)) ↔
        ∀ cs, ts.flatMap Lexeme.octets ≠ Text.Utf8.encode cs) := by
  refine ⟨unescapeOctets_flatMap_text, unescape_doubled, fun ts cs => ?_, fun ts => ?_⟩
  · rw [unescape_of_octets (unescapeOctets_flatMap_text ts), ← Text.Utf8.decode_eq_some_iff]
    cases Text.Utf8.decode (ts.flatMap Lexeme.octets) <;> simp
  · rw [unescape_of_octets (unescapeOctets_flatMap_text ts), ← Text.Utf8.decode_eq_none_iff]
    cases Text.Utf8.decode (ts.flatMap Lexeme.octets) <;> simp

end Tokens

end RubyTree
