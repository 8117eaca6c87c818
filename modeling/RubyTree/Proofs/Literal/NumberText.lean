import Mathlib.Algebra.Order.Field.Rat
import Mathlib.Data.List.Induction
import Mathlib.Data.Nat.Digits.Defs
import RubyTree.Literal.Number
import RubyTree.Proofs.Log.Lexeme

/-!
# The Language of Number Literals

An integer literal is a sign, the mark of a base and digits of that base, and a
decimal literal is two runs of digits around a point. Both are data here, which
carry the conditions of the language: a digit is below its base, a mark is one of
the spellings of its base, and an unmarked literal of several digits does not
start with a zero, since that zero is the mark of base eight.

The readers look for overlapping things: an `e` is a digit or an exponent, a
leading zero is a digit or a mark, and a mark may follow another one. What keeps
them apart is that the digits after a mark are below its base, so everything is
derived from one fact about small digits, which says what they are not.

A text of more digits than the readers accept has no value, in base ten only.

## Main definitions

* `Sign`, `Radix`: What a literal may start with, and the bases with their marks.
* `Digit`, `Figures`: Digits in either case, and runs of them with underscores.
* `IntegerLiteral`, `DecimalLiteral`: The literals, with their texts and values.

## Theorems

* `readInt?_small`: Digits have their positional value.
* `readMarked?_body`: The base is the one that the mark names.
* `number_literals_positional`: Every literal has the value of its digits.
-/

namespace RubyTree

namespace NumberText

/-- What a literal may start with. -/
inductive Sign where
  | absent
  | plus
  | minus
  deriving DecidableEq, Repr

namespace Sign

def text : Sign → List Char
  | absent => []
  | plus => ['+']
  | minus => ['-']

/-- What the sign multiplies by. -/
def factor : Sign → Int
  | minus => -1
  | _ => 1

end Sign

/-- The ways to mark a base. -/
inductive Radix where
  | unmarked
  | zero
  | binary
  | octal
  | decimal
  | hexadecimal
  deriving DecidableEq, Repr

namespace Radix

def base : Radix → Nat
  | unmarked | decimal => 10
  | zero | octal => 8
  | binary => 2
  | hexadecimal => 16

/-- The spellings of the mark. Digits may be set off from a bare zero. -/
def marks : Radix → List (List Char)
  | unmarked => [[]]
  | zero => [['0'], ['0', '_']]
  | binary => [['0', 'b'], ['0', 'B']]
  | octal => [['0', 'o'], ['0', 'O']]
  | decimal => [['0', 'd'], ['0', 'D']]
  | hexadecimal => [['0', 'x'], ['0', 'X']]

/-- The mark in small letters, nothing set off from it. -/
def plainMark : Radix → List Char
  | unmarked => []
  | zero => ['0']
  | binary => ['0', 'b']
  | octal => ['0', 'o']
  | decimal => ['0', 'd']
  | hexadecimal => ['0', 'x']

/-- A base has no mark, or one that starts with a zero. -/
theorem plainMark_forms (r : Radix) : r.plainMark = [] ∨ ∃ cs, r.plainMark = '0' :: cs := by
  cases r with
  | unmarked => exact .inl rfl
  | zero | binary | octal | decimal | hexadecimal => exact .inr ⟨_, rfl⟩

theorem base_mem (r : Radix) : r.base ∈ [2, 8, 10, 16] := by
  cases r <;> decide

theorem base_le (r : Radix) : r.base ≤ 16 := by
  cases r <;> decide

/-- All spellings of a mark are the same once they are cleaned. -/
theorem clean_mark (r : Radix) :
    ∀ m ∈ r.marks, (dropUnderscores m).map Char.toLower = r.plainMark := by
  cases r <;> decide

end Radix

/-- A digit of a base, in either case. -/
structure Digit (base : Nat) where
  value : Nat
  value_lt : value < base
  capital : Bool

namespace Digit

variable {base : Nat}

/-- The digit in small letters. -/
def small (d : Digit base) : Char :=
  Nat.digitChar d.value

def char (d : Digit base) : Char :=
  if d.capital then d.small.toUpper else d.small

end Digit

/-- Digits of a base with single underscores between some of them. -/
structure Figures (base : Nat) where
  first : Digit base
  /-- The other digits, each with whether an underscore stands before it. -/
  more : List (Bool × Digit base)

namespace Figures

variable {base : Nat}

def digits (fs : Figures base) : List (Digit base) :=
  fs.first :: fs.more.map Prod.snd

def text (fs : Figures base) : List Char :=
  fs.first.char :: fs.more.flatMap fun (spaced, d) => if spaced then ['_', d.char] else [d.char]

/-- The values of the digits. -/
def values (fs : Figures base) : List Nat :=
  fs.digits.map Digit.value

/-- The positional value, in which the last digit counts once. -/
def value (fs : Figures base) : Nat :=
  Nat.ofDigits base fs.values.reverse

/-- The readers take texts of any length in bases that are powers of two. -/
def Accepted (fs : Figures base) : Prop :=
  base ≠ 10 ∨ fs.digits.length ≤ Numeral.digitLimit

instance (fs : Figures base) : Decidable fs.Accepted :=
  inferInstanceAs (Decidable (_ ∨ _))

end Figures

/-- An integer literal. -/
structure IntegerLiteral where
  sign : Sign
  radix : Radix
  mark : List Char
  mark_mem : mark ∈ radix.marks
  figures : Figures radix.base
  /-- A zero in front of other digits is a mark. -/
  leads : radix = .unmarked → figures.more = [] ∨ figures.first.value ≠ 0

namespace IntegerLiteral

def text (l : IntegerLiteral) : List Char :=
  l.sign.text ++ (l.mark ++ l.figures.text)

/-- The sign times the value of the digits. -/
def value (l : IntegerLiteral) : Int :=
  l.sign.factor * l.figures.value

end IntegerLiteral

/-- A decimal with digits on both sides of its point. -/
structure DecimalLiteral where
  sign : Sign
  whole : Figures 10
  fraction : Figures 10

namespace DecimalLiteral

def text (l : DecimalLiteral) : List Char :=
  l.sign.text ++ (l.whole.text ++ '.' :: l.fraction.text)

/-- The positional value of the digits, the point left out. -/
def magnitude (l : DecimalLiteral) : Nat :=
  Nat.ofDigits 10 (l.whole.values ++ l.fraction.values).reverse

/-- The sign times the digits, over ten to the number of those after the point. -/
def value (l : DecimalLiteral) : Rat :=
  l.sign.factor * l.magnitude / 10 ^ l.fraction.digits.length

end DecimalLiteral

section Digits

variable {base : Nat}

/-- What a small digit is, and what it is not. -/
theorem digitChar_facts : ∀ v < 16,
    (Nat.digitChar v).toLower = Nat.digitChar v ∧ Nat.digitChar v ∉ ['_', '+', '-', '.', 'r'] ∧
      Text.isBlank (Nat.digitChar v) = false ∧
      Numeral.digitIn? 16 (Nat.digitChar v) = some v := by
  decide

/-- The same for a digit in either case. -/
theorem char_facts : ∀ v < 16, ∀ capital : Bool,
    (if capital then (Nat.digitChar v).toUpper else Nat.digitChar v) ∉ ['_', '+', '-', '.', 'r'] ∧
      (if capital then (Nat.digitChar v).toUpper else Nat.digitChar v).toLower =
        Nat.digitChar v := by
  decide

/-- A digit of a base is a digit of each base that is larger. -/
theorem digitIn?_small (hbase : base ≤ 16) (d : Digit base) :
    Numeral.digitIn? base d.small = some d.value := by
  have hlt : d.value < 16 := Nat.lt_of_lt_of_le d.value_lt hbase
  have hhex := (digitChar_facts d.value hlt).2.2.2
  unfold Numeral.digitIn? at hhex ⊢
  rw [Option.filter_eq_some_iff] at hhex ⊢
  exact ⟨hhex.1, by simpa using d.value_lt⟩

/-- A small digit is no sign, point or underscore. -/
theorem small_notMem (hbase : base ≤ 16) (d : Digit base) :
    d.small ∉ ['_', '+', '-', '.', 'r'] :=
  (digitChar_facts d.value (Nat.lt_of_lt_of_le d.value_lt hbase)).2.1

/-- A small digit is no white space. -/
theorem isBlank_small (hbase : base ≤ 16) (d : Digit base) : Text.isBlank d.small = false :=
  (digitChar_facts d.value (Nat.lt_of_lt_of_le d.value_lt hbase)).2.2.1

/-- A digit is no sign, point or underscore. -/
theorem char_notMem (hbase : base ≤ 16) (d : Digit base) :
    d.char ∉ ['_', '+', '-', '.', 'r'] :=
  (char_facts d.value (Nat.lt_of_lt_of_le d.value_lt hbase) d.capital).1

/-- A digit in small letters. -/
theorem toLower_char (hbase : base ≤ 16) (d : Digit base) : d.char.toLower = d.small :=
  (char_facts d.value (Nat.lt_of_lt_of_le d.value_lt hbase) d.capital).2

/-- Decimal digits hold no point and no exponent. -/
theorem not_float_small (hbase : base ≤ 10) (ds : List (Digit base)) :
    (ds.map Digit.small).any (fun c => c = '.' || c = 'e') = false := by
  have hdecimal : ∀ v < 10, (Nat.digitChar v = '.' || Nat.digitChar v = 'e') = false := by decide
  rw [List.any_map, List.any_eq_false]
  intro d _
  have hd := hdecimal d.value (Nat.lt_of_lt_of_le d.value_lt hbase)
  exact Bool.eq_false_iff.1 hd

theorem digitValue?_small (d : Digit 10) : Text.digitValue? d.small = some d.value := by
  have hdecimal : ∀ v < 10, Text.digitValue? (Nat.digitChar v) = some v := by decide
  exact hdecimal d.value d.value_lt

/-- Decimal digits are the same in either case. -/
theorem char_eq_small (d : Digit 10) : d.char = d.small := by
  have hsame : ∀ v < 10, (Nat.digitChar v).toUpper = Nat.digitChar v := by decide
  unfold Digit.char
  split
  · exact hsame d.value d.value_lt
  · rfl

/-- The letter that marks a base is no digit of it. -/
theorem baseMark?_ne_small (hbase : base ∈ [2, 8, 10, 16]) (d : Digit base) :
    Numeral.baseMark? base ≠ some d.small.toLower := by
  have hfour : ∀ b ∈ [2, 8, 10, 16], ∀ v < b,
      Numeral.baseMark? b ≠ some (Nat.digitChar v).toLower := by
    decide
  exact hfour base hbase d.value d.value_lt

/-- Reading from the left gives the positional value. -/
theorem ofDigits_eq (base : Nat) (vs : List Nat) :
    Numeral.ofDigits base vs = Nat.ofDigits base vs.reverse := by
  induction vs using List.reverseRecOn with
  | nil => rfl
  | append_singleton vs v ih =>
    rw [Log.ofDigits_concat, ih, List.reverse_append, List.reverse_singleton,
      List.singleton_append, Nat.ofDigits_cons, Nat.add_comm]

/-- Small digits are read one by one. -/
theorem mapM_small (hbase : base ≤ 16) (ds : List (Digit base)) :
    (ds.map Digit.small).mapM (Numeral.digitIn? base) = some (ds.map Digit.value) := by
  induction ds with
  | nil => rfl
  | cons d ds ih =>
    rw [List.map_cons, List.mapM_cons, digitIn?_small hbase d, ih]
    rfl

end Digits

section Clean

variable {base : Nat}

/-- Underscores are dropped part by part. -/
theorem dropUnderscores_append (cs ds : List Char) :
    dropUnderscores (cs ++ ds) = dropUnderscores cs ++ dropUnderscores ds :=
  List.filter_append ..

/-- Without underscores, a run is its digits. -/
theorem dropUnderscores_figures (hbase : base ≤ 16) (fs : Figures base) :
    dropUnderscores fs.text = fs.digits.map Digit.char := by
  have hkeep (d : Digit base) : (d.char != '_') = true := by
    rw [bne_iff_ne]
    intro h
    exact char_notMem hbase d (by simp [h])
  have hmore (more : List (Bool × Digit base)) :
      dropUnderscores (more.flatMap fun (spaced, d) =>
        if spaced then ['_', d.char] else [d.char]) = (more.map Prod.snd).map Digit.char := by
    -- Between digits an underscore may stand, and it is all that is dropped.
    induction more with
    | nil => rfl
    | cons next more ih =>
      obtain ⟨spaced, d⟩ := next
      have hnext : dropUnderscores (if spaced then ['_', d.char] else [d.char]) = [d.char] := by
        cases spaced <;> simp [dropUnderscores, hkeep d]
      rw [List.flatMap_cons, dropUnderscores_append, ih, hnext]
      rfl
  unfold Figures.text Figures.digits
  rw [List.map_cons, ← hmore]
  exact List.filter_cons_of_pos (hkeep fs.first)

/-- Digits in small letters. -/
theorem map_toLower_char (hbase : base ≤ 16) (ds : List (Digit base)) :
    (ds.map Digit.char).map Char.toLower = ds.map Digit.small := by
  rw [List.map_map]
  exact List.map_congr_left fun d _ => toLower_char hbase d

/-- Underscores do not matter. -/
theorem integerLiteral_dropUnderscores (cs : List Char) :
    integerLiteral (dropUnderscores cs) = integerLiteral cs := by
  unfold integerLiteral
  rw [dropUnderscores, dropUnderscores, List.filter_filter]
  simp only [Bool.and_self]

theorem dropUnderscores_sign (s : Sign) : dropUnderscores s.text = s.text := by
  cases s <;> rfl

theorem mem_signText {s : Sign} {c : Char} (h : c ∈ s.text) : c = '+' ∨ c = '-' := by
  cases s with
  | absent => cases h
  | plus => exact .inl (List.mem_singleton.1 h)
  | minus => exact .inr (List.mem_singleton.1 h)

/-- A sign is read off and what follows is left, if it has none of its own. -/
theorem signed_sign (s : Sign) {cs : List Char}
    (h : Log.Stops (fun c => c = '+' || c = '-') cs) :
    Numeral.signed (s.text ++ cs) = (decide (s = .minus), cs) := by
  cases s with
  | plus => rfl
  | minus => rfl
  | absent =>
    cases cs with
    | nil => rfl
    | cons c cs =>
      -- A number without a sign starts with a character that is none.
      have hc := h c rfl
      rw [Bool.or_eq_false_iff, decide_eq_false_iff_not, decide_eq_false_iff_not] at hc
      show Numeral.signed (c :: cs) = (false, c :: cs)
      unfold Numeral.signed
      split
      · rename_i heq
        exact absurd (List.cons.inj heq).1 hc.2
      · rename_i heq
        exact absurd (List.cons.inj heq).1 hc.1
      · rfl

/-- Digits do not continue a sign. -/
theorem stops_small (hbase : base ≤ 16) (d : Digit base) (cs : List Char) :
    Log.Stops (fun c => c = '+' || c = '-') (d.small :: cs) := by
  have hd := small_notMem hbase d
  simp only [List.mem_cons, List.not_mem_nil, or_false, not_or] at hd
  exact Log.stops_cons (by simp [hd])

/-- There is nothing to cut off. -/
theorem trimList_eq_self {p : Char → Bool} {cs : List Char} (h : ∀ c ∈ cs, p c = false) :
    Text.trimList p cs = cs := by
  have hdrop {ds : List Char} (hds : ∀ c ∈ ds, p c = false) : ds.dropWhile p = ds := by
    cases ds with
    | nil => rfl
    | cons d ds => exact List.dropWhile_cons_of_neg (by simp [hds d])
  unfold Text.trimList
  rw [hdrop h, hdrop fun c hc => h c (List.mem_reverse.1 hc), List.reverse_reverse]

end Clean

section Integers

variable {base : Nat}

/-- Small digits have no mark that could be dropped. -/
theorem dropMark_small (hbase : base ∈ [2, 8, 10, 16]) (ds : List (Digit base)) :
    Numeral.dropMark base (ds.map Digit.small) = ds.map Digit.small := by
  match ds with
  | [] => rfl
  | [d] => rfl
  | d :: e :: ds =>
    rw [List.map_cons, List.map_cons, Numeral.dropMark]
    exact if_neg fun h => baseMark?_ne_small hbase e h.2

theorem le_of_mem_bases (hbase : base ∈ [2, 8, 10, 16]) : base ≤ 16 := by
  simp only [List.mem_cons, List.not_mem_nil, or_false] at hbase
  omega

/-- Digits are read as the number they spell, unless there are too many. -/
theorem readDigits?_small (hbase : base ∈ [2, 8, 10, 16]) (fs : Figures base) :
    Numeral.readDigits? base (fs.digits.map Digit.small) =
      if fs.Accepted then some fs.value else none := by
  have hmark : (Numeral.baseMark? base).isSome = decide (base ≠ 10) := by
    simp only [List.mem_cons, List.not_mem_nil, or_false] at hbase
    rcases hbase with rfl | rfl | rfl | rfl <;> rfl
  -- Only decimal digits are limited in number, and they are the ones without a mark.
  have hlimit : ((Numeral.baseMark? base).isSome ||
      decide ((fs.digits.map Digit.value).length ≤ Numeral.digitLimit)) =
        decide fs.Accepted := by
    rw [hmark, List.length_map, ← Bool.decide_or]
    rfl
  unfold Numeral.readDigits?
  rw [mapM_small (le_of_mem_bases hbase)]
  show (if (fs.digits.map Digit.value).isEmpty || !((Numeral.baseMark? base).isSome ||
    decide ((fs.digits.map Digit.value).length ≤ Numeral.digitLimit)) then none
      else some (Numeral.ofDigits base (fs.digits.map Digit.value))) = _
  rw [hlimit, ofDigits_eq]
  by_cases hfits : fs.Accepted
  · rw [if_pos hfits]
    simp [hfits, Figures.digits, Figures.value, Figures.values]
  · rw [if_neg hfits]
    simp [hfits]

/-- Digits in small letters have their positional value, unless there are too
    many of them. -/
theorem readInt?_small (hbase : base ∈ [2, 8, 10, 16]) (fs : Figures base) :
    Numeral.readInt? base (fs.digits.map Digit.small) =
      if fs.Accepted then some (fs.value : Int) else none := by
  have hle := le_of_mem_bases hbase
  -- Lower-case digits are no blanks, and the first of them is no sign.
  have htrim : Text.trimList Text.isNumeralBlank (fs.digits.map Digit.small) =
      fs.digits.map Digit.small := by
    refine trimList_eq_self fun c hc => ?_
    obtain ⟨d, -, rfl⟩ := List.mem_map.1 hc
    rw [Text.isNumeralBlank, isBlank_small hle d, Bool.false_and]
  have hsigned : Numeral.signed (fs.digits.map Digit.small) =
      (false, fs.digits.map Digit.small) :=
    signed_sign .absent (stops_small hle fs.first _)
  unfold Numeral.readInt?
  rw [htrim, hsigned]
  show (Numeral.readDigits? base (Numeral.dropMark base (fs.digits.map Digit.small))).bind _ = _
  rw [dropMark_small hbase, readDigits?_small hbase]
  split <;> rfl

/-- Marks start with a zero. -/
theorem markedBase?_of_ne {c : Char} (hc : c ≠ '0') (cs : List Char) :
    markedBase? (c :: cs) = none := by
  unfold markedBase?
  split <;> first
    | rfl
    | rename_i heq
      exact absurd (List.cons.inj heq).1 hc

/-- A text that starts with no zero is a decimal number. -/
theorem readMarked?_of_ne {c : Char} (hc : c ≠ '0') (cs : List Char) :
    readMarked? (c :: cs) = Numeral.readInt? 10 (c :: cs) := by
  unfold readMarked?
  rw [List.take_succ_cons, markedBase?_of_ne hc]
  dsimp only
  split
  · rename_i heq
    exact absurd (List.cons.inj heq).1 hc
  · rfl

/-- A zero by itself is no mark either. -/
theorem readMarked?_singleton (c : Char) : readMarked? [c] = Numeral.readInt? 10 [c] := by
  unfold readMarked? markedBase?
  simp

namespace IntegerLiteral

/-- The literal after its sign, in small letters and without underscores. -/
def body (l : IntegerLiteral) : List Char :=
  l.radix.plainMark ++ l.figures.digits.map Digit.small

/-- A cleaned text has a sign, a plain mark and small digits. -/
theorem clean_text (l : IntegerLiteral) :
    (dropUnderscores l.text).map Char.toLower = l.sign.text ++ l.body := by
  have hsign : l.sign.text.map Char.toLower = l.sign.text := by
    cases l.sign <;> rfl
  unfold text body
  rw [dropUnderscores_append, dropUnderscores_append, dropUnderscores_sign,
    dropUnderscores_figures l.radix.base_le, List.map_append, List.map_append,
    map_toLower_char l.radix.base_le, hsign, l.radix.clean_mark l.mark l.mark_mem]

/-- The sign ends where the body starts, with a digit or the zero of a mark. -/
theorem stops_body (l : IntegerLiteral) :
    Log.Stops (fun c => c = '+' || c = '-') l.body := by
  unfold body
  rcases l.radix.plainMark_forms with hnone | ⟨cs, hzero⟩
  · rw [hnone]
    exact stops_small l.radix.base_le l.figures.first _
  · rw [hzero]
    exact Log.stops_cons (by decide)

/-- The base is the one that the mark names. No digits after a bare zero make up
    the mark of another base, and no zero stands in front of unmarked digits. -/
theorem readMarked?_body (l : IntegerLiteral) :
    readMarked? l.body = if l.figures.Accepted then some (l.figures.value : Int) else none := by
  rw [← readInt?_small l.radix.base_mem l.figures]
  obtain ⟨sign, radix, mark, hmark, figures, hleads⟩ := l
  unfold body
  cases radix with
  | binary | octal | decimal | hexadecimal => rfl
  | zero =>
    -- The first digit stands where the letter of a mark would.
    have hnoMark : ∀ v < 8, markedBase? ['0', Nat.digitChar v] = none := by decide
    have hbase := hnoMark _ figures.first.value_lt
    show readMarked? ('0' :: figures.first.small :: (figures.more.map Prod.snd).map Digit.small) = _
    unfold readMarked?
    rw [show List.take 2 ('0' :: figures.first.small ::
      (figures.more.map Prod.snd).map Digit.small) = ['0', figures.first.small] from rfl,
      Digit.small, hbase]
    rfl
  | unmarked =>
    show readMarked? (figures.first.small :: (figures.more.map Prod.snd).map Digit.small) =
      Numeral.readInt? 10 (figures.first.small :: (figures.more.map Prod.snd).map Digit.small)
    rcases hleads rfl with hlone | hfirst
    · rw [hlone]
      exact readMarked?_singleton _
    · have hzero : ∀ v < 10, v ≠ 0 → Nat.digitChar v ≠ '0' := by decide
      exact readMarked?_of_ne (hzero _ figures.first.value_lt hfirst) _

theorem integerLiteral_text (l : IntegerLiteral) :
    integerLiteral l.text = if l.figures.Accepted then .ok l.value else .error .noValue := by
  unfold integerLiteral
  rw [l.clean_text, signed_sign l.sign l.stops_body]
  simp only [readMarked?_body, value]
  by_cases hfits : l.figures.Accepted
  · simp only [if_pos hfits]
    cases l.sign <;> simp [Sign.factor, pure, Except.pure]
  · simp only [if_neg hfits]
    rfl

/-- No letter at the end makes the literal a rational. -/
theorem getLast?_text_ne (l : IntegerLiteral) : l.text.getLast? ≠ some 'r' := by
  have hfigures : 'r' ∉ l.figures.text := by
    have hchar (d : Digit l.radix.base) : 'r' ≠ d.char := by
      rintro h
      exact char_notMem l.radix.base_le d (by simp [← h])
    simp only [Figures.text, List.mem_cons, hchar, List.mem_flatMap, false_or, not_exists, not_and]
    rintro ⟨spaced, d⟩ -
    cases spaced <;> simp [hchar]
  -- The last character is one of the digits.
  have hne : l.figures.text ≠ [] := List.cons_ne_nil _ _
  unfold text
  rw [← List.append_assoc, List.getLast?_append, List.getLast?_eq_some_getLast hne]
  intro h
  have hlast : l.figures.text.getLast hne = 'r' := Option.some.inj h
  exact hfigures (hlast ▸ List.getLast_mem hne)

/-- Points and exponents are looked for only where no digit is an `e`. -/
theorem not_float_body (l : IntegerLiteral) :
    ((markedBase? (l.body.take 2)).isNone && l.body.any fun c => c = '.' || c = 'e') = false := by
  obtain ⟨sign, radix, mark, hmark, figures, hleads⟩ := l
  unfold body
  cases radix with
  | binary | octal | decimal | hexadecimal => rfl
  | zero | unmarked =>
    have hdigits := not_float_small (by decide) figures.digits
    rw [List.any_append, hdigits, Bool.or_false]
    exact Bool.and_false _

theorem realLiteral_text (l : IntegerLiteral) : realLiteral l.text =
    if l.figures.Accepted then .ok (.integer l.value) else .error .noValue := by
  have hsign : ∀ c ∈ l.sign.text, (decide (c = '+') || decide (c = '-')) = true := by
    intro c hc
    rcases mem_signText hc with rfl | rfl <;> rfl
  unfold realLiteral
  rw [if_neg l.getLast?_text_ne]
  simp only [l.clean_text, Log.dropWhile_append_stops hsign l.stops_body]
  rw [l.not_float_body, if_neg Bool.false_ne_true, l.integerLiteral_text]
  split <;> rfl

theorem rationalLiteral_text (l : IntegerLiteral) : rationalLiteral l.text =
    if l.figures.Accepted then .ok (l.value : Rat) else .error .noValue := by
  -- Neither mark, sign nor digit is a point, so the text is read as an integer.
  have hmark : ∀ m ∈ l.radix.marks, '.' ∉ dropUnderscores m := by
    cases l.radix <;> decide
  have hsign : '.' ∉ l.sign.text := by
    cases l.sign <;> decide
  have hfigures : '.' ∉ l.figures.digits.map Digit.char := by
    intro h
    obtain ⟨d, -, hd⟩ := List.mem_map.1 h
    exact char_notMem l.radix.base_le d (by simp [hd])
  have hpoint : (dropUnderscores l.text).contains '.' = false := by
    rw [text, dropUnderscores_append, dropUnderscores_append, dropUnderscores_sign,
      dropUnderscores_figures l.radix.base_le]
    simp [hsign, hmark l.mark l.mark_mem, hfigures]
  unfold rationalLiteral
  simp only [hpoint]
  rw [if_neg Bool.false_ne_true, integerLiteral_dropUnderscores, l.integerLiteral_text]
  split <;> rfl

end IntegerLiteral

end Integers

section Decimals

/-- Decimal digits in front of a text are cut off whole. -/
theorem spanDigits_small (ds : List (Digit 10)) {cs : List Char}
    (hcs : Log.Stops (fun c => (Text.digitValue? c).isSome) cs) :
    Numeral.spanDigits (ds.map Digit.small ++ cs) = (ds.map Digit.small, cs) := by
  have hdigits : ∀ c ∈ ds.map Digit.small, (Text.digitValue? c).isSome = true := by
    intro c hc
    obtain ⟨d, -, rfl⟩ := List.mem_map.1 hc
    rw [digitValue?_small d]
    rfl
  unfold Numeral.spanDigits
  rw [Log.takeWhile_append_stops hdigits hcs, Log.dropWhile_append_stops hdigits hcs]

/-- Decimal digits make up a number by their places. -/
theorem ofFigures_small (ds : List (Digit 10)) :
    Numeral.ofFigures (ds.map Digit.small) = Nat.ofDigits 10 (ds.map Digit.value).reverse := by
  have hvalues : (ds.map Digit.small).filterMap Text.digitValue? = ds.map Digit.value := by
    rw [List.filterMap_map, ← List.filterMap_eq_map]
    exact congrArg (List.filterMap · ds) (funext digitValue?_small)
  rw [Numeral.ofFigures, hvalues, ofDigits_eq]

namespace DecimalLiteral

/-- The literal taken apart. -/
def parts (l : DecimalLiteral) : Numeral.Decimal where
  negative := decide (l.sign = .minus)
  whole := l.whole.digits.map Digit.small
  fraction := l.fraction.digits.map Digit.small
  shrinks := false
  power := []

/-- The literal after its sign, without underscores. -/
def body (l : DecimalLiteral) : List Char :=
  l.whole.digits.map Digit.small ++ '.' :: l.fraction.digits.map Digit.small

theorem clean_text (l : DecimalLiteral) :
    dropUnderscores l.text = l.sign.text ++ l.body := by
  have hfigures (fs : Figures 10) : dropUnderscores fs.text = fs.digits.map Digit.small := by
    rw [dropUnderscores_figures (by decide)]
    exact List.map_congr_left fun d _ => char_eq_small d
  unfold text body
  rw [dropUnderscores_append, dropUnderscores_append, dropUnderscores_sign, hfigures,
    ← hfigures l.fraction]
  rfl

/-- The parts of a decimal number are read as they were written. -/
theorem read?_clean (l : DecimalLiteral) :
    Numeral.Decimal.read? (l.sign.text ++ l.body) = some l.parts := by
  -- Every part stops where the next one starts: a sign at a digit, digits at the point.
  have hstart : Log.Stops (fun c => c = '+' || c = '-') l.body :=
    stops_small (by decide) l.whole.first _
  have hsigned := signed_sign l.sign hstart
  have hwhole : Numeral.spanDigits l.body =
      (l.whole.digits.map Digit.small, '.' :: l.fraction.digits.map Digit.small) :=
    spanDigits_small _ (Log.stops_cons (by decide))
  have hend : Log.Stops (fun c => (Text.digitValue? c).isSome) [] := by simp [Log.Stops]
  have hfraction := spanDigits_small l.fraction.digits hend
  rw [List.append_nil] at hfraction
  unfold Numeral.Decimal.read?
  rw [hsigned]
  simp only [hwhole, hfraction]
  rfl

/-- The exact quotient is formed in one step, since nothing is raised to a power. -/
theorem toRat_parts (l : DecimalLiteral) : l.parts.toRat = l.value := by
  have hmagnitude : Numeral.ofFigures (l.parts.whole ++ l.parts.fraction) = l.magnitude := by
    show Numeral.ofFigures (l.whole.digits.map Digit.small ++ l.fraction.digits.map Digit.small) = _
    rw [← List.map_append, ofFigures_small, List.map_append]
    rfl
  have hfactor (n : Nat) : (if l.parts.negative then -(n : Int) else n) = l.sign.factor * n := by
    unfold parts
    cases l.sign <;> simp [Sign.factor]
  have hscale : l.parts.fraction.length = l.fraction.digits.length := List.length_map _
  show mkRat ((let n := Numeral.ofFigures (l.parts.whole ++ l.parts.fraction)
    if l.parts.negative then -(n : Int) else n) * (tenPow 0 : Nat))
      (tenPow l.parts.fraction.length) = l.value
  rw [hmagnitude, hfactor, hscale, Rat.mkRat_eq_div]
  simp [value]

theorem rationalLiteral_text (l : DecimalLiteral) :
    rationalLiteral l.text =
      if l.whole.Accepted ∧ l.fraction.Accepted then .ok l.value else .error .noValue := by
  have hpoint : (dropUnderscores l.text).contains '.' = true := by
    simp [l.clean_text, body]
  -- There is no blank in the text, so nothing is trimmed.
  have htrim : Text.trimList Text.isBlank (l.sign.text ++ l.body) = l.sign.text ++ l.body := by
    have hsign : ∀ c ∈ l.sign.text, Text.isBlank c = false := by
      intro c hc
      rcases mem_signText hc with rfl | rfl <;> rfl
    have hdigits (ds : List (Digit 10)) : ∀ c ∈ ds.map Digit.small, Text.isBlank c = false := by
      intro c hc
      obtain ⟨d, -, rfl⟩ := List.mem_map.1 hc
      exact isBlank_small (by decide) d
    refine trimList_eq_self fun c hc => ?_
    simp only [body, List.mem_append, List.mem_cons] at hc
    rcases hc with hc | hc | rfl | hc
    · exact hsign c hc
    · exact hdigits _ c hc
    · rfl
    · exact hdigits _ c hc
  have hlimit : ([l.parts.whole, l.parts.fraction, l.parts.power].all fun cs =>
      decide (cs.length ≤ Numeral.digitLimit)) =
        decide (l.whole.Accepted ∧ l.fraction.Accepted) := by
    simp [parts, Figures.Accepted]
  have hread : Numeral.readRat? (dropUnderscores l.text) =
      if l.whole.Accepted ∧ l.fraction.Accepted then some l.value else none := by
    rw [l.clean_text, Numeral.readRat?, htrim, l.read?_clean]
    show (if ([l.parts.whole, l.parts.fraction, l.parts.power].all fun cs =>
      decide (cs.length ≤ Numeral.digitLimit)) = true then some l.parts.toRat else none) = _
    rw [hlimit, l.toRat_parts]
    simp only [decide_eq_true_eq]
  unfold rationalLiteral
  simp only [hpoint, if_true, hread]
  by_cases hfits : l.whole.Accepted ∧ l.fraction.Accepted
  · simp only [if_pos hfits]
    rfl
  · simp only [if_neg hfits]
    rfl

end DecimalLiteral

end Decimals

/-- Every literal has the value of its digits: an integer literal wherever one is
    read, as an integer where a float could stand and as a fraction where a
    rational is due, and a decimal as an exact fraction. Only in base ten can
    there be too many digits. -/
theorem number_literals_positional :
    (∀ l : IntegerLiteral,
      integerLiteral l.text = (if l.figures.Accepted then .ok l.value else .error .noValue) ∧
      realLiteral l.text =
        (if l.figures.Accepted then .ok (.integer l.value) else .error .noValue) ∧
      rationalLiteral l.text =
        if l.figures.Accepted then .ok (l.value : Rat) else .error .noValue) ∧
    ∀ l : DecimalLiteral, rationalLiteral l.text =
      if l.whole.Accepted ∧ l.fraction.Accepted then .ok l.value else .error .noValue :=
  ⟨fun l => ⟨l.integerLiteral_text, l.realLiteral_text, l.rationalLiteral_text⟩,
    fun l => l.rationalLiteral_text⟩

/-- The `e` of a marked base is a digit, behind a sign too. -/
example : realLiteral ['-', '0', 'X', '1', '_', 'e'] = .ok (.integer (-30)) := by
  rfl

end NumberText

end RubyTree
