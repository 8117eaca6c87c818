import RubyTree.Proofs.Log.Writer
import RubyTree.Proofs.Text.Surrogate

/-!
# Written Tokens Are Read Back

Numbers, names and quoted texts, each followed by whatever cannot continue it.
Numbers and names end at the first character of another kind. A quoted text ends
at the first quote that no backslash hides, and every spelling of a character
pairs its backslashes with what they escape, so the end is found by going over
the spellings one at a time. Reading the inside then goes over the same
spellings again: a code unit that is half of a pair never meets a half that
belongs to the next character, since characters are not halves.

## Theorems

* `natural_toDigits`: A number with few enough digits is read back.
* `figures?_toDigits`: Its digits are taken whole.
* `name?_append`: A name is taken whole.
* `span?_flatMap_spell`: A quoted text is taken whole.
* `quotedText_flatMap_spell`: The inside of a quoted text says its characters.
-/

namespace RubyTree

namespace Log

/-- A text that no token of characters with `p` goes on into. -/
def Stops (p : Char → Bool) (cs : List Char) : Prop :=
  ∀ c ∈ cs.head?, p c = false

theorem stops_cons {p : Char → Bool} {c : Char} {cs : List Char} (h : p c = false) :
    Stops p (c :: cs) := by
  intro d hd
  obtain rfl : c = d := by simpa using hd
  exact h

/-- Taking stops where the next part starts. -/
theorem takeWhile_append_stops {p : Char → Bool} {ds cs : List Char} (hds : ∀ d ∈ ds, p d)
    (hcs : Stops p cs) : (ds ++ cs).takeWhile p = ds := by
  rw [List.takeWhile_append_of_pos hds]
  cases cs with
  | nil => simp
  | cons c cs => rw [List.takeWhile_cons_of_neg (by simp [hcs c rfl]), List.append_nil]

/-- Dropping stops where the next part starts. -/
theorem dropWhile_append_stops {p : Char → Bool} {ds cs : List Char} (hds : ∀ d ∈ ds, p d)
    (hcs : Stops p cs) : (ds ++ cs).dropWhile p = cs := by
  rw [List.dropWhile_append_of_pos hds]
  cases cs with
  | nil => rfl
  | cons c cs => exact List.dropWhile_cons_of_neg (by simp [hcs c rfl])

theorem skip_of_stops {cs : List Char} (h : Stops (· = ' ') cs) : skip cs = cs :=
  @dropWhile_append_stops _ [] cs (by simp) h

section Numbers

theorem digitIn?_digitChar {v : Nat} (h : v < 10) :
    Numeral.digitIn? 10 (Nat.digitChar v) = some v := by
  revert v
  decide

/-- A last digit is worth itself, and makes the others worth more. -/
theorem ofDigits_concat (base : Nat) (ds : List Nat) (d : Nat) :
    Numeral.ofDigits base (ds ++ [d]) = base * Numeral.ofDigits base ds + d := by
  unfold Numeral.ofDigits
  rw [List.foldl_append]
  rfl

/-- The digits of a number have values, as many as there are digits, and these
    give the number back. -/
theorem mapM_toDigits (n : Nat) :
    ∃ ds, (Nat.toDigits 10 n).mapM (Numeral.digitIn? 10) = some ds ∧
      ds.length = (Nat.toDigits 10 n).length ∧ Numeral.ofDigits 10 ds = n := by
  induction n using Nat.strongRecOn with
  | ind n ih =>
    -- The last digit is the remainder, and the ones before it are those of `n / 10`.
    by_cases hsmall : n < 10
    · refine ⟨[n], ?_, ?_, ?_⟩
      · rw [Nat.toDigits_of_lt_base hsmall, List.mapM_cons, digitIn?_digitChar hsmall]
        rfl
      · rw [Nat.toDigits_of_lt_base hsmall]
        rfl
      · simp [Numeral.ofDigits]
    · obtain ⟨ds, hds, hlength, hvalue⟩ := ih (n / 10) (by omega)
      have hdigits := Nat.toDigits_of_base_le (b := 10) (by decide) (Nat.le_of_not_lt hsmall)
      refine ⟨ds ++ [n % 10], ?_, ?_, ?_⟩
      · rw [hdigits, List.mapM_append, hds, List.mapM_cons,
          digitIn?_digitChar (Nat.mod_lt n (by decide))]
        rfl
      · rw [hdigits, List.length_append, List.length_append, hlength]
        rfl
      · rw [ofDigits_concat, hvalue]
        omega

/-- A number below a power of ten has no more digits than that. -/
theorem length_toDigits_le {n k : Nat} (hk : 0 < k) (h : n < tenPow k) :
    (Nat.toDigits 10 n).length ≤ k :=
  (Nat.length_toDigits_le_iff (by decide) hk).2 h

/-- A number is read from its digits, unless there are too many. -/
theorem natural_toDigits {n : Nat} (h : Numeral.isWritable n) :
    natural (Nat.toDigits 10 n) = .ok n := by
  obtain ⟨ds, hds, hlength, hvalue⟩ := mapM_toDigits n
  have hpos : 0 < ds.length := hlength ▸ Nat.length_toDigits_pos
  -- The limit is on the number of digits, and says how large the number may be.
  have hlimit : ds.length ≤ Numeral.digitLimit := by
    rw [hlength]
    exact length_toDigits_le (by decide) (of_decide_eq_true h)
  have hread : Numeral.readDigits? 10 (Nat.toDigits 10 n) = some n := by
    unfold Numeral.readDigits?
    rw [hds]
    simp [List.ne_nil_of_length_pos hpos, hlimit, hvalue]
  unfold natural
  rw [hread]
  rfl

theorem isFigure_of_isDigit {c : Char} (h : c.isDigit) : isFigure c := by
  simp only [Char.isDigit, Bool.and_eq_true, decide_eq_true_eq] at h
  simp only [isFigure, Bool.and_eq_true, decide_eq_true_eq]
  exact h

theorem isFigure_of_mem_toDigits {n : Nat} {c : Char} (h : c ∈ Nat.toDigits 10 n) : isFigure c :=
  isFigure_of_isDigit (Nat.isDigit_of_mem_toDigits (by decide) (by decide) h)

/-- The digits of a number are figures, up to what follows. -/
theorem figures?_toDigits (n : Nat) {cs : List Char} (h : Stops isFigure cs) :
    figures? (Nat.toDigits 10 n ++ cs) = some (Nat.toDigits 10 n, cs) := by
  have hall : ∀ d ∈ Nat.toDigits 10 n, isFigure d := fun _ => isFigure_of_mem_toDigits
  unfold figures?
  rw [takeWhile_append_stops hall h, dropWhile_append_stops hall h]
  cases hdigits : Nat.toDigits 10 n with
  | nil => exact absurd hdigits Nat.toDigits_ne_nil
  | cons d ds => rfl

end Numbers

section Names

theorem startsIdentifier_of_isStart {c : Char} (h : isEventName.isStart c) :
    Text.startsIdentifier c := by
  have hupper : c.isUpper = decide ('A' ≤ c ∧ c ≤ 'Z') := rfl
  have hlower : c.isLower = (decide ('a' ≤ c) && decide (c ≤ 'z')) := rfl
  have halpha : c.isAlpha = (c.isUpper || c.isLower) := rfl
  simp only [isEventName.isStart, halpha, hupper, hlower, Bool.or_eq_true, Bool.and_eq_true,
    decide_eq_true_eq] at h
  simp only [Text.startsIdentifier, Bool.or_eq_true, Bool.and_eq_true, decide_eq_true_eq]
  exact h

theorem continuesName_of_isInner {c : Char} (h : isEventName.isInner c) : continuesName c := by
  unfold continuesName
  rw [Bool.or_eq_true]
  simp only [isEventName.isInner, Char.isAlphanum, Bool.or_eq_true, decide_eq_true_eq] at h
  rcases h with (halpha | hdigit) | rfl
  · left
    exact startsIdentifier_of_isStart (by simp [isEventName.isStart, halpha])
  · right
    exact isFigure_of_isDigit hdigit
  · left
    decide

/-- A name goes on up to what follows. -/
theorem plainName?_append {c : Char} {name cs : List Char} (hc : isEventName.isStart c)
    (hname : name.all isEventName.isInner) (hcs : Stops continuesName cs) :
    plainName? (c :: name ++ cs) = some (c :: name, cs) := by
  have hall : ∀ d ∈ name, continuesName d := fun d hd =>
    continuesName_of_isInner (List.all_eq_true.1 hname d hd)
  rw [List.cons_append, plainName?, if_pos (startsIdentifier_of_isStart hc),
    takeWhile_append_stops hall hcs, dropWhile_append_stops hall hcs]

/-- A name, with the mark of a token or without it. -/
theorem name?_append {name : String} {cs : List Char} (hname : isEventName name)
    (hcs : Stops continuesName cs) : name? (name.toList ++ cs) = some (name.toList, cs) := by
  unfold isEventName at hname
  split at hname
  next c ds heq =>
    rw [Bool.and_eq_true] at hname
    rw [heq]
    simp only [List.cons_append, name?]
    rw [← List.cons_append, plainName?_append hname.1 hname.2 hcs]
    rfl
  next c ds hat heq =>
    rw [Bool.and_eq_true] at hname
    -- A name without the sign is not read as one with it.
    have hne : c ≠ '@' := by
      rintro rfl
      exact absurd hname.1 (by decide)
    rw [heq, name?, plainName?_append hname.1 hname.2 hcs]
    intro es hes
    exact hne (List.cons.inj hes).1
  next => exact absurd hname (by decide)

end Names

section QuotedTexts

open QuotedText

theorem isHex_of_hexDigit {v : Nat} {c : Char} (h : HexDigit v c) : Escape.isHex c := by
  obtain ⟨hv, rfl | rfl⟩ := h
  · revert v
    decide
  · revert v
    decide

theorem digitIn?_of_hexDigit {v : Nat} {c : Char} (h : HexDigit v c) :
    Numeral.digitIn? 16 c = some v := by
  obtain ⟨hv, rfl | rfl⟩ := h
  · revert v
    decide
  · revert v
    decide

/-- Four digits give the number of a code unit. -/
theorem unit?_of_codeUnit {n : Nat} {ds : List Char} (h : CodeUnit n ds) :
    unit? ds = some n := by
  obtain ⟨ha, hb, hc, hd⟩ := h
  simp [unit?, isHex_of_hexDigit ha, isHex_of_hexDigit hb, isHex_of_hexDigit hc,
    isHex_of_hexDigit hd, Escape.valueIn, digitIn?_of_hexDigit ha, digitIn?_of_hexDigit hb,
    digitIn?_of_hexDigit hc, digitIn?_of_hexDigit hd, Numeral.ofDigits]

theorem length_of_codeUnit {n : Nat} {ds : List Char} (h : CodeUnit n ds) : ds.length = 4 := by
  cases h
  rfl

/-- No character is half of another. -/
theorem isHigh_toNat (c : Char) : Text.isHigh c.toNat = false := by
  have hhalf := Text.isSurrogate_toNat c
  simp only [Text.isSurrogate, Bool.and_eq_false_iff, decide_eq_false_iff_not] at hhalf
  simp only [Text.isHigh, Bool.and_eq_false_iff, decide_eq_false_iff_not]
  omega

theorem lookup_of_letter {c l : Char} (h : letter? c = some l) :
    l ≠ '\n' ∧ l ≠ 'u' ∧ letters.lookup l = some c := by
  unfold letter? at h
  split at h <;> cases h <;> decide

/-- Characters that are neither quotes nor backslashes belong to the text. -/
theorem span?_cons {c : Char} (hquote : c ≠ '"') (hbackslash : c ≠ '\\') (hline : c ≠ '\n')
    (cs : List Char) :
    span? (c :: cs) = (span? cs).map fun (inner, rest) => (c :: inner, rest) := by
  cases cs with
  | nil => simp [span?, hquote]
  | cons d cs => rw [span?, if_neg hquote, if_neg hline, if_neg hbackslash]

/-- A quoted text goes past a backslash and what stands behind it. -/
theorem span?_backslash {d : Char} (hline : d ≠ '\n') (cs : List Char) :
    span? ('\\' :: d :: cs) = (span? cs).map fun (inner, rest) => ('\\' :: d :: inner, rest) := by
  rw [span?, if_neg (by decide), if_neg (by decide), if_pos rfl, if_neg hline]

theorem span?_hexDigit {v : Nat} {c : Char} (h : HexDigit v c) (cs : List Char) :
    span? (c :: cs) = (span? cs).map fun (inner, rest) => (c :: inner, rest) := by
  have hhex := isHex_of_hexDigit h
  refine span?_cons ?_ ?_ ?_ cs <;> rintro rfl <;> exact absurd hhex (by decide)

/-- A quoted text goes past a code unit. -/
theorem span?_codeUnit {n : Nat} {ds : List Char} (h : CodeUnit n ds) (cs : List Char) :
    span? ('\\' :: 'u' :: ds ++ cs) =
      (span? cs).map fun (inner, rest) => ('\\' :: 'u' :: ds ++ inner, rest) := by
  obtain ⟨ha, hb, hc, hd⟩ := h
  simp only [List.cons_append, List.nil_append]
  rw [span?_backslash (by decide), span?_hexDigit ha, span?_hexDigit hb, span?_hexDigit hc,
    span?_hexDigit hd]
  simp only [Option.map_map]
  rfl

/-- A quoted text goes past a character, however it is spelled. -/
theorem span?_spells {c : Char} {w : List Char} (h : Spells c w) (cs : List Char) :
    span? (w ++ cs) = (span? cs).map fun (inner, rest) => (w ++ inner, rest) := by
  cases h with
  | plain hquote hbackslash hcontrol =>
    refine span?_cons hquote hbackslash ?_ cs
    rintro rfl
    exact absurd hcontrol (by decide)
  | letter hletter => exact span?_backslash (lookup_of_letter hletter).1 cs
  | unit hunit => exact span?_codeUnit hunit cs
  -- A pair is two escapes as far as the end of the text is concerned.
  | pair hhigh hlow hpoint hds hes =>
    rw [List.append_assoc, span?_codeUnit hds, span?_codeUnit hes, Option.map_map]
    simp only [List.append_assoc]
    rfl

/-- A quoted text ends at its quote, and nowhere before. -/
theorem span?_flatMap_spell (s : Spelling) (cs rest : List Char) :
    span? (cs.flatMap s.spell ++ '"' :: rest) = some (cs.flatMap s.spell, rest) := by
  induction cs with
  | nil => cases rest <;> rfl
  | cons c cs ih =>
    rw [List.flatMap_cons, List.append_assoc, span?_spells (s.valid c), ih]
    rfl

/-- A code unit is a character, or it waits for its other half. -/
theorem decodeFrom_codeUnit {n : Nat} {ds : List Char} (h : CodeUnit n ds) (fuel : Nat)
    (cs : List Char) :
    decodeFrom (fuel + 1) ('\\' :: 'u' :: ds ++ cs) =
      match if Text.isHigh n then lowUnit? cs else none with
      | some (low, rest) => (decodeFrom fuel rest).map (Text.joinSurrogates n low :: ·)
      | none => (decodeFrom fuel cs).map (n :: ·) := by
  simp only [List.cons_append, decodeFrom]
  rw [List.take_append_of_le_length (by simp [length_of_codeUnit h]),
    List.take_of_length_le (by simp [length_of_codeUnit h]), unit?_of_codeUnit h,
    List.drop_left' (length_of_codeUnit h)]
  rw [Option.bind_eq_bind, Option.bind_some]
  cases if Text.isHigh n then lowUnit? cs else none with
  | none => exact (Option.map_eq_bind ..).symm
  | some found => exact (Option.map_eq_bind ..).symm

/-- The second half of a character is found right behind the first. -/
theorem lowUnit?_codeUnit {n : Nat} {ds : List Char} (h : CodeUnit n ds) (hlow : Text.isLow n)
    (cs : List Char) : lowUnit? ('\\' :: 'u' :: ds ++ cs) = some (n, cs) := by
  have hunit := unit?_of_codeUnit h
  cases h
  simp only [List.cons_append, List.nil_append, lowUnit?]
  rw [hunit]
  simp [hlow]

/-- A spelling is one step of reading, which gives its character. -/
theorem decodeFrom_spells {c : Char} {w : List Char} (h : Spells c w) (fuel : Nat)
    (cs : List Char) :
    decodeFrom (fuel + 1) (w ++ cs) = (decodeFrom fuel cs).map (c.toNat :: ·) := by
  cases h with
  | plain hquote hbackslash hcontrol =>
    rw [List.singleton_append, decodeFrom]
    · rw [if_neg (by simp [hbackslash]; omega)]
      exact (Option.map_eq_bind ..).symm
    · rintro rest hrest -
      exact hbackslash hrest
    · rintro d rest hrest -
      exact hbackslash hrest
  | letter hletter =>
    obtain ⟨-, hu, hlookup⟩ := lookup_of_letter hletter
    simp only [List.cons_append, List.nil_append]
    rw [decodeFrom, hlookup]
    · exact (Option.map_eq_bind ..).symm
    · exact hu
  -- One unit is a whole character, so it is not read as half of a pair.
  | unit hunit => rw [decodeFrom_codeUnit hunit, isHigh_toNat, if_neg (by decide)]
  | @pair high low ds es hhigh hlow hpoint hds hes =>
    have hishigh : Text.isHigh high := by simpa [Text.isHigh] using hhigh
    have hislow : Text.isLow low := by simpa [Text.isLow] using hlow
    have hjoin : Text.joinSurrogates high low = c.toNat := by
      unfold Text.joinSurrogates
      omega
    rw [List.append_assoc, decodeFrom_codeUnit hds, if_pos hishigh, lowUnit?_codeUnit hes hislow,
      ← hjoin]

theorem length_pos_of_spells {c : Char} {w : List Char} (h : Spells c w) : 0 < w.length := by
  cases h <;> simp

/-- A text is decoded from its spelling. -/
theorem decodeFrom_flatMap_spell (s : Spelling) (cs : List Char) (fuel : Nat)
    (h : (cs.flatMap s.spell).length ≤ fuel) :
    decodeFrom fuel (cs.flatMap s.spell) = some (cs.map Char.toNat) := by
  induction cs generalizing fuel with
  | nil => cases fuel <;> rfl
  | cons c cs ih =>
    have hpos := length_pos_of_spells (s.valid c)
    rw [List.flatMap_cons, List.length_append] at h
    cases fuel with
    | zero => omega
    | succ fuel =>
      rw [List.flatMap_cons, decodeFrom_spells (s.valid c), ih fuel (by omega)]
      rfl

/-- Between its quotes, a text is decoded from its spelling. -/
theorem quotedText_flatMap_spell (s : Spelling) (cs : List Char) :
    quotedText (cs.flatMap s.spell) = .ok (cs.map Char.toNat) := by
  unfold quotedText decode?
  rw [decodeFrom_flatMap_spell s cs _ (Nat.le_refl _)]
  rfl

/-- Characters are whole, so they make up a text. -/
theorem ofPoints_map_toNat (cs : List Char) :
    Atom.ofPoints (cs.map Char.toNat) = .str (String.ofList cs) := by
  have hwhole : (cs.map Char.toNat).any Text.isSurrogate = false := by
    simp [Text.isSurrogate_toNat]
  unfold Atom.ofPoints
  rw [hwhole, if_neg (by decide), List.map_map]
  simp [Function.comp_def]

end QuotedTexts

end Log

end RubyTree
