import RubyTree.Literal.Escape

/-!
# Escapes Stay on Their Line

An escape takes the longest run of characters that fits one of its forms. None
of the forms has a line break inside, and the only one that accepts a line break
at all ends with it. So what an escape is and what is left of its line can be
told from the line alone, whatever the lines below it say.

`OnLine` says this of one form: on a line that the form does not use up, either
it never fits or it takes the same characters for every continuation of the
text. The order in which forms are tried does not matter for that.

## Main definitions

* `OnLine`: A form of escapes that looks at its own line only.

## Theorems

* `read?_on_line`: An escape is read from its own line.
* `read?_length_lt`: An escape takes at least one character.
* `unescapeFrom_eq`: The bound of a long enough reading does not matter.
* `unescapeOctets_line`: The octets of a line do not depend on what follows it.
-/

namespace RubyTree

namespace Escape

section Runs

/-- A run of digits does not reach past its line. -/
theorem takeWhile_take_line {p : Char → Bool} (hp : p '\n' = false) (l t : List Char) :
    ∀ n, ((l ++ '\n' :: t).take n).takeWhile p = (l.take n).takeWhile p := by
  induction l with
  | nil =>
    intro n
    cases n with
    | zero => rfl
    | succ n => simp [hp]
  | cons c l ih =>
    intro n
    cases n with
    | zero => rfl
    | succ n =>
      simp only [List.cons_append, List.take_succ_cons, List.takeWhile_cons, ih]

/-- A run of digits ends at the line break, at the latest. -/
theorem digitRun_line {p : Char → Bool} (hp : p '\n' = false) (most : Nat) (l t : List Char) :
    digitRun p most (l ++ '\n' :: t) = digitRun p most l :=
  takeWhile_take_line hp l t most

theorem digitRun_length_le (p : Char → Bool) (most : Nat) (l : List Char) :
    (digitRun p most l).length ≤ l.length :=
  Nat.le_trans (List.takeWhile_sublist p).length_le (List.take_sublist most l).length_le

/-- Taking that stops at a line break sees nothing behind it. -/
theorem takeWhile_line {p : Char → Bool} (hp : p '\n' = false) (l t : List Char) :
    (l ++ '\n' :: t).takeWhile p = l.takeWhile p := by
  induction l with
  | nil => simp [hp]
  | cons c l ih => simp only [List.cons_append, List.takeWhile_cons, ih]

theorem drop_line {n : Nat} {l : List Char} (h : n ≤ l.length) (t : List Char) :
    (l ++ '\n' :: t).drop n = l.drop n ++ '\n' :: t :=
  List.drop_append_of_le_length h

end Runs

/-- A form that either fits no continuation of a line or takes the same part of
    it, short of the line break, in all of them. -/
def OnLine (form? : List Char → Option (Escape × List Char)) : Prop :=
  ∀ l : List Char, '\n' ∉ l →
    (∀ t, form? (l ++ '\n' :: t) = none) ∨
      ∃ e rest, rest.length < l.length ∧ '\n' ∉ rest ∧
        ∀ t, form? (l ++ '\n' :: t) = some (e, rest ++ '\n' :: t)

/-- One form or the other, both of which stay on the line. -/
theorem OnLine.or {f? g? : List Char → Option (Escape × List Char)} (hf : OnLine f?)
    (hg : OnLine g?) : OnLine fun cs => (f? cs).or (g? cs) := by
  intro l hl
  rcases hf l hl with hnone | ⟨e, rest, hlength, hrest, hsome⟩
  -- The second reader is asked only where the first finds nothing.
  · rcases hg l hl with hnone' | ⟨e, rest, hlength, hrest, hsome⟩
    · left
      intro t
      dsimp only
      rw [hnone, hnone']
      rfl
    · right
      refine ⟨e, rest, hlength, hrest, fun t => ?_⟩
      dsimp only
      rw [hnone, hsome]
      rfl
  · right
    refine ⟨e, rest, hlength, hrest, fun t => ?_⟩
    dsimp only
    rw [hsome]
    rfl

theorem not_mem_drop {l : List Char} (h : '\n' ∉ l) (n : Nat) : '\n' ∉ l.drop n :=
  fun hmem => h (List.mem_of_mem_drop hmem)

/-- What stays of a line after a run of digits, which is not empty. -/
theorem drop_length_lt {run l : List Char} (hrun : run.isEmpty = false)
    (hle : run.length ≤ l.length) :
    (l.drop run.length).length < l.length := by
  have hpos : 0 < run.length := by
    cases run with
    | nil => exact absurd hrun (by decide)
    | cons c run => exact Nat.succ_pos _
  rw [List.length_drop]
  omega

/-- Octal digits are no line breaks. -/
theorem onLine_octal? : OnLine octal? := by
  intro l hl
  -- No digit is a line break, so the run is the same whatever comes after the line.
  have hle := digitRun_length_le isOctal 3 l
  cases hrun : (digitRun isOctal 3 l).isEmpty with
  | true =>
    left
    intro t
    simp [octal?, digitRun_line (show isOctal '\n' = false by decide), hrun]
  | false =>
    right
    refine ⟨.octet (valueIn 8 (digitRun isOctal 3 l) % 256), l.drop (digitRun isOctal 3 l).length,
      drop_length_lt hrun hle, not_mem_drop hl _, fun t => ?_⟩
    simp only [octal?, digitRun_line (show isOctal '\n' = false by decide), hrun, drop_line hle]
    rfl

/-- A form that a letter introduces needs the letter on its line. -/
theorem onLine_cons {form? : List Char → Option (Escape × List Char)}
    (hnil : ∀ t, form? ('\n' :: t) = none)
    (hcons : ∀ c l, '\n' ∉ l → (∀ t, form? (c :: l ++ '\n' :: t) = none) ∨
      ∃ e rest, rest.length < l.length + 1 ∧ '\n' ∉ rest ∧
        ∀ t, form? (c :: l ++ '\n' :: t) = some (e, rest ++ '\n' :: t)) :
    OnLine form? := by
  intro l hl
  cases l with
  | nil => exact .inl hnil
  | cons c l => exact hcons c l fun hmem => hl (List.mem_cons_of_mem _ hmem)

/-- Hexadecimal digits are no line breaks. -/
theorem onLine_hexadecimal? : OnLine hexadecimal? := by
  refine onLine_cons (fun t => rfl) fun c l hl => ?_
  by_cases hc : c = 'x'
  · subst hc
    have hle := digitRun_length_le isHex 2 l
    -- There are two digits at most, all of them on the line, or there is no escape.
    cases hrun : (digitRun isHex 2 l).isEmpty with
    | true =>
      left
      intro t
      simp [hexadecimal?, digitRun_line (show isHex '\n' = false by decide), hrun]
    | false =>
      right
      refine ⟨.octet (valueIn 16 (digitRun isHex 2 l)), l.drop (digitRun isHex 2 l).length,
        Nat.lt_succ_of_lt (drop_length_lt hrun hle), not_mem_drop hl _, fun t => ?_⟩
      simp only [hexadecimal?, List.cons_append, digitRun_line (show isHex '\n' = false by decide),
        hrun, drop_line hle]
      rfl
  · left
    intro t
    rw [List.cons_append, hexadecimal?]
    rintro cs heq
    exact hc (List.cons.inj heq).1

/-- The digits of a code point are no line breaks. -/
theorem onLine_point? : OnLine point? := by
  refine onLine_cons (fun t => rfl) fun c l hl => ?_
  -- The four digits are on the line, or there is no escape.
  by_cases hc : c = 'u'
  · subst hc
    have hle := digitRun_length_le isHex 4 l
    by_cases hrun : (digitRun isHex 4 l).length = 4
    · right
      refine ⟨.points [valueIn 16 (digitRun isHex 4 l)], l.drop 4, ?_, not_mem_drop hl _,
        fun t => ?_⟩
      · rw [List.length_drop]
        omega
      · simp only [point?, List.cons_append, digitRun_line (show isHex '\n' = false by decide),
          hrun, drop_line (show 4 ≤ l.length by omega)]
        rfl
    · left
      intro t
      simp [point?, digitRun_line (show isHex '\n' = false by decide), hrun]
  · left
    intro t
    rw [List.cons_append, point?]
    rintro cs heq
    exact hc (List.cons.inj heq).1

/-- Braces with a line break between them are no code points. -/
theorem onLine_points? : OnLine points? := by
  refine onLine_cons (fun t => rfl) fun c l hl => ?_
  cases l with
  | nil =>
    -- The letter is the last on its line, so that no brace follows it.
    left
    intro t
    rw [List.cons_append, points?]
    rintro cs heq
    exact absurd (List.cons.inj (List.cons.inj heq).2).1 (by decide)
  | cons d l =>
    by_cases hmark : c = 'u' ∧ d = '\x7b'
    · obtain ⟨rfl, rfl⟩ := hmark
      -- What is inside the braces ends on the line, since a line break is neither a
      -- digit nor a spacer.
      have hinner (t : List Char) : (l ++ '\n' :: t).takeWhile (fun c => isHex c || isSpacer c) =
          l.takeWhile fun c => isHex c || isSpacer c := takeWhile_line (by decide) l t
      have hle : (l.takeWhile fun c => isHex c || isSpacer c).length ≤ l.length :=
        (List.takeWhile_sublist _).length_le
      simp only [List.cons_append, points?, hinner, drop_line hle]
      have hrest : '\n' ∉ l.drop (l.takeWhile fun c => isHex c || isSpacer c).length :=
        not_mem_drop (fun hmem => hl (List.mem_cons_of_mem _ hmem)) _
      have hlength :
          (l.drop (l.takeWhile fun c => isHex c || isSpacer c).length).length ≤ l.length :=
        (List.drop_sublist _ l).length_le
      cases hdrop : l.drop (l.takeWhile fun c => isHex c || isSpacer c).length with
      | nil =>
        left
        intro t
        rfl
      | cons d rest =>
        rw [hdrop] at hrest hlength
        by_cases hd : d = '\x7d'
        · subst hd
          by_cases hws : (!(words (l.takeWhile fun c => isHex c || isSpacer c)).isEmpty &&
              (words (l.takeWhile fun c => isHex c || isSpacer c)).all (·.length ≤ 6)) = true
          · right
            refine ⟨_, rest, ?_, ?_, fun t => if_pos hws⟩
            · simp only [List.length_cons] at hlength ⊢
              omega
            · exact fun hmem => hrest (List.mem_cons_of_mem _ hmem)
          · left
            intro t
            exact if_neg hws
        · left
          intro t
          simp [hd]
    · left
      intro t
      rw [List.cons_append, List.cons_append, points?]
      rintro cs heq
      injection heq with hc hrest
      injection hrest with hd
      exact hmark ⟨hc, hd⟩

/-- A spelling without a line break is found on a line or nowhere. -/
theorem isPrefixOf_line {mark : List Char} (hmark : '\n' ∉ mark) (l t : List Char) :
    mark.isPrefixOf (l ++ '\n' :: t) = mark.isPrefixOf l := by
  induction mark generalizing l with
  | nil => simp
  | cons m mark ih =>
    have hm : m ≠ '\n' := fun h => hmark (h ▸ List.mem_cons_self)
    cases l with
    | nil => simp [List.isPrefixOf, hm]
    | cons c l =>
      simp only [List.cons_append, List.isPrefixOf]
      rw [ih (fun h => hmark (List.mem_cons_of_mem _ h))]

/-- A mark and the character behind it, which may not be a line break. -/
theorem onLine_afterMark? {mark : List Char} (hmark : '\n' ∉ mark) (hpos : 0 < mark.length)
    (change : Nat → Nat) :
    OnLine fun cs => (afterMark? mark cs).map fun (c, rest) =>
      (.octet (change (c.toNat % 256)), rest) := by
  intro l hl
  unfold afterMark?
  simp only [isPrefixOf_line hmark]
  cases hp : mark.isPrefixOf l with
  | false =>
    left
    intro t
    rfl
  | true =>
    have hle : mark.length ≤ l.length := (List.isPrefixOf_iff_prefix.1 hp).length_le
    simp only [drop_line hle]
    have hrest := not_mem_drop hl mark.length
    have hlength : (l.drop mark.length).length < l.length := by
      rw [List.length_drop]
      omega
    -- The character that is modified may not be the line break.
    cases hdrop : l.drop mark.length with
    | nil =>
      left
      intro t
      rfl
    | cons c rest =>
      rw [hdrop] at hrest hlength
      right
      refine ⟨.octet (change (c.toNat % 256)), rest, ?_, ?_, fun t => ?_⟩
      · rw [List.length_cons] at hlength
        omega
      · exact fun hmem => hrest (List.mem_cons_of_mem _ hmem)
      · have hc : c ≠ '\n' := fun h => hrest (h ▸ List.mem_cons_self)
        simp [hc]

/-- The first mark that is there decides. -/
theorem onLine_findSome? (marks : List (List Char × (Nat → Nat)))
    (hmarks : ∀ m ∈ marks, '\n' ∉ m.1 ∧ 0 < m.1.length) :
    OnLine fun cs => marks.findSome? fun (mark, change) =>
      (afterMark? mark cs).map fun (c, rest) => (.octet (change (c.toNat % 256)), rest) := by
  induction marks with
  | nil => exact fun l _ => .inl fun t => rfl
  | cons m marks ih =>
    have hm := hmarks m List.mem_cons_self
    have hor := (onLine_afterMark? hm.1 hm.2 m.2).or
      (ih fun m' hm' => hmarks m' (List.mem_cons_of_mem _ hm'))
    -- Looking for the first mark that fits is a chain of two alternatives each.
    simp only [List.findSome?_cons]
    refine cast (congrArg OnLine (funext fun cs => ?_)) hor
    cases (afterMark? m.1 cs) <;> rfl

/-- A control or meta character. -/
theorem onLine_modified? : OnLine modified? :=
  onLine_findSome? modifiers (by decide)

/-- One character stands for itself or for another, whatever follows. -/
theorem single?_cons (c : Char) : ∃ e, ∀ cs, single? (c :: cs) = some (e, cs) := by
  cases hletter : letters.lookup c with
  | some b => exact ⟨.octet b, fun cs => by rw [single?, hletter]⟩
  | none => exact ⟨.char c, fun cs => by rw [single?, hletter]⟩

/-- The forms that have no line break in them. -/
def lineForm? (cs : List Char) : Option (Escape × List Char) :=
  (octal? cs).or <| (hexadecimal? cs).or <| (point? cs).or <| (points? cs).or <| modified? cs

/-- All forms of more than one character. -/
theorem onLine_lineForm? : OnLine lineForm? :=
  onLine_octal?.or <| onLine_hexadecimal?.or <| onLine_point?.or <| onLine_points?.or
    onLine_modified?

/-- What no form takes is a single character. -/
theorem read?_eq (cs : List Char) : read? cs = (lineForm? cs).or (single? cs) := by
  simp only [read?, lineForm?, Option.or_assoc]

theorem read?_newline (t : List Char) : read? ('\n' :: t) = some (.char '\n', t) := by
  have hforms := onLine_lineForm? [] (by simp)
  rw [read?_eq]
  rcases hforms with hnone | ⟨e, rest, hlength, -⟩
  · have hline : lineForm? ('\n' :: t) = none := hnone t
    rw [hline]
    rfl
  · exact absurd hlength (by simp)

/-- On a line that has a character left, an escape takes some of the line and
    leaves the line break. -/
theorem read?_on_line {l : List Char} (hl : '\n' ∉ l) (hne : l ≠ []) :
    ∃ e rest, rest.length < l.length ∧ '\n' ∉ rest ∧
      ∀ t, read? (l ++ '\n' :: t) = some (e, rest ++ '\n' :: t) := by
  simp only [read?_eq]
  rcases onLine_lineForm? l hl with hnone | ⟨e, rest, hlength, hrest, hsome⟩
  · -- A single character always fits, and there is one before the line break.
    cases l with
    | nil => exact absurd rfl hne
    | cons c l =>
      obtain ⟨e, hsingle⟩ := single?_cons c
      refine ⟨e, l, Nat.lt_succ_self _, fun h => hl (List.mem_cons_of_mem _ h), fun t => ?_⟩
      rw [hnone t]
      exact hsingle _
  · refine ⟨e, rest, hlength, hrest, fun t => ?_⟩
    rw [hsome t]
    rfl

section Progress

/-- A form that takes at least one character where it fits. -/
def Takes (form? : List Char → Option (Escape × List Char)) : Prop :=
  ∀ {cs : List Char} {e : Escape} {rest : List Char},
    form? cs = some (e, rest) → rest.length < cs.length

/-- One form or the other, both of which take something. -/
theorem Takes.or {f? g? : List Char → Option (Escape × List Char)} (hf : Takes f?)
    (hg : Takes g?) : Takes fun cs => (f? cs).or (g? cs) := by
  intro cs e rest h
  rcases Option.or_eq_some_iff.1 h with h | ⟨-, h⟩
  · exact hf h
  · exact hg h

/-- An octal escape takes a digit at least. -/
theorem takes_octal? : Takes octal? := by
  intro cs e rest h
  unfold octal? at h
  cases hrun : (digitRun isOctal 3 cs).isEmpty with
  | true => simp [hrun] at h
  | false =>
    obtain ⟨-, rfl⟩ : _ ∧ cs.drop (digitRun isOctal 3 cs).length = rest := by simpa [hrun] using h
    exact drop_length_lt hrun (digitRun_length_le isOctal 3 cs)

/-- A hexadecimal escape takes its mark. -/
theorem takes_hexadecimal? : Takes hexadecimal? := by
  intro cs e rest h
  unfold hexadecimal? at h
  split at h
  · dsimp only at h
    split at h
    · cases h
    · cases h
      rw [List.length_drop, List.length_cons]
      omega
  · cases h

/-- A code point takes its mark and four digits. -/
theorem takes_point? : Takes point? := by
  intro cs e rest h
  unfold point? at h
  split at h
  · dsimp only at h
    split at h
    · cases h
      rw [List.length_drop, List.length_cons]
      omega
    · cases h
  · cases h

/-- Code points take their braces. -/
theorem takes_points? : Takes points? := by
  intro cs e rest h
  unfold points? at h
  split at h
  · rename_i l
    dsimp only at h
    -- What is dropped are the digits and blanks inside the braces; the closing brace comes on top.
    have hlength :=
      (List.drop_sublist (l.takeWhile fun c => isHex c || isSpacer c).length l).length_le
    split at h
    · rename_i rest' hdrop
      rw [hdrop, List.length_cons] at hlength
      split at h
      · cases h
        simp only [List.length_cons]
        omega
      · cases h
    · cases h
  · cases h

/-- A control or meta character takes its mark. -/
theorem takes_modified? : Takes modified? := by
  intro cs e rest h
  obtain ⟨⟨mark, change⟩, -, h⟩ := List.exists_of_findSome?_eq_some h
  obtain ⟨⟨c, rest'⟩, hafter, heq⟩ := Option.map_eq_some_iff.1 h
  unfold afterMark? at hafter
  -- The mark is cut off first, and the character behind it makes the rest shorter.
  have hlength := (List.drop_sublist mark.length cs).length_le
  split at hafter
  · split at hafter
    · rename_i d ds hdrop
      rw [hdrop, List.length_cons] at hlength
      split at hafter
      · cases hafter
      · cases hafter
        cases heq
        omega
    · cases hafter
  · cases hafter

/-- A single character is taken. -/
theorem takes_single? : Takes single? := by
  intro cs e rest h
  cases cs with
  | nil => cases h
  | cons c cs =>
    obtain ⟨e', hsingle⟩ := single?_cons c
    rw [hsingle] at h
    cases h
    exact Nat.lt_succ_self _

/-- Every escape takes a character at least. -/
theorem read?_length_lt : Takes read? :=
  takes_octal?.or <| takes_hexadecimal?.or <| takes_point?.or <| takes_points?.or <|
    takes_modified?.or takes_single?

end Progress

end Escape

/-- Any bound that is not below the length of the text gives the same octets. -/
theorem unescapeFrom_eq {cs : List Char} : ∀ {m n : Nat}, cs.length ≤ m → cs.length ≤ n →
    unescapeFrom m cs = unescapeFrom n cs := by
  intro m
  induction m generalizing cs with
  | zero =>
    intro n hm hn
    obtain rfl := List.length_eq_zero_iff.1 (Nat.le_zero.1 hm)
    cases n <;> rfl
  | succ m ih =>
    intro n hm hn
    cases cs with
    | nil => cases n <;> rfl
    | cons c cs =>
      rw [List.length_cons] at hm hn
      cases n with
      | zero => omega
      | succ n =>
        by_cases hc : c = '\\'
        · subst hc
          rw [unescapeFrom, unescapeFrom, ih (by omega) (show cs.length ≤ n by omega)]
          cases hread : Escape.read? cs with
          | none => rfl
          | some found =>
            -- An escape takes at least one character, so the bound goes down.
            have hlt := Escape.read?_length_lt hread
            dsimp only
            rw [ih (by omega) (show found.2.length ≤ n by omega)]
        · rw [unescapeFrom, unescapeFrom, ih (by omega) (show cs.length ≤ n by omega)]
          · exact hc
          · exact hc

/-- A character that starts no escape stands for itself. -/
theorem unescapeOctets_cons {c : Char} (hc : c ≠ '\\') (cs : List Char) :
    unescapeOctets (c :: cs) = do return Text.Utf8.encodeChar c ++ (← unescapeOctets cs) := by
  unfold unescapeOctets
  rw [List.length_cons, unescapeFrom]
  exact hc

/-- An escape is read and then decoded. -/
theorem unescapeOctets_escape {cs rest : List Char} {e : Escape}
    (h : Escape.read? cs = some (e, rest)) :
    unescapeOctets ('\\' :: cs) = do return (← e.octets) ++ (← unescapeOctets rest) := by
  have hlt := Escape.read?_length_lt h
  unfold unescapeOctets
  rw [List.length_cons, unescapeFrom, h]
  dsimp only
  rw [unescapeFrom_eq (show rest.length ≤ cs.length by omega) (Nat.le_refl rest.length)]

/-- The octets of a line, up to its line break, are the same whatever follows. -/
theorem unescapeOctets_line {l : List Char} (hl : '\n' ∉ l) :
    ∃ line : Except Error (List UInt8), ∀ t, unescapeOctets (l ++ '\n' :: t) = do
      return (← line) ++ 0x0A :: (← unescapeOctets t) := by
  induction hlen : l.length using Nat.strongRecOn generalizing l with
  | ind n ih =>
    cases l with
    | nil =>
      refine ⟨.ok [], fun t => ?_⟩
      rw [List.nil_append, unescapeOctets_cons (by decide)]
      rfl
    | cons c l =>
      have hl' : '\n' ∉ l := fun hmem => hl (List.mem_cons_of_mem _ hmem)
      by_cases hc : c = '\\'
      · subst hc
        by_cases hnil : l = []
        -- A backslash at the end of a line escapes the line break itself, which
        -- stays the octet it is.
        · subst hnil
          refine ⟨.ok [], fun t => ?_⟩
          rw [List.cons_append, List.nil_append, unescapeOctets_escape (Escape.read?_newline t)]
          rfl
        · obtain ⟨e, rest, hlt, hrest, hread⟩ := Escape.read?_on_line hl' hnil
          obtain ⟨line, hline⟩ := ih rest.length (by rw [List.length_cons] at hlen; omega) hrest rfl
          refine ⟨do return (← e.octets) ++ (← line), fun t => ?_⟩
          rw [List.cons_append, unescapeOctets_escape (hread t), hline t]
          simp only [bind_assoc, pure_bind, List.append_assoc]
      · obtain ⟨line, hline⟩ := ih l.length (by rw [List.length_cons] at hlen; omega) hl' rfl
        refine ⟨do return Text.Utf8.encodeChar c ++ (← line), fun t => ?_⟩
        rw [List.cons_append, unescapeOctets_cons hc, hline t]
        simp only [bind_assoc, pure_bind, List.append_assoc]

end RubyTree
