import RubyTree.Literal.Content
import RubyTree.Proofs.Literal.EscapeOnLine

/-!
# Decoding Line by Line

Content is cut into lines before it is decoded, yet what a literal denotes is its
whole text decoded. The two agree: on the text, and on whether there is one. What
may differ is the error, since a line that is not UTF-8 is reported by itself.

Three things have to stay within a line. An escape does, by the module before. A
backslash that protects a character is not in front of a line break, unless the
content is a word, and words are not cut. And the octets of a character do: a line
break is an octet that no longer character contains, so the decoder is between
characters after each.

Errors do not matter here, so results are compared as options.

## Main definitions

* `prepared`: Content as it is decoded, with its continued lines joined.
* `ByLines`: A way to decode that lines can be put through one by one.

## Theorems

* `Utf8.decode_line`: Octets are decoded line by line.
* `byLines_decode`: Content other than words is decoded line by line.
* `decode_contentPieces`: The pieces of a content token denote its text.
-/

namespace RubyTree

namespace Text

namespace Utf8

/-- The decoder inside a character waits for an octet past the first 128. -/
def Pending.Due : Pending → Prop
  | idle => True
  | inside _ lo _ _ => 0x80 ≤ lo

theorem lead?_due {b : Nat} {cs : List Char} {st : Pending} (h : lead? b = some (cs, st)) :
    st.Due := by
  unfold lead? at h
  split at h
  · cases h
    trivial
  · split at h
    · cases h
    · split at h
      · cases h
        exact Nat.le_refl _
      · split at h
        · cases h
          -- Where a character could be written with fewer octets, the next one has to be larger.
          show 0x80 ≤ if _ then _ else _
          split <;> omega
        · split at h
          · cases h
            show 0x80 ≤ if _ then _ else _
            split <;> omega
          · cases h

theorem step?_due {st next : Pending} {b : UInt8} {cs : List Char}
    (h : step? st b = some (cs, next)) : next.Due := by
  cases st with
  | idle => exact lead?_due h
  | inside more lo hi value =>
    rw [step?] at h
    split at h
    · -- After the last byte nothing is due; before it the next byte is a continuation.
      cases more with
      | zero =>
        cases h
        trivial
      | succ more =>
        cases h
        exact Nat.le_refl _
    · cases h

/-- A line break ends a line of characters, or the octets are broken. -/
theorem step?_newline {st : Pending} (h : st.Due) :
    step? st 0x0A = some (['\n'], .idle) ∨ step? st 0x0A = none := by
  cases st with
  | idle => exact .inl (by decide)
  | inside more lo hi value =>
    -- The line break is below every octet that may continue a character.
    right
    have hlo : ¬(lo ≤ (0x0A : UInt8).toNat ∧ (0x0A : UInt8).toNat ≤ hi) := by
      rintro ⟨hle, -⟩
      have hdue : 0x80 ≤ lo := h
      exact absurd (Nat.le_trans hdue hle) (by decide)
    exact if_neg hlo

theorem decodeFrom_line {st : Pending} (h : st.Due) (bs cs : List UInt8) :
    decodeFrom st (bs ++ 0x0A :: cs) =
      (decodeFrom st (bs ++ [0x0A])).bind fun a => (decode cs).map (a ++ ·) := by
  -- The induction is on the octets before the line break, with the state of the
  -- decoder free to change.
  induction bs generalizing st with
  | nil =>
    simp only [List.nil_append, decodeFrom]
    rcases step?_newline h with hstep | hstep
    · rw [hstep]
      cases hcs : decodeFrom .idle cs <;> simp [decode, decodeFrom, hcs]
    · rw [hstep]
      rfl
  | cons b bs ih =>
    simp only [List.cons_append, decodeFrom]
    cases hstep : step? st b with
    | none => rfl
    | some found =>
      obtain ⟨ds, next⟩ := found
      simp only [Option.bind_eq_bind, Option.bind_some]
      rw [ih (step?_due hstep)]
      cases decodeFrom next (bs ++ [0x0A]) with
      | none => rfl
      | some a => cases decode cs <;> simp

theorem decode_line (bs cs : List UInt8) :
    decode (bs ++ 0x0A :: cs) = (decode (bs ++ [0x0A])).bind fun a => (decode cs).map (a ++ ·) :=
  decodeFrom_line (show Pending.Due .idle from trivial) bs cs

end Utf8

end Text

/-- A way to decode that gives the same text for a line and what follows it as
    for the two apart, and fails for both or for neither. -/
structure ByLines (f : List Char → Except Error (List Char)) : Prop where
  nil : f [] = .ok []
  line : ∀ {l : List Char}, '\n' ∉ l → ∀ t, (f (l ++ '\n' :: t)).toOption =
    (f (l ++ ['\n'])).toOption.bind fun a => (f t).toOption.map (a ++ ·)

theorem unescape_toOption (cs : List Char) :
    (unescape cs).toOption = (unescapeOctets cs).toOption.bind Text.Utf8.decode := by
  unfold unescape
  cases unescapeOctets cs with
  | error e => rfl
  | ok bs =>
    dsimp only [bind, Except.bind, Except.toOption, Option.bind]
    cases Text.Utf8.decode bs <;> rfl

theorem byLines_unescape : ByLines unescape where
  nil := rfl
  line := by
    intro l hl t
    obtain ⟨line, hline⟩ := unescapeOctets_line hl
    simp only [unescape_toOption, hline]
    cases line with
    | error e => rfl
    | ok a =>
      have hnil : unescapeOctets [] = .ok [] := rfl
      rw [hnil]
      -- The bytes of the line are decoded by themselves, for a line break is one byte.
      cases unescapeOctets t with
      | error e =>
        show none = (Text.Utf8.decode (a ++ [0x0A])).bind fun _ => none
        cases Text.Utf8.decode (a ++ [0x0A]) <;> rfl
      | ok b => exact Text.Utf8.decode_line a b

theorem unescapeSimple_line {special : List Char} (hspecial : '\n' ∉ special) {l : List Char}
    (hl : '\n' ∉ l) (t : List Char) :
    unescapeSimple special (l ++ '\n' :: t) =
      unescapeSimple special (l ++ ['\n']) ++ unescapeSimple special t := by
  have hstart (cs : List Char) : unescapeSimple special ('\n' :: cs) =
      '\n' :: unescapeSimple special cs := by
    cases cs with
    | nil => rfl
    | cons d cs => rw [unescapeSimple, if_neg (by decide)]
  induction hlen : l.length using Nat.strongRecOn generalizing l with
  | ind n ih =>
    cases l with
    | nil => exact hstart t
    | cons c l =>
      have hl' : '\n' ∉ l := fun h => hl (List.mem_cons_of_mem _ h)
      have hnext := ih l.length (by rw [List.length_cons] at hlen; omega) hl' rfl
      cases l with
      | nil =>
        -- A backslash right before the line break protects nothing.
        have hnew : ¬('\n' = '\\' ∨ special.contains '\n') := by simp [hspecial]
        have hpair (cs : List Char) : unescapeSimple special (c :: '\n' :: cs) =
            c :: unescapeSimple special ('\n' :: cs) := by
          rw [unescapeSimple, if_neg hnew, ite_self]
        show unescapeSimple special (c :: '\n' :: t) = unescapeSimple special [c, '\n'] ++ _
        rw [hpair, hpair, List.cons_append]
        exact congrArg (c :: ·) hnext
      | cons d l =>
        have hl'' : '\n' ∉ l := fun h => hl' (List.mem_cons_of_mem _ h)
        have hafter := ih l.length (by simp only [List.length_cons] at hlen; omega) hl'' rfl
        simp only [List.cons_append] at hnext ⊢
        rw [unescapeSimple, unescapeSimple, hnext, hafter]
        split
        · split <;> rfl
        · rfl

theorem newline_not_mem_brackets {c : Char} (hc : c ≠ '\n') : '\n' ∉ brackets c := by
  unfold brackets
  split
  · decide
  · split
    · decide
    · split
      · decide
      · split
        · decide
        · simpa using hc.symm

theorem ofHeredoc_ne_simple (rest : List Char) : Style.ofHeredoc rest ≠ .simple := by
  unfold Style.ofHeredoc
  split <;> decide

/-- A delimiter whose content is read with only the delimiter protected does not
    end in a line break. -/
theorem getLast?_ne_newline {d : List Char} (h : Style.ofChars d = .simple) :
    ∀ c ∈ d.getLast?, c ≠ '\n' := by
  intro c hc
  unfold Style.ofChars at h
  split at h
  · exact absurd h (ofHeredoc_ne_simple _)
  all_goals try cases h
  · cases hc
    decide
  · cases hc
    decide
  · split at h <;> cases h
  · rename_i letter c'
    obtain rfl : c' = c := by simpa using hc
    split at h
    · cases h
    · assumption

theorem byLines_ok {f : List Char → List Char} (hnil : f [] = [])
    (hline : ∀ {l : List Char}, '\n' ∉ l → ∀ t, f (l ++ '\n' :: t) = f (l ++ ['\n']) ++ f t) :
    ByLines fun cs => .ok (f cs) where
  nil := congrArg Except.ok hnil
  line := by
    intro l hl t
    rw [hline hl t]
    rfl

theorem byLines_id : ByLines fun cs => .ok cs :=
  byLines_ok (f := id) rfl fun _ t => by simp

theorem byLines_simple {d : List Char} (h : Style.ofChars d = .simple) :
    ByLines fun cs => .ok ((unescapeDelimiter? d cs).getD cs) := by
  unfold unescapeDelimiter?
  cases hlast : d.getLast? with
  | none => exact byLines_id
  | some c =>
    have hspecial := newline_not_mem_brackets (getLast?_ne_newline h c hlast)
    exact byLines_ok (f := unescapeSimple (brackets c)) rfl fun hl t =>
      unescapeSimple_line hspecial hl t

/-- Content that is no word is decoded line by line. -/
theorem byLines_decode {delimiter : Option String}
    (h : (Style.ofDelimiter delimiter).isWords = false) : ByLines (decodeContent delimiter) := by
  unfold decodeContent
  cases hstyle : Style.ofDelimiter delimiter with
  | verbatim => exact byLines_id
  | regexp => exact byLines_id
  | escaped => exact byLines_unescape
  | escapedWords | simpleWords => rw [hstyle] at h; exact absurd h (by decide)
  | simple =>
    cases delimiter with
    | none => cases hstyle
    | some d => exact byLines_simple hstyle

theorem splitLines_line {l : List Char} (hl : '\n' ∉ l) (t : List Char) :
    splitLines (l ++ '\n' :: t) = (l ++ ['\n']) :: splitLines t := by
  induction l with
  | nil => rfl
  | cons c l ih =>
    have hc : c ≠ '\n' := fun h => hl (h ▸ List.mem_cons_self)
    rw [List.cons_append, splitLines, if_neg hc, ih fun h => hl (List.mem_cons_of_mem _ h)]
    rfl

theorem splitLines_last {l : List Char} (hl : '\n' ∉ l) (hne : l ≠ []) : splitLines l = [l] := by
  induction l with
  | nil => exact absurd rfl hne
  | cons c l ih =>
    have hc : c ≠ '\n' := fun h => hl (h ▸ List.mem_cons_self)
    rw [splitLines, if_neg hc]
    cases l with
    | nil => rfl
    | cons d l => rw [ih (fun h => hl (List.mem_cons_of_mem _ h)) (by simp)]

/-- Lines decoded one by one denote the text they are the lines of. -/
theorem ByLines.mapM_splitLines {f : List Char → Except Error (List Char)} (hf : ByLines f)
    (cs : List Char) :
    ((splitLines cs).mapM f).toOption.map List.flatten = (f cs).toOption := by
  -- The text is cut at its first line break, and the induction is on the length of
  -- what follows.
  induction hlen : cs.length using Nat.strongRecOn generalizing cs with
  | ind n ih =>
    by_cases hmem : '\n' ∈ cs
    · obtain ⟨l, t, rfl, hl⟩ := List.eq_append_cons_of_mem hmem
      have hrest := ih t.length (by simp at hlen; omega) t rfl
      rw [splitLines_line hl, hf.line hl t, ← hrest, List.mapM_cons]
      cases f (l ++ ['\n']) with
      | error e => rfl
      | ok a => cases (splitLines t).mapM f <;> rfl
    · by_cases hnil : cs = []
      · subst hnil
        rw [hf.nil]
        rfl
      · rw [splitLines_last hmem hnil, List.mapM_cons, List.mapM_nil]
        cases f cs with
        | error e => rfl
        | ok a =>
          show some ([a].flatten) = some a
          simp

/-- Content as it is decoded, with continued lines joined where they are. -/
def prepared (delimiter : Option String) (cs : List Char) : List Char :=
  if (Style.ofDelimiter delimiter).joinsLines then joinContinued cs else cs

/-- The pieces of a content token, decoded one by one, denote what the whole
    token does. -/
theorem decode_contentPieces (delimiter : Option String) (cs : List Char) :
    ((contentPieces delimiter cs).mapM (decodeContent delimiter)).toOption.map List.flatten =
      (decodeContent delimiter (prepared delimiter cs)).toOption := by
  show (((if (Style.ofDelimiter delimiter).isWords || !(prepared delimiter cs).contains '\n'
    then [prepared delimiter cs] else splitLines (prepared delimiter cs)).mapM
      (decodeContent delimiter)).toOption.map List.flatten) = _
  split
  · rw [List.mapM_cons, List.mapM_nil]
    cases decodeContent delimiter (prepared delimiter cs) with
    | error e => rfl
    | ok a =>
      show some ([a].flatten) = some a
      simp
  · rename_i hcut
    -- Words are never cut, so what is cut is decoded line by line.
    have hwords : (Style.ofDelimiter delimiter).isWords = false := by
      simp only [Bool.or_eq_true, not_or, Bool.not_eq_true] at hcut
      exact hcut.1
    exact (byLines_decode hwords).mapM_splitLines _

end RubyTree
