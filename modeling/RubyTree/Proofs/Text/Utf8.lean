import RubyTree.Text.Utf8

/-!
# UTF-8 Both Ways

Decoding and encoding are inverse: the octets of a text are read back as that
text, and octets that are read as a text are the octets of it. So a sequence of
octets is refused exactly if it encodes nothing, and the narrowed ranges after
some leads refuse no more and no less than they have to.

Octets are read in groups, one for each character, and each group is settled by
how many continuations its lead is owed. Both directions go through the same two
equivalences, which say what a decoder inside a character accepts: one for the
last continuation and one for the ones before it.

## Theorems

* `decodeFrom_last_iff`, `decodeFrom_inner_iff`: What may follow inside a character.
* `decodeFrom_encodeChar`: The octets of a character are read as that character.
* `encode_of_decodeFrom`: What is read is what the octets encode.
* `decode_eq_some_iff`, `decode_eq_none_iff`: Exactly the encodings are read.
-/

namespace RubyTree

namespace Text

namespace Utf8

theorem decodeFrom_cons (st : Pending) (b : UInt8) (bs : List UInt8) :
    decodeFrom st (b :: bs) = (step? st b).bind fun found =>
      (decodeFrom found.2 bs).map (found.1 ++ ·) := by
  -- The definition looks at the state first, but goes on alike from each.
  have hstep : decodeFrom st (b :: bs) = do
      let found ← step? st b
      return found.1 ++ (← decodeFrom found.2 bs) := by
    cases st <;> rfl
  rw [hstep]
  cases step? st b with
  | none => rfl
  | some found =>
    show _ = (decodeFrom found.2 bs).map (found.1 ++ ·)
    rw [Option.map_eq_bind]
    rfl

/-- The last continuation of a character completes it. -/
theorem decodeFrom_last_iff {lo hi value : Nat} {bs : List UInt8} {cs : List Char} :
    decodeFrom (.inside 0 lo hi value) bs = some cs ↔
      ∃ b rest cs', bs = b :: rest ∧ (lo ≤ b.toNat ∧ b.toNat ≤ hi) ∧
        cs = Char.ofNat (value * 0x40 + (b.toNat - 0x80)) :: cs' ∧
        decodeFrom .idle rest = some cs' := by
  cases bs with
  | nil => simp [decodeFrom]
  | cons b rest =>
    rw [decodeFrom_cons, step?]
    by_cases hb : lo ≤ b.toNat ∧ b.toNat ≤ hi
    · simp only [if_pos hb]
      constructor
      · intro h
        obtain ⟨cs', hrest, rfl⟩ := Option.map_eq_some_iff.1 h
        exact ⟨b, rest, cs', rfl, hb, rfl, hrest⟩
      · rintro ⟨_, _, cs', heq, -, rfl, hrest⟩
        cases heq
        exact Option.map_eq_some_iff.2 ⟨cs', hrest, rfl⟩
    · -- A byte out of the range ends the decoding, against both sides.
      simp only [if_neg hb]
      constructor
      · intro h
        cases h
      · rintro ⟨_, _, _, heq, hb', -⟩
        cases heq
        exact absurd hb' hb

/-- A continuation before the last adds six bits. -/
theorem decodeFrom_inner_iff {more lo hi value : Nat} {bs : List UInt8} {cs : List Char} :
    decodeFrom (.inside (more + 1) lo hi value) bs = some cs ↔
      ∃ b rest, bs = b :: rest ∧ (lo ≤ b.toNat ∧ b.toNat ≤ hi) ∧
        decodeFrom (.inside more 0x80 0xBF (value * 0x40 + (b.toNat - 0x80))) rest = some cs := by
  cases bs with
  | nil => simp [decodeFrom]
  | cons b rest =>
    rw [decodeFrom_cons, step?]
    by_cases hb : lo ≤ b.toNat ∧ b.toNat ≤ hi
    · simp only [if_pos hb]
      constructor
      · intro h
        obtain ⟨cs', hrest, rfl⟩ := Option.map_eq_some_iff.1 h
        exact ⟨b, rest, rfl, hb, hrest⟩
      · rintro ⟨_, _, heq, -, hrest⟩
        cases heq
        exact Option.map_eq_some_iff.2 ⟨cs, hrest, rfl⟩
    · -- A byte out of the range ends the decoding, against both sides.
      simp only [if_neg hb]
      constructor
      · intro h
        cases h
      · rintro ⟨_, _, heq, hb', -⟩
        cases heq
        exact absurd hb' hb

theorem toNat_toUInt8 {n : Nat} (h : n < 0x100) : n.toUInt8.toNat = n := by
  show n % 256 = n
  omega

theorem toUInt8_eq {n : Nat} {b : UInt8} (h : n = b.toNat) : n.toUInt8 = b := by
  subst h
  simp

/-- The code point of a character is no half of a pair and not past the last. -/
theorem toNat_range (c : Char) : c.toNat < 0xD800 ∨ 0xDFFF < c.toNat ∧ c.toNat < 0x110000 := c.valid

theorem toNat_ofNat {n : Nat} (h : n < 0xD800 ∨ 0xDFFF < n ∧ n < 0x110000) :
    (Char.ofNat n).toNat = n := by
  rw [Char.ofNat, dif_pos h]
  rfl

/-- The octets of a character are read as that character, whatever follows. -/
theorem decodeFrom_encodeChar {c : Char} {bs : List UInt8} {cs : List Char}
    (h : decodeFrom .idle bs = some cs) :
    decodeFrom .idle (encodeChar c ++ bs) = some (c :: cs) := by
  have hvalid := toNat_range c
  have hback : ∀ n, n = c.toNat → c = Char.ofNat n := fun n hn => by rw [hn, Char.ofNat_toNat]
  unfold encodeChar
  -- One case for each number of continuations.
  dsimp only
  split
  · rename_i hn
    rw [List.cons_append, decodeFrom_cons, step?, toNat_toUInt8 (by omega), lead?, if_pos hn]
    exact Option.map_eq_some_iff.2 ⟨cs, h, by rw [Char.ofNat_toNat]; rfl⟩
  split
  · rw [List.cons_append, decodeFrom_cons, step?, toNat_toUInt8 (by omega), lead?,
      if_neg (by omega), if_neg (by omega), if_pos (by omega)]
    refine Option.map_eq_some_iff.2 ⟨c :: cs, decodeFrom_last_iff.2 ?_, rfl⟩
    refine ⟨_, bs, cs, rfl, ?_, ?_, h⟩
    · rw [toNat_toUInt8 (by omega)]
      omega
    · rw [toNat_toUInt8 (by omega)]
      exact congrArg (· :: cs) (hback _ (by omega))
  split
  · rw [List.cons_append, decodeFrom_cons, step?, toNat_toUInt8 (by omega), lead?,
      if_neg (by omega), if_neg (by omega), if_neg (by omega), if_pos (by omega)]
    refine Option.map_eq_some_iff.2 ⟨c :: cs, decodeFrom_inner_iff.2 ?_, rfl⟩
    refine ⟨_, _, rfl, ?_, decodeFrom_last_iff.2 ⟨_, bs, cs, rfl, ?_, ?_, h⟩⟩
    · rw [toNat_toUInt8 (by omega)]
      constructor <;> split <;> omega
    · rw [toNat_toUInt8 (by omega)]
      omega
    · rw [toNat_toUInt8 (by omega), toNat_toUInt8 (by omega)]
      exact congrArg (· :: cs) (hback _ (by omega))
  · rw [List.cons_append, decodeFrom_cons, step?, toNat_toUInt8 (by omega), lead?,
      if_neg (by omega), if_neg (by omega), if_neg (by omega), if_neg (by omega),
      if_pos (by omega)]
    refine Option.map_eq_some_iff.2 ⟨c :: cs, decodeFrom_inner_iff.2 ?_, rfl⟩
    refine ⟨_, _, rfl, ?_, decodeFrom_inner_iff.2 ⟨_, _, rfl, ?_,
      decodeFrom_last_iff.2 ⟨_, bs, cs, rfl, ?_, ?_, h⟩⟩⟩
    · rw [toNat_toUInt8 (by omega)]
      constructor <;> split <;> omega
    · rw [toNat_toUInt8 (by omega)]
      omega
    · rw [toNat_toUInt8 (by omega)]
      omega
    · rw [toNat_toUInt8 (by omega), toNat_toUInt8 (by omega), toNat_toUInt8 (by omega)]
      exact congrArg (· :: cs) (hback _ (by omega))

theorem decode_encode (cs : List Char) : decode (encode cs) = some cs := by
  induction cs with
  | nil => rfl
  | cons c cs ih => exact decodeFrom_encodeChar ih

/-- What is read is what the octets encode. -/
theorem encode_of_decodeFrom {bs : List UInt8} {cs : List Char}
    (h : decodeFrom .idle bs = some cs) : encode cs = bs := by
  -- The induction is on the number of octets, since a character takes up to four.
  induction hlen : bs.length using Nat.strongRecOn generalizing bs cs with
  | ind n ih =>
    cases bs with
    | nil =>
      cases h
      rfl
    | cons b bs =>
      have hb := b.toNat_lt
      rw [decodeFrom_cons, step?, lead?] at h
      simp only [List.length_cons] at hlen
      split at h
      · rename_i hlead
        obtain ⟨cs', hrest, rfl⟩ := Option.map_eq_some_iff.1 h
        show encodeChar _ ++ encode cs' = _
        rw [ih _ (by omega) hrest rfl, encodeChar, toNat_ofNat (by omega), if_pos hlead,
          toUInt8_eq rfl]
        rfl
      split at h
      · cases h
      split at h
      · obtain ⟨_, hlast, rfl⟩ := Option.map_eq_some_iff.1 h
        obtain ⟨b₂, rest, cs', rfl, hb₂, rfl, hrest⟩ := decodeFrom_last_iff.1 hlast
        simp only [List.length_cons] at hlen
        show encodeChar _ ++ encode cs' = _
        rw [ih _ (by omega) hrest rfl, encodeChar, toNat_ofNat (by omega)]
        rw [if_neg (by omega), if_pos (by omega), toUInt8_eq (b := b) (by omega),
          toUInt8_eq (b := b₂) (by omega)]
        rfl
      split at h
      · obtain ⟨_, hinner, rfl⟩ := Option.map_eq_some_iff.1 h
        obtain ⟨b₂, _, rfl, hb₂, hlast⟩ := decodeFrom_inner_iff.1 hinner
        obtain ⟨b₃, rest, cs', rfl, hb₃, rfl, hrest⟩ := decodeFrom_last_iff.1 hlast
        simp only [List.length_cons] at hlen
        show encodeChar _ ++ encode cs' = _
        have hlow : b.toNat = 0xE0 → 0xA0 ≤ b₂.toNat := fun hE0 => by simpa [hE0] using hb₂.1
        have hhigh : b.toNat = 0xED → b₂.toNat ≤ 0x9F := fun hED => by simpa [hED] using hb₂.2
        have hrange : 0x80 ≤ b₂.toNat ∧ b₂.toNat ≤ 0xBF := by
          refine ⟨Nat.le_trans ?_ hb₂.1, Nat.le_trans hb₂.2 ?_⟩ <;> split <;> omega
        rw [ih _ (by omega) hrest rfl, encodeChar, toNat_ofNat (by omega)]
        rw [if_neg (by omega), if_neg (by omega), if_pos (by omega),
          toUInt8_eq (b := b) (by omega), toUInt8_eq (b := b₂) (by omega),
          toUInt8_eq (b := b₃) (by omega)]
        rfl
      split at h
      · obtain ⟨_, hinner, rfl⟩ := Option.map_eq_some_iff.1 h
        obtain ⟨b₂, _, rfl, hb₂, hinner'⟩ := decodeFrom_inner_iff.1 hinner
        obtain ⟨b₃, _, rfl, hb₃, hlast⟩ := decodeFrom_inner_iff.1 hinner'
        obtain ⟨b₄, rest, cs', rfl, hb₄, rfl, hrest⟩ := decodeFrom_last_iff.1 hlast
        simp only [List.length_cons] at hlen
        show encodeChar _ ++ encode cs' = _
        have hlow : b.toNat = 0xF0 → 0x90 ≤ b₂.toNat := fun hF0 => by simpa [hF0] using hb₂.1
        have hhigh : b.toNat = 0xF4 → b₂.toNat ≤ 0x8F := fun hF4 => by simpa [hF4] using hb₂.2
        have hrange : 0x80 ≤ b₂.toNat ∧ b₂.toNat ≤ 0xBF := by
          refine ⟨Nat.le_trans ?_ hb₂.1, Nat.le_trans hb₂.2 ?_⟩ <;> split <;> omega
        rw [ih _ (by omega) hrest rfl, encodeChar, toNat_ofNat (by omega)]
        rw [if_neg (by omega), if_neg (by omega), if_neg (by omega),
          toUInt8_eq (b := b) (by omega), toUInt8_eq (b := b₂) (by omega),
          toUInt8_eq (b := b₃) (by omega), toUInt8_eq (b := b₄) (by omega)]
        rfl
      · cases h

/-- Exactly the octets of a text are read as it. -/
theorem decode_eq_some_iff {bs : List UInt8} {cs : List Char} :
    decode bs = some cs ↔ bs = encode cs :=
  ⟨fun h => (encode_of_decodeFrom h).symm, fun h => h ▸ decode_encode cs⟩

theorem decode_eq_none_iff {bs : List UInt8} : decode bs = none ↔ ∀ cs, bs ≠ encode cs := by
  simp only [Option.eq_none_iff_forall_ne_some, ne_eq, decode_eq_some_iff]

end Utf8

end Text

end RubyTree
