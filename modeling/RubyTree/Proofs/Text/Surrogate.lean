import RubyTree.Proofs.Text.Utf8
import RubyTree.Text.Surrogate

/-!
# Characters Among Code Points

A text is made of characters, or given by code points that may be halves of characters.
The code points of characters are shown as these characters, and a number that is none
is shown as one of two: as the replacement if it is half of a character, and as the first
character of all if it is past the last code point. So whether any other character stands
somewhere can be asked of the code points or of what they are shown as.

## Theorems

* `isSurrogate_toNat`: No character is half of one.
* `shownPoints_map_toNat`: The code points of a text are shown as this text.
* `shownPoint_eq_iff`: Which code point is shown as a character.
-/

namespace RubyTree

namespace Text

/-- No character is half of one. -/
theorem isSurrogate_toNat (c : Char) : isSurrogate c.toNat = false := by
  have hvalid := Utf8.toNat_range c
  simp only [isSurrogate, Bool.and_eq_false_iff, decide_eq_false_iff_not]
  omega

@[simp] theorem shownPoint_toNat (c : Char) : shownPoint c.toNat = c := by
  simp [shownPoint, isSurrogate_toNat]

theorem shownPoints_map_toNat (cs : List Char) :
    shownPoints (cs.map Char.toNat) = String.ofList cs := by
  simp [shownPoints, Function.comp_def]

/-- A code point is shown as its own character, unless it has none. -/
theorem shownPoint_eq_iff {c : Char} (hfirst : c ≠ '\x00') (hreplacement : c ≠ Utf8.replacement)
    {n : Nat} : shownPoint n = c ↔ n = c.toNat := by
  constructor
  · intro h
    unfold shownPoint at h
    split at h
    · exact absurd h.symm hreplacement
    · by_cases hvalid : n.isValidChar
      · rw [← Utf8.toNat_ofNat hvalid, h]
      · -- A number that is no character is shown as the first one.
        rw [Char.ofNat, dif_neg hvalid] at h
        exact absurd h.symm hfirst
  · rintro rfl
    exact shownPoint_toNat c

end Text

end RubyTree
