import Mathlib.Algebra.Ring.Parity
import Mathlib.Data.List.DropRight
import RubyTree.Proofs.Literal.Lexemes
import RubyTree.Proofs.Literal.PieceStart

/-!
# Protected Texts

A text can be written so that its characters stand for themselves. Where escapes
are read each backslash is doubled. Where only the ends of a literal are protected
a backslash goes before each of these too, and in a list of words before blanks as
well. Reading takes two characters at a time from a backslash on, so it never meets
a backslash that belongs to the character after the next.

Whether a backslash before a line break continues the line is a matter of how many
stand there: in a run of them each pairs with the next, and one is left over if
their number is odd.

## Main definitions

* `backslashesAtEnd`: How many backslashes a text ends in.
* `HasContinuedLine`: Whether a line of a text is continued.
* `guarded`: A text with a backslash before some characters.

## Theorems

* `joinContinued_of_not_hasContinuedLine`: Without continued lines nothing is joined.
* `joinContinued_doubled`: Doubled backslashes continue no line.
* `unescapeSimple_guarded`: A guarded text is read as it was.
-/

namespace RubyTree

/-- How many backslashes a text ends in. -/
def backslashesAtEnd (cs : List Char) : Nat :=
  (cs.rtakeWhile (· = '\\')).length

/-- Whether a line is continued: its line break has an odd number of backslashes
    before it. -/
def HasContinuedLine (cs : List Char) : Prop :=
  ∃ before after, cs = before ++ '\n' :: after ∧ Odd (backslashesAtEnd before)

/-- A text with a backslash before each backslash and each of some characters. -/
def guarded (special cs : List Char) : List Char :=
  cs.flatMap fun c => if c = '\\' ∨ c ∈ special then ['\\', c] else [c]

section Runs

variable {c d : Char} {cs : List Char}

theorem rtakeWhile_cons_of_all (h : ∀ c ∈ cs, c = '\\') :
    (c :: cs).rtakeWhile (· = '\\') = if c = '\\' then c :: cs else cs := by
  unfold List.rtakeWhile
  have hall : ∀ c ∈ cs.reverse, decide (c = '\\') = true := by simpa using h
  rw [List.reverse_cons, List.takeWhile_append_of_pos hall]
  by_cases hc : c = '\\' <;> simp [hc]

theorem rtakeWhile_cons_of_not_all (h : ∃ c ∈ cs, c ≠ '\\') :
    (c :: cs).rtakeWhile (· = '\\') = cs.rtakeWhile (· = '\\') := by
  unfold List.rtakeWhile
  rw [List.reverse_cons, List.takeWhile_append, if_neg]
  intro hlength
  obtain ⟨d, hd, hne⟩ := h
  have hwhole := (List.takeWhile_prefix (fun c => decide (c = '\\'))).eq_of_length hlength
  have hall := List.takeWhile_eq_self_iff.1 hwhole d (List.mem_reverse.2 hd)
  exact hne (of_decide_eq_true hall)

/-- A character in front adds a backslash only if the whole text is made of them. -/
theorem backslashesAtEnd_cons (c : Char) (cs : List Char) :
    backslashesAtEnd (c :: cs) =
      backslashesAtEnd cs + if c = '\\' ∧ cs.all (· == '\\') then 1 else 0 := by
  unfold backslashesAtEnd
  -- The run at the end reaches the new character only if there is nothing else between.
  by_cases hall : ∀ d ∈ cs, d = '\\'
  · have hself : cs.rtakeWhile (· = '\\') = cs := by
      rw [List.rtakeWhile_eq_self_iff]
      simpa using hall
    rw [rtakeWhile_cons_of_all hall, hself]
    by_cases hc : c = '\\'
    · rw [if_pos hc, if_pos ⟨hc, by simpa using hall⟩, List.length_cons]
    · rw [if_neg hc, if_neg fun h => hc h.1, Nat.add_zero]
  · rw [rtakeWhile_cons_of_not_all (by simpa using hall)]
    simp [hall]

/-- A pair that starts with a backslash leaves it open whether the number of them at
    the end is odd. -/
theorem odd_backslashesAtEnd_pair (d : Char) (cs : List Char) :
    Odd (backslashesAtEnd ('\\' :: d :: cs)) ↔ Odd (backslashesAtEnd cs) := by
  rw [backslashesAtEnd_cons, backslashesAtEnd_cons]
  by_cases hd : d = '\\' <;> by_cases hall : cs.all (· == '\\') <;>
    simp [hd, hall, Nat.odd_add, Nat.add_assoc]

theorem HasContinuedLine.cons (h : HasContinuedLine cs) (hc : c ≠ '\\') :
    HasContinuedLine (c :: cs) := by
  obtain ⟨before, after, rfl, hodd⟩ := h
  refine ⟨c :: before, after, rfl, ?_⟩
  rw [backslashesAtEnd_cons]
  simpa [hc] using hodd

theorem HasContinuedLine.pair (h : HasContinuedLine cs) (d : Char) :
    HasContinuedLine ('\\' :: d :: cs) := by
  obtain ⟨before, after, rfl, hodd⟩ := h
  exact ⟨'\\' :: d :: before, after, rfl, (odd_backslashesAtEnd_pair d before).2 hodd⟩

theorem hasContinuedLine_start (cs : List Char) : HasContinuedLine ('\\' :: '\n' :: cs) :=
  ⟨['\\'], cs, rfl, by decide⟩

/-- Without continued lines there is nothing to join. -/
theorem joinContinued_of_not_hasContinuedLine (h : ¬ HasContinuedLine cs) :
    joinContinued cs = cs := by
  induction cs using joinContinued.induct with
  | case1 => rfl
  | case2 c => rfl
  | case3 cs ih => exact absurd (hasContinuedLine_start cs) h
  | case4 d cs hd ih =>
    rw [joinContinued_pair hd, ih fun hcs => h (hcs.pair d)]
  | case5 c d cs hc ih =>
    rw [joinContinued_cons hc, ih fun hcs => h (hcs.cons hc)]

/-- The line breaks can be gone through one by one. -/
theorem hasContinuedLine_iff : HasContinuedLine cs ↔
    ∃ n < cs.length, cs[n]? = some '\n' ∧ Odd (backslashesAtEnd (cs.take n)) := by
  constructor
  · rintro ⟨before, after, rfl, hodd⟩
    refine ⟨before.length, by simp, by simp, ?_⟩
    rwa [List.take_left]
  · rintro ⟨n, hn, hbreak, hodd⟩
    refine ⟨cs.take n, cs.drop (n + 1), ?_, hodd⟩
    have hget : cs[n] = '\n' := by simpa [hn] using hbreak
    rw [← hget, List.getElem_cons_drop, List.take_append_drop]

instance : Decidable (HasContinuedLine cs) :=
  decidable_of_iff' _ hasContinuedLine_iff

end Runs

section Guarding

theorem guarded_cons (special : List Char) (c : Char) (cs : List Char) :
    guarded special (c :: cs) =
      if c = '\\' ∨ c ∈ special then '\\' :: c :: guarded special cs
      else c :: guarded special cs := by
  unfold guarded
  rw [List.flatMap_cons]
  split <;> rfl

/-- Doubled backslashes continue no line. -/
theorem joinContinued_doubled (cs : List Char) : joinContinued (doubled cs) = doubled cs := by
  induction cs with
  | nil => rfl
  | cons c cs ih =>
    unfold doubled at ih ⊢
    rw [List.flatMap_cons]
    by_cases hc : c = '\\'
    · rw [if_pos hc, List.cons_append, List.singleton_append, joinContinued_pair (by decide), ih]
    · rw [if_neg hc, List.singleton_append, joinContinued_cons hc, ih]

/-- What starts with another character than a backslash is read after it. -/
theorem unescapeSimple_cons (special : List Char) {c : Char} (hc : c ≠ '\\') (cs : List Char) :
    unescapeSimple special (c :: cs) = c :: unescapeSimple special cs := by
  cases cs with
  | nil => rfl
  | cons d cs => rw [unescapeSimple, if_neg hc]

/-- A guarded text is read as it was. -/
theorem unescapeSimple_guarded (special cs : List Char) :
    unescapeSimple special (guarded special cs) = cs := by
  induction cs with
  | nil => rfl
  | cons c cs ih =>
    rw [guarded_cons]
    by_cases hc : c = '\\' ∨ c ∈ special
    · have htaken : c = '\\' ∨ special.contains c := by simpa using hc
      rw [if_pos hc, unescapeSimple, if_pos rfl, if_pos htaken, ih]
    · rw [if_neg hc, unescapeSimple_cons special (fun h => hc (.inl h)), ih]

end Guarding

end RubyTree
