import RubyTree.Proofs.Literal.Protected

/-!
# Which Lines Are Continued

Joining goes over a text from the left and pairs each backslash with the character
after it. What it removes can be said without pairs: a line break is removed if an odd
number of backslashes stands right before it, together with the last of these, and
every other character stays.

In a run of backslashes each second one is paired with the one before it, so the pairs
do not reach across a character of another kind. In particular no pair goes on past a
line break, which is why the lines can be joined one by one. It also keeps a removal
from making a new continuation: the backslashes that are left before it are pairs.

## Main definitions

* `ContinuesAt`: A line break after an odd number of backslashes stands at an index.
* `StaysAt`: What stands at an index is not removed.
* `charsWhere`: The characters at some of the indices of a text.

## Theorems

* `joinContinued_eq_charsWhere`: What is left of a text.
* `not_continuesAt_joinContinued`: A joined text has no continued line.
* `joinContinued_line`: A text is joined line by line.
* `joinContinued_by_parity`: What joining removes, and that it does so line by line.
-/

namespace RubyTree

/-- A line break with an odd number of backslashes before it stands at an index. -/
def ContinuesAt (cs : List Char) (i : Nat) : Prop :=
  cs[i]? = some '\n' ∧ Odd (backslashesAtEnd (cs.take i))

/-- What stands at an index is neither such a line break nor the backslash before one. -/
def StaysAt (cs : List Char) (i : Nat) : Prop :=
  ¬ ContinuesAt cs i ∧ ¬ ContinuesAt cs (i + 1)

instance (cs : List Char) : DecidablePred (ContinuesAt cs) :=
  fun _ => inferInstanceAs (Decidable (_ ∧ _))

instance (cs : List Char) : DecidablePred (StaysAt cs) :=
  fun _ => inferInstanceAs (Decidable (_ ∧ _))

/-- The characters at the indices with `P`, in order. -/
def charsWhere (P : Nat → Prop) [DecidablePred P] (cs : List Char) : List Char :=
  (cs.zipIdx.filter fun x => P x.2).map Prod.fst

section Indices

variable {c d : Char} {cs : List Char} {i : Nat}

theorem not_continuesAt_zero (cs : List Char) : ¬ ContinuesAt cs 0 := by
  rintro ⟨-, hodd⟩
  rw [List.take_zero] at hodd
  exact absurd hodd (by decide)

/-- A backslash stands before such a line break. -/
theorem backslash_of_continuesAt (h : ContinuesAt cs i) : ∃ j, i = j + 1 ∧ cs[j]? = some '\\' := by
  cases i with
  | zero => exact absurd h (not_continuesAt_zero cs)
  | succ j =>
    obtain ⟨hbreak, hodd⟩ := h
    have hj : j < cs.length := Nat.lt_of_succ_lt (List.getElem?_eq_some_iff.1 hbreak).1
    refine ⟨j, rfl, ?_⟩
    by_contra hother
    -- Without a backslash right before it there are none, and zero is even.
    have hlast : cs[j] ≠ '\\' := by simpa [hj] using hother
    rw [List.take_succ_eq_append_getElem hj, backslashesAtEnd,
      List.rtakeWhile_concat_neg _ _ _ (by simpa using hlast)] at hodd
    exact absurd hodd (by decide)

/-- In front of a text another character than a backslash changes nothing. -/
theorem continuesAt_cons (hc : c ≠ '\\') : ContinuesAt (c :: cs) (i + 1) ↔ ContinuesAt cs i := by
  have hcount : backslashesAtEnd (c :: cs.take i) = backslashesAtEnd (cs.take i) := by
    simp [backslashesAtEnd_cons, hc]
  rw [ContinuesAt, List.getElem?_cons_succ, List.take_succ_cons, hcount, ContinuesAt]

/-- A pair in front of a text changes nothing. -/
theorem continuesAt_pair (d : Char) (cs : List Char) (i : Nat) :
    ContinuesAt ('\\' :: d :: cs) (i + 2) ↔ ContinuesAt cs i := by
  rw [ContinuesAt, List.getElem?_cons_succ, List.getElem?_cons_succ, List.take_succ_cons,
    List.take_succ_cons, odd_backslashesAtEnd_pair, ContinuesAt]

theorem continuesAt_pair_one (d : Char) (cs : List Char) :
    ContinuesAt ('\\' :: d :: cs) 1 ↔ d = '\n' := by
  have hodd : Odd (backslashesAtEnd ['\\']) := by decide
  simp [ContinuesAt, hodd]

theorem staysAt_cons (hc : c ≠ '\\') : StaysAt (c :: cs) (i + 1) ↔ StaysAt cs i := by
  rw [StaysAt, continuesAt_cons hc, continuesAt_cons hc, StaysAt]

theorem staysAt_cons_zero (hc : c ≠ '\\') : StaysAt (c :: cs) 0 :=
  ⟨not_continuesAt_zero _, (continuesAt_cons hc).not.2 (not_continuesAt_zero _)⟩

theorem staysAt_pair (d : Char) (cs : List Char) (i : Nat) :
    StaysAt ('\\' :: d :: cs) (i + 2) ↔ StaysAt cs i := by
  rw [StaysAt, continuesAt_pair, continuesAt_pair, StaysAt]

/-- Both characters of a pair stay, or neither does. -/
theorem staysAt_pair_zero (d : Char) (cs : List Char) :
    StaysAt ('\\' :: d :: cs) 0 ↔ d ≠ '\n' := by
  rw [StaysAt, continuesAt_pair_one, and_iff_right (not_continuesAt_zero _)]

theorem staysAt_pair_one (d : Char) (cs : List Char) :
    StaysAt ('\\' :: d :: cs) 1 ↔ d ≠ '\n' := by
  rw [StaysAt, continuesAt_pair_one, continuesAt_pair, and_iff_left (not_continuesAt_zero _)]

theorem charsWhere_cons (P : Nat → Prop) [DecidablePred P] (c : Char) (cs : List Char) :
    charsWhere P (c :: cs) =
      if P 0 then c :: charsWhere (fun i => P (i + 1)) cs
      else charsWhere (fun i => P (i + 1)) cs := by
  unfold charsWhere
  rw [List.zipIdx_cons, List.zipIdx_succ, List.filter_cons]
  have hrest : ((cs.zipIdx.map fun x => (x.1, x.2 + 1)).filter fun x => P x.2).map Prod.fst =
      (cs.zipIdx.filter fun x => P (x.2 + 1)).map Prod.fst := by
    rw [List.filter_map, List.map_map]
    rfl
  by_cases hzero : P 0
  · simpa [hzero] using hrest
  · simpa [hzero] using hrest

theorem charsWhere_congr {P Q : Nat → Prop} [DecidablePred P] [DecidablePred Q]
    (h : ∀ i, P i ↔ Q i) (cs : List Char) : charsWhere P cs = charsWhere Q cs := by
  unfold charsWhere
  simp only [h]

end Indices

section Joining

variable {cs : List Char}

/-- The characters that stay are left, in order. -/
theorem joinContinued_eq_charsWhere (cs : List Char) :
    joinContinued cs = charsWhere (StaysAt cs) cs := by
  -- The cases are those of the function, which takes a backslash with what follows it.
  induction cs using joinContinued.induct with
  | case1 => rfl
  | case2 c =>
    have hstays : StaysAt [c] 0 := by simp [StaysAt, ContinuesAt, backslashesAtEnd]
    rw [charsWhere_cons, if_pos hstays]
    rfl
  | case3 cs ih =>
    have hzero : ¬ StaysAt ('\\' :: '\n' :: cs) 0 := by simp [staysAt_pair_zero]
    have hone : ¬ StaysAt ('\\' :: '\n' :: cs) 1 := by simp [staysAt_pair_one]
    rw [joinContinued_continuation, ih, charsWhere_cons, if_neg hzero, charsWhere_cons, if_neg hone]
    exact charsWhere_congr (fun i => (staysAt_pair '\n' cs i).symm) cs
  | case4 d cs hd ih =>
    have hzero : StaysAt ('\\' :: d :: cs) 0 := (staysAt_pair_zero d cs).2 hd
    have hone : StaysAt ('\\' :: d :: cs) 1 := (staysAt_pair_one d cs).2 hd
    rw [joinContinued_pair hd, ih, charsWhere_cons, if_pos hzero, charsWhere_cons, if_pos hone,
      charsWhere_congr (fun i => (staysAt_pair d cs i).symm) cs]
  | case5 c d cs hc ih =>
    rw [joinContinued_cons hc, ih, charsWhere_cons _ c, if_pos (staysAt_cons_zero hc),
      charsWhere_congr (fun i => (staysAt_cons hc).symm) (d :: cs)]

/-- A joined text has no continued line. -/
theorem not_continuesAt_joinContinued (cs : List Char) (i : Nat) :
    ¬ ContinuesAt (joinContinued cs) i := by
  induction cs using joinContinued.induct generalizing i with
  | case1 => simp [joinContinued, ContinuesAt]
  | case2 c =>
    cases i with
    | zero => exact not_continuesAt_zero _
    | succ i => simp [joinContinued, ContinuesAt]
  | case3 cs ih =>
    rw [joinContinued_continuation]
    exact ih i
  | case4 d cs hd ih =>
    rw [joinContinued_pair hd]
    -- The two backslashes of a pair do not change whether a number of them is odd.
    obtain _ | _ | i := i
    · exact not_continuesAt_zero _
    · exact (continuesAt_pair_one d _).not.2 hd
    · exact (continuesAt_pair d _ i).not.2 (ih i)
  | case5 c d cs hc ih =>
    rw [joinContinued_cons hc]
    cases i with
    | zero => exact not_continuesAt_zero _
    | succ i => exact (continuesAt_cons hc).not.2 (ih i)

/-- A joined text stays as it is when it is joined again. -/
theorem joinContinued_joinContinued (cs : List Char) :
    joinContinued (joinContinued cs) = joinContinued cs := by
  refine joinContinued_of_not_hasContinuedLine fun hline => ?_
  obtain ⟨i, -, hcontinues⟩ := hasContinuedLine_iff.1 hline
  exact not_continuesAt_joinContinued cs i hcontinues

/-- A line and what follows it are joined by themselves. -/
theorem joinContinued_line (before after : List Char) :
    joinContinued (before ++ '\n' :: after) =
      joinContinued (before ++ ['\n']) ++ joinContinued after := by
  induction before using joinContinued.induct with
  | case1 => exact joinContinued_cons (by decide) after
  | case2 c =>
    -- A backslash at the end takes the line break with it.
    by_cases hc : c = '\\'
    · subst hc
      exact joinContinued_continuation after
    · simp only [List.cons_append, List.nil_append]
      rw [joinContinued_cons hc, joinContinued_cons hc, joinContinued_cons (by decide)]
      rfl
  | case3 before ih =>
    simp only [List.cons_append]
    rw [joinContinued_continuation, joinContinued_continuation, ih]
  | case4 d before hd ih =>
    simp only [List.cons_append]
    rw [joinContinued_pair hd, joinContinued_pair hd, ih]
    rfl
  | case5 c d before hc ih =>
    rw [List.cons_append, joinContinued_cons hc, ih]
    exact (congrArg (· ++ joinContinued after) (joinContinued_cons hc (d :: before ++ ['\n']))).symm

end Joining

/-- Joining removes the line breaks after an odd number of backslashes, each with the
    backslash before it, and nothing else. It leaves no such line break, so a second time
    it removes nothing, and it can be done to the lines of a text one by one. -/
theorem joinContinued_by_parity (cs : List Char) :
    joinContinued cs = charsWhere (StaysAt cs) cs ∧
      (∀ i, ContinuesAt cs i → ∃ j, i = j + 1 ∧ cs[j]? = some '\\') ∧
      (∀ i, ¬ ContinuesAt (joinContinued cs) i) ∧
      joinContinued (joinContinued cs) = joinContinued cs ∧
      ∀ before after, joinContinued (before ++ '\n' :: after) =
        joinContinued (before ++ ['\n']) ++ joinContinued after :=
  ⟨joinContinued_eq_charsWhere cs, fun _ => backslash_of_continuesAt,
    not_continuesAt_joinContinued cs, joinContinued_joinContinued cs, joinContinued_line⟩

/-- Of three backslashes before a line break the third one is removed with it. The line
    break after that has no backslash before it in the source, and two of them in what is
    left. -/
example : joinContinued "a\\\\\\\n\nb".toList = "a\\\\\nb".toList := by
  decide

end RubyTree
