import RubyTree.Literal.Indent
import RubyTree.Proofs.Text.Surrogate

/-!
# The Indentation That Fits

How far a prefix of spaces and tabs reaches is a matter of where it starts, since a tab
goes on to the next stop. Removing indentation goes over a text blank by blank and stops
at the first one that does not fit, by two tests: a space must start before the width,
and a tab must start before it and end at it or before.

Both come to the same, which is that the column after the blank is within the width. And
every blank takes at least a column, so nothing fits after one that does not. So what is
removed is the longest prefix of blanks that fits, and a wider one contains it.

Texts are given by their code points here, since one of them may hold halves of
characters.

## Main definitions

* `isBlankPoint`: A space or a tab.
* `columnAfter`, `columns`: The column after a blank, and after blanks at the start.
* `LongestIndent`: The longest prefix of blanks that fits into a width.
* `dedentPoints`: What is left of a text.

## Theorems

* `dedentPoints_cons`: One step, by the column after the blank.
* `longestIndent_dedentPoints`: The longest prefix that fits is removed.
* `LongestIndent.length_le`: A wider prefix is longer.
* `dedent?_removes_longestIndent`: A text without its indentation.
-/

namespace RubyTree

/-- Whether a code point is a space or a tab. -/
def isBlankPoint (n : Nat) : Bool :=
  n == ' '.toNat || n == '\t'.toNat

/-- The column after a blank: the next one for a space, the next stop for a tab. -/
def columnAfter (col n : Nat) : Nat :=
  if n = '\t'.toNat then tabStop col else col + 1

/-- The column that blanks reach from a column on. -/
def columnsFrom : Nat → List Nat → Nat
  | col, [] => col
  | col, n :: points => columnsFrom (columnAfter col n) points

/-- The column that blanks at the start of a line reach. -/
def columns (points : List Nat) : Nat :=
  columnsFrom 0 points

/-- The longest prefix of spaces and tabs that fits into a width. -/
structure LongestIndent (width : Int) (points indent : List Nat) : Prop where
  starts : indent <+: points
  blank : ∀ n ∈ indent, isBlankPoint n
  fits : (columns indent : Int) ≤ max width 0
  longest : ∀ other, other <+: points → (∀ n ∈ other, isBlankPoint n) →
    (columns other : Int) ≤ max width 0 → other.length ≤ indent.length

/-- The code points that are left of those from column `col` on. -/
def dedentPoints (width : Int) (col : Nat) (points : List Nat) : List Nat :=
  dedentFrom (some ∘ Text.shownPoint) (.whole width) col points

section Columns

variable {width : Int} {col n : Nat} {points indent : List Nat}

/-- Every blank takes at least a column. -/
theorem lt_columnAfter (col n : Nat) : col < columnAfter col n := by
  unfold columnAfter tabStop tabWidth
  split <;> omega

theorem le_columnsFrom (col : Nat) (points : List Nat) : col ≤ columnsFrom col points := by
  induction points generalizing col with
  | nil => exact Nat.le_refl col
  | cons n points ih => exact Nat.le_trans (Nat.le_of_lt (lt_columnAfter col n)) (ih _)

/-- One step, where the two tests for a blank are one. -/
theorem dedentPoints_cons (width : Int) (col n : Nat) (points : List Nat) :
    dedentPoints width col (n :: points) =
      if isBlankPoint n ∧ (columnAfter col n : Int) ≤ width then
        dedentPoints width (columnAfter col n) points
      else n :: points := by
  have hspace : Text.shownPoint n = ' ' ↔ n = ' '.toNat :=
    Text.shownPoint_eq_iff (by decide) (by decide)
  have htab : Text.shownPoint n = '\t' ↔ n = '\t'.toNat :=
    Text.shownPoint_eq_iff (by decide) (by decide)
  have hafter := lt_columnAfter col n
  have hdiffer : ' '.toNat ≠ '\t'.toNat := by decide
  unfold dedentPoints
  rw [dedentFrom]
  simp only [Function.comp_apply, Option.some.injEq, hspace, htab, Width.whole, isBlankPoint,
    Bool.or_eq_true, beq_iff_eq]
  -- Both blanks move forward, so the test of the column before them says nothing new.
  by_cases h : n = ' '.toNat
  · have hcolumn : columnAfter col n = col + 1 := if_neg (h ▸ hdiffer)
    have htests : ((n = ' '.toNat ∨ n = '\t'.toNat) ∧ (columnAfter col n : Int) ≤ width) ↔
        (col : Int) < width := by
      rw [and_iff_right (.inl h), hcolumn]
      omega
    simp only [htests]
    rw [if_pos h, hcolumn]
  · have htests : ((n = ' '.toNat ∨ n = '\t'.toNat) ∧ (columnAfter col n : Int) ≤ width) ↔
        (col : Int) < width ∧ n = '\t'.toNat ∧ (tabStop col : Int) ≤ width := by
      rw [or_iff_right h]
      constructor
      · rintro ⟨htab, hfits⟩
        exact ⟨by omega, htab, by rwa [columnAfter, if_pos htab] at hfits⟩
      · rintro ⟨-, htab, hfits⟩
        exact ⟨htab, by rwa [columnAfter, if_pos htab]⟩
    rw [if_neg h]
    by_cases hfits : (col : Int) < width ∧ n = '\t'.toNat ∧ (tabStop col : Int) ≤ width
    · rw [if_pos hfits.1, if_pos hfits.2, if_pos (htests.2 hfits), columnAfter, if_pos hfits.2.1]
    · rw [if_neg fun htaken => hfits (htests.1 htaken)]
      split
      · rename_i hcol
        rw [if_neg fun htaken => hfits ⟨hcol, htaken⟩]
      · rfl

/-- What is removed from a column on: blanks that fit, if there are any, and no fewer than
    any other prefix of blanks that fits. -/
theorem exists_indent (width : Int) (col : Nat) (points : List Nat) :
    ∃ indent, points = indent ++ dedentPoints width col points ∧
      (∀ n ∈ indent, isBlankPoint n) ∧
      (indent ≠ [] → (columnsFrom col indent : Int) ≤ width) ∧
      ∀ other, other <+: points → (∀ n ∈ other, isBlankPoint n) →
        (columnsFrom col other : Int) ≤ width → other.length ≤ indent.length := by
  induction points generalizing col with
  | nil =>
    refine ⟨[], rfl, by simp, by simp, fun other hother _ _ => ?_⟩
    exact Nat.le_of_eq (congrArg List.length (List.prefix_nil.1 hother))
  | cons n points ih =>
    rw [dedentPoints_cons]
    by_cases hstep : isBlankPoint n ∧ (columnAfter col n : Int) ≤ width
    · rw [if_pos hstep]
      obtain ⟨indent, hcut, hblank, hfits, hlongest⟩ := ih (columnAfter col n)
      refine ⟨n :: indent, congrArg (n :: ·) hcut, List.forall_mem_cons.2 ⟨hstep.1, hblank⟩,
        fun _ => ?_, fun other hother hall hwidth => ?_⟩
      · cases hindent : indent with
        | nil => exact hstep.2
        | cons m ms => exact hindent ▸ hfits (by simp [hindent])
      · cases other with
        | nil => exact Nat.zero_le _
        | cons m other =>
          obtain ⟨rfl, htail⟩ := List.cons_prefix_cons.1 hother
          exact Nat.succ_le_succ (hlongest other htail (List.forall_mem_cons.1 hall).2 hwidth)
    · rw [if_neg hstep]
      refine ⟨[], rfl, by simp, by simp, fun other hother hall hwidth => ?_⟩
      cases other with
      | nil => exact Nat.le_refl 0
      | cons m other =>
        -- The first blank does not fit, and more of them reach no less far.
        obtain ⟨rfl, -⟩ := List.cons_prefix_cons.1 hother
        have hreach := le_columnsFrom (columnAfter col m) other
        rw [columnsFrom] at hwidth
        exact absurd ⟨hall m List.mem_cons_self, by omega⟩ hstep

/-- The longest prefix of blanks that fits is removed, and nothing else. -/
theorem longestIndent_dedentPoints (width : Int) (points : List Nat) :
    ∃ indent, points = indent ++ dedentPoints width 0 points ∧
      LongestIndent width points indent := by
  obtain ⟨indent, hcut, hblank, hfits, hlongest⟩ := exists_indent width 0 points
  refine ⟨indent, hcut, ⟨_, hcut.symm⟩, hblank, ?_, fun other hother hall hwidth => ?_⟩
  · cases hindent : indent with
    | nil => exact Int.le_max_right width 0
    | cons n ns =>
      exact Int.le_trans (hindent ▸ hfits (by simp [hindent])) (Int.le_max_left width 0)
  · cases other with
    | nil => exact Nat.zero_le _
    | cons m other =>
      -- A blank reaches past the first column, so it fits into a width that is not negative.
      refine hlongest (m :: other) hother hall ?_
      have hfirst := lt_columnAfter 0 m
      have hreach := le_columnsFrom (columnAfter 0 m) other
      rw [columns, columnsFrom] at hwidth
      rw [columnsFrom]
      omega

/-- What fits into a width fits into a wider one. -/
theorem LongestIndent.length_le {wider : Int} {indent' : List Nat}
    (h : LongestIndent width points indent) (h' : LongestIndent wider points indent')
    (hwidth : width ≤ wider) : indent.length ≤ indent'.length :=
  h'.longest indent h.starts h.blank (Int.le_trans h.fits (by omega))

end Columns

section Texts

variable {width : Int} {text : Atom} {points : List Nat}

theorem dedentFrom_map {α β : Type} (f : α → β) (char? : β → Option Char) (width : Width)
    (col : Nat) (xs : List α) :
    dedentFrom char? width col (xs.map f) = (dedentFrom (char? ∘ f) width col xs).map f := by
  induction xs generalizing col with
  | nil => rfl
  | cons x xs ih =>
    rw [List.map_cons, dedentFrom, dedentFrom, ih, ih]
    simp only [Function.comp_apply, apply_ite (List.map f), List.map_cons]

theorem dedentElements?_int {α : Type} (char? : α → Option Char) (width : Int) (xs : List α) :
    dedentElements? char? (some (.int width)) xs = some (dedentFrom char? (.whole width) 0 xs) := by
  cases xs <;> rfl

/-- A text without its indentation is a text. -/
theorem dedent?_points (htext : text.points? = some points) (width : Int) :
    ∃ left, text.dedent? (some (.int width)) = some left ∧
      left.points? = some (dedentPoints width 0 points) := by
  -- Characters are blanks where their code points are.
  have hchars (t : String) : some ((dedentFrom some (.whole width) 0 t.toList).map Char.toNat) =
      some (dedentPoints width 0 (t.toList.map Char.toNat)) := by
    have hshown : (some ∘ Text.shownPoint) ∘ Char.toNat = some :=
      funext fun c => congrArg some (Text.shownPoint_toNat c)
    rw [dedentPoints, dedentFrom_map, hshown]
  cases text with
  | str t | sym t =>
    cases htext
    refine ⟨.str (String.ofList (dedentFrom some (.whole width) 0 t.toList)), ?_, ?_⟩
    · show (dedentElements? some _ t.toList).bind _ = _
      rw [dedentElements?_int]
      rfl
    · rw [← hchars, Atom.points?, Atom.text?, Option.map_some, String.toList_ofList]
      exact nofun
  | torn ps =>
    obtain rfl : ps = points := Option.some.inj htext
    refine ⟨.torn (dedentPoints width 0 ps), ?_, rfl⟩
    show (dedentElements? _ _ ps).map _ = _
    rw [dedentElements?_int]
    rfl
  | null | bool | int | real | complex | rational | octets | foreign => cases htext

end Texts

/-- A text loses the longest prefix of spaces and tabs that fits into the width, and no
    less of it if the width grows. -/
theorem dedent?_removes_longestIndent {text : Atom} {points : List Nat}
    (htext : text.points? = some points) (width : Int) :
    ∃ indent rest left, points = indent ++ rest ∧ LongestIndent width points indent ∧
      text.dedent? (some (.int width)) = some left ∧ left.points? = some rest ∧
      ∀ wider, width ≤ wider → ∃ rest' left', text.dedent? (some (.int wider)) = some left' ∧
        left'.points? = some rest' ∧ rest' <:+ rest := by
  obtain ⟨indent, hcut, hindent⟩ := longestIndent_dedentPoints width points
  obtain ⟨left, hleft, hrest⟩ := dedent?_points htext width
  refine ⟨indent, _, left, hcut, hindent, hleft, hrest, fun wider hwidth => ?_⟩
  obtain ⟨indent', hcut', hindent'⟩ := longestIndent_dedentPoints wider points
  obtain ⟨left', hleft', hrest'⟩ := dedent?_points htext wider
  refine ⟨_, left', hleft', hrest', ?_⟩
  -- Both rests are ends of one text, so the shorter is an end of the longer.
  refine List.suffix_of_suffix_length_le ⟨indent', hcut'.symm⟩ ⟨indent, hcut.symm⟩ ?_
  have hlength := hindent.length_le hindent' hwidth
  have htotal := congrArg List.length hcut
  have htotal' := congrArg List.length hcut'
  rw [List.length_append] at htotal htotal'
  omega

/-- Two spaces and a tab reach column eight and the space after them the width, so the
    second tab stays. -/
theorem dedent?_removes_longestIndent_secondTab :
    (Atom.str "  \t \tx").points? = some [32, 32, 9, 32, 9, 120] ∧
      (Atom.str "  \t \tx").dedent? (some (.int 9)) = some (.str "\tx") ∧
      LongestIndent 9 [32, 32, 9, 32, 9, 120] [32, 32, 9, 32] := by
  have hpoints : (Atom.str "  \t \tx").points? = some [32, 32, 9, 32, 9, 120] := rfl
  have hleft : (Atom.str "  \t \tx").dedent? (some (.int 9)) = some (.str "\tx") := rfl
  refine ⟨hpoints, hleft, ?_⟩
  obtain ⟨indent, rest, left, hcut, hindent, hdedent, hrest, -⟩ :=
    dedent?_removes_longestIndent hpoints 9
  obtain rfl : .str "\tx" = left := Option.some.inj (hleft.symm.trans hdedent)
  obtain rfl : [9, 120] = rest := Option.some.inj hrest
  have hsame : [32, 32, 9, 32] = indent := List.append_cancel_right hcut
  exact hsame ▸ hindent

end RubyTree
