import Mathlib.Data.List.Chain
import RubyTree.Literal.Indent
import RubyTree.Raw

/-!
# Dedenting a Heredoc Line by Line

A heredoc comes in parts: texts, which end at the latest where their line does, and
interpolations between them. It is dedented part by part, with a note of whether the
text before ended a line. What this should do is said of the heredoc as it is read,
which is a sequence of characters and interpolations: it is cut into lines, and each
loses the blanks that its first text starts with, as far as they fit into the width.

The two agree if the parts are cut as a scanner cuts them. A text that does not end
its line would hide the text after it, and an interpolation at the start of a line
leaves the note standing, so that the text after it would be taken for the start.

## Main definitions

* `HeredocPart`: A text or an interpolation.
* `flowOf`: A heredoc as it is read.
* `physicalLines`, `dedentLines`: Its lines, and these without their indentation.
* `WellCut`: Parts as a scanner cuts them.
* `dedentParts`: The parts dedented one after the other.

## Theorems

* `dedentLines_line`, `dedentLines_text`: The text at the start of a line.
* `flowOf_dedentParts`: Dedenting by parts is dedenting by lines.
-/

namespace RubyTree

/-- A text of a heredoc, with what its token holds besides, or an interpolation. -/
inductive HeredocPart where
  | text (content : String) (more : List Raw)
  | embedded (raw : Raw) (other : raw.hasTag "@tstring_content" = false)

namespace HeredocPart

def raw : HeredocPart → Raw
  | text content more => .list (.str "@tstring_content" :: .str content :: more)
  | embedded raw _ => raw

/-- Whether a text ends in a line break. -/
def endsLine (content : String) : Bool :=
  content.toList.getLast? == some '\n'

/-- What is read of a part. -/
def flow : HeredocPart → List (Char ⊕ Raw)
  | text content _ => content.toList.map .inl
  | embedded raw _ => [.inr raw]

/-- A text has no line break but at its end. -/
def BreaksLast : HeredocPart → Prop
  | text content _ => '\n' ∉ content.toList.dropLast
  | embedded _ _ => True

/-- What may come right after a part: a text after one that ends its line, an
    interpolation after one that does not, and anything after an interpolation. -/
def Precedes : HeredocPart → HeredocPart → Prop
  | text content _, text _ _ => endsLine content = true
  | text content _, embedded _ _ => endsLine content = false
  | embedded _ _, _ => True

/-- The same part, but for the text in it. -/
def SameButText : HeredocPart → HeredocPart → Prop
  | text _ more, text _ more' => more = more'
  | embedded raw _, embedded raw' _ => raw = raw'
  | _, _ => False

/-- The part is a text. -/
def IsText : HeredocPart → Prop
  | text _ _ => True
  | embedded _ _ => False

instance : DecidablePred BreaksLast
  | text content _ => inferInstanceAs (Decidable ('\n' ∉ content.toList.dropLast))
  | embedded _ _ => isTrue trivial

instance : DecidablePred IsText
  | text _ _ => isTrue trivial
  | embedded _ _ => isFalse id

instance : DecidableRel Precedes
  | text content _, text _ _ => inferInstanceAs (Decidable (endsLine content = true))
  | text content _, embedded _ _ => inferInstanceAs (Decidable (endsLine content = false))
  | embedded _ _, _ => isTrue trivial

end HeredocPart

open HeredocPart

/-- A heredoc as it is read. -/
def flowOf (parts : List HeredocPart) : List (Char ⊕ Raw) :=
  parts.flatMap flow

/-- Parts as a scanner cuts them, from the start of a line on. -/
structure WellCut (parts : List HeredocPart) : Prop where
  breaksLast : ∀ part ∈ parts, part.BreaksLast
  starts : ∀ part ∈ parts.head?, part.IsText
  adjacent : parts.IsChain Precedes

section Lines

/-- Whether a line ends here. -/
def isBreak : Char ⊕ Raw → Bool
  | .inl c => c == '\n'
  | .inr _ => false

/-- The lines of what is read, each with its line break. -/
def physicalLines : List (Char ⊕ Raw) → List (List (Char ⊕ Raw))
  | [] => []
  | x :: xs =>
    if isBreak x then [x] :: physicalLines xs
    else match physicalLines xs with
      | [] => [[x]]
      | l :: ls => (x :: l) :: ls

/-- The text before the first interpolation. -/
def leadingText : List (Char ⊕ Raw) → List Char
  | .inl c :: xs => c :: leadingText xs
  | _ => []

/-- A line without its indentation. -/
def dedentLine (width : Int) (line : List (Char ⊕ Raw)) : List (Char ⊕ Raw) :=
  (dedent width (leadingText line)).map .inl ++ line.drop (leadingText line).length

/-- What is read with every line dedented. -/
def dedentLines (width : Int) (xs : List (Char ⊕ Raw)) : List (Char ⊕ Raw) :=
  (physicalLines xs).flatMap (dedentLine width)

/-- What is read from the middle of a line on, with every later line dedented. -/
def dedentLater (width : Int) (xs : List (Char ⊕ Raw)) : List (Char ⊕ Raw) :=
  match physicalLines xs with
  | [] => []
  | l :: ls => l ++ ls.flatMap (dedentLine width)

variable {width : Int} {xs ys : List (Char ⊕ Raw)} {cs : List Char}

theorem dedentLater_cons {x : Char ⊕ Raw} (hx : isBreak x = false) (xs : List (Char ⊕ Raw)) :
    dedentLater width (x :: xs) = x :: dedentLater width xs := by
  unfold dedentLater
  rw [physicalLines, if_neg (by simp [hx])]
  cases physicalLines xs <;> rfl

theorem dedentLater_break (xs : List (Char ⊕ Raw)) :
    dedentLater width (.inl '\n' :: xs) = .inl '\n' :: dedentLines width xs := by
  unfold dedentLater dedentLines
  rw [physicalLines, if_pos (by decide)]
  rfl

/-- In the middle of a line a text stays as it is. -/
theorem dedentLater_text (hcs : '\n' ∉ cs) (xs : List (Char ⊕ Raw)) :
    dedentLater width (cs.map .inl ++ xs) = cs.map .inl ++ dedentLater width xs := by
  induction cs with
  | nil => rfl
  | cons c cs ih =>
    have hc : isBreak (.inl c) = false := by
      simpa [isBreak] using fun h : c = '\n' => hcs (h ▸ List.mem_cons_self)
    rw [List.map_cons, List.cons_append, dedentLater_cons hc,
      ih fun h => hcs (List.mem_cons_of_mem _ h), List.cons_append]

theorem leadingText_text (hxs : leadingText xs = []) (cs : List Char) :
    leadingText (cs.map .inl ++ xs) = cs := by
  induction cs with
  | nil => exact hxs
  | cons c cs ih => exact congrArg (c :: ·) ih

theorem dedentLine_text (hxs : leadingText xs = []) (cs : List Char) :
    dedentLine width (cs.map .inl ++ xs) = (dedent width cs).map .inl ++ xs := by
  unfold dedentLine
  rw [leadingText_text hxs, List.drop_left' (List.length_map _)]

/-- The same for a line without interpolations. -/
theorem dedentLine_whole (width : Int) (cs : List Char) :
    dedentLine width (cs.map .inl) = (dedent width cs).map .inl := by
  have h : dedentLine width (cs.map .inl ++ []) = _ := dedentLine_text rfl cs
  rwa [List.append_nil, List.append_nil] at h

theorem physicalLines_line (hcs : '\n' ∉ cs) (xs : List (Char ⊕ Raw)) :
    physicalLines (cs.map .inl ++ .inl '\n' :: xs) =
      (cs.map .inl ++ [.inl '\n']) :: physicalLines xs := by
  induction cs with
  | nil => rfl
  | cons c cs ih =>
    have hc : isBreak (.inl c) = false := by
      simpa [isBreak] using fun h : c = '\n' => hcs (h ▸ List.mem_cons_self)
    rw [List.map_cons, List.cons_append, physicalLines, if_neg (by simp [hc]),
      ih fun h => hcs (List.mem_cons_of_mem _ h)]
    rfl

theorem physicalLines_text (hcs : '\n' ∉ cs) (xs : List (Char ⊕ Raw)) :
    physicalLines (cs.map .inl ++ xs) = match physicalLines xs with
      | [] => if cs = [] then [] else [cs.map .inl]
      | l :: ls => (cs.map .inl ++ l) :: ls := by
  -- None of the characters ends the line, so all of them are put in front of it.
  induction cs with
  | nil => cases hxs : physicalLines xs <;> simp [hxs]
  | cons c cs ih =>
    have hc : isBreak (.inl c) = false := by
      simpa [isBreak] using fun h : c = '\n' => hcs (h ▸ List.mem_cons_self)
    rw [List.map_cons, List.cons_append, physicalLines, if_neg (by simp [hc]),
      ih fun h => hcs (List.mem_cons_of_mem _ h)]
    cases physicalLines xs with
    | nil => cases cs <;> rfl
    | cons l ls => rfl

/-- A line that is a text loses its indentation. -/
theorem dedentLines_line (hcs : '\n' ∉ cs) (xs : List (Char ⊕ Raw)) :
    dedentLines width ((cs ++ ['\n']).map .inl ++ xs) =
      (dedent width (cs ++ ['\n'])).map .inl ++ dedentLines width xs := by
  unfold dedentLines
  rw [List.map_append, List.append_assoc, List.map_singleton, List.singleton_append,
    physicalLines_line hcs, List.flatMap_cons, ← dedentLine_whole, List.map_append]
  rfl

/-- A line starts with what comes first. -/
theorem leadingText_line {l : List (Char ⊕ Raw)} {ls : List (List (Char ⊕ Raw))}
    (hxs : leadingText xs = []) (hlines : physicalLines xs = l :: ls) : leadingText l = [] := by
  cases xs with
  | nil => cases hlines
  | cons x xs =>
    cases x with
    | inl c => cases hxs
    | inr r =>
      rw [physicalLines, if_neg (by simp [isBreak])] at hlines
      cases hrest : physicalLines xs <;> rw [hrest] at hlines <;> cases hlines <;> rfl

/-- A text at the start of a line loses its indentation, and what follows it on this
    line stays. -/
theorem dedentLines_text (hcs : '\n' ∉ cs) (hxs : leadingText xs = []) :
    dedentLines width (cs.map .inl ++ xs) =
      (dedent width cs).map .inl ++ dedentLater width xs := by
  unfold dedentLines dedentLater
  rw [physicalLines_text hcs]
  cases hlines : physicalLines xs with
  | nil =>
    cases cs with
    | nil => rfl
    | cons c cs =>
      simpa using dedentLine_whole width (c :: cs)
  | cons l ls =>
    -- The line goes on with the first thing of what follows, which is no text.
    simp only [List.flatMap_cons]
    rw [dedentLine_text (leadingText_line hxs hlines), List.append_assoc]

end Lines

section Parts

variable {width : Int} {parts : List HeredocPart}

/-- The parts dedented one after the other. The flag says whether the next text starts
    a line. -/
def dedentParts (width : Int) : Bool → List HeredocPart → List HeredocPart
  | _, [] => []
  | lineStart, .text content more :: parts =>
    .text (if lineStart then String.ofList (dedent width content.toList) else content) more ::
      dedentParts width (endsLine content) parts
  | lineStart, .embedded raw other :: parts =>
    .embedded raw other :: dedentParts width lineStart parts

/-- What is read from here on with every line dedented, where the flag says whether a
    line starts here. -/
def dedentFlow (width : Int) (lineStart : Bool) (xs : List (Char ⊕ Raw)) : List (Char ⊕ Raw) :=
  if lineStart then dedentLines width xs else dedentLater width xs

@[simp] theorem flowOf_cons (part : HeredocPart) (parts : List HeredocPart) :
    flowOf (part :: parts) = part.flow ++ flowOf parts :=
  List.flatMap_cons

/-- Only the texts change. -/
theorem sameButText_dedentParts (width : Int) (lineStart : Bool) (parts : List HeredocPart) :
    List.Forall₂ SameButText parts (dedentParts width lineStart parts) := by
  induction parts generalizing lineStart with
  | nil => exact .nil
  | cons part parts ih =>
    cases part with
    | text content more => exact .cons rfl (ih _)
    | embedded raw other => exact .cons rfl (ih _)

/-- A text that ends its line is one line break and what stands before it. -/
theorem toList_of_endsLine {content : String} {more : List Raw} (hend : endsLine content = true)
    (hbreaks : (HeredocPart.text content more).BreaksLast) :
    ∃ cs, content.toList = cs ++ ['\n'] ∧ '\n' ∉ cs := by
  have hlast : content.toList.getLast? = some '\n' := by simpa [endsLine] using hend
  obtain ⟨cs, hcs⟩ := List.getLast?_eq_some_iff.1 hlast
  refine ⟨cs, hcs, ?_⟩
  rw [BreaksLast, hcs, List.dropLast_concat] at hbreaks
  exact hbreaks

theorem not_mem_of_not_endsLine {content : String} {more : List Raw}
    (hend : endsLine content = false)
    (hbreaks : (HeredocPart.text content more).BreaksLast) : '\n' ∉ content.toList := by
  intro hmem
  obtain ⟨c, hlast⟩ : ∃ c, content.toList.getLast? = some c :=
    Option.isSome_iff_exists.1 (by
      rw [List.getLast?_isSome]
      exact List.ne_nil_of_mem hmem)
  -- The only place for a line break is the last one, and the text does not end in one.
  obtain ⟨cs, hcs⟩ := List.getLast?_eq_some_iff.1 hlast
  rw [BreaksLast, hcs, List.dropLast_concat] at hbreaks
  rw [hcs, List.mem_append, List.mem_singleton] at hmem
  refine hmem.elim hbreaks fun hc => ?_
  simp [endsLine, hcs, ← hc] at hend

/-- A text that does not end its line is followed by no text. -/
theorem leadingText_flowOf (hparts : ∀ part ∈ parts.head?, ¬part.IsText) :
    leadingText (flowOf parts) = [] := by
  cases parts with
  | nil => rfl
  | cons part parts =>
    cases part with
    | text content more => exact absurd trivial (hparts _ rfl)
    | embedded raw other => rfl

/-- Dedenting by parts is dedenting by lines, from the start or the middle of a line on.
    The flag is kept right by each part: a text sets it to whether it ends its line, and
    an interpolation, which stands in the middle of a line, finds it cleared. -/
theorem flowOf_dedentParts_from (hbreaks : ∀ part ∈ parts, part.BreaksLast)
    (hadjacent : parts.IsChain Precedes) {lineStart : Bool}
    (hstarts : lineStart = true → ∀ part ∈ parts.head?, part.IsText) :
    flowOf (dedentParts width lineStart parts) = dedentFlow width lineStart (flowOf parts) := by
  induction parts generalizing lineStart with
  | nil => cases lineStart <;> rfl
  | cons part parts ih =>
    obtain ⟨hnext, hrest⟩ := List.isChain_cons.1 hadjacent
    have ih : ∀ {flag : Bool}, (flag = true → ∀ next ∈ parts.head?, next.IsText) →
        flowOf (dedentParts width flag parts) = dedentFlow width flag (flowOf parts) :=
      ih (fun p hp => hbreaks p (List.mem_cons_of_mem _ hp)) hrest
    cases part with
    | embedded raw other =>
      cases lineStart with
      | true => exact absurd (hstarts rfl _ rfl) id
      | false =>
        rw [dedentParts, flowOf_cons, flowOf_cons, ih (by simp)]
        exact (dedentLater_cons rfl _).symm
    | text content more =>
      have hcontent := hbreaks _ List.mem_cons_self
      rw [dedentParts, flowOf_cons, flowOf_cons]
      cases hend : endsLine content with
      | true =>
        obtain ⟨cs, hcs, hfree⟩ := toList_of_endsLine hend hcontent
        rw [ih fun _ next hn => ?starts]
        case starts =>
          -- An interpolation would follow a text that does not end its line.
          cases next with
          | text _ _ => trivial
          | embedded _ _ => exact absurd (hend.symm.trans (hnext _ hn)) (by decide)
        cases lineStart with
        | true => simpa [flow, hcs, dedentFlow] using (dedentLines_line hfree _).symm
        | false =>
          have hline : dedentLater width (cs.map .inl ++ .inl '\n' :: flowOf parts) = _ :=
            dedentLater_text hfree _
          rw [dedentLater_break] at hline
          simpa [flow, hcs, dedentFlow] using hline.symm
      | false =>
        have hfree := not_mem_of_not_endsLine hend hcontent
        rw [ih (by simp)]
        cases lineStart with
        | true =>
          have hlead : leadingText (flowOf parts) = [] := leadingText_flowOf fun next hn => by
            cases next with
            | text _ _ => exact absurd (hend.symm.trans (hnext _ hn)) (by decide)
            | embedded _ _ => exact id
          simpa [flow, dedentFlow] using (dedentLines_text hfree hlead).symm
        | false => simpa [flow, dedentFlow] using (dedentLater_text hfree _).symm

/-- Dedenting by parts is dedenting by lines. -/
theorem flowOf_dedentParts (h : WellCut parts) (width : Int) :
    flowOf (dedentParts width true parts) = dedentLines width (flowOf parts) :=
  flowOf_dedentParts_from h.breaksLast h.adjacent fun _ => h.starts

end Parts

end RubyTree
