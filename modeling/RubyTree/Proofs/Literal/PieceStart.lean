import Mathlib.Logic.ExistsUnique
import RubyTree.Proofs.Literal.Lines

/-!
# Where Pieces Start

Content is cut into pieces after its continued lines are joined, so a piece has no
place of its own in the source. It can be given one: the source is cut where what
comes first is, once joined, the pieces before, and what follows is this piece and
the later ones. A continuation in between belongs to what comes first, and with that
there is one such cut for each piece.

Every piece but the last ends in its only line break. So as many line breaks are
kept before a piece as there are pieces before it, and the source has one more for
each continuation that was removed.

## Main definitions

* `continuations`, `continued`: The continuations of a text, and whether it starts
  with one.
* `EndsLine`: Nothing, or a text that ends in a line break.
* `JoinCut`: A text cut where joining its lines does not look across.
* `removed`: How many continuations are removed from content.
* `PieceStart`: What stands in the source before a piece.

## Theorems

* `count_newline_joinContinued`: A continuation takes one line break with it.
* `JoinCut.exists_of_append`, `JoinCut.before_unique`: Each line of a joined text
  starts in one place of the text.
* `splitLines_take`: Line breaks before a line.
* `pieceStart_existsUnique`: Each piece starts in one place of the source.
* `PieceStart.count_newline`: The line breaks before it.
-/

namespace RubyTree

/-- How many continuations a text has. -/
def continuations : List Char → Nat
  | [] => 0
  | [_] => 0
  | c :: d :: cs =>
    if c = '\\' then
      if d = '\n' then continuations cs + 1 else continuations cs
    else continuations (d :: cs)

/-- Whether a text starts with a continuation. -/
def continued : List Char → Bool
  | c :: d :: _ => c == '\\' && d == '\n'
  | _ => false

/-- Nothing, or a text that ends in a line break. -/
def EndsLine (cs : List Char) : Prop :=
  ∀ c ∈ cs.getLast?, c = '\n'

theorem EndsLine.tail {c : Char} {cs : List Char} (h : EndsLine (c :: cs)) : EndsLine cs := by
  intro e he
  cases cs with
  | nil => cases he
  | cons d cs => exact h e (by rwa [List.getLast?_cons_cons])

section Joining

variable {c d : Char} {cs : List Char}

theorem joinContinued_continuation (cs : List Char) :
    joinContinued ('\\' :: '\n' :: cs) = joinContinued cs := by
  rw [joinContinued, if_pos rfl, if_pos rfl]

theorem joinContinued_pair (hd : d ≠ '\n') (cs : List Char) :
    joinContinued ('\\' :: d :: cs) = '\\' :: d :: joinContinued cs := by
  rw [joinContinued, if_pos rfl, if_neg hd]

theorem joinContinued_cons (hc : c ≠ '\\') (cs : List Char) :
    joinContinued (c :: cs) = c :: joinContinued cs := by
  cases cs with
  | nil => rfl
  | cons d cs => rw [joinContinued, if_neg hc]

theorem continued_cons (hc : c ≠ '\\') (cs : List Char) : continued (c :: cs) = false := by
  cases cs with
  | nil => rfl
  | cons d cs => simp [continued, hc]

theorem continued_pair (hd : d ≠ '\n') (cs : List Char) :
    continued ('\\' :: d :: cs) = false := by
  simp [continued, hd]

theorem count_newline_joinContinued (cs : List Char) :
    (joinContinued cs).count '\n' + continuations cs = cs.count '\n' := by
  fun_induction joinContinued cs with
  | case1 => rfl
  | case2 c => rfl
  | case3 cs ih =>
    -- The line break goes, and it is what the count of continuations gains.
    rw [continuations, if_pos rfl, if_pos rfl, List.count_cons_of_ne (by decide),
      List.count_cons_self, ← ih]
    rfl
  | case4 d cs hd ih =>
    rw [continuations, if_pos rfl, if_neg hd, List.count_cons_of_ne (by decide),
      List.count_cons_of_ne hd, List.count_cons_of_ne (by decide), List.count_cons_of_ne hd, ih]
  | case5 c d cs hc ih =>
    rw [continuations, if_neg hc, List.count_cons, List.count_cons, ← ih]
    omega

/-- A text cut in two that are joined by themselves, the second of which does not
    start with a continuation. -/
structure JoinCut (text before after : List Char) : Prop where
  text_eq : text = before ++ after
  join_eq : joinContinued text = joinContinued before ++ joinContinued after
  fresh : continued after = false

namespace JoinCut

variable {text before after xs ys : List Char}

/-- At the start of a text with no continuation there. -/
theorem start (h : continued text = false) : JoinCut text [] text :=
  ⟨rfl, rfl, h⟩

theorem continuation (h : JoinCut cs before after) :
    JoinCut ('\\' :: '\n' :: cs) ('\\' :: '\n' :: before) after where
  text_eq := congrArg ('\\' :: '\n' :: ·) h.text_eq
  join_eq := by rw [joinContinued_continuation, joinContinued_continuation, h.join_eq]
  fresh := h.fresh

theorem pair (hd : d ≠ '\n') (h : JoinCut cs before after) :
    JoinCut ('\\' :: d :: cs) ('\\' :: d :: before) after where
  text_eq := congrArg ('\\' :: d :: ·) h.text_eq
  join_eq := by
    rw [joinContinued_pair hd, joinContinued_pair hd, h.join_eq]
    rfl
  fresh := h.fresh

theorem cons (hc : c ≠ '\\') (h : JoinCut cs before after) :
    JoinCut (c :: cs) (c :: before) after where
  text_eq := congrArg (c :: ·) h.text_eq
  join_eq := by
    rw [joinContinued_cons hc, joinContinued_cons hc, h.join_eq]
    rfl
  fresh := h.fresh

/-- A joined text is cut in the source wherever it is cut after a line break. -/
theorem exists_of_append (h : joinContinued text = xs ++ ys) (hxs : EndsLine xs) :
    ∃ before after, JoinCut text before after ∧ joinContinued before = xs ∧
      joinContinued after = ys := by
  -- The induction is on the text, pair by pair where a backslash comes first.
  induction text using joinContinued.induct generalizing xs with
  | case1 =>
    obtain ⟨rfl, rfl⟩ := List.append_eq_nil_iff.1 h.symm
    exact ⟨[], [], start rfl, rfl, rfl⟩
  | case2 c =>
    rcases List.append_eq_singleton_iff.1 h.symm with ⟨rfl, rfl⟩ | ⟨rfl, rfl⟩
    · exact ⟨[], [c], start rfl, rfl, rfl⟩
    · exact ⟨[c], [], ⟨rfl, rfl, rfl⟩, rfl, rfl⟩
  | case3 cs ih =>
    rw [joinContinued_continuation] at h
    obtain ⟨before, after, hcut, hbefore, hafter⟩ := ih h hxs
    refine ⟨_, after, hcut.continuation, ?_, hafter⟩
    rw [joinContinued_continuation, hbefore]
  | case4 d cs hd ih =>
    match xs, hxs with
    | [], _ => exact ⟨[], _, start (continued_pair hd cs), rfl, h⟩
    | [x], hxs =>
      -- A line break is never the first of a pair.
      obtain rfl : x = '\n' := hxs x rfl
      rw [joinContinued_pair hd] at h
      cases h
    | x :: y :: xs, hxs =>
      rw [joinContinued_pair hd] at h
      injection h with hx h
      injection h with hy hrest
      obtain ⟨before, after, hcut, hbefore, hafter⟩ := ih hrest hxs.tail.tail
      refine ⟨_, after, hcut.pair hd, ?_, hafter⟩
      rw [joinContinued_pair hd, hbefore, hx, hy]
  | case5 c d cs hc ih =>
    match xs, hxs with
    | [], _ => exact ⟨[], _, start (continued_cons hc _), rfl, h⟩
    | x :: xs, hxs =>
      rw [joinContinued_cons hc] at h
      injection h with hx hrest
      obtain ⟨before, after, hcut, hbefore, hafter⟩ := ih hrest hxs.tail
      refine ⟨_, after, hcut.cons hc, ?_, hafter⟩
      rw [joinContinued_cons hc, hbefore, hx]

/-- A cut of a text that starts with a continuation has that before it. -/
theorem of_continuation (h : JoinCut ('\\' :: '\n' :: cs) before after) :
    ∃ rest, before = '\\' :: '\n' :: rest ∧ JoinCut cs rest after := by
  obtain ⟨htext, hjoin, hfresh⟩ := h
  match before with
  | [] =>
    obtain rfl : '\\' :: '\n' :: cs = after := htext
    cases hfresh
  | [c] =>
    -- The two halves of the continuation would both be kept.
    obtain ⟨rfl, rfl⟩ : '\\' = c ∧ '\n' :: cs = after := by simpa using htext
    have hkept : joinContinued ('\n' :: cs) = '\n' :: joinContinued cs :=
      joinContinued_cons (by decide) cs
    rw [joinContinued_continuation, hkept] at hjoin
    have hlength := congrArg List.length hjoin
    simp only [joinContinued, List.cons_append, List.nil_append, List.length_cons] at hlength
    omega
  | c :: d :: rest =>
    obtain ⟨rfl, rfl, hcs⟩ : '\\' = c ∧ '\n' = d ∧ cs = rest ++ after := by simpa using htext
    rw [joinContinued_continuation, joinContinued_continuation] at hjoin
    exact ⟨rest, rfl, hcs, hjoin, hfresh⟩

/-- A cut of a text that starts with another pair is at its start, in the middle
    of the pair, or after it. -/
theorem of_pair (hd : d ≠ '\n') (h : JoinCut ('\\' :: d :: cs) before after) :
    before = [] ∨ before = ['\\'] ∨
      ∃ rest, before = '\\' :: d :: rest ∧ JoinCut cs rest after := by
  obtain ⟨htext, hjoin, hfresh⟩ := h
  match before with
  | [] => exact .inl rfl
  | [c] =>
    obtain ⟨rfl, -⟩ : '\\' = c ∧ d :: cs = after := by simpa using htext
    exact .inr (.inl rfl)
  | c :: e :: rest =>
    obtain ⟨rfl, rfl, hcs⟩ : '\\' = c ∧ d = e ∧ cs = rest ++ after := by simpa using htext
    rw [joinContinued_pair hd, joinContinued_pair hd] at hjoin
    exact .inr (.inr ⟨rest, rfl, hcs, by simpa using hjoin, hfresh⟩)

theorem of_cons (hc : c ≠ '\\') (h : JoinCut (c :: cs) before after) :
    before = [] ∨ ∃ rest, before = c :: rest ∧ JoinCut cs rest after := by
  obtain ⟨htext, hjoin, hfresh⟩ := h
  match before with
  | [] => exact .inl rfl
  | e :: rest =>
    obtain ⟨rfl, hcs⟩ : c = e ∧ cs = rest ++ after := by simpa using htext
    rw [joinContinued_cons hc, joinContinued_cons hc] at hjoin
    exact .inr ⟨rest, rfl, hcs, by simpa using hjoin, hfresh⟩

/-- What a joined text has before a cut determines the cut. -/
theorem before_unique {before' after' : List Char} (h : JoinCut text before after)
    (h' : JoinCut text before' after') (hsame : joinContinued before = joinContinued before') :
    before = before' := by
  -- Both cuts are followed through the text. Where one of them is reached before
  -- the other, more is kept before the other.
  induction text using joinContinued.induct generalizing before before' with
  | case1 =>
    rw [(List.append_eq_nil_iff.1 h.text_eq.symm).1, (List.append_eq_nil_iff.1 h'.text_eq.symm).1]
  | case2 c =>
    rcases List.append_eq_singleton_iff.1 h.text_eq.symm with ⟨rfl, -⟩ | ⟨rfl, -⟩ <;>
      rcases List.append_eq_singleton_iff.1 h'.text_eq.symm with ⟨rfl, -⟩ | ⟨rfl, -⟩ <;>
        first | rfl | cases hsame
  | case3 cs ih =>
    obtain ⟨rest, rfl, hrest⟩ := h.of_continuation
    obtain ⟨rest', rfl, hrest'⟩ := h'.of_continuation
    rw [joinContinued_continuation, joinContinued_continuation] at hsame
    rw [ih hrest hrest' hsame]
  | case4 d cs hd ih =>
    rcases h.of_pair hd with rfl | rfl | ⟨rest, rfl, hrest⟩ <;>
      rcases h'.of_pair hd with rfl | rfl | ⟨rest', rfl, hrest'⟩
    case inr.inr.inr.inr =>
      rw [joinContinued_pair hd, joinContinued_pair hd] at hsame
      rw [ih hrest hrest' (by simpa using hsame)]
    all_goals simp_all [joinContinued]
  | case5 c d cs hc ih =>
    rcases h.of_cons hc with rfl | ⟨rest, rfl, hrest⟩ <;>
      rcases h'.of_cons hc with rfl | ⟨rest', rfl, hrest'⟩
    case inr.inr =>
      rw [joinContinued_cons hc, joinContinued_cons hc] at hsame
      rw [ih hrest hrest' (by simpa using hsame)]
    all_goals simp_all [joinContinued_cons, joinContinued]

end JoinCut

end Joining

section Lines

theorem EndsLine.append {xs ys : List Char} (hxs : EndsLine xs) (hys : EndsLine ys) :
    EndsLine (xs ++ ys) := by
  intro c hc
  rw [List.getLast?_append] at hc
  cases hlast : ys.getLast? with
  | none =>
    rw [hlast] at hc
    exact hxs c hc
  | some d =>
    rw [hlast] at hc
    cases hc
    exact hys c hlast

theorem flatten_splitLines (cs : List Char) : (splitLines cs).flatten = cs := by
  induction cs with
  | nil => rfl
  | cons c cs ih =>
    rw [splitLines]
    split
    · rw [List.flatten_cons, ih]
      rfl
    · -- The character joins the first line of the rest, if there is one.
      cases hlines : splitLines cs with
      | nil =>
        rw [hlines] at ih
        rw [← ih]
        rfl
      | cons l ls =>
        rw [hlines] at ih
        rw [← ih]
        rfl

/-- Every line but the last ends in its only line break. -/
theorem splitLines_take {index : Nat} {cs : List Char} (h : index < (splitLines cs).length) :
    ((splitLines cs).take index).flatten.count '\n' = index ∧
      EndsLine ((splitLines cs).take index).flatten := by
  induction index generalizing cs with
  | zero => exact ⟨rfl, fun c hc => nomatch hc⟩
  | succ index ih =>
    by_cases hmem : '\n' ∈ cs
    · -- The first line with its break is one piece, and the others are those of the rest.
      obtain ⟨l, t, rfl, hl⟩ := List.eq_append_cons_of_mem hmem
      rw [splitLines_line hl] at h ⊢
      obtain ⟨hcount, hends⟩ := ih (Nat.lt_of_succ_lt_succ h)
      have hline : EndsLine (l ++ ['\n']) := by simp [EndsLine]
      rw [List.take_succ_cons, List.flatten_cons]
      refine ⟨?_, hline.append hends⟩
      rw [List.count_append, hcount, List.count_append, List.count_eq_zero_of_not_mem hl]
      exact Nat.add_comm _ _
    · -- Without a line break there is one line at most.
      have hlast : (splitLines cs).length ≤ 1 := by
        by_cases hne : cs = []
        · rw [hne]
          exact Nat.zero_le 1
        · rw [splitLines_last hmem hne]
          exact Nat.le_refl 1
      omega

end Lines

section Pieces

variable {delimiter : Option String} {source before after : List Char} {index : Nat}

theorem contentPieces_eq (delimiter : Option String) (cs : List Char) :
    contentPieces delimiter cs = [prepared delimiter cs] ∨
      contentPieces delimiter cs = splitLines (prepared delimiter cs) := by
  have hpieces : contentPieces delimiter cs =
      if (Style.ofDelimiter delimiter).isWords || !(prepared delimiter cs).contains '\n'
      then [prepared delimiter cs] else splitLines (prepared delimiter cs) := rfl
  rw [hpieces]
  split
  · exact .inl rfl
  · exact .inr rfl

theorem flatten_contentPieces (delimiter : Option String) (cs : List Char) :
    (contentPieces delimiter cs).flatten = prepared delimiter cs := by
  rcases contentPieces_eq delimiter cs with h | h
  · rw [h, List.flatten_singleton]
  · rw [h, flatten_splitLines]

theorem contentPieces_take (h : index < (contentPieces delimiter source).length) :
    ((contentPieces delimiter source).take index).flatten.count '\n' = index ∧
      EndsLine ((contentPieces delimiter source).take index).flatten := by
  rcases contentPieces_eq delimiter source with hpieces | hpieces
  · rw [hpieces] at h ⊢
    obtain rfl : index = 0 := by simpa using h
    exact ⟨rfl, fun c hc => nomatch hc⟩
  · rw [hpieces] at h ⊢
    exact splitLines_take h

/-- How many continuations are removed from content. -/
def removed (delimiter : Option String) (cs : List Char) : Nat :=
  if (Style.ofDelimiter delimiter).joinsLines then continuations cs else 0

theorem count_newline_prepared (delimiter : Option String) (cs : List Char) :
    (prepared delimiter cs).count '\n' + removed delimiter cs = cs.count '\n' := by
  unfold prepared removed
  split
  · exact count_newline_joinContinued cs
  · rfl

/-- The piece of the source at an index starts after `before`: this is the source of
    the pieces before it, what follows is the source of this piece and the later
    ones, and a continuation in between is not part of that. -/
structure PieceStart (delimiter : Option String) (source : List Char) (index : Nat)
    (before after : List Char) : Prop where
  source_eq : source = before ++ after
  earlier : prepared delimiter before = ((contentPieces delimiter source).take index).flatten
  later : prepared delimiter after = ((contentPieces delimiter source).drop index).flatten
  fresh : (Style.ofDelimiter delimiter).joinsLines → continued after = false

/-- Each piece starts in one place of the source. -/
theorem pieceStart_existsUnique (h : index < (contentPieces delimiter source).length) :
    ∃! cut : List Char × List Char, PieceStart delimiter source index cut.1 cut.2 := by
  have hwhole := flatten_contentPieces delimiter source
  rw [← List.take_append_drop index (contentPieces delimiter source), List.flatten_append] at hwhole
  obtain ⟨-, hends⟩ := contentPieces_take h
  by_cases hjoins : (Style.ofDelimiter delimiter).joinsLines
  · have hprepared (cs : List Char) : prepared delimiter cs = joinContinued cs := if_pos hjoins
    rw [hprepared] at hwhole
    obtain ⟨before, after, hcut, hbefore, hafter⟩ := JoinCut.exists_of_append hwhole.symm hends
    -- The cut is the one that the joined text determines.
    refine ⟨(before, after), ?_, ?_⟩
    · exact ⟨hcut.text_eq, by rw [hprepared, hbefore], by rw [hprepared, hafter],
        fun _ => hcut.fresh⟩
    · rintro ⟨before', after'⟩ ⟨hsource', hearlier', hlater', hfresh'⟩
      rw [hprepared] at hearlier' hlater'
      have hcut' : JoinCut source before' after' :=
        ⟨hsource', by rw [← hwhole, hearlier', hlater'], hfresh' hjoins⟩
      have hsame : before' = before :=
        hcut'.before_unique hcut (hearlier'.trans hbefore.symm)
      have hrest : before' ++ after' = before ++ after := hsource'.symm.trans hcut.text_eq
      rw [hsame] at hrest
      exact Prod.ext hsame (List.append_cancel_left hrest)
  · have hprepared (cs : List Char) : prepared delimiter cs = cs := if_neg hjoins
    rw [hprepared] at hwhole
    refine ⟨(_, _), ⟨hwhole.symm, hprepared _, hprepared _, fun hj => absurd hj hjoins⟩, ?_⟩
    rintro ⟨before', after'⟩ ⟨-, hearlier', hlater', -⟩
    rw [hprepared] at hearlier' hlater'
    exact Prod.ext hearlier' hlater'

/-- Before a piece there is a line break for each earlier piece and for each
    continuation that was removed. -/
theorem PieceStart.count_newline (h : PieceStart delimiter source index before after)
    (hindex : index < (contentPieces delimiter source).length) :
    before.count '\n' = index + removed delimiter before := by
  rw [← count_newline_prepared delimiter before, h.earlier, (contentPieces_take hindex).1]

end Pieces

end RubyTree
