import Mathlib.Data.List.TakeWhile
import RubyTree.Log.Reader

/-!
# Reading Stays on the Line

No token of the log has a line break in it, and a token is never looked at past the
end of its line. So what is read on a line with a line break after it, and what goes
wrong there, is the same whatever the next lines are. The readers that are put
together from smaller ones have this from them.

Arguments are read with a bound on the steps. It is twice the length of all that is
left of the log, so that more lines mean more steps; enough are enough.

## Main definitions

* `Taken`: The rest of a text after some of a line.
* `OnLine`: A reader that stays on the line.
* `Draft`: An event whose numbers have not been decoded.
* `readDraft`: The line of an event.

## Theorems

* `OnLine.followedBy`: Readers one after the other.
* `onLine_lexeme?`, `onLine_head?`: Values and heads.
* `readArg_append`, `readArgs_append`, `readMoreArgs_append`: Arguments.
* `readDraft_append`: The line of an event.
* `readEvent_eq`: An event is its line and a look at the next one.
-/

namespace RubyTree

namespace Log

variable {α β : Type} {cs rest rest' x : List Char}

/-- What is left of a text once some of its first line is taken. -/
def Taken (cs rest : List Char) : Prop :=
  ∃ used, used ++ rest = cs ∧ '\n' ∉ used

namespace Taken

theorem refl (cs : List Char) : Taken cs cs :=
  ⟨[], rfl, List.not_mem_nil⟩

theorem trans (h : Taken cs rest) (h' : Taken rest rest') : Taken cs rest' := by
  obtain ⟨used, rfl, hused⟩ := h
  obtain ⟨used', rfl, hused'⟩ := h'
  refine ⟨used ++ used', List.append_assoc _ _ _, fun hmem => ?_⟩
  exact (List.mem_append.1 hmem).elim hused hused'

/-- A character that breaks no line is taken. -/
theorem cons {c : Char} (hc : c ≠ '\n') (cs : List Char) : Taken (c :: cs) cs :=
  ⟨[c], rfl, fun hmem => hc (List.mem_singleton.1 hmem).symm⟩

/-- What skips no line break stays on the line. -/
theorem dropWhile {p : Char → Bool} (hp : p '\n' = false) (cs : List Char) :
    Taken cs (cs.dropWhile p) := by
  refine ⟨cs.takeWhile p, List.takeWhile_append_dropWhile, fun hmem => ?_⟩
  exact absurd (hp.symm.trans (List.mem_takeWhile_imp hmem)) (by decide)

/-- White space between lexemes stays on the line. -/
theorem skip (cs : List Char) : Taken cs (skip cs) :=
  dropWhile (by decide) cs

/-- Nothing is put back. -/
theorem length_le (h : Taken cs rest) : rest.length ≤ cs.length := by
  obtain ⟨used, rfl, -⟩ := h
  rw [List.length_append]
  exact Nat.le_add_left _ _

/-- The number of lines left is the same. -/
theorem count_eq (h : Taken cs rest) : rest.count '\n' = cs.count '\n' := by
  obtain ⟨used, rfl, hused⟩ := h
  rw [List.count_append, List.count_eq_zero.2 hused, Nat.zero_add]

/-- What is left is the end of the text. -/
theorem suffix (h : Taken cs rest) : rest <:+ cs := by
  obtain ⟨used, rfl, -⟩ := h
  exact List.suffix_append used rest

/-- A line break that was ahead is still ahead. -/
theorem mem (h : Taken cs rest) (hcs : '\n' ∈ cs) : '\n' ∈ rest := by
  rw [← List.count_pos_iff, h.count_eq]
  exact List.count_pos_iff.2 hcs

end Taken

/-- What was read, if there is more text at the end. -/
def more (x : List Char) (read : α × List Char) : α × List Char :=
  (read.1, read.2 ++ x)

/-- A reader and then another one. -/
def followedBy (f : List Char → Option (α × List Char)) (g : α → List Char → Option (β × List Char))
    (cs : List Char) : Option (β × List Char) :=
  (f cs).bind fun read => g read.1 read.2

/-- The reader of spaces. -/
def blanks (cs : List Char) : Option (Unit × List Char) :=
  some ((), skip cs)

/-- The reader of one character. -/
def mark? (c : Char) : List Char → Option (Unit × List Char)
  | d :: cs => if d = c then some ((), cs) else none
  | [] => none

/-- A reader that takes no line break, and does not look past the first one. -/
structure OnLine (f : List Char → Option (α × List Char)) : Prop where
  taken : ∀ {cs v rest}, f cs = some (v, rest) → Taken cs rest
  append : ∀ {cs}, '\n' ∈ cs → ∀ x, f (cs ++ x) = (f cs).map (more x)

section Tokens

/-- A line break that ends the taking hides the text behind it. -/
theorem takeWhile_append_of_break {p : Char → Bool} (hp : p '\n' = false) (h : '\n' ∈ cs)
    (x : List Char) : (cs ++ x).takeWhile p = cs.takeWhile p := by
  rw [List.takeWhile_append, if_neg]
  intro hall
  have hself := (List.takeWhile_prefix p).eq_of_length hall
  simpa [hp] using List.takeWhile_eq_self_iff.1 hself '\n' h

/-- A line break that ends the dropping hides the text behind it. -/
theorem dropWhile_append_of_break {p : Char → Bool} (hp : p '\n' = false) (h : '\n' ∈ cs)
    (x : List Char) : (cs ++ x).dropWhile p = cs.dropWhile p ++ x := by
  rw [List.dropWhile_append, if_neg]
  intro hnil
  simpa [hp] using List.dropWhile_eq_nil_iff.1 (List.isEmpty_iff.1 hnil) '\n' h

theorem skip_append (h : '\n' ∈ cs) (x : List Char) : skip (cs ++ x) = skip cs ++ x :=
  dropWhile_append_of_break (by decide) h x

namespace OnLine

variable {f : List Char → Option (α × List Char)} {g : α → List Char → Option (β × List Char)}

theorem pure (v : α) : OnLine fun cs => some (v, cs) where
  taken h := by
    cases h
    exact .refl _
  append _ _ := rfl

/-- Two readers one after the other. -/
theorem followedBy (hf : OnLine f) (hg : ∀ v, OnLine (g v)) : OnLine (followedBy f g) where
  taken h := by
    obtain ⟨⟨v, rest⟩, hv, hw⟩ := Option.bind_eq_some_iff.1 h
    exact (hf.taken hv).trans ((hg v).taken hw)
  append {cs} h x := by
    unfold Log.followedBy
    rw [hf.append h]
    cases hv : f cs with
    | none => rfl
    | some read => exact (hg read.1).append ((hf.taken hv).mem h) x

theorem map (hf : OnLine f) (k : α → β) :
    OnLine fun cs => (f cs).map fun (v, rest) => (k v, rest) := by
  have hboth := hf.followedBy fun v => pure (k v)
  unfold Log.followedBy at hboth
  simpa only [Option.map_eq_bind, Function.comp_def] using hboth

end OnLine

theorem onLine_blanks : OnLine blanks where
  taken h := by
    cases h
    exact .skip _
  append h x := by
    rw [blanks, skip_append h]
    rfl

/-- A mark that is no line break. -/
theorem onLine_mark? {c : Char} (hc : c ≠ '\n') : OnLine (mark? c) where
  taken {cs v rest} h := by
    cases cs with
    | nil => cases h
    | cons d cs =>
      rw [mark?] at h
      split at h
      next heq =>
        cases h
        exact .cons (heq ▸ hc) _
      next => cases h
  append {cs} h x := by
    cases cs with
    | nil => cases h
    | cons d cs =>
      rw [List.cons_append, mark?, mark?]
      split <;> rfl

/-- Figures are no line breaks. -/
theorem onLine_figures? : OnLine figures? where
  taken h := by
    unfold figures? at h
    split at h
    next => cases h
    next =>
      cases h
      exact .dropWhile (by decide) _
  append h x := by
    unfold figures?
    rw [takeWhile_append_of_break (by decide) h, dropWhile_append_of_break (by decide) h]
    split <;> rfl

/-- A number takes a figure at least. -/
theorem length_lt_of_figures? {ds : List Char} (h : figures? cs = some (ds, rest)) :
    rest.length < cs.length := by
  unfold figures? at h
  split at h
  next => cases h
  next hne =>
    cases h
    have hlength := congrArg List.length (List.takeWhile_append_dropWhile (p := isFigure) (l := cs))
    rw [List.length_append] at hlength
    have hpos : 0 < (cs.takeWhile isFigure).length := List.length_pos_iff.2 hne
    omega

/-- A name has no line break in it. -/
theorem onLine_plainName? : OnLine plainName? where
  taken {cs v rest} h := by
    cases cs with
    | nil => cases h
    | cons c cs =>
      rw [plainName?] at h
      split at h
      next hc =>
        cases h
        -- No name starts with a line break.
        refine (Taken.cons ?_ cs).trans (.dropWhile (by decide) cs)
        rintro rfl
        exact absurd hc (by decide)
      next => cases h
  append {cs} h x := by
    cases cs with
    | nil => cases h
    | cons c cs =>
      rw [List.cons_append, plainName?, plainName?]
      split
      next hc =>
        have hcs : '\n' ∈ cs := (List.mem_cons.1 h).resolve_left fun heq => by
          rw [← heq] at hc
          exact absurd hc (by decide)
        rw [takeWhile_append_of_break (by decide) hcs, dropWhile_append_of_break (by decide) hcs]
        rfl
      next => rfl

/-- A name without the mark of a token. -/
theorem name?_of_ne {c : Char} (hc : c ≠ '@') (cs : List Char) :
    name? (c :: cs) = plainName? (c :: cs) := by
  rw [name?]
  rintro _ heq
  exact hc (List.cons.inj heq).1

/-- A name, with the mark of a token or without it. -/
theorem onLine_name? : OnLine name? where
  taken {cs v rest} h := by
    cases cs with
    | nil => cases h
    | cons c cs =>
      -- Behind the mark of a token stands a plain name.
      by_cases hc : c = '@'
      · subst hc
        exact (Taken.cons (by decide) cs).trans ((onLine_plainName?.map _).taken h)
      · rw [name?_of_ne hc] at h
        exact onLine_plainName?.taken h
  append {cs} h x := by
    cases cs with
    | nil => cases h
    | cons c cs =>
      by_cases hc : c = '@'
      · subst hc
        have hcs : '\n' ∈ cs := (List.mem_cons.1 h).resolve_left (by decide)
        exact (onLine_plainName?.map _).append hcs x
      · rw [List.cons_append, name?_of_ne hc, name?_of_ne hc, ← List.cons_append]
        exact onLine_plainName?.append h x

/-- A quoted text ends on its line or is none. -/
theorem onLine_span? : OnLine QuotedText.span? where
  taken {cs v rest} h := by
    -- The cases in which the text has no end are closed by `h`.
    fun_induction QuotedText.span? cs generalizing v rest with
    | case1 => cases h
    | case2 =>
      cases h
      exact .cons (by decide) []
    | case3 => cases h
    | case4 d cs =>
      cases h
      exact .cons (by decide) _
    | case5 => cases h
    | case6 => cases h
    | case7 d cs hd _ _ ih =>
      obtain ⟨⟨inner, left⟩, hleft, heq⟩ := Option.map_eq_some_iff.1 h
      cases heq
      have hbackslash : '\\' ≠ '\n' := by decide
      exact ((Taken.cons hbackslash _).trans (.cons hd _)).trans (ih hleft)
    | case8 c d cs _ hline _ ih =>
      obtain ⟨⟨inner, left⟩, hleft, heq⟩ := Option.map_eq_some_iff.1 h
      cases heq
      exact (Taken.cons hline _).trans (ih hleft)
  append {cs} h x := by
    -- A line break in the text ends it without a value, so the break that `h` gives is
    -- either that one or still ahead.
    fun_induction QuotedText.span? cs with
    | case1 => cases h
    | case2 => exact absurd h (by decide)
    | case3 c hc =>
      obtain rfl := List.mem_singleton.1 h
      cases x <;> simp [QuotedText.span?]
    | case4 d cs => simp [QuotedText.span?, more]
    | case5 d cs => simp [QuotedText.span?]
    | case6 cs => simp [QuotedText.span?]
    | case7 d cs hd _ _ ih =>
      have hcs : '\n' ∈ cs := by simpa [Ne.symm hd] using h
      simp [QuotedText.span?, hd, ih hcs, more, Function.comp_def]
    | case8 c d cs hquote hline hbackslash ih =>
      have hcs : '\n' ∈ d :: cs := (List.mem_cons.1 h).resolve_left (Ne.symm hline)
      have hrest := ih hcs
      rw [List.cons_append] at hrest
      simp [QuotedText.span?, hquote, hline, hbackslash, hrest, more, Function.comp_def]

/-- A text with a line break starts with a word only if it does so without what is at
    its end, since the word has no line break. -/
theorem ne_append_of_break (word : List Char) (hword : '\n' ∉ word) (h : '\n' ∈ cs)
    (hne : ∀ rest, cs ≠ word ++ rest) (left : List Char) : cs ++ x ≠ word ++ left := by
  intro heq
  rcases List.append_eq_append_iff.1 heq with ⟨missing, rfl, -⟩ | ⟨rest, rfl, -⟩
  · exact hword (List.mem_append_left _ h)
  · exact hne rest rfl

/-- Every lexeme is on one line. -/
theorem onLine_lexeme? : OnLine lexeme? where
  taken {cs v rest} h := by
    unfold lexeme? at h
    split at h
    next => exact (Taken.cons (by decide) _).trans ((onLine_figures?.map _).taken h)
    next => exact (Taken.cons (by decide) _).trans ((onLine_span?.map _).taken h)
    next =>
      exact ((Taken.cons (by decide) _).trans (.cons (by decide) _)).trans
        ((onLine_span?.map _).taken h)
    next => exact (Taken.cons (by decide) _).trans ((onLine_figures?.map _).taken h)
    next => exact (Taken.cons (by decide) _).trans ((onLine_figures?.map _).taken h)
    next =>
      cases h
      exact ⟨['n', 'i', 'l'], rfl, by decide⟩
    next =>
      cases h
      exact ⟨['t', 'r', 'u', 'e'], rfl, by decide⟩
    next =>
      cases h
      exact ⟨['f', 'a', 'l', 's', 'e'], rfl, by decide⟩
    next => exact (onLine_figures?.map _).taken h
  append {cs} h x := by
    rw [lexeme?.eq_def cs]
    split
    next cs => exact (onLine_figures?.map _).append (by simpa using h) x
    next cs => exact (onLine_span?.map _).append (by simpa using h) x
    next cs => exact (onLine_span?.map _).append (by simpa using h) x
    next cs => exact (onLine_figures?.map _).append (by simpa using h) x
    next cs => exact (onLine_figures?.map _).append (by simpa using h) x
    next cs => rfl
    next cs => rfl
    next cs => rfl
    next href hquoted hsymbol hminus hplus hnil htrue hfalse =>
      -- No other value starts here, with or without what is at the end.
      rw [lexeme?]
      · exact (onLine_figures?.map _).append h x
      · exact ne_append_of_break ['#'] (by decide) h href
      · exact ne_append_of_break ['"'] (by decide) h hquoted
      · exact ne_append_of_break [':', '"'] (by decide) h hsymbol
      · exact ne_append_of_break ['-'] (by decide) h hminus
      · exact ne_append_of_break ['+'] (by decide) h hplus
      · exact ne_append_of_break ['n', 'i', 'l'] (by decide) h hnil
      · exact ne_append_of_break ['t', 'r', 'u', 'e'] (by decide) h htrue
      · exact ne_append_of_break ['f', 'a', 'l', 's', 'e'] (by decide) h hfalse

/-- A lexeme takes a character at least. -/
theorem length_lt_of_lexeme? {lexeme : Lexeme} (h : lexeme? cs = some (lexeme, rest)) :
    rest.length < cs.length := by
  -- Behind a mark it is enough that no character is put back.
  have hmark : ∀ {f : List Char → Option (List Char × List Char)} (_ : OnLine f) {us : List Char}
      {k : List Char × List Char → Lexeme × List Char} (_ : ∀ read, (k read).2 = read.2),
      (f us).map k = some (lexeme, rest) → rest.length ≤ us.length := by
    intro f hf us k hk h
    obtain ⟨read, hread, heq⟩ := Option.map_eq_some_iff.1 h
    obtain rfl : read.2 = rest := (hk read).symm.trans (congrArg Prod.snd heq)
    exact (hf.taken hread).length_le
  unfold lexeme? at h
  split at h
  next cs => exact Nat.lt_succ_of_le (hmark onLine_figures? (fun _ => rfl) h)
  next cs => exact Nat.lt_succ_of_le (hmark onLine_span? (fun _ => rfl) h)
  next cs => exact Nat.lt_succ_of_lt (Nat.lt_succ_of_le (hmark onLine_span? (fun _ => rfl) h))
  next cs => exact Nat.lt_succ_of_le (hmark onLine_figures? (fun _ => rfl) h)
  next cs => exact Nat.lt_succ_of_le (hmark onLine_figures? (fun _ => rfl) h)
  next => cases h; simp only [List.length_cons]; omega
  next => cases h; simp only [List.length_cons]; omega
  next => cases h; simp only [List.length_cons]; omega
  next =>
    obtain ⟨⟨ds, left⟩, hleft, heq⟩ := Option.map_eq_some_iff.1 h
    cases heq
    exact length_lt_of_figures? hleft

theorem followedBy_blanks (g : Unit → List Char → Option (β × List Char)) (cs : List Char) :
    followedBy blanks g cs = g () (skip cs) :=
  rfl

/-- A reader that wants a mark fails where there is none. -/
theorem followedBy_mark?_eq_none {c : Char} (h : ∀ rest, cs ≠ c :: rest)
    (g : Unit → List Char → Option (β × List Char)) : followedBy (mark? c) g cs = none := by
  cases cs with
  | nil => rfl
  | cons d cs =>
    have hd : d ≠ c := fun heq => h cs (heq ▸ rfl)
    rw [followedBy, mark?, if_neg hd]
    rfl

/-- The head of an event is a row of tokens and marks. -/
theorem head?_eq (cs : List Char) :
    head? cs = followedBy (mark? '#') (fun _ => followedBy figures? fun id => followedBy blanks
      fun _ => followedBy name? fun name => followedBy blanks fun _ => followedBy figures?
      fun line => followedBy (mark? ':') fun _ => followedBy figures? fun column =>
      followedBy blanks fun _ => followedBy (mark? '(') fun _ => followedBy blanks fun _ cs =>
      some ((id, name, line, column), cs)) cs := by
  unfold head?
  split
  next cs =>
    -- Both sides take the same tokens in turn, and differ only in how a mark is tested.
    refine Option.bind_congr fun (id, cs) _ => ?_
    refine Option.bind_congr fun (name, cs) _ => ?_
    refine Option.bind_congr fun (line, cs) _ => ?_
    dsimp only
    split
    next cs =>
      refine Option.bind_congr fun (column, cs) _ => ?_
      dsimp only
      rw [followedBy_blanks]
      split
      next cs heq =>
        rw [heq]
        rfl
      next hne => exact (followedBy_mark?_eq_none hne _).symm
    next hne => exact (followedBy_mark?_eq_none hne _).symm
  next hne => exact (followedBy_mark?_eq_none hne _).symm

/-- What comes before the arguments of an event is on one line. -/
theorem onLine_head? : OnLine head? := by
  have hnumber : '#' ≠ '\n' := by decide
  have hcolon : ':' ≠ '\n' := by decide
  have hopen : '(' ≠ '\n' := by decide
  rw [funext head?_eq]
  refine (onLine_mark? hnumber).followedBy fun _ => onLine_figures?.followedBy fun id => ?_
  refine onLine_blanks.followedBy fun _ => onLine_name?.followedBy fun name => ?_
  refine onLine_blanks.followedBy fun _ => onLine_figures?.followedBy fun line => ?_
  refine (onLine_mark? hcolon).followedBy fun _ => onLine_figures?.followedBy fun column => ?_
  refine onLine_blanks.followedBy fun _ => (onLine_mark? hopen).followedBy fun _ => ?_
  exact onLine_blanks.followedBy fun _ => .pure _

end Tokens

section Arguments

variable {line fuel : Nat} {close : Char}

/-- A value whose extent is known: what follows it has to end a value. -/
def endValue (line : Nat) (value : Except Error Arg) (rest : List Char) :
    Except Error (Arg × List Char) :=
  if endsValue (skip rest) then value.map (·, skip rest) else .error (.malformedLog line)

/-- An argument and the ones after it. -/
def readFirst (line : Nat) (close : Char) (fuel : Nat) (cs : List Char) :
    Except Error (List Arg × List Char) :=
  (readArg line fuel cs).bind fun first =>
    (readMoreArgs line close fuel first.2).map fun others => (first.1 :: others.1, others.2)

/-- An opening bracket starts a list. -/
theorem readArg_bracket (line fuel : Nat) (cs : List Char) :
    readArg line (fuel + 1) ('[' :: cs) =
      (readArgs line ']' fuel (skip cs)).bind fun read =>
        endValue line (.ok (.list read.1)) read.2 := by
  rw [readArg]
  rfl

/-- Anything else is a lexeme. -/
theorem readArg_of_ne {c : Char} (hc : c ≠ '[') (line fuel : Nat) (cs : List Char) :
    readArg line (fuel + 1) (c :: cs) = match lexeme? (c :: cs) with
      | some (lexeme, rest) => endValue line lexeme.decode rest
      | none => .error (.malformedLog line) := by
  rw [readArg]
  · cases lexeme? (c :: cs) with
    | none => rfl
    | some read =>
      dsimp only [endValue]
      split
      · cases read.1.decode <;> rfl
      · rfl
  · intro cs heq
    exact hc (List.cons.inj heq).1

/-- A list of arguments is closed at once or has a first one. -/
theorem readArgs_cons (line fuel : Nat) (close c : Char) (cs : List Char) :
    readArgs line close (fuel + 1) (c :: cs) =
      if c = close then .ok ([], cs) else readFirst line close fuel (c :: cs) := by
  rw [readArgs]
  rfl

/-- Behind an argument there is an end, a comma, or an error. -/
theorem readMoreArgs_cons (line fuel : Nat) (close c : Char) (cs : List Char) :
    readMoreArgs line close (fuel + 1) (c :: cs) =
      if c = close then .ok ([], cs)
      else if c = ',' then readFirst line close fuel (skip cs)
      else .error (.malformedLog line) := by
  rw [readMoreArgs]
  rfl

/-- What is left is shorter, and still has all line breaks. -/
def Shortened (cs rest : List Char) : Prop :=
  Taken cs rest ∧ rest.length < cs.length

theorem Shortened.cons {c : Char} (hc : c ≠ '\n') (h : Taken cs rest) : Shortened (c :: cs) rest :=
  ⟨(Taken.cons hc cs).trans h, Nat.lt_succ_of_le h.length_le⟩

theorem Shortened.trans (h : Shortened cs rest) (h' : Taken rest rest') : Shortened cs rest' :=
  ⟨h.1.trans h', Nat.lt_of_le_of_lt h'.length_le h.2⟩

/-- What ends a value is not taken. -/
theorem taken_endValue {value : Except Error Arg} {v : Arg}
    (h : endValue line value rest = .ok (v, rest')) : Taken rest rest' := by
  unfold endValue at h
  split at h
  · cases value with
    | error e => cases h
    | ok w =>
      cases h
      exact .skip rest
  · cases h

/-- A first argument, given what is known of an argument and of further ones. -/
theorem shortened_readFirst {args : List Arg}
    (harg : ∀ {v rest}, readArg line fuel cs = .ok (v, rest) → Shortened cs rest)
    (hmore : ∀ {us vs rest}, readMoreArgs line close fuel us = .ok (vs, rest) → Shortened us rest)
    (h : readFirst line close fuel cs = .ok (args, rest)) : Shortened cs rest := by
  unfold readFirst at h
  cases hfirst : readArg line fuel cs with
  | error e =>
    rw [hfirst] at h
    cases h
  | ok first =>
    rw [hfirst] at h
    cases hothers : readMoreArgs line close fuel first.2 with
    | error e =>
      simp only [Except.bind, hothers] at h
      cases h
    | ok others =>
      simp only [Except.bind, hothers] at h
      cases h
      -- The argument takes something already, so the others may take nothing.
      exact (harg hfirst).trans (hmore hothers).1

mutual

/-- An argument takes a part of its line, which is not empty. -/
theorem shortened_readArg {line : Nat} : ∀ {fuel : Nat} {cs rest : List Char} {v : Arg},
    readArg line fuel cs = .ok (v, rest) → Shortened cs rest
  | 0, _, _, _, h => by
    rw [readArg] at h
    cases h
  | fuel + 1, [], _, _, h => by
    cases h
  | fuel + 1, c :: cs, rest, v, h => by
    by_cases hc : c = '['
    · subst hc
      rw [readArg_bracket] at h
      cases hitems : readArgs line ']' fuel (skip cs) with
      | error e =>
        rw [hitems] at h
        cases h
      | ok read =>
        rw [hitems] at h
        have hread := shortened_readArgs (by decide) hitems
        -- The bracket is one character, and what follows it gets no longer.
        exact .cons (by decide) (((Taken.skip cs).trans hread.1).trans (taken_endValue h))
    · rw [readArg_of_ne hc] at h
      split at h
      next lexeme left hlexeme =>
        refine Shortened.trans ⟨onLine_lexeme?.taken hlexeme, ?_⟩ (taken_endValue h)
        exact length_lt_of_lexeme? hlexeme
      next => cases h

theorem shortened_readArgs {line : Nat} {close : Char} (hclose : close ≠ '\n') :
    ∀ {fuel : Nat} {cs rest : List Char} {args : List Arg},
      readArgs line close fuel cs = .ok (args, rest) → Shortened cs rest
  | 0, _, _, _, h => by
    rw [readArgs] at h
    cases h
  | fuel + 1, [], _, _, h => by
    rw [readArgs] at h
    cases h
  | fuel + 1, c :: cs, rest, args, h => by
    rw [readArgs_cons] at h
    split at h
    next heq =>
      cases h
      exact .cons (heq ▸ hclose) (.refl cs)
    next => exact shortened_readFirst shortened_readArg (shortened_readMoreArgs hclose) h

theorem shortened_readMoreArgs {line : Nat} {close : Char} (hclose : close ≠ '\n') :
    ∀ {fuel : Nat} {cs rest : List Char} {args : List Arg},
      readMoreArgs line close fuel cs = .ok (args, rest) → Shortened cs rest
  | 0, _, _, _, h => by
    rw [readMoreArgs] at h
    cases h
  | fuel + 1, [], _, _, h => by
    rw [readMoreArgs] at h
    cases h
  | fuel + 1, c :: cs, rest, args, h => by
    rw [readMoreArgs_cons] at h
    split at h
    -- The closing mark is taken, and it is no line break.
    next heq =>
      cases h
      exact .cons (heq ▸ hclose) (.refl cs)
    next =>
      split at h
      next heq =>
        have hfirst := shortened_readFirst shortened_readArg (shortened_readMoreArgs hclose) h
        exact .cons (heq ▸ by decide) ((Taken.skip cs).trans hfirst.1)
      next => cases h

end

/-- Readers in a row, each of which hands on what is behind the text. -/
theorem bind_more {r r' : Except Error (α × List Char)}
    {f g : α × List Char → Except Error (β × List Char)} (hr : r' = r.map (more x))
    (hf : ∀ read, r = .ok read → f (more x read) = (g read).map (more x)) :
    r'.bind f = (r.bind g).map (more x) := by
  subst hr
  cases r with
  | error e => rfl
  | ok read => exact hf read rfl

/-- Where a value ends is decided on its line. -/
theorem endValue_append (h : '\n' ∈ rest) (line : Nat) (value : Except Error Arg)
    (x : List Char) :
    endValue line value (rest ++ x) = (endValue line value rest).map (more x) := by
  -- Whether a value ends is seen from the next character, and that is not one of `x`.
  have hends : ∀ {cs : List Char}, '\n' ∈ cs → endsValue (cs ++ x) = endsValue cs := by
    intro cs hcs
    cases cs with
    | nil => cases hcs
    | cons c cs => rfl
  unfold endValue
  rw [skip_append h, hends ((Taken.skip rest).mem h)]
  split
  · cases value <;> rfl
  · rfl

/-- A first argument, given what is known of an argument and of further ones. -/
theorem readFirst_append {fuel' : Nat} (h : '\n' ∈ cs)
    (harg : readArg line fuel' (cs ++ x) = (readArg line fuel cs).map (more x))
    (hmore : ∀ {rest}, '\n' ∈ rest → rest.length < cs.length →
      readMoreArgs line close fuel' (rest ++ x) =
        (readMoreArgs line close fuel rest).map (more x)) :
    readFirst line close fuel' (cs ++ x) = (readFirst line close fuel cs).map (more x) := by
  refine bind_more harg fun first hfirst => ?_
  have hleft := shortened_readArg hfirst
  rw [more, hmore (hleft.1.mem h) hleft.2]
  cases readMoreArgs line close fuel first.2 <;> rfl

-- Twice the length is enough for an argument, and one step more for some of them: the
-- step that goes from the list to its first item takes no character.
mutual

/-- More text after a line break is not looked at while an argument is read. -/
theorem readArg_append (line : Nat) (x : List Char) : ∀ (fuel fuel' : Nat) (cs : List Char),
    '\n' ∈ cs → 2 * cs.length ≤ fuel → 2 * cs.length ≤ fuel' →
      readArg line fuel' (cs ++ x) = (readArg line fuel cs).map (more x)
  | _, _, [], h, _, _ => by cases h
  | 0, _, c :: cs, _, hfuel, _ => by
    rw [List.length_cons] at hfuel
    omega
  | _, 0, c :: cs, _, _, hfuel => by
    rw [List.length_cons] at hfuel
    omega
  | fuel + 1, fuel' + 1, c :: cs, h, hfuel, hfuel' => by
    -- Either amount of fuel is enough for what is left of the line.
    rw [List.length_cons] at hfuel hfuel'
    rw [List.cons_append]
    by_cases hc : c = '['
    · subst hc
      have hcs : '\n' ∈ cs := (List.mem_cons.1 h).resolve_left (by decide)
      have hskip := Taken.skip cs
      rw [readArg_bracket, readArg_bracket, skip_append hcs]
      refine bind_more (readArgs_append line x (by decide) fuel fuel' (skip cs) (hskip.mem hcs)
        (by have := hskip.length_le; omega) (by have := hskip.length_le; omega))
          fun read hread => ?_
      exact endValue_append ((shortened_readArgs (by decide) hread).1.mem (hskip.mem hcs)) line _ x
    · rw [readArg_of_ne hc, readArg_of_ne hc, ← List.cons_append, onLine_lexeme?.append h]
      cases hlexeme : lexeme? (c :: cs) with
      | none => rfl
      | some read => exact endValue_append ((onLine_lexeme?.taken hlexeme).mem h) line _ x

theorem readArgs_append (line : Nat) (x : List Char) {close : Char} (hclose : close ≠ '\n') :
    ∀ (fuel fuel' : Nat) (cs : List Char),
    '\n' ∈ cs → 2 * cs.length + 1 ≤ fuel → 2 * cs.length + 1 ≤ fuel' →
      readArgs line close fuel' (cs ++ x) = (readArgs line close fuel cs).map (more x)
  | _, _, [], h, _, _ => by cases h
  | 0, _, c :: cs, _, hfuel, _ => by omega
  | _, 0, c :: cs, _, _, hfuel => by omega
  | fuel + 1, fuel' + 1, c :: cs, h, hfuel, hfuel' => by
    rw [List.cons_append, readArgs_cons, readArgs_cons]
    split
    · rfl
    · refine readFirst_append h (readArg_append line x fuel fuel' _ h (by omega) (by omega)) ?_
      intro rest hrest hlength
      exact readMoreArgs_append line x hclose fuel fuel' rest hrest (by omega) (by omega)

theorem readMoreArgs_append (line : Nat) (x : List Char) {close : Char} (hclose : close ≠ '\n') :
    ∀ (fuel fuel' : Nat) (cs : List Char),
    '\n' ∈ cs → 2 * cs.length + 1 ≤ fuel → 2 * cs.length + 1 ≤ fuel' →
      readMoreArgs line close fuel' (cs ++ x) = (readMoreArgs line close fuel cs).map (more x)
  | _, _, [], h, _, _ => by cases h
  | 0, _, c :: cs, _, hfuel, _ => by omega
  | _, 0, c :: cs, _, _, hfuel => by omega
  | fuel + 1, fuel' + 1, c :: cs, h, hfuel, hfuel' => by
    rw [List.length_cons] at hfuel hfuel'
    rw [List.cons_append, readMoreArgs_cons, readMoreArgs_cons]
    split
    · rfl
    · split
      next heq =>
        -- The comma is taken, so the line break is behind it and both bounds have gone down.
        have hcs : '\n' ∈ cs := (List.mem_cons.1 h).resolve_left (heq ▸ by decide)
        have hskip := (Taken.skip cs).length_le
        rw [skip_append hcs]
        refine readFirst_append ((Taken.skip cs).mem hcs)
          (readArg_append line x fuel fuel' _ ((Taken.skip cs).mem hcs) (by omega) (by omega)) ?_
        intro rest hrest hlength
        exact readMoreArgs_append line x hclose fuel fuel' rest hrest (by omega) (by omega)
      next => rfl

end

end Arguments

section Events

/-- An event whose numbers have not been decoded. -/
structure Draft where
  id : List Char
  name : List Char
  line : List Char
  column : List Char
  args : List Arg

/-- The event that a draft is of. -/
def Draft.event (d : Draft) : Except Error Event := do
  return {
    id := ← natural d.id
    name := String.ofList d.name
    line := ← natural d.line
    column := ← natural d.column
    args := d.args }

/-- The end of an event's line after its arguments. -/
def endLine (number : Nat) (draft : Draft) (rest : List Char) : Except Error (Draft × List Char) :=
  match lineEnd? (skip rest) with
  | none => .error (.malformedLog number)
  | some rest => .ok (draft, rest)

/-- The line of an event, with its line break. -/
def readDraft (number : Nat) (cs : List Char) : Except Error (Draft × List Char) :=
  match head? cs with
  | none => .error (.malformedLog number)
  | some ((id, name, line, column), rest) =>
    (readArgs number ')' (2 * rest.length + 1) rest).bind fun read =>
      endLine number ⟨id, name, line, column, read.1⟩ read.2

/-- An event is its line, if another event or nothing comes next. -/
theorem readEvent_eq (number : Nat) (cs : List Char) :
    readEvent number cs = (readDraft number cs).bind fun read =>
      if endsEvent (skip read.2) then read.1.event.map (·, skip read.2)
      else .error (.malformedLog (number + 1)) := by
  unfold readEvent readDraft
  cases head? cs with
  | none => rfl
  | some read =>
    obtain ⟨⟨id, name, line, column⟩, rest⟩ := read
    dsimp only
    cases readArgs number ')' (2 * rest.length + 1) rest with
    | error e => rfl
    | ok read =>
      simp only [bind, Except.bind, endLine]
      cases lineEnd? (skip read.2) with
      | none => rfl
      | some rest =>
        dsimp only
        -- The numbers are decoded last, so they matter only if the next line is right.
        split
        · unfold Draft.event
          dsimp only
          cases natural id <;> cases natural line <;> cases natural column <;> rfl
        · rfl

/-- Where a line ends is decided on that line. -/
theorem lineEnd?_append (h : '\n' ∈ cs) (x : List Char) :
    lineEnd? (cs ++ x) = (lineEnd? cs).map (· ++ x) := by
  match cs, h with
  | '\n' :: cs, _ => rfl
  | '\r' :: '\n' :: cs, _ => rfl
  | [c], h =>
    obtain rfl := List.mem_singleton.1 h
    rfl
  | c :: d :: cs, _ =>
    by_cases hfeed : c = '\n'
    · subst hfeed
      rfl
    · simp only [List.cons_append, lineEnd?]
      split <;> simp_all

/-- The end of a line is its first line break. -/
theorem line_of_lineEnd? (h : lineEnd? cs = some rest) :
    ∃ l, cs = l ++ '\n' :: rest ∧ '\n' ∉ l := by
  unfold lineEnd? at h
  split at h
  · cases h
    exact ⟨[], rfl, List.not_mem_nil⟩
  · cases h
    exact ⟨['\r'], rfl, by decide⟩
  · cases h

/-- What ends an event is decided on its line. -/
theorem endLine_append {rest : List Char} (h : '\n' ∈ rest) (number : Nat) (draft : Draft)
    (x : List Char) :
    endLine number draft (rest ++ x) = (endLine number draft rest).map (more x) := by
  unfold endLine
  rw [skip_append h, lineEnd?_append ((Taken.skip rest).mem h)]
  cases lineEnd? (skip rest) <;> rfl

/-- More text after a line break is not looked at while the line is read. -/
theorem readDraft_append (h : '\n' ∈ cs) (number : Nat) (x : List Char) :
    readDraft number (cs ++ x) = (readDraft number cs).map (more x) := by
  unfold readDraft
  rw [onLine_head?.append h]
  cases hhead : head? cs with
  | none => rfl
  | some read =>
    obtain ⟨⟨id, name, line, column⟩, rest⟩ := read
    -- The head is taken from the line, so the line break is still to come.
    have hrest := (onLine_head?.taken hhead).mem h
    simp only [Option.map_some, more]
    refine bind_more (readArgs_append number x (by decide) _ _ rest hrest (Nat.le_refl _) ?_) ?_
    · rw [List.length_append]
      omega
    · intro read hread
      exact endLine_append ((shortened_readArgs (by decide) hread).1.mem hrest) number _ x

/-- A line has one line break, which is its last character. -/
theorem line_of_readDraft {number : Nat} {draft : Draft}
    (h : readDraft number cs = .ok (draft, rest)) : ∃ l, cs = l ++ '\n' :: rest ∧ '\n' ∉ l := by
  unfold readDraft at h
  cases hhead : head? cs with
  | none =>
    rw [hhead] at h
    cases h
  | some read =>
    obtain ⟨⟨id, name, line, column⟩, inner⟩ := read
    rw [hhead] at h
    obtain ⟨args, hargs, h⟩ := bind_eq_ok.1 h
    unfold endLine at h
    cases hend : lineEnd? (skip args.2) with
    | none =>
      rw [hend] at h
      cases h
    | some left =>
      rw [hend] at h
      cases h
      obtain ⟨l, hl, hfree⟩ := line_of_lineEnd? hend
      have hargs := (shortened_readArgs (by decide) hargs).1
      -- Head, arguments and blanks have no line break, and what ends the line has one.
      obtain ⟨used, hused, hbreak⟩ :=
        ((onLine_head?.taken hhead).trans hargs).trans (.skip args.2)
      refine ⟨used ++ l, ?_, fun hmem => (List.mem_append.1 hmem).elim hbreak hfree⟩
      rw [← hused, hl, List.append_assoc]

end Events

end Log

end RubyTree
