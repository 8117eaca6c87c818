import Mathlib
import RubyTree.Proofs.Log.Line

/-!
# Logs One After the Other

A log that is read without an error can be followed by any other text, and the two are
read as if each stood alone, but for the numbers of lines. This is not so because the
reader starts over at a line: it looks past the end of an event to see that the log ends
or another event comes. What it looks for there is what an event starts with, so where
this look fails, reading the rest by itself fails on the same line.

An error stands where it is met, whatever comes later. The numbers of an event are
decoded after the look at the next line, so for them it matters what this is.

## Main definitions

* `Error.later`: An error in a text after so many lines.
* `readAll`: Reading with enough steps.
* `EndsLine`: A text whose last line is complete.

## Theorems

* `readAll_later`: The numbers of lines matter only for what an error says.
* `line_induction`: Induction over the lines of a log.
* `readAll_append`: What follows a log that is read is read by itself.
* `readAll_append_of_error`: What follows an error is not read.
* `readLog_append`: Both for whole logs.
-/

namespace RubyTree

/-- The same error in a text that comes after so many lines. -/
def Error.later (lines : Nat) : Error → Error
  | .malformedLog line => .malformedLog (line + lines)
  | e => e

namespace Log

variable {cs rest x : List Char} {number : Nat}

section Numbers

variable {α β : Type}

/-- Two steps in a row, each of which fails further down. -/
theorem bind_later {r r' : Except Error α} {f f' : α → Except Error β} {lines : Nat}
    (hr : r' = r.mapError (.later lines)) (hf : ∀ v, f' v = (f v).mapError (.later lines)) :
    r'.bind f' = (r.bind f).mapError (.later lines) := by
  subst hr
  cases r with
  | error e => rfl
  | ok v => exact hf v

/-- Whether figures are a number is no matter of the line. -/
theorem natural_later (ds : List Char) (lines : Nat) :
    (natural ds).mapError (.later lines) = natural ds := by
  unfold natural
  split <;> rfl

/-- Whether a quoted text can be decoded is no matter of the line. -/
theorem quotedText_later (inner : List Char) (lines : Nat) :
    (quotedText inner).mapError (.later lines) = quotedText inner := by
  unfold quotedText
  split <;> rfl

/-- What is wrong with a value does not tell the line. -/
theorem decode_later (lexeme : Lexeme) (lines : Nat) :
    lexeme.decode.mapError (.later lines) = lexeme.decode := by
  cases lexeme with
  | ref ds => exact (bind_later (natural_later ds lines).symm fun _ => rfl).symm
  | quoted inner => exact (bind_later (quotedText_later inner lines).symm fun _ => rfl).symm
  | symbol inner => exact (bind_later (quotedText_later inner lines).symm fun _ => rfl).symm
  | integer negative ds => exact (bind_later (natural_later ds lines).symm fun _ => rfl).symm
  | word a => rfl

/-- Whether the numbers of an event can be read is no matter of the line. -/
theorem event_later (draft : Draft) (lines : Nat) :
    draft.event.mapError (.later lines) = draft.event := by
  refine (bind_later (natural_later draft.id lines).symm fun _ => ?_).symm
  refine bind_later (natural_later draft.line lines).symm fun _ => ?_
  exact bind_later (natural_later draft.column lines).symm fun _ => rfl

/-- The end of a value is missed further down. -/
theorem endValue_later (line lines : Nat) {value : Except Error Arg}
    (hvalue : value.mapError (.later lines) = value) (rest : List Char) :
    endValue (line + lines) value rest = (endValue line value rest).mapError (.later lines) := by
  unfold endValue
  split
  · cases value with
    | error e => exact congrArg Except.error (Except.error.inj hvalue).symm
    | ok v => rfl
  · rfl

/-- A first argument, given what is known of an argument and of further ones. -/
theorem readFirst_later {line lines fuel : Nat} {close : Char}
    (harg : readArg (line + lines) fuel cs = (readArg line fuel cs).mapError (.later lines))
    (hmore : ∀ us, readMoreArgs (line + lines) close fuel us =
      (readMoreArgs line close fuel us).mapError (.later lines)) :
    readFirst (line + lines) close fuel cs =
      (readFirst line close fuel cs).mapError (.later lines) := by
  refine bind_later harg fun first => ?_
  rw [hmore]
  cases readMoreArgs line close fuel first.2 <;> rfl

mutual

theorem readArg_later (line lines : Nat) : ∀ (fuel : Nat) (cs : List Char),
    readArg (line + lines) fuel cs = (readArg line fuel cs).mapError (.later lines)
  | 0, _ => by
    rw [readArg, readArg]
    rfl
  | fuel + 1, [] => rfl
  | fuel + 1, c :: cs => by
    -- Only a bracket opens a list; anything else is one lexeme and what ends it.
    by_cases hc : c = '['
    · subst hc
      rw [readArg_bracket, readArg_bracket]
      exact bind_later (readArgs_later line lines ']' fuel (skip cs)) fun read =>
        endValue_later line lines rfl read.2
    · rw [readArg_of_ne hc, readArg_of_ne hc]
      split
      next lexeme rest _ => exact endValue_later line lines (decode_later lexeme lines) rest
      next => rfl

theorem readArgs_later (line lines : Nat) (close : Char) : ∀ (fuel : Nat) (cs : List Char),
    readArgs (line + lines) close fuel cs = (readArgs line close fuel cs).mapError (.later lines)
  | 0, _ => by
    rw [readArgs, readArgs]
    rfl
  | fuel + 1, [] => by
    rw [readArgs, readArgs]
    rfl
  | fuel + 1, c :: cs => by
    rw [readArgs_cons, readArgs_cons]
    split
    · rfl
    · exact readFirst_later (readArg_later line lines fuel (c :: cs))
        (readMoreArgs_later line lines close fuel)

theorem readMoreArgs_later (line lines : Nat) (close : Char) : ∀ (fuel : Nat) (cs : List Char),
    readMoreArgs (line + lines) close fuel cs =
      (readMoreArgs line close fuel cs).mapError (.later lines)
  | 0, _ => by
    rw [readMoreArgs, readMoreArgs]
    rfl
  | fuel + 1, [] => by
    rw [readMoreArgs, readMoreArgs]
    rfl
  | fuel + 1, c :: cs => by
    rw [readMoreArgs_cons, readMoreArgs_cons]
    split
    · rfl
    · split
      · -- One argument with the smaller fuel, and then the remaining ones with it.
        exact readFirst_later (readArg_later line lines fuel (skip cs))
          (readMoreArgs_later line lines close fuel)
      · rfl

end

/-- What comes before the values of an event fails further down. -/
theorem readDraft_later (number lines : Nat) (cs : List Char) :
    readDraft (number + lines) cs = (readDraft number cs).mapError (.later lines) := by
  unfold readDraft
  cases head? cs with
  | none => rfl
  | some read =>
    obtain ⟨⟨id, name, line, column⟩, rest⟩ := read
    refine bind_later (readArgs_later number lines ')' _ rest) fun args => ?_
    unfold endLine
    split <;> rfl

end Numbers

section Lines

/-- The events of a text that starts at line `number` of the log. -/
def readAll (number : Nat) (cs : List Char) : Except Error (List Event) :=
  readFrom (cs.length + 1) number cs

/-- An event takes a character at least. -/
theorem length_lt_of_readDraft {draft : Draft} (h : readDraft number cs = .ok (draft, rest)) :
    rest.length < cs.length := by
  obtain ⟨l, rfl, -⟩ := line_of_readDraft h
  rw [List.length_append, List.length_cons]
  omega

/-- Induction over the lines of a log. -/
theorem line_induction {motive : Nat → List Char → Prop}
    (blank : ∀ number cs, skip cs = [] → motive number cs)
    (line : ∀ number cs, skip cs ≠ [] →
      (∀ draft rest, readDraft number (skip cs) = .ok (draft, rest) → motive (number + 1) rest) →
      motive number cs) (number : Nat) (cs : List Char) : motive number cs := by
  -- What a line leaves is shorter than the line, so the length goes down.
  induction hlength : cs.length using Nat.strongRecOn generalizing number cs with
  | ind n ih =>
    by_cases hblank : skip cs = []
    · exact blank number cs hblank
    · refine line number cs hblank fun draft rest hdraft => ?_
      have hshorter := length_lt_of_readDraft hdraft
      have hskip := (Taken.skip cs).length_le
      exact ih rest.length (by omega) (number + 1) rest rfl

/-- White space is skipped once. -/
theorem skip_skip (cs : List Char) : skip (skip cs) = skip cs :=
  List.dropWhile_idempotent _ cs

/-- Once something is there, white space ends before it. -/
theorem skip_append_of_ne (h : skip cs ≠ []) (x : List Char) : skip (cs ++ x) = skip cs ++ x := by
  unfold skip at h ⊢
  rw [List.dropWhile_append, if_neg (by simpa using h)]

/-- A text that is white space is skipped whole. -/
theorem skip_append_of_eq (h : skip cs = []) (x : List Char) : skip (cs ++ x) = skip x := by
  unfold skip at h ⊢
  rw [List.dropWhile_append, h]
  rfl

/-- White space at the start does not matter. -/
theorem readFrom_skip (fuel number : Nat) (cs : List Char) :
    readFrom fuel number (skip cs) = readFrom fuel number cs := by
  cases fuel with
  | zero => rfl
  | succ fuel => rw [readFrom, readFrom, skip_skip]

/-- A text that is white space has no events. -/
theorem readFrom_blank (h : skip cs = []) (fuel number : Nat) :
    readFrom fuel number cs = .ok [] := by
  cases fuel with
  | zero => rfl
  | succ fuel =>
    rw [readFrom, h]
    rfl

/-- One event, then the rest, which has to start another one or be over. -/
theorem readFrom_line (h : skip cs ≠ []) (fuel number : Nat) :
    readFrom (fuel + 1) number cs = (readDraft number (skip cs)).bind fun read =>
      if endsEvent (skip read.2) then
        read.1.event.bind fun e => (readFrom fuel (number + 1) read.2).map (e :: ·)
      else .error (.malformedLog (number + 1)) := by
  rw [readFrom]
  cases hskip : skip cs with
  | nil => exact absurd hskip h
  | cons c cs =>
    -- The event is judged before the rest is read: what follows must start another one.
    simp only [readEvent_eq]
    cases readDraft number (c :: cs) with
    | error e => rfl
    | ok read =>
      simp only [Except.bind, bind]
      by_cases hends : endsEvent (skip read.2)
      · rw [if_pos hends, if_pos hends]
        cases read.1.event with
        | error e => rfl
        | ok e =>
          simp only [Except.map, readFrom_skip]
          cases readFrom fuel (number + 1) read.2 <;> rfl
      · rw [if_neg hends, if_neg hends]

/-- Every line is longer than nothing, so there are enough steps for all of them. -/
theorem readFrom_eq_readAll (number : Nat) (cs : List Char) :
    ∀ fuel, cs.length < fuel → readFrom fuel number cs = readAll number cs := by
  induction number, cs using line_induction with
  | blank number cs h =>
    intro fuel _
    rw [readAll, readFrom_blank h, readFrom_blank h]
  | line number cs h ih =>
    intro fuel hfuel
    cases fuel with
    | zero => omega
    | succ fuel =>
      rw [readAll, readFrom_line h, readFrom_line h]
      cases hdraft : readDraft number (skip cs) with
      | error e => rfl
      | ok read =>
        have hshorter := length_lt_of_readDraft hdraft
        have hskip := (Taken.skip cs).length_le
        simp only [Except.bind]
        -- The steps that are left suffice on both sides, so both are all of the rest.
        rw [ih read.1 read.2 hdraft fuel (by omega),
          ih read.1 read.2 hdraft cs.length (by omega)]

theorem readAll_blank (h : skip cs = []) (number : Nat) : readAll number cs = .ok [] :=
  readFrom_blank h _ number

/-- A log is read line by line. -/
theorem readAll_line (h : skip cs ≠ []) (number : Nat) :
    readAll number cs = (readDraft number (skip cs)).bind fun read =>
      if endsEvent (skip read.2) then
        read.1.event.bind fun e => (readAll (number + 1) read.2).map (e :: ·)
      else .error (.malformedLog (number + 1)) := by
  rw [readAll, readFrom_line h]
  cases hdraft : readDraft number (skip cs) with
  | error e => rfl
  | ok read =>
    have hshorter := length_lt_of_readDraft hdraft
    have hskip := (Taken.skip cs).length_le
    simp only [Except.bind]
    rw [readFrom_eq_readAll (number + 1) read.2 cs.length (by omega)]

/-- Spaces at the start are not read. -/
theorem readAll_congr {us : List Char} (h : skip cs = skip us) (number : Nat) :
    readAll number cs = readAll number us := by
  by_cases hblank : skip cs = []
  · rw [readAll_blank hblank, readAll_blank (h ▸ hblank)]
  · rw [readAll_line hblank, readAll_line (h ▸ hblank), h]

/-- The numbers of lines matter only for what an error says. -/
theorem readAll_later (number lines : Nat) (cs : List Char) :
    readAll (number + lines) cs = (readAll number cs).mapError (.later lines) := by
  induction number, cs using line_induction with
  | blank number cs h =>
    rw [readAll_blank h, readAll_blank h]
    rfl
  | line number cs h ih =>
    rw [readAll_line h, readAll_line h]
    cases hdraft : readDraft number (skip cs) with
    | error e =>
      rw [readDraft_later, hdraft]
      rfl
    | ok read =>
      rw [readDraft_later, hdraft]
      simp only [Except.bind, Except.mapError]
      split
      · refine bind_later (event_later read.1 lines).symm fun e => ?_
        -- One line further on, the numbers are apart by as much as before.
        rw [Nat.add_right_comm, ih read.1 read.2 hdraft]
        cases readAll (number + 1) read.2 <;> rfl
      · rw [Nat.add_right_comm]
        rfl

/-- Where an event may not end, no other one starts. -/
theorem head?_of_not_endsEvent (h : endsEvent cs = false) : head? cs = none := by
  rw [head?_eq]
  cases cs with
  | nil => cases h
  | cons c cs =>
    by_cases hc : c = '#'
    · subst hc
      -- An event opens with a hash and a figure; here the figure is missing.
      have hfigures : figures? cs = none := by
        cases cs with
        | nil => rfl
        | cons d cs =>
          have hd : isFigure d = false := h
          simp [figures?, hd]
      rw [followedBy, mark?, if_pos rfl, Option.bind_some, followedBy, hfigures]
      rfl
    · exact followedBy_mark?_eq_none (fun _ heq => hc (List.cons.inj heq).1) _

/-- What does not start like an event is an error on its first line. -/
theorem readAll_of_not_endsEvent (h : endsEvent (skip cs) = false) (number : Nat) :
    readAll number cs = .error (.malformedLog number) := by
  have hne : skip cs ≠ [] := by
    intro hnil
    rw [hnil] at h
    cases h
  rw [readAll_line hne, readDraft, head?_of_not_endsEvent h]
  rfl

/-- The first event of a log comes before those of the other lines. -/
theorem readAll_cons {draft : Draft} {e : Event} (h : skip cs ≠ [])
    (hdraft : readDraft number (skip cs) = .ok (draft, rest)) (he : draft.event = .ok e) :
    readAll number cs = (readAll (number + 1) rest).map (e :: ·) := by
  rw [readAll_line h, hdraft]
  simp only [Except.bind, he]
  split
  · rfl
  next hends => rw [readAll_of_not_endsEvent (Bool.eq_false_iff.2 hends)]; rfl

end Lines

section Following

variable {e : Error} {draft : Draft}

/-- An event takes one line. -/
theorem count_of_readDraft (h : readDraft number (skip cs) = .ok (draft, rest)) :
    cs.count '\n' = rest.count '\n' + 1 := by
  obtain ⟨l, hl, hfree⟩ := line_of_readDraft h
  rw [← (Taken.skip cs).count_eq, hl, List.count_append, List.count_eq_zero.2 hfree,
    List.count_cons_self, Nat.zero_add]

/-- The line of an event is the same with more text after it. -/
theorem readDraft_skip_append (h : readDraft number (skip cs) = .ok (draft, rest))
    (x : List Char) :
    skip (cs ++ x) ≠ [] ∧ readDraft number (skip (cs ++ x)) = .ok (draft, rest ++ x) := by
  obtain ⟨l, hl, -⟩ := line_of_readDraft h
  have hmem : '\n' ∈ skip cs := by simp [hl]
  rw [skip_append_of_ne (List.ne_nil_of_mem hmem), readDraft_append hmem, h]
  exact ⟨List.ne_nil_of_mem (List.mem_append_left x hmem), rfl⟩

/-- What follows a log that is read is read by itself. -/
theorem readAll_append {events : List Event} (h : readAll number cs = .ok events) (x : List Char) :
    readAll number (cs ++ x) =
      (readAll (number + cs.count '\n') x).map (events ++ ·) := by
  induction number, cs using line_induction generalizing events with
  | blank number cs hblank =>
    -- Blanks have no line break, so they neither make events nor move the lines.
    have hevents : events = [] := by
      rw [readAll_blank hblank] at h
      exact (Except.ok.inj h).symm
    have hcount : cs.count '\n' = 0 := by
      rw [← (Taken.skip cs).count_eq, hblank]
      rfl
    subst hevents
    rw [hcount, Nat.add_zero, readAll_congr (skip_append_of_eq hblank x)]
    cases readAll number x <;> rfl
  | line number cs hne ih =>
    rw [readAll_line hne] at h
    obtain ⟨⟨draft, rest⟩, hdraft, h⟩ := bind_eq_ok.1 h
    split at h
    · obtain ⟨e, hevent, h⟩ := bind_eq_ok.1 h
      cases hothers : readAll (number + 1) rest with
      | error e' =>
        rw [hothers] at h
        cases h
      | ok others =>
        rw [hothers] at h
        cases h
        -- The line is read the same with more text behind it, and the break that it
        -- ends in is counted once.
        obtain ⟨hne', hdraft'⟩ := readDraft_skip_append hdraft x
        rw [readAll_cons hne' hdraft' hevent, ih draft rest hdraft hothers,
          count_of_readDraft hdraft, Nat.add_assoc, Nat.add_comm 1]
        cases readAll _ x <;> rfl
    · cases h

/-- A text whose last line is complete. -/
def EndsLine (cs : List Char) : Prop :=
  ∀ c ∈ cs.getLast?, c = '\n'

/-- What is left of complete lines are complete lines. -/
theorem EndsLine.suffix (h : EndsLine cs) (hrest : rest <:+ cs) : EndsLine rest := by
  obtain ⟨used, rfl⟩ := hrest
  intro c hc
  refine h c ?_
  rw [List.getLast?_append, hc]
  rfl

/-- Complete lines have a line break, unless there are none. -/
theorem EndsLine.mem (h : EndsLine cs) (hne : cs ≠ []) : '\n' ∈ cs := by
  rw [← h _ (List.getLast?_eq_some_getLast hne)]
  exact List.getLast_mem hne

/-- Whether an event may end is decided on the next line. -/
theorem endsEvent_append (h : '\n' ∈ cs) (x : List Char) :
    endsEvent (cs ++ x) = endsEvent cs := by
  match cs, h with
  | [c], h =>
    obtain rfl := List.mem_singleton.1 h
    rfl
  | c :: d :: cs, _ =>
    by_cases hc : c = '#'
    · subst hc
      rfl
    · simp [endsEvent, hc]

/-- An event can only fail for a number that is no value. -/
theorem eq_noValue_of_event (h : draft.event = .error e) : e = .noValue := by
  -- The three numbers are all that can fail, and all of them fail alike.
  have hnatural : ∀ {ds : List Char} {e : Error}, natural ds = .error e → e = .noValue := by
    intro ds e h
    unfold natural at h
    split at h
    · cases h
    · cases h
      rfl
  unfold Draft.event at h
  obtain hid | ⟨id, -, h⟩ := bind_eq_error.1 h
  · exact hnatural hid
  obtain hline | ⟨line, -, h⟩ := bind_eq_error.1 h
  · exact hnatural hline
  obtain hcolumn | ⟨column, -, h⟩ := bind_eq_error.1 h
  · exact hnatural hcolumn
  cases h

/-- Where one text ends an event, the other may go on with one. -/
theorem endsEvent_skip_append (hlines : EndsLine cs) (hx : skip cs = [] → endsEvent (skip x)) :
    endsEvent (skip (cs ++ x)) = endsEvent (skip cs) := by
  by_cases hblank : skip cs = []
  · rw [skip_append_of_eq hblank, hx hblank, hblank]
    rfl
  · rw [skip_append_of_ne hblank,
      endsEvent_append ((hlines.suffix (Taken.skip cs).suffix).mem hblank)]

/-- What follows an error is not read. The numbers of the last event are decoded only once
    it is seen that another event or nothing follows. -/
theorem readAll_append_of_error (h : readAll number cs = .error e) (hlines : EndsLine cs)
    (hx : e = .noValue → endsEvent (skip x)) : readAll number (cs ++ x) = .error e := by
  induction number, cs using line_induction with
  | blank number cs hblank =>
    rw [readAll_blank hblank] at h
    cases h
  | line number cs hne ih =>
    have hmem : '\n' ∈ skip cs := (hlines.suffix (Taken.skip cs).suffix).mem hne
    rw [readAll_line hne] at h
    obtain hdraft | ⟨⟨draft, rest⟩, hdraft, h⟩ := bind_eq_error.1 h
    · have hne' : skip cs ++ x ≠ [] := List.append_ne_nil_of_left_ne_nil hne x
      rw [← skip_append_of_ne hne] at hne'
      rw [readAll_line hne', skip_append_of_ne hne, readDraft_append hmem, hdraft]
      rfl
    · have hrest : EndsLine rest := by
        obtain ⟨l, hl, -⟩ := line_of_readDraft hdraft
        refine hlines.suffix (.trans ⟨l ++ ['\n'], ?_⟩ (Taken.skip cs).suffix)
        rw [hl, List.append_assoc, List.singleton_append]
      obtain ⟨hne', hdraft'⟩ := readDraft_skip_append hdraft x
      split at h
      next hends =>
        obtain hevent | ⟨event, hevent, h⟩ := bind_eq_error.1 h
        · -- The only error for which the look at the next line decides.
          have hends' := endsEvent_skip_append hrest fun _ => hx (eq_noValue_of_event hevent)
          rw [readAll_line hne', hdraft', Except.bind, hends', if_pos hends, hevent]
          rfl
        · have hothers : readAll (number + 1) rest = .error e := by
            cases hothers : readAll (number + 1) rest with
            | error e' =>
              rw [hothers] at h
              exact h
            | ok others =>
              rw [hothers] at h
              cases h
          rw [readAll_cons hne' hdraft' hevent, ih draft rest hdraft hothers hrest]
          rfl
      next hends =>
        -- Something that is no event comes next, so there is a next line.
        cases h
        have hblank : skip rest ≠ [] := fun hnil => hends (by rw [hnil]; rfl)
        have hends' := endsEvent_skip_append (x := x) hrest fun hnil => absurd hnil hblank
        rw [readAll_line hne', hdraft', Except.bind, hends', if_neg hends]

end Following

/-- How many line breaks a text has. -/
def lineBreaks (text : String) : Nat :=
  text.toList.count '\n'

theorem readLog_eq (log : String) : readLog log = readAll 1 log.toList :=
  rfl

/-- A log that is read is followed by any text as if this stood alone: its events come
    next, and its first error is the error of the whole, on a line that is counted from
    the start. An error in a text of complete lines is the error of every longer text. -/
theorem readLog_append {a : String} {events : List Event} (ha : readLog a = .ok events) :
    (∀ b more, readLog b = .ok more → readLog (a ++ b) = .ok (events ++ more)) ∧
    (∀ b e, readLog b = .error e → readLog (a ++ b) = .error (e.later (lineBreaks a))) ∧
    (∀ b e, readLog b = .error e → EndsLine b.toList →
      ∀ c, (e = .noValue → endsEvent (skip c.toList)) →
        readLog (a ++ b ++ c) = .error (e.later (lineBreaks a))) := by
  -- For any text behind it, the log puts its events in front and its lines before.
  have hboth : ∀ b : String, readLog (a ++ b) =
      ((readLog b).mapError (.later (lineBreaks a))).map (events ++ ·) := by
    intro b
    rw [readLog_eq, String.toList_append, readAll_append ha, readAll_later]
    rfl
  refine ⟨fun b more hb => ?_, fun b e hb => ?_, fun b e hb hlines c hc => ?_⟩
  · rw [hboth, hb]
    rfl
  · rw [hboth, hb]
    rfl
  · have hlonger : readLog (b ++ c) = .error e := by
      rw [readLog_eq, String.toList_append]
      exact readAll_append_of_error hb hlines hc
    rw [String.append_assoc, hboth, hlonger]
    rfl

/-- The argument of the second line is no value, so it does not matter that the third
    line is no event either. -/
theorem readLog_append_badLine :
    readLog "#1 @kw 1:0(\"if\")\n " = .ok [⟨1, "@kw", 1, 0, [.atom (.str "if")]⟩] ∧
    readLog "#2 void_stmt 1:2(?)\n" = .error (.malformedLog 1) ∧
    EndsLine "#2 void_stmt 1:2(?)\n".toList ∧
    readLog ("#1 @kw 1:0(\"if\")\n " ++ "#2 void_stmt 1:2(?)\n" ++ "end") =
      .error (.malformedLog 2) := by
  have hfirst : readLog "#1 @kw 1:0(\"if\")\n " =
      .ok [⟨1, "@kw", 1, 0, [.atom (.str "if")]⟩] := by cbv
  have hsecond : readLog "#2 void_stmt 1:2(?)\n" = .error (.malformedLog 1) := by cbv
  have hlines : EndsLine "#2 void_stmt 1:2(?)\n".toList :=
    fun _ h => Option.some.inj (h.symm.trans (by decide +kernel))
  refine ⟨hfirst, hsecond, hlines, ?_⟩
  exact (readLog_append hfirst).2.2 _ _ hsecond hlines "end" (fun h => by cases h)

end Log

end RubyTree
