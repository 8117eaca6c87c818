import RubyTree.Proofs.Log.Lexeme

/-!
# Reading Undoes Writing

What a recorder writes is read back as it was: the same events in the same
order, with arguments nested as they were, texts apart from symbols and
references apart from integers.

A value is read from the front of a text, so each statement says what is read and
that the rest is left alone, for any rest that may follow such a value. Arguments
are written inside each other without a bound, and reading them is bounded by the
length of the text. Every bracket and every comma is a character, which is why
the length is enough.

## Theorems

* `lexeme?_writeAtom`: Values without parts.
* `readArg_writeArg`, `readArgs_writeArgs`: Arguments, at any depth.
* `readEvent_writeEvent`: One line of the log.
* `readLog_writeLog`: The whole log.
-/

namespace RubyTree

namespace Log

section Values

/-- What ends a value ends a number or a name as well. -/
theorem stops_of_endsValue {p : Char → Bool} (hp : [',', ')', ']'].any p = false)
    {cs : List Char} (h : endsValue cs) : Stops p cs := by
  have hstop : ∀ c ∈ [',', ')', ']'], p c = false :=
    fun c hc => Bool.eq_false_iff.2 (List.any_eq_false.1 hp c hc)
  cases cs with
  | nil => exact absurd h (by decide)
  | cons c cs =>
    simp only [endsValue, Bool.or_eq_true, decide_eq_true_eq] at h
    rcases h with (rfl | rfl) | rfl <;> exact stops_cons (hstop _ (by simp))

/-- A digit starts an integer and nothing else. -/
theorem lexeme?_figure {c : Char} (h : isFigure c) (cs : List Char) :
    lexeme? (c :: cs) = (figures? (c :: cs)).map fun (ds, rest) => (.integer false ds, rest) := by
  rw [lexeme?]
  all_goals
    intros
    rename_i heq
    obtain ⟨rfl, -⟩ := List.cons.inj heq
    exact absurd h (by decide)

theorem lexeme?_toDigits (n : Nat) {cs : List Char} (h : Stops isFigure cs) :
    lexeme? (Nat.toDigits 10 n ++ cs) = some (.integer false (Nat.toDigits 10 n), cs) := by
  have hfigures := figures?_toDigits n h
  cases hdigits : Nat.toDigits 10 n with
  | nil => exact absurd hdigits Nat.toDigits_ne_nil
  | cons d ds =>
    have hd : isFigure d := isFigure_of_mem_toDigits (hdigits ▸ List.mem_cons_self)
    rw [hdigits] at hfigures
    rw [List.cons_append] at hfigures ⊢
    rw [lexeme?_figure hd, hfigures]
    rfl

/-- An integer is one lexeme, with its sign. -/
theorem lexeme?_writeInt {i : Int} (hi : Numeral.isWritable i.natAbs) {cs : List Char}
    (h : Stops isFigure cs) :
    ∃ lexeme, lexeme? (writeInt i ++ cs) = some (lexeme, cs) ∧
      lexeme.decode = .ok (.atom (.int i)) := by
  unfold writeInt
  -- Digits are those of the absolute value, and the sign is put back after they are read.
  by_cases hneg : i < 0
  · refine ⟨.integer true (Nat.toDigits 10 i.natAbs), ?_, ?_⟩
    · rw [if_pos hneg, List.cons_append, lexeme?, figures?_toDigits _ h]
      rfl
    · have hvalue : (-(i.natAbs : Int)) = i := by omega
      rw [Lexeme.decode, natural_toDigits hi]
      show Except.ok (Arg.atom (.int (-(i.natAbs : Int)))) = _
      rw [hvalue]
  · refine ⟨.integer false (Nat.toDigits 10 i.natAbs), ?_, ?_⟩
    · rw [if_neg hneg, lexeme?_toDigits _ h]
    · have hvalue : (i.natAbs : Int) = i := by omega
      rw [Lexeme.decode, natural_toDigits hi]
      show Except.ok (Arg.atom (.int (i.natAbs : Int))) = _
      rw [hvalue]

/-- A written atom is one lexeme, and this denotes the atom. -/
theorem lexeme?_writeAtom (s : Spelling) {a : Atom} (ha : a.isRecorded) {cs : List Char}
    (h : Stops isFigure cs) :
    ∃ lexeme, lexeme? (writeAtom s a ++ cs) = some (lexeme, cs) ∧
      lexeme.decode = .ok (.atom a) := by
  cases a with
  | null => exact ⟨.word .null, rfl, rfl⟩
  | bool b => cases b with
    | true => exact ⟨.word (.bool true), rfl, rfl⟩
    | false => exact ⟨.word (.bool false), rfl, rfl⟩
  | int i => exact lexeme?_writeInt ha h
  | str text =>
    refine ⟨.quoted (text.toList.flatMap s.spell), ?_, ?_⟩
    · rw [writeAtom, writeQuoted, List.cons_append, List.append_assoc, List.singleton_append,
        lexeme?, span?_flatMap_spell]
      rfl
    · rw [Lexeme.decode, quotedText_flatMap_spell]
      show Except.ok (Arg.atom (.ofPoints (text.toList.map Char.toNat))) = _
      rw [ofPoints_map_toNat, String.ofList_toList]
  | sym name =>
    refine ⟨.symbol (name.toList.flatMap s.spell), ?_, ?_⟩
    · rw [writeAtom, writeQuoted, List.cons_append, List.cons_append, List.append_assoc,
        List.singleton_append, lexeme?, span?_flatMap_spell]
      rfl
    · rw [Lexeme.decode, quotedText_flatMap_spell]
      show Except.ok (Arg.atom (.sym (Text.shownPoints (name.toList.map Char.toNat)))) = _
      rw [Text.shownPoints_map_toNat, String.ofList_toList]
  -- Values of other kinds are not recorded.
  | torn | real | complex | rational | octets | foreign =>
    exact absurd ha (by simp [Atom.isRecorded])

end Values

section Arguments

/-- What is read as a value without parts is no list, which is read otherwise. -/
theorem readArg_lexeme {line fuel : Nat} {cs rest : List Char} {lexeme : Lexeme} {a : Arg}
    (hlexeme : lexeme? cs = some (lexeme, rest)) (hdecode : lexeme.decode = .ok a)
    (hrest : endsValue rest) : readArg line (fuel + 1) cs = .ok (a, rest) := by
  have hskip : skip rest = rest := skip_of_stops (stops_of_endsValue (by decide) hrest)
  rw [readArg]
  · rw [hlexeme]
    dsimp only
    rw [hskip, if_pos hrest, hdecode]
    rfl
  · -- A bracket is the start of no lexeme.
    rintro ds rfl
    exact absurd hlexeme (by simp [lexeme?, figures?, isFigure])

/-- A reference is one lexeme. -/
theorem lexeme?_ref {id : Nat} (hid : Numeral.isWritable id) {cs : List Char}
    (h : Stops isFigure cs) :
    ∃ lexeme, lexeme? ('#' :: Nat.toDigits 10 id ++ cs) = some (lexeme, cs) ∧
      lexeme.decode = .ok (.ref id) := by
  refine ⟨.ref (Nat.toDigits 10 id), ?_, ?_⟩
  · rw [List.cons_append, lexeme?, figures?_toDigits _ h]
    rfl
  · rw [Lexeme.decode, natural_toDigits hid]
    rfl

/-- A character that neither is skipped nor closes a bracket. -/
def opensValue (c : Char) : Bool :=
  c != ' ' && c != ')' && c != ']'

theorem opensValue_of_isFigure {c : Char} (h : isFigure c) : opensValue c := by
  simp only [opensValue, Bool.and_eq_true, bne_iff_ne]
  refine ⟨⟨?_, ?_⟩, ?_⟩ <;> rintro rfl <;> exact absurd h (by decide)

/-- An integer starts as a value does. -/
theorem writeInt_head (i : Int) : ∃ c cs, writeInt i = c :: cs ∧ opensValue c := by
  unfold writeInt
  by_cases hneg : i < 0
  · exact ⟨'-', _, if_pos hneg, by decide⟩
  · rw [if_neg hneg]
    cases hdigits : Nat.toDigits 10 i.natAbs with
    | nil => exact absurd hdigits Nat.toDigits_ne_nil
    | cons d ds =>
      have hd : isFigure d := isFigure_of_mem_toDigits (hdigits ▸ List.mem_cons_self)
      exact ⟨d, ds, rfl, opensValue_of_isFigure hd⟩

/-- Every value starts with a character that opens one. -/
theorem writeArg_head (s : Spelling) {a : Arg} (ha : a.isRecorded) :
    ∃ c cs, writeArg s a = c :: cs ∧ opensValue c := by
  cases a with
  | atom a =>
    rw [writeArg]
    rw [Arg.isRecorded] at ha
    cases a with
    | null => exact ⟨'n', _, rfl, by decide⟩
    | bool b => cases b with
      | true => exact ⟨'t', _, rfl, by decide⟩
      | false => exact ⟨'f', _, rfl, by decide⟩
    | int i => exact writeInt_head i
    | str text => exact ⟨'"', _, rfl, by decide⟩
    | sym name => exact ⟨':', _, rfl, by decide⟩
    | torn | real | complex | rational | octets | foreign =>
      -- No recorder writes these values.
      exact absurd ha (by simp [Atom.isRecorded])
  | ref id => exact ⟨'#', Nat.toDigits 10 id, by rw [writeArg], by decide⟩
  | list items => exact ⟨'[', writeArgs s items ++ [']'], by rw [writeArg], by decide⟩

theorem writeArg_length_pos (s : Spelling) {a : Arg} (ha : a.isRecorded) :
    0 < (writeArg s a).length := by
  obtain ⟨c, ds, hwrite, -⟩ := writeArg_head s ha
  rw [hwrite]
  exact Nat.succ_pos _

/-- There is no white space before a value. -/
theorem skip_writeArg (s : Spelling) {a : Arg} (ha : a.isRecorded) (cs : List Char) :
    skip (writeArg s a ++ cs) = writeArg s a ++ cs := by
  obtain ⟨c, ds, hwrite, hopens⟩ := writeArg_head s ha
  rw [hwrite, List.cons_append]
  refine skip_of_stops (stops_cons ?_)
  simp only [opensValue, Bool.and_eq_true, bne_iff_ne] at hopens
  simpa using hopens.1.1

/-- A closing bracket. -/
def Closes (c : Char) : Prop :=
  c = ')' ∨ c = ']'

theorem Closes.not_opensValue {c : Char} (h : Closes c) : opensValue c = false := by
  rcases h with rfl | rfl <;> decide

/-- There is no white space before values, or before their end. -/
theorem skip_writeArgs (s : Spelling) {args : List Arg} (hargs : Arg.areRecorded args)
    {close : Char} (hclose : Closes close) (cs : List Char) :
    skip (writeArgs s args ++ close :: cs) = writeArgs s args ++ close :: cs := by
  cases args with
  | nil =>
    rw [writeArgs, List.nil_append]
    exact skip_of_stops (stops_cons (by rcases hclose with rfl | rfl <;> decide))
  | cons a args =>
    rw [Arg.areRecorded, Bool.and_eq_true] at hargs
    rw [writeArgs, List.append_assoc, skip_writeArg s hargs.1]

/-- Behind a value there is a comma or the end. -/
theorem endsValue_writeMoreArgs (s : Spelling) (args : List Arg) {close : Char}
    (hclose : Closes close) (cs : List Char) : endsValue (writeMoreArgs s args ++ close :: cs) := by
  cases args with
  | nil =>
    rw [writeMoreArgs, List.nil_append]
    rcases hclose with rfl | rfl <;> rfl
  | cons a args =>
    rw [writeMoreArgs]
    rfl

/-- The first of some arguments is read, unless the bracket closes at once. -/
theorem readArgs_of_opensValue {line fuel : Nat} {close c : Char} (hclose : Closes close)
    (hc : opensValue c) (cs : List Char) :
    readArgs line close (fuel + 1) (c :: cs) = do
      let (arg, rest) ← readArg line fuel (c :: cs)
      let (args, rest) ← readMoreArgs line close fuel rest
      return (arg :: args, rest) := by
  rw [readArgs, if_neg]
  rintro rfl
  rw [hclose.not_opensValue] at hc
  exact absurd hc (by decide)

mutual

/-- A value is read from its text, by recursion on the value. -/
theorem readArg_writeArg (s : Spelling) (line : Nat) : ∀ (a : Arg) (fuel : Nat) (cs : List Char),
    a.isRecorded → (writeArg s a).length ≤ fuel + 1 → endsValue cs →
      readArg line (fuel + 1) (writeArg s a ++ cs) = .ok (a, cs)
  | .atom a => by
    intro fuel cs ha hfuel hcs
    rw [Arg.isRecorded] at ha
    obtain ⟨lexeme, hlexeme, hdecode⟩ :=
      lexeme?_writeAtom s ha (stops_of_endsValue (by decide) hcs)
    rw [writeArg]
    exact readArg_lexeme hlexeme hdecode hcs
  | .ref id => by
    intro fuel cs ha hfuel hcs
    rw [Arg.isRecorded] at ha
    obtain ⟨lexeme, hlexeme, hdecode⟩ := lexeme?_ref ha (stops_of_endsValue (by decide) hcs)
    rw [writeArg]
    exact readArg_lexeme hlexeme hdecode hcs
  | .list items => by
    intro fuel cs ha hfuel hcs
    rw [Arg.isRecorded] at ha
    rw [writeArg, List.length_cons, List.length_append, List.length_singleton] at hfuel
    have hskip : skip cs = cs := skip_of_stops (stops_of_endsValue (by decide) hcs)
    -- The two brackets are the step that reading the items below them costs.
    cases fuel with
    | zero => omega
    | succ fuel =>
      have hitems := readArgs_writeArgs s line items ']' fuel cs (.inr rfl) ha (by omega)
      rw [writeArg, List.cons_append, List.append_assoc, List.singleton_append, readArg,
        skip_writeArgs s ha (.inr rfl), hitems]
      dsimp only [bind, Except.bind]
      rw [hskip, if_pos hcs]
      rfl

/-- Values are read from their texts up to the closing mark. -/
theorem readArgs_writeArgs (s : Spelling) (line : Nat) :
    ∀ (args : List Arg) (close : Char) (fuel : Nat) (cs : List Char),
    Closes close → Arg.areRecorded args → (writeArgs s args).length ≤ fuel →
      readArgs line close (fuel + 1) (writeArgs s args ++ close :: cs) = .ok (args, cs)
  | [] => by
    intro close fuel cs hclose hargs hfuel
    rw [writeArgs, List.nil_append, readArgs, if_pos rfl]
    rfl
  | a :: args => by
    intro close fuel cs hclose hargs hfuel
    rw [Arg.areRecorded, Bool.and_eq_true] at hargs
    rw [writeArgs, List.length_append] at hfuel
    have hpos := writeArg_length_pos s hargs.1
    obtain ⟨c, ds, hwrite, hopens⟩ := writeArg_head s hargs.1
    -- The first argument takes a character, so both it and the others have one
    -- step less than the whole.
    cases fuel with
    | zero => omega
    | succ fuel =>
      have harg := readArg_writeArg s line a fuel _ hargs.1 (by omega)
        (endsValue_writeMoreArgs s args hclose cs)
      have hmore := readMoreArgs_writeMoreArgs s line args close fuel cs hclose hargs.2 (by omega)
      rw [writeArgs, List.append_assoc]
      rw [hwrite, List.cons_append] at harg ⊢
      rw [readArgs_of_opensValue hclose hopens, harg]
      dsimp only [bind, Except.bind]
      rw [hmore]
      rfl

theorem readMoreArgs_writeMoreArgs (s : Spelling) (line : Nat) :
    ∀ (args : List Arg) (close : Char) (fuel : Nat) (cs : List Char),
    Closes close → Arg.areRecorded args → (writeMoreArgs s args).length ≤ fuel →
      readMoreArgs line close (fuel + 1) (writeMoreArgs s args ++ close :: cs) = .ok (args, cs)
  | [] => by
    intro close fuel cs hclose hargs hfuel
    rw [writeMoreArgs, List.nil_append, readMoreArgs, if_pos rfl]
    rfl
  | a :: args => by
    intro close fuel cs hclose hargs hfuel
    rw [Arg.areRecorded, Bool.and_eq_true] at hargs
    rw [writeMoreArgs, List.length_cons, List.length_append] at hfuel
    -- A comma is read as one, not as the end of the list.
    have hne : ¬ ',' = close := by
      rintro rfl
      rcases hclose with h | h <;> exact absurd h (by decide)
    cases fuel with
    | zero => omega
    | succ fuel =>
      have harg := readArg_writeArg s line a fuel _ hargs.1 (by omega)
        (endsValue_writeMoreArgs s args hclose cs)
      have hmore := readMoreArgs_writeMoreArgs s line args close fuel cs hclose hargs.2 (by omega)
      rw [writeMoreArgs, List.cons_append, List.append_assoc, readMoreArgs, if_neg hne, if_pos rfl,
        skip_writeArg s hargs.1, harg]
      dsimp only [bind, Except.bind]
      rw [hmore]
      rfl

end

end Arguments

section Events

/-- What `Event.isRecorded` says, part by part. -/
theorem recorded_parts {e : Event} (h : e.isRecorded) :
    isEventName e.name ∧ Numeral.isWritable e.id ∧ Numeral.isWritable e.line ∧
      Numeral.isWritable e.column ∧ Arg.areRecorded e.args := by
  simpa only [Event.isRecorded, Bool.and_eq_true, and_assoc] using h

theorem skip_space (cs : List Char) : skip (' ' :: cs) = skip cs :=
  List.dropWhile_cons_of_pos (by decide)

theorem skip_toDigits (n : Nat) (cs : List Char) :
    skip (Nat.toDigits 10 n ++ cs) = Nat.toDigits 10 n ++ cs := by
  cases hdigits : Nat.toDigits 10 n with
  | nil => exact absurd hdigits Nat.toDigits_ne_nil
  | cons d ds =>
    have hd : isFigure d := isFigure_of_mem_toDigits (hdigits ▸ List.mem_cons_self)
    refine skip_of_stops (stops_cons ?_)
    rw [decide_eq_false_iff_not]
    rintro rfl
    exact absurd hd (by decide)

/-- There is no white space in a name. -/
theorem skip_name {name : String} (h : isEventName name) (cs : List Char) :
    skip (name.toList ++ cs) = name.toList ++ cs := by
  unfold isEventName at h
  split at h
  next c ds heq =>
    rw [heq]
    exact skip_of_stops (stops_cons (by decide))
  next c ds _ heq =>
    rw [Bool.and_eq_true] at h
    rw [heq]
    refine skip_of_stops (stops_cons ?_)
    rw [decide_eq_false_iff_not]
    -- Only blanks are passed over, and no name starts with one.
    rintro rfl
    exact absurd h.1 (by decide)
  next => exact absurd h (by decide)

/-- What comes before the values of an event is read from its text. -/
theorem head?_writeEvent (s : Spelling) {e : Event} (he : e.isRecorded) (cs : List Char) :
    head? (writeEvent s e ++ cs) =
      some ((Nat.toDigits 10 e.id, e.name.toList, Nat.toDigits 10 e.line, Nat.toDigits 10 e.column),
        writeArgs s e.args ++ ')' :: '\n' :: cs) := by
  obtain ⟨hname, -, -, -, hargs⟩ := recorded_parts he
  simp only [writeEvent, List.cons_append, List.append_assoc, List.nil_append, head?]
  -- Each part ends at the mark after it: a space, a colon or a bracket.
  rw [figures?_toDigits _ (stops_cons (by decide))]
  simp only [Option.bind_eq_bind, Option.bind_some, skip_space]
  rw [skip_name hname, name?_append hname (stops_cons (by decide))]
  simp only [Option.bind_some, skip_space]
  rw [skip_toDigits, figures?_toDigits _ (stops_cons (by decide))]
  simp only [Option.bind_some]
  rw [figures?_toDigits _ (stops_cons (by decide))]
  simp only [Option.bind_some]
  rw [skip_of_stops (stops_cons (by decide))]
  simp only [skip_writeArgs s hargs (.inl rfl)]
  rfl

theorem skip_of_endsEvent {cs : List Char} (h : endsEvent cs) : skip cs = cs := by
  unfold endsEvent at h
  split at h
  next => rfl
  next c ds => exact skip_of_stops (stops_cons (by decide))
  next => exact absurd h (by decide)

/-- An event is read from its line. -/
theorem readEvent_writeEvent (s : Spelling) (number : Nat) {e : Event} (he : e.isRecorded)
    {cs : List Char} (hcs : endsEvent cs) :
    readEvent number (writeEvent s e ++ cs) = .ok (e, cs) := by
  obtain ⟨-, hid, hline, hcolumn, hargs⟩ := recorded_parts he
  -- The bound is twice the length of what is left of the line and of all lines after it.
  have hread := readArgs_writeArgs s number e.args ')'
    (2 * (writeArgs s e.args ++ ')' :: '\n' :: cs).length) ('\n' :: cs) (.inl rfl) hargs
    (by rw [List.length_append]; omega)
  have hend : lineEnd? (skip ('\n' :: cs)) = some cs := by
    rw [skip_of_stops (stops_cons (by decide))]
    rfl
  unfold readEvent
  rw [head?_writeEvent s he]
  dsimp only
  rw [hread]
  dsimp only [bind, Except.bind]
  rw [hend]
  dsimp only
  rw [skip_of_endsEvent hcs, if_pos hcs, natural_toDigits hid, natural_toDigits hline,
    natural_toDigits hcolumn, String.ofList_toList]
  rfl

/-- Where events start, another one may end. -/
theorem endsEvent_writeEvents (s : Spelling) (events : List Event) :
    endsEvent (events.flatMap (writeEvent s)) := by
  cases events with
  | nil => rfl
  | cons e events =>
    rw [List.flatMap_cons]
    simp only [writeEvent, List.cons_append, List.append_assoc]
    cases hdigits : Nat.toDigits 10 e.id with
    | nil => exact absurd hdigits Nat.toDigits_ne_nil
    | cons d ds => exact isFigure_of_mem_toDigits (hdigits ▸ List.mem_cons_self)

/-- An event at the front of the log is read before the others. -/
theorem readFrom_event {fuel number : Nat} {cs rest : List Char} {e : Event} (hskip : skip cs = cs)
    (hne : cs ≠ []) (h : readEvent number cs = .ok (e, rest)) :
    readFrom (fuel + 1) number cs = do return e :: (← readFrom fuel (number + 1) rest) := by
  rw [readFrom, hskip]
  cases cs with
  | nil => exact absurd rfl hne
  | cons c cs =>
    dsimp only
    rw [h]
    rfl

/-- Events are read from their lines one after the other. -/
theorem readFrom_writeEvents (s : Spelling) (events : List Event)
    (h : ∀ e ∈ events, e.isRecorded) (fuel number : Nat) (hfuel : events.length ≤ fuel) :
    readFrom fuel number (events.flatMap (writeEvent s)) = .ok events := by
  induction events generalizing fuel number with
  | nil => cases fuel <;> rfl
  | cons e events ih =>
    -- An event may end only where another starts or the log ends.
    have hskip := skip_of_endsEvent (endsEvent_writeEvents s (e :: events))
    have hevent := readEvent_writeEvent s number (h e List.mem_cons_self)
      (endsEvent_writeEvents s events)
    have hrest := ih fun e he => h e (List.mem_cons_of_mem _ he)
    cases fuel with
    | zero => exact absurd hfuel (by simp)
    | succ fuel =>
      rw [List.flatMap_cons] at hskip ⊢
      rw [readFrom_event hskip (by simp [writeEvent]) hevent,
        hrest fuel (number + 1) (by simpa using hfuel)]
      rfl

/-- Every event has a character at least, so the bound on steps is enough. -/
theorem length_le_length_flatMap (s : Spelling) (events : List Event) :
    events.length ≤ (events.flatMap (writeEvent s)).length := by
  induction events with
  | nil => simp
  | cons e events ih =>
    rw [List.flatMap_cons, List.length_append, List.length_cons]
    have hpos : 0 < (writeEvent s e).length := by simp [writeEvent]
    omega

end Events

/-- A log that records events is read as these events. -/
theorem readLog_writeLog (s : Spelling) (events : List Event) (h : ∀ e ∈ events, e.isRecorded) :
    readLog (writeLog s events) = .ok events := by
  unfold readLog writeLog
  rw [String.toList_ofList]
  exact readFrom_writeEvents s events h _ 1 (Nat.le_succ_of_le (length_le_length_flatMap s events))

/-- Two events with a text that looks like the end of one, a list in a list, and
    a name that is also a value. -/
def trickyEvents : List Event :=
  [ { id := 7, name := "@tstring_content", line := 1, column := 0,
      args := [.atom (.str "\\\",nil)\n#8 x 1:1(\x01\\")] },
    { id := 8, name := "nil", line := 2, column := 10,
      args := [.ref 7, .list [.list [], .atom (.sym "7"), .atom (.int (-7)), .atom .null],
        .atom (.bool false)] } ]

theorem readLog_writeLog_trickyEvents :
    (∀ e ∈ trickyEvents, e.isRecorded) ∧
      readLog (writeLog .standard trickyEvents) = .ok trickyEvents := by
  have hrecorded : ∀ e ∈ trickyEvents, e.isRecorded := by decide +kernel
  exact ⟨hrecorded, readLog_writeLog .standard trickyEvents hrecorded⟩

end Log

end RubyTree
