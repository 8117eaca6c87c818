import RubyTree.Proofs.Build.LiteralToken
import RubyTree.Proofs.Build.Nesting

/-!
# Content and the Delimiter of Its Literal

How the text of a literal is to be read depends on the delimiter the literal
starts with, so every piece of content gets that delimiter as its fourth item. It
is the one on top of the stack of open literals, and it is the right one if
literals nest.

Many tokens open a literal and four close one. The colon of a symbol is a delimiter
too, since it may be the start of a quoted symbol; that of a plain symbol is taken
off when the symbol is complete. The tokens around an interpolation leave the stack
alone, so that a literal within one is simply a literal that is complete before its
own one goes on.

Once it is there, the delimiter of a piece of content does not change. Later events
may add items to any list, and they may replace items that are content themselves,
which a delimiter is not.

## Main definitions

* `Opening`: What is remembered of a literal that is open.
* `Session.Begins`, `Session.Ends`, `Session.Bypasses`: What the next event does to
  the stack.
* `delimiterNesting`: Every literal ends, innermost first.
* `Session.LeavesContent`: A piece of content with its delimiter.
* `OwnDelimiter`: The delimiter of the literal an event stands in.

## Theorems

* `Begins.step`, `Ends.step`, `Bypasses.step`: One event.
* `LeavesContent.lasts`: A delimiter that is there stays.
* `nested_delimiters`: Nested literals leave the stack as it was.
* `content_has_own_delimiter`: Content has the delimiter of its own literal.
-/

namespace RubyTree

open BuildM

/-- What is remembered of a literal that is open. -/
structure Opening where
  delimiter : Atom
  /-- Whether it is the colon of a symbol. -/
  colon : Bool

namespace Session

/-- The next event opens a literal. -/
inductive Begins (s : Session) (e : Event) : Opening → Prop where
  | literal {text : Atom} (h : s.Reads e e.name (.atom text)) (hopens : e.callback = .openLiteral) :
      Begins s e ⟨text, false⟩
  | words {text d : Atom} (h : s.Reads e e.name (.atom text)) (hopens : e.callback = .openWords)
      (htrim : Effect.trimmed? (.atom text) = some (.atom d)) : Begins s e ⟨d, false⟩
  | command {text : Atom} (h : s.Reads e "@backtick" (.atom text))
      (hname : s.builder.nameNext? = some false) : Begins s e ⟨text, false⟩
  | symbol {text : Atom} (h : s.Reads e "@symbeg" (.atom text)) : Begins s e ⟨text, true⟩

/-- The next event closes a literal, or completes a plain symbol. -/
inductive Ends (s : Session) (e : Event) : Opening → Prop where
  | literal {text : Item} {k : Opening} (h : s.Reads e e.name text)
      (hcloses : e.callback = .closeLiteral) : Ends s e k
  | symbol {args : List Item} {k : Opening} (h : s.Builds e args) (hname : e.name = "symbol")
      (hcolon : k.colon) : Ends s e k

/-- The next event leaves the delimiters alone. -/
inductive Bypasses (s : Session) (e : Event) : Prop where
  | other (h : .delimiters ∉ e.callback.writes)
  | name {text : Item} (h : s.Reads e "@backtick" text) (hname : s.builder.nameNext? = some true)

end Session

/-- Every literal that is opened ends, innermost first. -/
def delimiterNesting : Nesting Opening where
  single := Session.Bypasses
  opens := Session.Begins
  closes := Session.Ends

namespace Session

variable {s : Session} {e : Event} {k : Opening}

@[simp] theorem prepare_delimiters (s : Session) (e : Event) :
    (s.prepare e).2.delimiters = s.builder.delimiters := by
  obtain ⟨arena, h⟩ := s.prepare_builder e
  rw [h]

theorem Reads.callback_eq {name : String} {text : Item} (h : s.Reads e name text) :
    e.callback = Callback.ofName (bareName name) := by
  rw [Event.callback, if_pos h.isToken, h.name_eq]

theorem Begins.step (h : s.Begins e k) :
    s.Succeeds e ∧ (s.step e).2.delimiters = .atom k.delimiter :: s.builder.delimiters := by
  -- Each way to open a literal pushes one delimiter; they differ in where it comes from.
  cases h with
  | @literal text h hopens =>
    have hrun := runIn_openLiteral (Builder.item?_tokenNode (s.prepare e).2 e.name (.atom text) 1)
    rw [Succeeds, h.step_of_run hopens (by decide) hrun]
    exact ⟨⟨_, rfl⟩, by simp⟩
  | @words text d h hopens htrim =>
    have hrun := runIn_openWords (Builder.item?_tokenNode (s.prepare e).2 e.name (.atom text) 1)
      htrim
    rw [Succeeds, h.step_of_run hopens (by decide) hrun]
    exact ⟨⟨_, rfl⟩, by simp⟩
  | @command text h hname =>
    have hrun := runIn_backtick (Builder.item?_tokenNode (s.prepare e).2 "@backtick" (.atom text) 1)
    have hnext : ((s.prepare e).2.withToken "@backtick" (.atom text)).nameNext? = some false :=
      (s.prepare_nameNext? e).trans hname
    rw [hnext] at hrun
    rw [Succeeds, h.step_of_run h.callback_eq (by decide) hrun]
    exact ⟨⟨_, rfl⟩, by simp⟩
  | @symbol text h =>
    have hrun := runIn_openSymbol (Builder.item?_tokenNode (s.prepare e).2 "@symbeg" (.atom text) 1)
    rw [Succeeds, h.step_of_run h.callback_eq (by decide) hrun]
    exact ⟨⟨_, rfl⟩, by simp⟩

theorem Ends.step (h : s.Ends e k) {d : Item} {rest : List Item}
    (htop : s.builder.delimiters = d :: rest) :
    s.Succeeds e ∧ (s.step e).2.delimiters = rest := by
  rw [← s.prepare_delimiters e] at htop
  cases h with
  | @literal text _ h hcloses =>
    have hrun : (Effect.closeLiteral (s.prepare e).2.tokenNode).runIn
        ((s.prepare e).2.withToken e.name text) = (.ok (s.prepare e).2.tokenNode,
          { (s.prepare e).2.withToken e.name text with delimiters := rest }) :=
      runIn_closeLiteral htop
    rw [Succeeds, h.step_of_run hcloses (by decide) hrun]
    exact ⟨⟨_, rfl⟩, by simp⟩
  | @symbol args _ h hname =>
    rw [Succeeds, h.step_eq hname]
    refine ⟨⟨_, rfl⟩, ?_⟩
    change (s.prepare e).2.delimiters.tail = rest
    rw [htop, List.tail_cons]

/-- Only the end of a literal complains about delimiters. -/
theorem Bypasses.step (h : s.Bypasses e) :
    (s.step e).2.delimiters = s.builder.delimiters ∧
      ∀ token line, (s.step e).1 ≠ .error (.unbalancedDelimiter token line) := by
  cases h with
  | other h =>
    have hwrites : .delimiters ∉ e.writes := fun hmem => by
      rcases Event.mem_writes hmem with hmem | hmem
      · exact absurd hmem (by decide)
      · exact h hmem
    refine ⟨(congrArg Builder.delimiters (s.step_keeps hwrites)).symm, fun token line herror => ?_⟩
    -- Either the callback raises the error, or a value is unknown, which is another error.
    rcases raises_of_step herror with hraises | ⟨id, hid⟩
    · generalize e.callback = c at h hraises
      cases hraises
      exact absurd (by decide) h
    · cases hid
  | @name text h hname =>
    have hrun := runIn_backtick (Builder.item?_tokenNode (s.prepare e).2 "@backtick" text 1)
    have hnext : ((s.prepare e).2.withToken "@backtick" text).nameNext? = some true :=
      (s.prepare_nameNext? e).trans hname
    rw [hnext] at hrun
    rw [h.step_of_run h.callback_eq (by decide) hrun]
    exact ⟨by simp, nofun⟩

/-- Content neither opens a literal nor ends one. -/
theorem Reads.content_bypasses {text : Item} (h : s.Reads e "@tstring_content" text) :
    (∀ k, ¬ s.Begins e k) ∧ ∀ k, ¬ s.Ends e k := by
  have hcontent : e.callback = .content := h.callback_eq.trans (by decide)
  constructor
  · rintro k (⟨-, hopens⟩ | ⟨-, hopens, -⟩ | ⟨hother, -⟩ | hother)
    · exact absurd (hcontent.symm.trans hopens) (by decide)
    · exact absurd (hcontent.symm.trans hopens) (by decide)
    · exact absurd (h.name_eq.symm.trans hother.name_eq) (by decide)
    · exact absurd (h.name_eq.symm.trans hother.name_eq) (by decide)
  · rintro k (⟨-, hcloses⟩ | ⟨hother, -⟩)
    · exact absurd (hcontent.symm.trans hcloses) (by decide)
    · exact absurd (h.isToken.symm.trans hother.isToken) (by decide)

/-- The next event leaves content with this text and this delimiter. -/
def LeavesContent (s : Session) (e : Event) (text delimiter : Item) : Prop :=
  (s.step e).1 = .ok (s.value e) ∧ ∃ place, (s.next e).builder.arena.items? (s.value e) =
    some [.str "@tstring_content", text, place, delimiter]

theorem Reads.leavesContent {text : Item} (h : s.Reads e "@tstring_content" text) :
    s.LeavesContent e text (s.builder.delimiters.headD .null) := by
  have hcontent : e.callback = .content := h.callback_eq.trans (by decide)
  have hitems := (s.prepare e).2.items?_tokenNode "@tstring_content" text
  have hstep := h.step_of_run hcontent (by decide) (runIn_content hitems)
  have hvalue : s.value e = (s.prepare e).2.tokenNode := by
    rw [value, hstep]
    rfl
  have hbuilder : (s.next e).builder = (s.step e).2 := rfl
  refine ⟨by rw [hvalue, hstep], .list (s.prepare e).2.arena.lists.size, ?_⟩
  rw [hbuilder, hvalue, hstep, Builder.arena_remembering, Builder.items?_setItems_self hitems,
    Builder.delimiters_withToken, prepare_delimiters]
  rfl

end Session

/-- A delimiter stays in its place, since only content is ever replaced. -/
theorem stable_delimiter (node : Item) (d : Atom) (tables : List Table) :
    Stable (fun b => b.arena.item? node 3 = some (.atom d)) (fun _ => True) tables where
  atom _ := trivial
  fresh _ := trivial
  push xs hP := Builder.item?_push hP xs
  grow x hP _ hxs := by
    refine Builder.item?_setItems hP hxs fun hi => ?_
    rw [List.getElem?_append_left (List.getElem?_eq_some_iff.1 hi).1]
    exact hi
  replace := by
    intro b v item xs i piece hP hv hxs hi htag
    refine Builder.item?_setItems hP hxs fun hplace => ?_
    -- What is replaced is a node, and the delimiter is an atom.
    have hne : i ≠ 3 := by
      rintro rfl
      obtain rfl := Option.some.inj (hi.symm.trans hplace)
      cases htag
    rw [List.getElem?_set_ne hne]
    exact hplace
  write {b t} _ source hP := by cases t <;> exact hP

/-- Content still has its delimiter after any other events. -/
theorem Session.LeavesContent.lasts {s : Session} {e : Event} {text : Item} {d : Atom}
    (h : s.LeavesContent e text (.atom d)) (after : List Event) :
    ((s.next e).run after).builder.arena.item? (s.value e) 3 = some (.atom d) := by
  obtain ⟨-, place, hitems⟩ := h
  have hnow : (s.next e).builder.arena.item? (s.value e) 3 = some (.atom d) := by
    -- Only a list has items, so the value is one.
    cases hvalue : s.value e with
    | atom a =>
      rw [hvalue] at hitems
      cases hitems
    | list id =>
      rw [hvalue] at hitems
      rw [Arena.item?, hitems]
      rfl
  exact (run_stable (stable_delimiter (s.value e) d (after.flatMap Event.writes))
    (fun f hf t ht => List.mem_flatMap.2 ⟨f, hf, ht⟩) hnow fun _ _ => trivial).1

section Nested

open Session

variable {s : Session} {es : List Event}

/-- Nested literals leave the stack as it was. -/
theorem nested_delimiters (h : delimiterNesting.Nested s es) :
    (s.run es).builder.delimiters = s.builder.delimiters :=
  h.restores Builder.delimiters (fun k top => top = .atom k.delimiter)
    (fun _ _ he => (Bypasses.step he).1)
    (fun _ _ _ he => ⟨_, rfl, (Begins.step he).2⟩)
    fun _ _ _ _ _ he _ hstack => (Ends.step he hstack).2

/-- Within a literal its own delimiter is on top. -/
theorem delimiters_of_begins {opener : Event} {k : Opening} (hopener : s.Begins opener k)
    (hinside : delimiterNesting.Nested (s.next opener) es) :
    ((s.next opener).run es).builder.delimiters = .atom k.delimiter :: s.builder.delimiters :=
  (nested_delimiters hinside).trans hopener.step.2

theorem not_unbalanced_of_succeeds {e : Event} (h : s.Succeeds e) (token : Raw) (line : Int) :
    (s.step e).1 ≠ .error (.unbalancedDelimiter token line) := by
  obtain ⟨v, hv⟩ := h
  rw [hv]
  exact nofun

/-- The delimiter on top when the turn of an event comes that stands alone: that of
    the literal it stands in, or what was there before all events. -/
inductive OwnDelimiter (s : Session) (front : List Event) (e : Event) (after : List Event) :
    Item → Prop where
  | literal {k : Opening} (h : delimiterNesting.InPair s k front e after) :
      OwnDelimiter s front e after (.atom k.delimiter)
  | outside (hfront : delimiterNesting.Nested s front)
      (hafter : delimiterNesting.Nested ((s.run front).next e) after) :
      OwnDelimiter s front e after (s.builder.delimiters.headD .null)

theorem ownDelimiter_of_nested (h : delimiterNesting.Nested s es) {front after : List Event}
    {e : Event} (hes : es = front ++ e :: after) (hbegins : ∀ k, ¬ (s.run front).Begins e k)
    (hends : ∀ k, ¬ (s.run front).Ends e k) :
    OwnDelimiter s front e after ((s.run front).builder.delimiters.headD .null) := by
  rcases h.inPair hes hbegins hends with ⟨hfront, hafter⟩ | ⟨k, hpair⟩
  · rw [nested_delimiters hfront]
    exact .outside hfront hafter
  · have hown := OwnDelimiter.literal hpair
    cases hpair with
    | intro hopener hinside =>
      rw [run_append, run_cons, delimiters_of_begins hopener hinside]
      exact hown

/-- Nested literals leave the stack as it was, and no event complains about a
    delimiter. All content gets the delimiter of its own literal as its fourth item,
    and still has it in the end. -/
theorem content_has_own_delimiter (h : delimiterNesting.Nested s es) :
    (s.run es).builder.delimiters = s.builder.delimiters ∧
      ∀ front e after, es = front ++ e :: after →
        (∀ token line, ((s.run front).step e).1 ≠ .error (.unbalancedDelimiter token line)) ∧
        ∀ text, (s.run front).Reads e "@tstring_content" text →
          ∃ delimiter, OwnDelimiter s front e after delimiter ∧
            (s.run front).LeavesContent e text delimiter ∧
            ∀ d, delimiter = .atom d →
              (s.run es).builder.arena.item? ((s.run front).value e) 3 = some delimiter := by
  refine ⟨nested_delimiters h, fun front e after hes => ⟨?_, fun text hreads => ?_⟩⟩
  · intro token line
    -- An event of the sequence bypasses delimiters, opens a literal, or closes one.
    cases h.placed hes with
    | single he => exact (Bypasses.step he).2 token line
    | opens he => exact not_unbalanced_of_succeeds (Begins.step he).1 token line
    | closes hopener hinside he =>
      rw [run_append, run_cons]
      have htop := delimiters_of_begins hopener hinside
      exact not_unbalanced_of_succeeds (Ends.step he htop).1 token line
  · obtain ⟨hbegins, hends⟩ := hreads.content_bypasses
    have hcontent := hreads.leavesContent
    refine ⟨_, ownDelimiter_of_nested h hes hbegins hends, hcontent, fun d hd => ?_⟩
    rw [hd] at hcontent ⊢
    rw [hes, run_append, run_cons]
    exact hcontent.lasts after

end Nested

section Samples

open Session

/-- An interpolated command with content. -/
def interpolatedCommand : List Event :=
  .token 2 1 "@embexpr_beg" "#\x7b" :: .token 3 1 "@backtick" "`" ::
    ([.token 4 1 "@tstring_content" "b"] ++
      .token 5 1 "@tstring_end" "`" :: [.token 6 1 "@embexpr_end" "\x7d"])

/-- A quoted symbol with the command between two pieces of content. -/
def symbolAroundCommand : List Event :=
  .token 0 1 "@symbeg" ":\"" :: ((.token 1 1 "@tstring_content" "a" ::
    (interpolatedCommand ++ [.token 7 1 "@tstring_content" "c"])) ++
      .token 8 1 "@tstring_end" "\"" :: [.construct 9 1 "dyna_symbol" [.ref 1, .ref 7]])

theorem nested_interpolatedCommand {s : Session}
    (hname : (s.next (.token 2 1 "@embexpr_beg" "#\x7b")).builder.nameNext? = some false) :
    delimiterNesting.Nested s interpolatedCommand := by
  refine .single (.other (by decide +kernel)) ?_
  refine .pair (@Begins.command _ _ (.str "`") ⟨by decide, rfl, rfl⟩ hname)
    (.single (.other (by decide +kernel)) (.nil _)) ?_
    (.single (.other (by decide +kernel)) (.nil _))
  exact @Ends.literal _ _ (.str "`") _ ⟨by decide, rfl, rfl⟩ (by decide +kernel)

theorem nested_symbolAroundCommand : delimiterNesting.Nested initial symbolAroundCommand := by
  refine .pair (@Begins.symbol _ _ (.str ":\"") ⟨by decide, rfl, rfl⟩)
    (.single (.other (by decide +kernel)) ?_) ?_ (.single (.other (by decide +kernel)) (.nil _))
  · exact (nested_interpolatedCommand (by decide +kernel)).append
      (.single (.other (by decide +kernel)) (.nil _))
  · exact @Ends.literal _ _ (.str "\"") _ ⟨by decide, rfl, rfl⟩ (by decide +kernel)

/-- The content after the command has the delimiter of the symbol, `:"`. -/
theorem content_has_own_delimiter_symbolAroundCommand :
    let front := symbolAroundCommand.take 7
    let e := Event.token 7 1 "@tstring_content" "c"
    delimiterNesting.Nested initial symbolAroundCommand ∧
      (initial.run symbolAroundCommand).builder.delimiters = [] ∧
      (∃ delimiter, OwnDelimiter initial front e (symbolAroundCommand.drop 8) delimiter ∧
        (initial.run front).LeavesContent e (.str "c") delimiter) ∧
      (initial.run symbolAroundCommand).builder.arena.item? ((initial.run front).value e) 3 =
        some (.str ":\"") := by
  intro front e
  obtain ⟨hstack, hevents⟩ := content_has_own_delimiter nested_symbolAroundCommand
  have hreads : (initial.run front).Reads e "@tstring_content" (.str "c") := ⟨by decide, rfl, rfl⟩
  obtain ⟨delimiter, hown, hcontent, -⟩ := (hevents front e _ rfl).2 _ hreads
  exact ⟨nested_symbolAroundCommand, hstack, ⟨delimiter, hown, hcontent⟩, by decide +kernel⟩

end Samples

end RubyTree
