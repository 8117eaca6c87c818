import Mathlib.Data.List.Infix
import RubyTree.Proofs.Build.Documented

/-!
# Tokens of Open Constructs

The token of a keyword that opens a construct is remembered until the construct
is complete. It is the value of its event too, so an event that adds to this
value adds to what is remembered. As long as no event does, every remembered
token has the three items that were scanned: a tag, a word and a position.

Which values are keyword tokens can be read off the log. A scanned keyword
leaves one, and so does the event that dedents a heredoc if it is given one. No
other construct hands on a list of that kind, unless it is named like a token:
it adds to its first argument, or it leaves a list of its own.

Of the changes that events make to a list only an addition gives it more items.
A target that is added is no such change here, for a keyword token has another
tag than a list of targets, and dedenting puts one item into the place of another.

## Main definitions

* `SparesKeywords`: No event of a log adds to a keyword token.
* `Builder.IsKeyword`: A list is a tag, a word and a position.
* `OpensNone`: A step opens no construct.
* `Session.Spared`: A keyword token and the events that it is the value of.
* `Session.SparesOpen`: All open constructs have such tokens.

## Theorems

* `stable_isKeyword`, `replacing_isKeyword`: What leaves a keyword token one.
* `isKeyword_run`: Events that are given a keyword token.
* `Session.Spared.next`: A keyword token after one more event.
* `opensNone_run`, `opensNone_scan`: What opens no construct.
* `Session.SparesOpen.next`, `Session.SparesOpen.replayFrom`: One event, and all.
* `isKeyword_of_sparesKeywords`: The open constructs at the end of a replay.
-/

namespace RubyTree

open BuildM

section Log

/-- Whether a callback is one of a token. -/
def Callback.ofToken : Callback → Bool
  | comment | keyword | openLiteral | openWords | closeLiteral | backtick => true
  | openSymbol | interpolation | content | operator => true
  | _ => false

/-- The event that the first argument of an event refers to. -/
def Event.first? (e : Event) : Option Nat :=
  match e.args with
  | .ref id :: _ => some id
  | _ => none

/-- Whether an event leaves a keyword token, if the events with these numbers have
    left the ones before it. -/
def Event.leavesKeyword (tokens : List Nat) (e : Event) : Bool :=
  if e.isToken then e.callback = .keyword
  else e.callback = .dedent && e.first?.any tokens.contains

/-- The events that have left a keyword token, after one more event. -/
def Event.keywords (tokens : List Nat) (e : Event) : List Nat :=
  if e.leavesKeyword tokens then e.id :: tokens else tokens

/-- An event does not add to a keyword token, and no construct is named like a
    token. -/
def Event.SparesKeywords (tokens : List Nat) (e : Event) : Prop :=
  e.isToken = false → e.callback.ofToken = false ∧
    (e.callback = .addItem → e.first?.any tokens.contains = false)

instance (tokens : List Nat) (e : Event) : Decidable (e.SparesKeywords tokens) :=
  inferInstanceAs (Decidable (_ → _ ∧ _))

/-- No event of a log adds to a keyword token. The numbers are those of earlier
    events that have left one. -/
def SparesKeywords : List Nat → List Event → Prop
  | _, [] => True
  | tokens, e :: later => e.SparesKeywords tokens ∧ SparesKeywords (e.keywords tokens) later

instance decidableSparesKeywords : (tokens : List Nat) → (events : List Event) →
    Decidable (SparesKeywords tokens events)
  | _, [] => inferInstanceAs (Decidable True)
  | tokens, e :: later =>
    have := decidableSparesKeywords (e.keywords tokens) later
    inferInstanceAs (Decidable (_ ∧ SparesKeywords _ later))

theorem Event.subset_keywords (tokens : List Nat) (e : Event) : tokens ⊆ e.keywords tokens := by
  unfold keywords
  split
  · exact List.subset_cons_self _ _
  · exact List.Subset.refl _

/-- A token with the callback of keywords is called what keywords are. -/
theorem Event.name_of_keyword {e : Event} (htoken : e.isToken) (h : e.callback = .keyword) :
    e.name = "@kw" := by
  rw [callback, if_pos htoken] at h
  have hhead : e.name.toList.head? = some '@' := by simpa [isToken] using htoken
  have htail : e.name.toList.tail = ['k', 'w'] := by
    simpa [bareName] using congrArg String.toList (Callback.name_of_keyword h)
  rw [← String.ofList_toList (s := e.name)]
  cases hchars : e.name.toList with
  | nil =>
    rw [hchars] at hhead
    cases hhead
  | cons c cs =>
    rw [hchars] at hhead htail
    obtain rfl := Option.some.inj hhead
    obtain rfl : cs = ['k', 'w'] := htail
    rfl

end Log

namespace Builder

/-- A list is a keyword token: a tag, a word and a position. -/
def IsKeyword (b : Builder) (v : Item) : Prop :=
  ∃ word place, b.arena.items? v = some [.str "@kw", word, place]

/-- A list of three items has three after one of them has been replaced. If its tag
    is an atom, the tag is not what is replaced as content. -/
theorem IsKeyword.replace {b : Builder} {v w item piece : Item} {xs : List Item} {i : Nat}
    (h : b.IsKeyword v) (hxs : b.arena.items? w = some xs) (hi : xs[i]? = some item)
    (htag : b.arena.tag? item = some "@tstring_content") :
    (b.setItems w (xs.set i piece)).IsKeyword v := by
  obtain ⟨word, place, hitems⟩ := h
  by_cases hw : w = v
  · subst hw
    obtain rfl := Option.some.inj (hxs.symm.trans hitems)
    have hset := items?_setItems_self hxs (List.set [.str "@kw", word, place] i piece)
    match i with
    | 0 =>
      cases hi
      cases htag
    | 1 => exact ⟨piece, place, hset⟩
    | 2 => exact ⟨word, piece, hset⟩
    | _ + 3 => cases hi
  · exact ⟨word, place, (items?_setItems_ne hw _).trans hitems⟩

theorem IsKeyword.push {b : Builder} {v : Item} (h : b.IsKeyword v) (xs : List Item) :
    (b.push xs).IsKeyword v := by
  obtain ⟨word, place, hitems⟩ := h
  exact ⟨word, place, items?_push hitems xs⟩

end Builder

section Lists

variable {id : Nat} {b c : Builder}

/-- A keyword token stays one if it is not within reach. -/
theorem stable_isKeyword (id : Nat) (tables : List Table) :
    Stable (·.IsKeyword (.list id)) (· ≠ .list id) tables where
  atom _ := nofun
  fresh {b} hP heq := by
    -- There is no list yet with the number of the next one.
    obtain ⟨word, place, hitems⟩ := hP
    have hlt : id < b.arena.lists.size := (Array.getElem?_eq_some_iff.1 hitems).1
    injection heq with heq
    omega
  push xs hP := hP.push xs
  grow _ hP hv _ := by
    obtain ⟨word, place, hitems⟩ := hP
    exact ⟨word, place, (Builder.items?_setItems_ne hv _).trans hitems⟩
  replace _ hP _ hxs hi htag := hP.replace hxs hi htag
  write {b t} _ _ hP := by cases t <;> exact hP

/-- New lists and new content leave a keyword token one, even if it is within reach. -/
theorem replacing_isKeyword (v : Item) :
    Replacing (fun b b' => b = b' ∧ b.IsKeyword v) (fun _ => True) where
  alike := fun ⟨hb, _⟩ => hb ▸ .refl _
  atom _ := trivial
  fresh _ := trivial
  push := fun ⟨hb, hP⟩ _ hitems => by
    subst hb
    rw [hitems rfl]
    exact ⟨rfl, hP.push _⟩
  replace := fun ⟨hb, hP⟩ _ hxs hys hi htag => by
    subst hb
    obtain rfl := Option.some.inj (hxs.symm.trans hys)
    exact ⟨rfl, hP.replace hxs hi htag⟩

/-- Dedenting a keyword token leaves it one. -/
theorem isKeyword_dedent {v parts width : Item} (h : b.IsKeyword v) :
    ((Effect.dedent parts width).runIn b).2.IsKeyword v := by
  have hboth : Together (fun b b' => b = b' ∧ b.IsKeyword v) (fun _ => True) (fun _ => True)
      ((Effect.dedent parts width).runIn b) ((Effect.dedent parts width).runIn b) :=
    Lockstep.dedent (replacing_isKeyword v) ⟨rfl, h⟩ trivial trivial width
  exact hboth.of_self.1

/-- A target after a keyword token makes a node of the two: the token is no list of
    targets. -/
theorem runIn_addTarget_of_isKeyword {v item : Item} (h : b.IsKeyword v) :
    (Effect.addTarget v item).runIn b = (newNode "mlhs_add_post" [v, item]).runIn b := by
  obtain ⟨word, place, hitems⟩ := h
  have htag : b.arena.tag? v = some "@kw" := by
    rw [Arena.tag?, hitems]
  unfold Effect.addTarget
  rw [runIn_bind, runIn_tagOf]
  dsimp only
  rw [htag]
  rfl

/-- Three constructs can leave the list they are given, and two of them leave it a
    keyword token. Only dedenting leaves it as the value. -/
theorem isKeyword_run {c : Callback} (name : String) {args : List Item} (hhands : c.handsOn)
    (htoken : c.ofToken = false) (hadd : c ≠ .addItem) (h : b.IsKeyword (.list id))
    (hhead : args.head? = some (.list id)) :
    ((c.run name args).runIn b).2.IsKeyword (.list id) ∧
      ∀ v, ((c.run name args).runIn b).1 = .ok v → v = .list id → c = .dedent := by
  -- Only two callbacks but that for flat lists may change their first argument.
  have hthree : c = .dedent ∨ c = .addTarget := by
    cases c <;> simp_all [Callback.handsOn, Callback.ofToken]
  rcases hthree with rfl | rfl
  · refine ⟨?_, fun _ _ _ => rfl⟩
    show ((Effect.twoArgs Effect.dedent args).runIn b).2.IsKeyword _
    unfold Effect.twoArgs
    split
    · exact isKeyword_dedent h
    · exact h
  · show ((Effect.twoArgs Effect.addTarget args).runIn b).2.IsKeyword _ ∧
      ∀ v, ((Effect.twoArgs Effect.addTarget args).runIn b).1 = .ok v → _
    unfold Effect.twoArgs
    split
    · obtain rfl := Option.some.inj hhead
      rw [runIn_addTarget_of_isKeyword h, runIn_newNode]
      refine ⟨h.push _, fun v hv heq => ?_⟩
      cases hv
      exact absurd heq ((stable_isKeyword id []).fresh h)
    · exact ⟨h, nofun⟩

end Lists

section Stack

variable {α β : Type}

/-- A step opens no construct: what is open after it was open before. -/
def OpensNone (x : BuildM α) : Prop :=
  ∀ b, (x.runIn b).2.comments.stack <:+ b.comments.stack

theorem OpensNone.bind {x : BuildM α} {f : α → BuildM β} (hx : OpensNone x)
    (hf : ∀ a, OpensNone (f a)) : OpensNone (x >>= f) := by
  intro b
  have hfirst := hx b
  rw [runIn_bind]
  cases hrun : x.runIn b with
  | mk result c =>
    rw [hrun] at hfirst
    cases result with
    | ok a => exact (hf a c).trans hfirst
    | error error => exact hfirst

theorem opensNone_documented (tag : String) (args : List Item) :
    OpensNone (Effect.documented tag args) := by
  intro b
  cases hstack : b.comments.stack with
  | nil =>
    rw [runIn_documented_nil hstack, ← hstack]
    exact List.suffix_refl _
  | cons top rest =>
    rw [documented_comments hstack]
    exact List.suffix_cons top rest

/-- Constructs are opened by keywords and by nothing else. -/
theorem opensNone_run {c : Callback} (h : c ≠ .keyword) (name : String) (args : List Item) :
    OpensNone (c.run name args) := by
  by_cases hwrites : .constructs ∈ c.writes
  · -- These are the events that complete a construct.
    have hcompletes : (∃ tag, c = .construct tag) ∨ c = .begin := by
      cases c <;> simp_all [Callback.writes]
    rcases hcompletes with ⟨tag, rfl⟩ | rfl
    · exact opensNone_documented tag args
    · intro b
      show ((Effect.oneArg Effect.beginBlock args).runIn b).2.comments.stack <:+ _
      unfold Effect.oneArg
      split
      · rename_i body
        by_cases hbody : b.arena.tag? body = some "bodystmt"
        · rw [runIn_beginBlock_of_body hbody]
          exact opensNone_documented _ _ b
        · rw [runIn_beginBlock_of_ne hbody]
          exact List.suffix_refl _
      · exact List.suffix_refl _
  · intro b
    -- A callback that does not write to the constructs leaves the table as it is.
    have hsame : Table.constructs.copy b ((c.run name args).runIn b).2 =
        ((c.run name args).runIn b).2 :=
      ((Table.constructs.stable_copy b hwrites).run c name (List.Subset.refl _)
        (Table.constructs.copy_self b) (fun _ _ _ => trivial) rfl).1
    have hstack := congrArg (·.comments.stack) hsame
    exact hstack ▸ List.suffix_refl _

theorem opensNone_noteSign (name : String) (node : Item) : OpensNone (noteSign name node) := by
  unfold noteSign
  split
  · refine OpensNone.bind (fun b => List.suffix_refl _) fun b =>
      OpensNone.bind (fun c => ?_) fun found => ?_
    · rw [runIn_isOneOf]
    · split
      · exact fun b => List.suffix_refl _
      · exact fun b => List.suffix_refl _
  · exact fun b => List.suffix_refl _

/-- A token that is no keyword opens nothing, whatever it is called. -/
theorem opensNone_scan {name : String} (h : Callback.ofName (bareName name) ≠ .keyword)
    (text : Item) : OpensNone (scan name text) := by
  intro b
  rw [runIn_scan]
  refine OpensNone.bind (opensNone_noteSign name b.tokenNode) (fun _ => ?_)
    (b.withToken name text)
  refine OpensNone.bind ?_ fun value => ?_
  · unfold tokenValue
    split
    · exact fun c => List.suffix_refl _
    · exact opensNone_run h name _
  · intro c
    show (c.remembering name text).comments.stack <:+ _
    rw [Builder.stack_remembering]

end Stack

namespace Session

variable {tokens : List Nat} {s : Session} {e : Event} {id : Nat} {args : List Item}

/-- Arguments leave a keyword token one. -/
theorem isKeyword_prepare {v : Item} (h : s.builder.IsKeyword v) (e : Event) :
    (s.prepare e).2.IsKeyword v := by
  have hgrowing := (replacing_isKeyword v).toGrowing
  have hmoved : { s.builder with line := e.line, column := e.column }.IsKeyword v := h
  exact (hgrowing.resolveAll ⟨rfl, hmoved⟩ (E := fun _ => True)
    (fun p (_ : p ∈ s.values) => trivial) (fun _ => trivial) e.args).related.2

/-- If the first of the arguments is a list that was there before, then it is the
    value of an earlier event. -/
theorem first?_of_head (hargs : s.args? e = some args) (hhead : args.head? = some (.list id))
    (hid : id < s.builder.arena.lists.size) :
    ∃ k, e.first? = some k ∧ (k, .list id) ∈ s.values := by
  obtain ⟨c, hrun⟩ : ∃ c, (resolveAll s.values e.args).runIn
      { s.builder with line := e.line, column := e.column } = (.ok args, c) := by
    unfold args? at hargs
    show ∃ c, s.prepare e = (.ok args, c)
    generalize s.prepare e = prepared at hargs ⊢
    obtain ⟨result, c⟩ := prepared
    cases result with
    | ok values =>
      cases hargs
      exact ⟨c, rfl⟩
    | error error => cases hargs
  unfold Event.first?
  match hsplit : e.args with
  | [] =>
    rw [hsplit, resolveAll] at hrun
    cases hrun
    cases hhead
  | arg :: rest =>
    rw [hsplit, resolveAll] at hrun
    obtain ⟨v, middle, hv, hrun⟩ := of_runIn_bind hrun
    obtain ⟨vs, last, -, hrun⟩ := of_runIn_bind hrun
    cases hrun
    obtain rfl : v = .list id := Option.some.inj hhead
    match arg with
    | .atom a =>
      rw [resolve] at hv
      cases hv
    | .ref k =>
      rw [resolve] at hv
      cases hk : s.values.lookup k with
      | none =>
        rw [hk] at hv
        cases hv
      | some w =>
        rw [hk] at hv
        cases hv
        obtain ⟨before, after, hvalues, -⟩ := List.lookup_eq_some_iff.1 hk
        exact ⟨k, rfl, by rw [hvalues]; simp⟩
    | .list items =>
      -- This argument is a list of its own, which was not there before.
      rw [resolve] at hv
      obtain ⟨ws, inner, hws, hv⟩ := of_runIn_bind hv
      have hle : s.builder.arena.lists.size ≤ inner.arena.lists.size :=
        (has_of_resolveAll (b := { s.builder with line := e.line, column := e.column })
          s.known items hws).1
      rw [runIn_newList] at hv
      cases hv
      omega

/-- A list is a keyword token, and it is the value of no events but these. -/
structure Spared (tokens : List Nat) (s : Session) (id : Nat) : Prop where
  isKeyword : s.builder.IsKeyword (.list id)
  named : ∀ p ∈ s.values, p.2 = .list id → p.1 ∈ tokens

namespace Spared

/-- A keyword token stays one, and only an event that leaves keyword tokens can leave
    it. -/
theorem step (h : s.Spared tokens id) (he : e.SparesKeywords tokens) :
    (s.step e).2.IsKeyword (.list id) ∧
      ∀ v, (s.step e).1 = .ok v → v = .list id → e.leavesKeyword tokens := by
  have hprepared := isKeyword_prepare h.isKeyword e
  cases hargs : s.args? e with
  | none =>
    obtain ⟨error, hstep⟩ := step_of_args_none hargs
    rw [hstep]
    exact ⟨hprepared, fun v hv => by cases hv⟩
  | some args =>
    -- What does not leave its first argument leaves something else than the token.
    have hother {x : BuildM Item}
        (hx : ((x.runIn (s.prepare e).2).2.IsKeyword (.list id) ∧
          ∀ v, (x.runIn (s.prepare e).2).1 = .ok v → v ≠ .list id)) :
        (x.runIn (s.prepare e).2).2.IsKeyword (.list id) ∧
          ∀ v, (x.runIn (s.prepare e).2).1 = .ok v → v = .list id → e.leavesKeyword tokens :=
      ⟨hx.1, fun v hv heq => absurd heq (hx.2 v hv)⟩
    rw [Session.step_eq hargs, perform]
    cases htoken : e.isToken with
    | true =>
      rw [if_pos rfl]
      unfold Effect.oneArg
      split
      · exact hother ((stable_isKeyword id (tokenWrites e.name)).scan e.name _
          (List.Subset.refl _) hprepared rfl)
      · exact ⟨hprepared, fun v hv => by cases hv⟩
    | false =>
      rw [if_neg (by simp)]
      have hcallback : Callback.ofName e.name = e.callback := by
        rw [Event.callback, htoken]
        rfl
      rw [build, hcallback]
      by_cases hhead : e.callback.handsOn ∧ args.head? = some (.list id)
      · obtain ⟨hhands, hhead⟩ := hhead
        have hlt : id < s.builder.arena.lists.size := by
          obtain ⟨word, place, hitems⟩ := h.isKeyword
          exact (Array.getElem?_eq_some_iff.1 hitems).1
        obtain ⟨k, hfirst, hk⟩ := first?_of_head hargs hhead hlt
        have hcontains : e.first?.any tokens.contains := by
          rw [hfirst]
          simpa using h.named (k, .list id) hk rfl
        have hadd : e.callback ≠ .addItem := fun hadd => by
          rw [(he htoken).2 hadd] at hcontains
          cases hcontains
        obtain ⟨hleft, hdedent⟩ := isKeyword_run e.name hhands (he htoken).1 hadd
          hprepared hhead
        refine ⟨hleft, fun v hv heq => ?_⟩
        rw [Event.leavesKeyword, htoken, hdedent v hv heq, hcontains]
        rfl
      · refine hother ((stable_isKeyword id e.callback.writes).run e.callback e.name
          (List.Subset.refl _) hprepared (fun hhands x hx heq => ?_) rfl)
        exact hhead ⟨hhands, heq ▸ hx⟩

/-- A keyword token after one more event. -/
theorem next (h : s.Spared tokens id) (he : e.SparesKeywords tokens) :
    (s.next e).Spared (e.keywords tokens) id := by
  obtain ⟨hleft, hvalue⟩ := h.step he
  refine ⟨hleft, List.forall_mem_cons.2 ⟨fun heq => ?_, fun p hp heq => ?_⟩⟩
  · unfold value at heq
    cases hv : (s.step e).1 with
    | ok v =>
      rw [hv] at heq
      rw [Event.keywords, if_pos (hvalue v hv heq)]
      exact List.mem_cons_self
    | error error =>
      rw [hv] at heq
      cases heq
  · exact e.subset_keywords tokens (h.named p hp heq)

end Spared

/-- An event that is not about a keyword opens no construct. -/
theorem stack_step (h : e.callback ≠ .keyword) :
    (s.step e).2.comments.stack <:+ s.builder.comments.stack := by
  rw [← prepare_comments s e]
  -- An event that refers to an unknown value fails and changes nothing.
  cases hargs : s.args? e with
  | none =>
    obtain ⟨error, hstep⟩ := step_of_args_none hargs
    rw [hstep]
  | some args =>
    rw [Session.step_eq hargs, perform]
    unfold Event.callback at h
    cases htoken : e.isToken with
    | true =>
      rw [htoken] at h
      rw [if_pos rfl]
      unfold Effect.oneArg
      split
      · exact opensNone_scan h _ _
      · exact List.suffix_refl _
    | false =>
      rw [htoken] at h
      exact opensNone_run h e.name args _

/-- All open constructs have a keyword token as it was scanned. -/
def SparesOpen (tokens : List Nat) (s : Session) : Prop :=
  ∀ p ∈ s.builder.comments.stack, ∃ id, p.1 = .list id ∧ s.Spared tokens id

/-- The token of a construct that has just been opened is the value of this event
    only. -/
theorem Opens.spared {word : String} (h : s.Opens e word) :
    ∃ id, s.value e = .list id ∧ (s.next e).Spared (e.keywords tokens) id := by
  obtain ⟨hvalue, text, hitems⟩ := h.items?
  refine ⟨_, hvalue, ⟨text, _, hvalue ▸ hitems⟩, List.forall_mem_cons.2 ⟨fun _ => ?_, ?_⟩⟩
  · obtain ⟨hreads, -, -, -⟩ := h
    have hkeyword : e.leavesKeyword tokens := by
      rw [Event.leavesKeyword, if_pos hreads.isToken, Event.callback, if_pos hreads.isToken,
        hreads.name_eq]
      rfl
    rw [Event.keywords, if_pos hkeyword]
    exact List.mem_cons_self
  · -- Values of earlier events are lists that were there before.
    intro p hp heq
    have hle : s.builder.arena.lists.size ≤ (s.prepare e).2.arena.lists.size :=
      prepare_stable (stable_size _ [.place]) List.mem_cons_self (Nat.le_refl _)
        (fun _ _ => trivial)
    have hlt := s.known p hp _ heq
    omega

/-- After one more event all open constructs still have keyword tokens as they were
    scanned. -/
theorem SparesOpen.next (h : s.SparesOpen tokens) (he : e.SparesKeywords tokens) :
    (s.next e).SparesOpen (e.keywords tokens) := by
  -- What was open keeps its token; what is new is the token of a keyword that opens.
  have hold (p : Item × String) (hp : p ∈ s.builder.comments.stack) :
      ∃ id, p.1 = .list id ∧ (s.next e).Spared (e.keywords tokens) id := by
    obtain ⟨id, hid, hspared⟩ := h p hp
    exact ⟨id, hid, hspared.next he⟩
  show ∀ p ∈ (s.step e).2.comments.stack, _
  by_cases hkeyword : e.callback = .keyword
  · have htoken : e.isToken := by
      refine Decidable.byContradiction fun htoken => ?_
      have hother := (he (by simpa using htoken)).1
      rw [hkeyword] at hother
      cases hother
    cases hargs : s.args? e with
    | none =>
      obtain ⟨error, hstep⟩ := step_of_args_none hargs
      rw [hstep]
      simpa using hold
    | some args =>
      match args with
      | [text] =>
        have hreads : s.Reads e "@kw" text := ⟨htoken, Event.name_of_keyword htoken hkeyword, hargs⟩
        by_cases hopens : ∃ word, s.Opens e word
        · obtain ⟨word, hopens⟩ := hopens
          rw [hopens.step.2.1]
          exact List.forall_mem_cons.2 ⟨hopens.spared, hold⟩
        · rw [(Passes.keyword hreads fun word hword => hopens ⟨word, hword⟩).step]
          exact hold
      | [] | _ :: _ :: _ =>
        rw [Session.step_eq hargs, perform, if_pos htoken]
        simpa [Effect.oneArg] using hold
  · exact fun p hp => hold p ((stack_step hkeyword).subset hp)

/-- At the end of a replay all open constructs have keyword tokens, also after an
    error. -/
theorem SparesOpen.replayFrom (h : s.SparesOpen tokens) {events : List Event}
    (hevents : SparesKeywords tokens events) (program : Option Item)
    {result : Except Error (Option Item)} {c : Builder}
    (hrun : (replayFrom s.values program events).runIn s.builder = (result, c)) :
    ∀ p ∈ c.comments.stack, c.IsKeyword p.1 := by
  -- Wherever the replay ends, the tokens of open constructs are keywords still.
  have hend {s : Session} {tokens : List Nat} (h : s.SparesOpen tokens) :
      ∀ p ∈ s.builder.comments.stack, s.builder.IsKeyword p.1 := fun p hp => by
    obtain ⟨id, hid, hspared⟩ := h p hp
    exact hid ▸ hspared.isKeyword
  induction events generalizing s tokens program with
  | nil =>
    cases hrun
    exact hend h
  | cons e later ih =>
    obtain ⟨he, hlater⟩ := hevents
    have hnext := h.next he
    rw [BuildM.replayFrom, runIn_bind] at hrun
    cases hstep : (replayEvent s.values e).runIn s.builder with
    | mk stepped middle =>
      have hbuilder : (s.next e).builder = middle := congrArg Prod.snd hstep
      rw [hstep] at hrun
      cases stepped with
      | ok v =>
        refine ih hnext hlater (if e.name == "program" then some v else program) ?_
        rw [values_next (congrArg Prod.fst hstep), hbuilder]
        exact hrun
      | error error =>
        cases hrun
        exact hbuilder ▸ hend hnext

end Session

/-- If no event adds to a keyword token, then every construct that is open at the end
    of a replay is remembered with a tag, a word and a position. -/
theorem isKeyword_of_sparesKeywords (filename : String) (line : Int) {events : List Event}
    (h : SparesKeywords [] events) :
    ∀ p ∈ (rawTree filename line events).2.comments.stack,
      (rawTree filename line events).2.IsKeyword p.1 := by
  have hstart : Session.SparesOpen [] ⟨[], { filename, line }, List.forall_mem_nil _⟩ :=
    List.forall_mem_nil _
  show ∀ p ∈ ((replay events).runIn _).2.comments.stack, ((replay events).runIn _).2.IsKeyword p.1
  rw [replay, runIn_bind]
  cases hrun : (replayFrom [] none events).runIn { filename, line } with
  | mk result c =>
    have hleft := hstart.replayFrom h none hrun
    match result with
    | .error error => exact hleft
    | .ok none => exact hleft
    | .ok (some v) =>
      change ∀ p ∈ ((freeze v).runIn c).2.comments.stack, ((freeze v).runIn c).2.IsKeyword p.1
      rw [runIn_freeze]
      exact hleft

end RubyTree
