import RubyTree.Proofs.Build.Values

/-!
# Sessions

A session is a builder in the middle of its work, with the values that earlier
events have left. It goes on event by event. An event that fails leaves nothing,
and what it did before that stays done; the next event then starts from there.

An event leaves every table as it is that is not among those it writes, and its
arguments change no table at all.

## Main definitions

* `Session`: The values so far, and the builder.
* `Session.prepare`: The arguments of the next event.
* `Session.step`, `Session.next`, `Session.run`: One event, and a sequence.
* `Session.Reads`, `Session.Builds`: What the next event is.
* `Session.Each`: What holds of every event of a sequence.

## Theorems

* `Session.each_succeeds_iff`: Replaying is a session in which no event fails.
* `Session.step_eq`: An event acts once its arguments are there.
* `Session.prepare_builder`: Arguments are new lists and nothing more.
* `Session.step_keeps`: A table that an event does not write.
* `Session.run_stable`: Conditions that hold on along a sequence.
-/

namespace RubyTree

open BuildM

/-- The values that events have left so far, and the builder that has them. -/
structure Session where
  values : Values
  builder : Builder
  known : ∀ p ∈ values, builder.Has p.2

namespace Event

/-- A token at some line. -/
def token (id line : Nat) (name text : String) : Event :=
  { id, name, line, column := 0, args := [.atom (.str text)] }

/-- A construct that is completed at some line. -/
def construct (id line : Nat) (name : String) (args : List Arg) : Event :=
  { id, name, line, column := 0, args }

end Event

namespace Session

/-- The session before any event. -/
def initial : Session where
  values := []
  builder := { filename := "", line := 1 }
  known := List.forall_mem_nil _

/-- The arguments of an event, and the builder that has them. -/
def prepare (s : Session) (e : Event) : Except Error (List Item) × Builder :=
  (resolveAll s.values e.args).runIn { s.builder with line := e.line, column := e.column }

/-- The arguments of an event, if it refers to earlier events only. -/
def args? (s : Session) (e : Event) : Option (List Item) :=
  (s.prepare e).1.toOption

/-- What the next event gives. -/
def step (s : Session) (e : Event) : Except Error Item × Builder :=
  (replayEvent s.values e).runIn s.builder

theorem size_le_step (s : Session) (e : Event) :
    s.builder.arena.lists.size ≤ (s.step e).2.arena.lists.size :=
  ((stable_size _ _).replayEvent (List.Subset.refl _) (Nat.le_refl _) (fun _ _ => trivial) rfl).1

/-- The value an event leaves, which is nothing if it fails. -/
def value (s : Session) (e : Event) : Item :=
  (s.step e).1.toOption.getD .null

theorem has_value (s : Session) (e : Event) : (s.step e).2.Has (s.value e) := by
  unfold value
  cases hstep : s.step e with
  | mk result c =>
    cases result with
    | ok v => exact has_of_replayEvent s.known hstep
    | error error => exact c.has_atom .null

/-- The session after the next event. -/
def next (s : Session) (e : Event) : Session where
  values := (e.id, s.value e) :: s.values
  builder := (s.step e).2
  known := List.forall_mem_cons.2
    ⟨s.has_value e, fun p hp => (s.known p hp).mono (s.size_le_step e)⟩

/-- The session after a sequence of events. -/
def run (s : Session) (es : List Event) : Session :=
  es.foldl next s

@[simp] theorem run_nil (s : Session) : s.run [] = s :=
  rfl

@[simp] theorem run_cons (s : Session) (e : Event) (es : List Event) :
    s.run (e :: es) = (s.next e).run es :=
  rfl

@[simp] theorem run_append (s : Session) (es es' : List Event) :
    s.run (es ++ es') = (s.run es).run es' :=
  List.foldl_append

/-- The next event does not fail. -/
def Succeeds (s : Session) (e : Event) : Prop :=
  ∃ v, (s.step e).1 = .ok v

/-- Something holds of every event of a sequence, when its turn comes. -/
def Each (P : Session → Event → Prop) (s : Session) (es : List Event) : Prop :=
  ∀ front e after, es = front ++ e :: after → P (s.run front) e

theorem each_nil (P : Session → Event → Prop) (s : Session) : s.Each P [] := by
  intro front e after hes
  cases front <;> cases hes

/-- What holds of the events of a sequence holds of those it starts with. -/
theorem Each.of_append {P : Session → Event → Prop} {s : Session} {es es' : List Event}
    (h : s.Each P (es ++ es')) : s.Each P es := by
  intro front e after hes
  exact h front e (after ++ es') (by rw [hes, List.append_assoc]; rfl)

theorem each_cons {P : Session → Event → Prop} {s : Session} {e : Event} {es : List Event} :
    s.Each P (e :: es) ↔ P s e ∧ (s.next e).Each P es := by
  constructor
  · intro h
    exact ⟨h [] e es rfl, fun front f after hes => h (e :: front) f after (by rw [hes]; rfl)⟩
  · rintro ⟨he, hes⟩ front f after hsplit
    cases front with
    | nil =>
      cases hsplit
      exact he
    | cons x front =>
      cases hsplit
      exact hes front f after rfl

instance (s : Session) (e : Event) : Decidable (s.Succeeds e) :=
  match h : (s.step e).1 with
  | .ok v => .isTrue ⟨v, h⟩
  | .error _ => .isFalse fun ⟨_, hv⟩ => nomatch h.symm.trans hv

instance decidableEach {P : Session → Event → Prop} [∀ s e, Decidable (P s e)] :
    (s : Session) → (es : List Event) → Decidable (s.Each P es)
  | s, [] => .isTrue (each_nil P s)
  | s, e :: es =>
    have := decidableEach (P := P) (s.next e) es
    decidable_of_iff (P s e ∧ (s.next e).Each P es) each_cons.symm

/-- An event that does not fail leaves its value, under its number. -/
theorem values_next {s : Session} {e : Event} {v : Item} (h : (s.step e).1 = .ok v) :
    (s.next e).values = (e.id, v) :: s.values := by
  have hvalue : s.value e = v := by
    rw [value, h]
    rfl
  rw [← hvalue]
  rfl

/-- Replaying goes as the session does, and gives a result if no event fails. -/
theorem each_succeeds_iff {s : Session} {es : List Event} (program : Option Item) :
    s.Each Succeeds es ↔ ∃ result, (replayFrom s.values program es).runIn s.builder =
      (.ok result, (s.run es).builder) := by
  induction es generalizing s program with
  | nil => exact ⟨fun _ => ⟨program, rfl⟩, fun _ => each_nil _ s⟩
  | cons e es ih =>
    rw [each_cons, replayFrom, runIn_bind]
    -- The replay goes on after an event exactly if the event succeeds.
    cases hstep : (replayEvent s.values e).runIn s.builder with
    | mk result c =>
      have hbuilder : (s.next e).builder = c := congrArg Prod.snd hstep
      cases result with
      | ok v =>
        have hsucceeds : s.Succeeds e := ⟨v, congrArg Prod.fst hstep⟩
        rw [and_iff_right hsucceeds, ih, values_next (congrArg Prod.fst hstep), hbuilder]
        rfl
      | error error =>
        constructor
        · rintro ⟨⟨v, hv⟩, -⟩
          rw [step, hstep] at hv
          cases hv
        · rintro ⟨v, hv⟩
          cases hv

/-- An event acts once its arguments are there. -/
theorem step_eq {s : Session} {e : Event} {args : List Item} (h : s.args? e = some args) :
    s.step e = (perform e args).runIn (s.prepare e).2 := by
  rw [step, replayEvent_eq, runIn_bind, runIn_modify]
  dsimp only
  have hprepare : (resolveAll s.values e.args).runIn
      { s.builder with line := e.line, column := e.column } = s.prepare e := rfl
  rw [runIn_bind, hprepare]
  rw [args?] at h
  generalize s.prepare e = prepared at h ⊢
  obtain ⟨result, c⟩ := prepared
  cases result with
  | ok values =>
    injection h with h
    rw [h]
  | error error => cases h

/-- The next event is a token with this name and text. -/
structure Reads (s : Session) (e : Event) (name : String) (text : Item) : Prop where
  isToken : e.isToken
  name_eq : e.name = name
  args_eq : s.args? e = some [text]

/-- The next event completes something, with these arguments. -/
structure Builds (s : Session) (e : Event) (args : List Item) : Prop where
  isToken : e.isToken = false
  args_eq : s.args? e = some args

variable {s : Session} {e : Event}

theorem Reads.step_eq {name : String} {text : Item} (h : s.Reads e name text) :
    s.step e = (scan name text).runIn (s.prepare e).2 := by
  rw [Session.step_eq h.args_eq, perform, h.isToken, ← h.name_eq]
  rfl

theorem Builds.step_eq {args : List Item} (h : s.Builds e args) {name : String}
    (hname : e.name = name) :
    s.step e = ((Callback.ofName name).run name args).runIn (s.prepare e).2 := by
  rw [Session.step_eq h.args_eq, perform, h.isToken, ← hname]
  rfl

/-- The arguments of an event that does not fail are there. -/
theorem args?_of_succeeds (h : s.Succeeds e) : ∃ args, s.args? e = some args := by
  obtain ⟨v, hv⟩ := h
  have hstep : (replayEvent s.values e).runIn s.builder = (.ok v, (s.step e).2) := Prod.ext hv rfl
  rw [replayEvent_eq] at hstep
  obtain ⟨⟨⟩, moved, hmoved, hstep⟩ := of_runIn_bind hstep
  cases hmoved
  obtain ⟨args, c, hargs, -⟩ := of_runIn_bind hstep
  have hprepare : s.prepare e = (.ok args, c) := hargs
  exact ⟨args, by rw [args?, hprepare]; rfl⟩

/-- An event without arguments does nothing more. -/
theorem step_of_args_none {s : Session} {e : Event} (h : s.args? e = none) :
    ∃ error, s.step e = (.error error, (s.prepare e).2) := by
  have hprepare : (resolveAll s.values e.args).runIn
      { s.builder with line := e.line, column := e.column } = s.prepare e := rfl
  rw [step, replayEvent_eq, runIn_bind, runIn_modify]
  dsimp only
  rw [runIn_bind, hprepare]
  rw [args?] at h
  generalize s.prepare e = prepared at h ⊢
  obtain ⟨result, c⟩ := prepared
  cases result with
  | ok values => cases h
  | error error => exact ⟨error, rfl⟩

/-- A token that does not fail has a text. -/
theorem reads_of_succeeds (h : s.Succeeds e) (htoken : e.isToken) :
    ∃ text, s.Reads e e.name text := by
  obtain ⟨args, hargs⟩ := args?_of_succeeds h
  obtain ⟨v, hv⟩ := h
  rw [Session.step_eq hargs, perform, if_pos htoken] at hv
  unfold Effect.oneArg at hv
  split at hv
  · rename_i text
    exact ⟨text, htoken, rfl, hargs⟩
  · cases hv

/-- Arguments are new lists, and everything else is left as it is. -/
theorem prepare_builder (s : Session) (e : Event) :
    ∃ arena, (s.prepare e).2 = { s.builder with line := e.line, column := e.column, arena } := by
  -- The same run on both sides of a lockstep tells how the one run ends.
  have hgrowing : Growing (fun b b' => b = b' ∧ ∃ arena, b =
      { s.builder with line := e.line, column := e.column, arena }) (fun _ => True) :=
    { alike := fun ⟨hb, _⟩ => hb ▸ .refl _
      atom := fun _ => trivial
      fresh := fun _ => trivial
      push := fun ⟨hb, arena, harena⟩ _ hitems => by
        subst hb harena
        rw [hitems rfl]
        exact ⟨rfl, _, rfl⟩ }
  have htogether := hgrowing.resolveAll ⟨rfl, s.builder.arena, rfl⟩ (E := fun _ => True)
    (fun p (_ : p ∈ s.values) => trivial) (fun _ => trivial) e.args
  exact htogether.related.2

@[simp] theorem prepare_comments (s : Session) (e : Event) :
    (s.prepare e).2.comments = s.builder.comments := by
  obtain ⟨arena, h⟩ := s.prepare_builder e
  rw [h]

@[simp] theorem prepare_operators (s : Session) (e : Event) :
    (s.prepare e).2.operators = s.builder.operators := by
  obtain ⟨arena, h⟩ := s.prepare_builder e
  rw [h]

@[simp] theorem prepare_nameNext? (s : Session) (e : Event) :
    (s.prepare e).2.nameNext? = s.builder.nameNext? := by
  obtain ⟨arena, h⟩ := s.prepare_builder e
  rw [h]
  rfl

end Session

namespace Table

theorem copy_push (t : Table) (source b : Builder) (xs : List Item) :
    t.copy source (b.push xs) = (t.copy source b).push xs := by
  cases t <;> rfl

theorem copy_setItems (t : Table) (source b : Builder) (v : Item) (xs : List Item) :
    t.copy source (b.setItems v xs) = (t.copy source b).setItems v xs := by
  cases t <;> rfl

theorem copy_copy {t t' : Table} (h : t ≠ t') (source source' b : Builder) :
    t.copy source (t'.copy source' b) = t'.copy source' (t.copy source b) := by
  cases t <;> cases t' <;> first | rfl | exact absurd rfl h

theorem copy_self (t : Table) (b : Builder) : t.copy b b = b := by
  cases t <;> rfl

/-- A table is left as it is by everything that writes only others. -/
theorem stable_copy (t : Table) (source : Builder) {tables : List Table} (h : t ∉ tables) :
    Stable (fun b => t.copy source b = b) (fun _ => True) tables where
  atom _ := trivial
  fresh _ := trivial
  push xs hP := by rw [copy_push, hP]
  grow x hP _ _ := by rw [copy_setItems, hP]
  replace piece hP _ _ _ _ := by rw [copy_setItems, hP]
  write {b t'} ht source' hP := by
    have hne : t ≠ t' := fun heq => h (heq ▸ ht)
    rw [copy_copy hne, hP]

end Table

namespace Session

variable {s : Session} {e : Event}

theorem step_keeps {t : Table} (h : t ∉ e.writes) : t.copy s.builder (s.step e).2 = (s.step e).2 :=
  ((t.stable_copy s.builder h).replayEvent (List.Subset.refl _) (t.copy_self _)
    (fun _ _ => trivial) rfl).1

/-- The error of an event is one that it may fail with. -/
theorem raises_of_step {error : Error} (h : (s.step e).1 = .error error) : e.Raises error :=
  ((stable_size 0 e.writes).replayEvent (List.Subset.refl _) (Nat.zero_le _)
    (fun _ _ => trivial) (Prod.ext h rfl : s.step e = (.error error, (s.step e).2))).2.2 error rfl

/-- Arguments keep a stable condition. -/
theorem prepare_stable {P : Builder → Prop} {reach : Item → Prop} {tables : List Table}
    (h : Stable P reach tables) (hplace : .place ∈ tables) (hP : P s.builder)
    (hvalues : ∀ p ∈ s.values, reach p.2) : P (s.prepare e).2 := by
  have hmoved := h.lockstep.setPlace hplace ⟨rfl, hP⟩ e.line e.column
  exact (h.lockstep.resolveAll hmoved (E := fun _ => True) hvalues (fun _ => trivial)
    e.args).related.2

/-- A sequence of events keeps a stable condition. -/
theorem run_stable {P : Builder → Prop} {reach : Item → Prop} {tables : List Table}
    (h : Stable P reach tables) {es : List Event} (hwrites : ∀ e ∈ es, e.writes ⊆ tables)
    (hP : P s.builder) (hvalues : ∀ p ∈ s.values, reach p.2) :
    P (s.run es).builder ∧ ∀ p ∈ (s.run es).values, reach p.2 := by
  -- By the events: what each one leaves is within reach, and a failed one leaves nothing.
  induction es generalizing s with
  | nil => exact ⟨hP, hvalues⟩
  | cons e es ih =>
    obtain ⟨hnext, hvalue, -⟩ := h.replayEvent (hwrites e List.mem_cons_self) hP hvalues rfl
    refine ih (fun e he => hwrites e (List.mem_cons_of_mem _ he)) hnext
      (List.forall_mem_cons.2 ⟨?_, hvalues⟩)
    unfold value
    cases hv : (s.step e).1 with
    | ok v => exact hvalue v hv
    | error _ => exact h.atom .null

end Session

end RubyTree
