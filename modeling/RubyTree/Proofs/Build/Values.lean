import RubyTree.Proofs.Build.Events

/-!
# The Values Events Leave

An event leaves an atom, one of its arguments, or a list that it has made. So
the value is always there: it is an atom or a list of the builder. Lists are
never removed, and hence values stay there.

## Main definitions

* `Builder.Has`: An atom, or a list that the builder has.
* `BuildM.Leaves`: What a step with some arguments leaves.
* `Stable`: A condition on builders that events keep.

## Theorems

* `BuildM.leaves_run`: What callbacks leave.
* `Stable.replayEvent`: Stable conditions hold on.
* `BuildM.has_of_replayEvent`: The value of an event is there.
-/

namespace RubyTree

/-- Whether a value is an atom or one of the lists. -/
def Builder.Has (b : Builder) (v : Item) : Prop :=
  ∀ id, v = .list id → id < b.arena.lists.size

/-- A value without parts needs no arena. -/
theorem Builder.has_atom (b : Builder) (a : Atom) : b.Has (.atom a) :=
  fun _ h => nomatch h

/-- What is there stays there, since nothing is taken away. -/
theorem Builder.Has.mono {b c : Builder} {v : Item} (h : b.Has v)
    (hle : b.arena.lists.size ≤ c.arena.lists.size) : c.Has v :=
  fun id hid => Nat.lt_of_lt_of_le (h id hid) hle

namespace BuildM

/-- The value of a step is one of its arguments, or it is there. -/
def Leaves (args : List Item) (x : BuildM Item) : Prop :=
  ∀ b v c, x.runIn b = (.ok v, c) → v ∈ args ∨ c.Has v

section Leaves

variable {α : Type} {args : List Item}

/-- An argument is handed on. -/
theorem leaves_mem {v : Item} (h : v ∈ args) : Leaves args (pure v) := by
  intro b w c hrun
  injection hrun with hv
  injection hv with hv
  exact .inl (hv ▸ h)

theorem leaves_null : Leaves args (pure .null) := by
  intro b v c hrun
  injection hrun with hv
  injection hv with hv
  exact .inr (hv ▸ c.has_atom .null)

theorem leaves_throw (e : Error) : Leaves args (throw e) := by
  intro b v c hrun
  injection hrun with hv
  cases hv

/-- A new list. -/
theorem leaves_newList (items : List Item) : Leaves args (newList items) := by
  intro b v c hrun
  rw [runIn_newList] at hrun
  injection hrun with hv hc
  injection hv with hv
  refine .inr fun id hid => ?_
  rw [← hc, Builder.size_push]
  injection hv.trans hid with hid
  omega

/-- A new node. -/
theorem leaves_newNode (tag : String) (fields : List Item) : Leaves args (newNode tag fields) :=
  leaves_newList _

/-- What a sequence leaves is what its end does. -/
theorem leaves_bind {x : BuildM α} {f : α → BuildM Item} (hf : ∀ a, Leaves args (f a)) :
    Leaves args (x >>= f) := by
  intro b v c hrun
  obtain ⟨a, middle, -, hrun⟩ := of_runIn_bind hrun
  exact hf a middle v c hrun

theorem leaves_ite {p : Prop} [Decidable p] {x y : BuildM Item} (hx : Leaves args x)
    (hy : Leaves args y) : Leaves args (if p then x else y) := by
  split
  · exact hx
  · exact hy

/-- Exactly one argument, which is one of the arguments. -/
theorem leaves_oneArg {f : Item → BuildM Item} (hf : ∀ x ∈ args, Leaves args (f x)) :
    Leaves args (Effect.oneArg f args) := by
  unfold Effect.oneArg
  split
  · exact hf _ (List.mem_singleton_self _)
  · exact leaves_throw _

theorem leaves_threeArgs {f : Item → Item → Item → BuildM Item}
    (hf : ∀ x y z, Leaves args (f x y z)) : Leaves args (Effect.threeArgs f args) := by
  unfold Effect.threeArgs
  split
  · exact hf _ _ _
  · exact leaves_throw _

/-- Exactly two arguments, the first of which may be handed on. -/
theorem leaves_twoArgs {f : Item → Item → BuildM Item} (hf : ∀ x ∈ args, ∀ y, Leaves args (f x y)) :
    Leaves args (Effect.twoArgs f args) := by
  unfold Effect.twoArgs
  split
  · exact hf _ List.mem_cons_self _
  · exact leaves_throw _

theorem leaves_noArgs {f : BuildM Item} (hf : Leaves args f) :
    Leaves args (Effect.noArgs f args) := by
  unfold Effect.noArgs
  split
  · exact hf
  · exact leaves_throw _

variable {x : Item}

theorem leaves_keyword (hx : x ∈ args) : Leaves args (Effect.keyword x) := by
  refine leaves_bind fun only => leaves_ite (leaves_mem hx) ?_
  refine leaves_bind fun _ => leaves_bind fun _ => ?_
  refine leaves_ite (leaves_bind fun _ => leaves_mem hx) ?_
  exact leaves_ite (leaves_bind fun _ => leaves_mem hx) (leaves_mem hx)

/-- A construct is a new node around a new node. -/
theorem leaves_documented (tag : String) (fields : List Item) :
    Leaves args (Effect.documented tag fields) := by
  refine leaves_bind fun _ => leaves_bind fun _ => ?_
  split
  · exact leaves_throw _
  · exact leaves_bind fun _ => leaves_bind fun _ => leaves_bind fun _ => leaves_newNode _ _

theorem leaves_openLiteral (hx : x ∈ args) : Leaves args (Effect.openLiteral x) :=
  leaves_bind fun _ => leaves_bind fun _ => leaves_mem hx

theorem leaves_closeLiteral (hx : x ∈ args) : Leaves args (Effect.closeLiteral x) := by
  refine leaves_bind fun _ => ?_
  split
  · exact leaves_bind fun _ => leaves_mem hx
  · exact leaves_bind fun _ => leaves_bind fun _ => leaves_throw _

theorem leaves_clause (fields : List Item) : Leaves args (Effect.clause fields) := by
  refine leaves_bind fun _ => ?_
  split
  · exact leaves_throw _
  · exact leaves_bind fun _ => leaves_ite (leaves_newNode _ _)
      (leaves_ite (leaves_newNode _ _) (leaves_throw _))

theorem leaves_binary (left op right : Item) : Leaves args (Effect.binary left op right) := by
  refine leaves_ite (leaves_bind fun _ => ?_) (leaves_newNode _ _)
  split
  · exact leaves_throw _
  · exact leaves_ite (leaves_bind fun _ => leaves_newNode _ _) (leaves_throw _)

theorem leaves_rescue (fields : List Item) : Leaves args (Effect.rescue fields) := by
  unfold Effect.rescue
  split
  · exact leaves_bind fun _ =>
      leaves_ite (leaves_bind fun _ => leaves_newNode _ _) (leaves_newNode _ _)
  · exact leaves_throw _

/-- A number with its sign is a new token, anything else a new node. -/
theorem leaves_foldSign (op value : Item) : Leaves args (Effect.foldSign op value) := by
  refine leaves_bind fun _ => ?_
  split
  · refine leaves_bind fun _ => leaves_ite (leaves_bind fun _ => ?_) (leaves_newNode _ _)
    exact leaves_ite (leaves_bind fun _ => leaves_bind fun _ => leaves_bind fun _ =>
      leaves_newList _) (leaves_newNode _ _)
  · exact leaves_newNode _ _

/-- The list that was added to is handed on. -/
theorem leaves_addItem (hx : x ∈ args) (item : Item) : Leaves args (Effect.addItem x item) :=
  leaves_bind fun _ => leaves_mem hx

/-- Invalid source leaves nothing. -/
theorem leaves_invalid (message : Item) : Leaves args (Effect.invalid message) :=
  leaves_bind fun _ => leaves_bind fun _ => leaves_throw _

theorem leaves_misuse (fields : List Item) : Leaves args (Effect.misuse fields) := by
  unfold Effect.misuse
  split
  · exact leaves_invalid _
  · exact leaves_throw _

/-- Callbacks leave an argument or a value that is there. -/
theorem leaves_run (c : Callback) (name : String) : Leaves args (c.run name args) := by
  -- Callback by callback: a token or list that was given is handed on, or something new is left.
  cases c with
  | plain => exact leaves_newNode name args
  | comment =>
    exact leaves_oneArg fun x hx => leaves_bind fun _ => leaves_bind fun _ => leaves_mem hx
  | keyword => exact leaves_oneArg fun x hx => leaves_keyword hx
  | construct tag => exact leaves_documented tag args
  | begin =>
    exact leaves_oneArg fun x _ => leaves_bind fun _ =>
      leaves_ite (leaves_documented _ _) (leaves_newNode _ _)
  | openLiteral => exact leaves_oneArg fun x hx => leaves_openLiteral hx
  | openWords =>
    exact leaves_oneArg fun x hx =>
      leaves_bind fun _ => leaves_bind fun _ => leaves_bind fun _ => leaves_mem hx
  | closeLiteral => exact leaves_oneArg fun x hx => leaves_closeLiteral hx
  | backtick =>
    exact leaves_oneArg fun x hx => leaves_bind fun _ =>
      leaves_ite (leaves_mem hx) (leaves_openLiteral hx)
  | openSymbol => exact leaves_oneArg fun x hx => leaves_bind fun _ => leaves_openLiteral hx
  | closeSymbol => exact leaves_bind fun _ => leaves_newNode _ _
  | closeQuotedSymbol => exact leaves_bind fun _ => leaves_newNode _ _
  | interpolation => exact leaves_oneArg fun x hx => leaves_bind fun _ => leaves_mem hx
  | content =>
    exact leaves_oneArg fun x hx => leaves_bind fun _ => leaves_bind fun _ => leaves_mem hx
  | dedent =>
    exact leaves_twoArgs fun x hx _ => leaves_ite
      (leaves_bind fun _ => leaves_bind fun _ => leaves_mem hx) (leaves_mem hx)
  | operator =>
    exact leaves_oneArg fun x hx => leaves_bind fun _ =>
      leaves_ite (leaves_bind fun _ => leaves_mem hx) (leaves_mem hx)
  | clause => exact leaves_clause args
  | binary => exact leaves_threeArgs leaves_binary
  | pair =>
    exact leaves_twoArgs fun _ _ _ => leaves_bind fun _ =>
      leaves_ite (leaves_bind fun _ => leaves_newNode _ _) (leaves_newNode _ _)
  | rescue => exact leaves_rescue args
  | loop => exact leaves_bind fun _ => leaves_newNode _ _
  | unary => exact leaves_twoArgs fun op _ value => leaves_foldSign op value
  | empty => exact leaves_noArgs (leaves_bind fun _ => leaves_newNode _ _)
  | extraComma => exact leaves_newNode _ _
  | start tag => exact leaves_noArgs (leaves_newNode tag [])
  | addItem => exact leaves_twoArgs fun x hx y => leaves_addItem hx y
  | addTarget =>
    exact leaves_twoArgs fun x hx y => leaves_bind fun _ =>
      leaves_ite (leaves_addItem hx y) (leaves_newNode _ _)
  | complaint =>
    exact leaves_oneArg fun x _ => leaves_bind fun _ =>
      leaves_ite (leaves_bind fun _ => leaves_newNode _ _) (leaves_newNode _ _)
  | misuse => exact leaves_misuse args
  | fatal => exact leaves_oneArg fun x _ => leaves_invalid x
  | warning => exact leaves_oneArg fun _ _ => leaves_ite leaves_null (leaves_throw _)

end Leaves

end BuildM

/-- A run in lockstep with itself keeps what is asked of the builder. -/
theorem BuildM.Together.of_self {α : Type} {P : Builder → Prop} {Q : α → Prop} {E : Error → Prop}
    {o : Except Error α × Builder} (h : Together (fun b b' => b = b' ∧ P b) Q E o o) :
    P o.2 ∧ (∀ v, o.1 = .ok v → Q v) ∧ ∀ error, o.1 = .error error → E error := by
  obtain ⟨⟨-, hP⟩, hends⟩ := h
  refine ⟨hP, fun v hv => ?_, fun error herror => ?_⟩
  · rw [hv] at hends
    cases hends with
    | ok hreach => exact hreach
  · rw [herror] at hends
    cases hends with
    | error hraises => exact hraises

/-- A condition on builders that survives what events do, as long as they write
    no other tables than these. -/
structure Stable (P : Builder → Prop) (reach : Item → Prop) (tables : List Table) : Prop where
  atom (a : Atom) : reach (.atom a)
  fresh {b : Builder} : P b → reach (.list b.arena.lists.size)
  push {b : Builder} (xs : List Item) : P b → P (b.push xs)
  grow {b : Builder} {v : Item} {xs : List Item} (x : Item) : P b → reach v →
    b.arena.items? v = some xs → P (b.setItems v (xs ++ [x]))
  replace {b : Builder} {v item : Item} {xs : List Item} {i : Nat} (piece : Item) : P b →
    reach v → b.arena.items? v = some xs → xs[i]? = some item →
    b.arena.tag? item = some "@tstring_content" → P (b.setItems v (xs.set i piece))
  write {b : Builder} {t : Table} : t ∈ tables → ∀ source, P b → P (t.copy source b)

namespace Stable

open BuildM

variable {P : Builder → Prop} {reach : Item → Prop} {tables : List Table} {b : Builder}

/-- A property that is kept is a run beside itself that keeps it. -/
theorem lockstep (h : Stable P reach tables) :
    Lockstep (fun b b' => b = b' ∧ P b) reach tables where
  alike := fun ⟨hb, _⟩ => hb ▸ .refl _
  atom := h.atom
  fresh hR := h.fresh hR.2
  push := fun ⟨hb, hP⟩ _ hitems => by
    subst hb
    rw [hitems rfl]
    exact ⟨rfl, h.push _ hP⟩
  grow := fun ⟨hb, hP⟩ hv hxs hys => by
    subst hb
    obtain rfl := Option.some.inj (hxs.symm.trans hys)
    exact ⟨rfl, h.grow _ hP hv hxs⟩
  replace := fun ⟨hb, hP⟩ hv hxs hys hi htag => by
    subst hb
    obtain rfl := Option.some.inj (hxs.symm.trans hys)
    exact ⟨rfl, h.replace _ hP hv hxs hi htag⟩
  write := fun ht source ⟨hb, hP⟩ => hb ▸ ⟨rfl, h.write ht source hP⟩

/-- A callback keeps a stable condition and leaves a value within reach. Only a
    callback that leaves its first argument needs to reach it. -/
theorem run (h : Stable P reach tables) (c : Callback) (name : String) {args : List Item}
    (hwrites : c.writes ⊆ tables) (hP : P b)
    (hargs : c.handsOn → ∀ x, args.head? = some x → reach x) {result : Except Error Item}
    {c' : Builder} (hrun : (c.run name args).runIn b = (result, c')) :
    P c' ∧ ∀ v, result = .ok v → reach v := by
  have htogether := h.lockstep.run c name (E := fun _ => True) ⟨rfl, hP⟩ hwrites
    (fun _ _ => trivial) hargs (fun _ => rfl) fun _ _ _ => rfl
  rw [hrun] at htogether
  exact ⟨htogether.of_self.1, htogether.of_self.2.1⟩

/-- A token keeps a stable condition, and its value is within reach. -/
theorem scan (h : Stable P reach tables) (name : String) (text : Item)
    (hwrites : tokenWrites name ⊆ tables) (hP : P b) {result : Except Error Item} {c : Builder}
    (hrun : (BuildM.scan name text).runIn b = (result, c)) :
    P c ∧ ∀ v, result = .ok v → reach v := by
  have htogether := h.lockstep.scan name text (E := fun _ => True) ⟨rfl, hP⟩ hwrites
    (fun _ _ => trivial) rfl fun _ => rfl
  rw [hrun] at htogether
  exact ⟨htogether.of_self.1, htogether.of_self.2.1⟩

/-- An event keeps a stable condition, leaves a value within reach, and fails only
    as it may. -/
theorem replayEvent (h : Stable P reach tables) {values : BuildM.Values} {e : Event}
    (hwrites : e.writes ⊆ tables) (hP : P b) (hvalues : ∀ p ∈ values, reach p.2)
    {result : Except Error Item} {c : Builder}
    (hrun : (BuildM.replayEvent values e).runIn b = (result, c)) :
    P c ∧ (∀ v, result = .ok v → reach v) ∧ ∀ error, result = .error error → e.Raises error := by
  have htogether := h.lockstep.replayEvent hvalues e (E := e.Raises) ⟨rfl, hP⟩ hwrites
    (fun _ herror => herror) rfl (fun _ => rfl) fun _ _ _ _ hR _ => hR.1 ▸ rfl
  rw [hrun] at htogether
  exact htogether.of_self

end Stable

namespace BuildM

/-- Lists are never removed. -/
theorem stable_size (n : Nat) (tables : List Table) :
    Stable (fun b => n ≤ b.arena.lists.size) (fun _ => True) tables where
  atom _ := trivial
  fresh _ := trivial
  push xs hP := by
    rw [Builder.size_push]
    exact Nat.le_succ_of_le hP
  grow x hP _ _ := by rwa [Builder.size_setItems]
  replace piece hP _ _ _ _ := by rwa [Builder.size_setItems]
  write {b t} _ source hP := by cases t <;> exact hP

section Has

variable {values : Values}

mutual

/-- A reference stands for a value that is there. -/
theorem has_of_resolve {b c : Builder} (hvalues : ∀ p ∈ values, b.Has p.2) :
    (arg : Arg) → {v : Item} → (resolve values arg).runIn b = (.ok v, c) →
      b.arena.lists.size ≤ c.arena.lists.size ∧ c.Has v
  | .atom a, v, hrun => by
    rw [resolve] at hrun
    cases hrun
    exact ⟨Nat.le_refl _, b.has_atom a⟩
  | .ref id, v, hrun => by
    rw [resolve] at hrun
    cases hid : values.lookup id with
    | none =>
      rw [hid] at hrun
      cases hrun
    | some w =>
      rw [hid] at hrun
      cases hrun
      obtain ⟨before, after, rfl, -⟩ := List.lookup_eq_some_iff.1 hid
      exact ⟨Nat.le_refl _, hvalues (id, v) (by simp)⟩
  | .list items, v, hrun => by
    rw [resolve] at hrun
    -- A list of values is a new list, which is there from now on.
    obtain ⟨args, middle, hargs, hrun⟩ := of_runIn_bind hrun
    have hle := (has_of_resolveAll hvalues items hargs).1
    rw [runIn_newList] at hrun
    cases hrun
    rw [Builder.size_push]
    refine ⟨Nat.le_succ_of_le hle, fun id hid => ?_⟩
    rw [Builder.size_push]
    injection hid with hid
    omega

theorem has_of_resolveAll {b c : Builder} (hvalues : ∀ p ∈ values, b.Has p.2) :
    (args : List Arg) → {vs : List Item} → (resolveAll values args).runIn b = (.ok vs, c) →
      b.arena.lists.size ≤ c.arena.lists.size ∧ ∀ v ∈ vs, c.Has v
  | [], vs, hrun => by
    rw [resolveAll] at hrun
    cases hrun
    exact ⟨Nat.le_refl _, List.forall_mem_nil _⟩
  | arg :: args, vs, hrun => by
    rw [resolveAll] at hrun
    obtain ⟨v, middle, hv, hrun⟩ := of_runIn_bind hrun
    obtain ⟨ws, last, hws, hrun⟩ := of_runIn_bind hrun
    cases hrun
    -- Later arguments only add lists, so what the first one gave stays valid.
    obtain ⟨hle, hhas⟩ := has_of_resolve hvalues arg hv
    obtain ⟨hle', hall⟩ := has_of_resolveAll (fun p hp => (hvalues p hp).mono hle) args hws
    exact ⟨Nat.le_trans hle hle', List.forall_mem_cons.2 ⟨hhas.mono hle', hall⟩⟩

end

/-- The value a callback leaves is there, if its arguments are. -/
theorem has_of_run {b c : Builder} {callback : Callback} {name : String} {args : List Item}
    {v : Item} (hargs : ∀ x ∈ args, b.Has x)
    (hrun : (callback.run name args).runIn b = (.ok v, c)) : c.Has v := by
  have hle : b.arena.lists.size ≤ c.arena.lists.size :=
    ((stable_size _ _).run callback name (List.Subset.refl _) (Nat.le_refl _)
      (fun _ _ _ => trivial) hrun).1
  rcases leaves_run callback name b v c hrun with hmem | hhas
  · exact (hargs v hmem).mono hle
  · exact hhas

/-- The value of a token is there. -/
theorem has_of_scan {b c : Builder} {name : String} {text v : Item}
    (hrun : (scan name text).runIn b = (.ok v, c)) : c.Has v := by
  rw [runIn_scan] at hrun
  obtain ⟨⟨⟩, middle, hsign, hrun⟩ := of_runIn_bind hrun
  obtain ⟨value, last, hvalue, hrun⟩ := of_runIn_bind hrun
  -- Noting the sign changes a table and leaves the arena, in which the token is the last list.
  have hnode : middle.Has b.tokenNode := by
    have hrelated := ((stable_size 0 [.signed]).lockstep.noteSign name (E := fun _ => True)
      (b := b.withToken name text) ⟨rfl, Nat.zero_le _⟩ trivial (fun _ => List.mem_singleton_self _)
      (fun _ => rfl) b.tokenNode).related
    rw [hsign] at hrelated
    obtain ⟨-, ⟨signed, rfl⟩, -⟩ := hrelated
    intro id hid
    injection hid with hid
    simp only [Builder.withToken, Builder.size_push]
    omega
  have hlast : last.Has value := by
    unfold tokenValue at hvalue
    split at hvalue
    · cases hvalue
      exact hnode
    · exact has_of_run (List.forall_mem_singleton.2 hnode) hvalue
  cases hrun
  exact hlast.mono (by simp)

/-- The value of an event is there. -/
theorem has_of_replayEvent {b c : Builder} {e : Event} {v : Item}
    (hvalues : ∀ p ∈ values, b.Has p.2)
    (hrun : (replayEvent values e).runIn b = (.ok v, c)) : c.Has v := by
  rw [replayEvent_eq] at hrun
  obtain ⟨⟨⟩, moved, hmoved, hrun⟩ := of_runIn_bind hrun
  cases hmoved
  obtain ⟨args, middle, hargs, hrun⟩ := of_runIn_bind hrun
  unfold perform at hrun
  split at hrun
  · unfold Effect.oneArg at hrun
    split at hrun
    · exact has_of_scan hrun
    · cases hrun
  · -- Moving to the event's place changes no list.
    have hmoved : ∀ p ∈ values, { b with line := e.line, column := e.column }.Has p.2 := hvalues
    exact has_of_run (has_of_resolveAll hmoved e.args hargs).2 hrun

end Has

end BuildM

end RubyTree
