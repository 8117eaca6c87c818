import RubyTree.Proofs.Build.Blurred

/-!
# Events in Lockstep

What an event can do is said once, for all events and all arguments: which of
the side tables it writes, which lists it changes and in what way, what it
returns, and how it may fail. Every invariant of the builder follows from this,
and so does every comparison of two builders that are given the same events.

Both are cases of one statement. Two builders go in lockstep if they stay
related, whatever the relation is, as long as it holds on after the few changes
that events are made of. A relation that makes the builders equal and puts a
condition on them is an invariant. One that leaves keyword texts open says that
nothing depends on these, so the builders of the relation have to be alike.

An event reaches its arguments and the lists it makes itself, and it changes no
other list. What counts as within reach is left open too: it has to hold of
atoms, arguments and new lists.

## Main definitions

* `Table`: The side tables.
* `Callback.writes`: The tables a callback writes.
* `Callback.Raises`: The errors a callback may fail with.
* `Callback.readsText`: Whether a callback reads the text of a token.
* `Callback.handsOn`: Whether a callback leaves its first argument.
* `Together`: Two runs that end in the same way.
* `Growing`, `Replacing`, `Lockstep`: Relations that new lists, new content in the
  place of old, and all changes made by events respect.

## Theorems

* `together_bind`, `together_read`: Sequences, and steps that only look.
* `Growing.resolveAll`: The arguments of an event.
* `Lockstep.append`: One more item in a list.
-/

namespace RubyTree

/-- A part of the builder that only some events write. -/
inductive Table where
  /-- The current line and column. -/
  | place
  /-- The comments that no construct has yet. -/
  | buffer
  /-- The constructs that are open. -/
  | constructs
  | operators
  | delimiters
  /-- Whether a symbol is being read. -/
  | symbol
  /-- The last token. -/
  | previous
  /-- The last token that is not layout. -/
  | significant
  /-- The numbers after a sign. -/
  | signed
  deriving DecidableEq

/-- A builder that has one table from another one. -/
def Table.copy (source b : Builder) : Table → Builder
  | place => { b with line := source.line, column := source.column }
  | buffer => { b with comments := { b.comments with buffer := source.comments.buffer } }
  | constructs => { b with comments := { b.comments with stack := source.comments.stack } }
  | operators => { b with operators := source.operators }
  | delimiters => { b with delimiters := source.delimiters }
  | symbol => { b with inSymbol := source.inSymbol }
  | previous => { b with lastToken := source.lastToken }
  | significant => { b with lastSignificant := source.lastSignificant }
  | signed => { b with signed := source.signed }

namespace Callback

/-- The tables a callback writes. -/
def writes : Callback → List Table
  | comment => [.buffer]
  | keyword => [.buffer, .constructs, .operators]
  | construct _ | begin => [.buffer, .constructs]
  | openLiteral | openWords | closeLiteral | backtick => [.delimiters]
  | openSymbol | closeSymbol => [.symbol, .delimiters]
  | closeQuotedSymbol | interpolation => [.symbol]
  | operator | clause | binary | pair | rescue | loop => [.operators]
  | _ => []

/-- Whether a callback is for a token and reads its text. -/
def readsText : Callback → Bool
  | comment | keyword | openLiteral | openWords | backtick | openSymbol | operator => true
  | _ => false

/-- Whether a callback leaves its first argument, or may do so. Only such a callback
    changes a list that it is given, and it is that one. -/
def handsOn : Callback → Bool
  | comment | keyword | openLiteral | openWords | closeLiteral | backtick | openSymbol => true
  | interpolation | content | dedent | operator | addItem | addTarget => true
  | _ => false

/-- The errors a callback may fail with. -/
inductive Raises : Callback → Error → Prop where
  | shape (c : Callback) : Raises c .shape
  | noOpenConstruct (c : Callback) (h : .constructs ∈ c.writes) : Raises c .noOpenConstruct
  | unbalanced (token : Raw) (line : Int) : Raises .closeLiteral (.unbalancedDelimiter token line)
  | missingOperator : Raises .clause .missingOperator
  | unexpectedOperator (op : String) : Raises .clause (.unexpectedOperator op)
  | missingArrow (found : String) : Raises .binary (.missingArrow found)
  | invalidSource {c : Callback} (h : c = .complaint ∨ c = .misuse ∨ c = .fatal) (text : String)
      (line : Option Int) (filename : Option String) : Raises c (.invalidSource text line filename)

end Callback

namespace BuildM

section Together

variable {α β : Type} {R : Builder → Builder → Prop} {Q : α → Prop} {S : β → Prop}
  {E : Error → Prop} {b b' : Builder}

/-- The same value, or an error on both sides. -/
inductive Ends (Q : α → Prop) (E : Error → Prop) : Except Error α → Except Error α → Prop where
  | ok {a : α} (h : Q a) : Ends Q E (.ok a) (.ok a)
  | error {e e' : Error} (h : E e) : Ends Q E (.error e) (.error e')

/-- The value is the same, if there is one. -/
theorem Ends.toOption {r r' : Except Error α} (h : Ends Q E r r') : r.toOption = r'.toOption := by
  cases h <;> rfl

/-- Either both runs end well or neither does. -/
theorem Ends.ok_iff {r r' : Except Error α} (h : Ends Q E r r') :
    (∃ a, r = .ok a) ↔ ∃ a, r' = .ok a := by
  cases h with
  | ok => exact .rfl
  | error => exact ⟨nofun, nofun⟩

/-- Two runs that end in the same way, in related builders. -/
structure Together (R : Builder → Builder → Prop) (Q : α → Prop) (E : Error → Prop)
    (o o' : Except Error α × Builder) : Prop where
  related : R o.2 o'.2
  ends : Ends Q E o.1 o'.1

/-- A value ends both runs. -/
theorem together_pure (h : R b b') {a : α} (ha : Q a) :
    Together R Q E ((pure a : BuildM α).runIn b) ((pure a : BuildM α).runIn b') :=
  ⟨h, .ok ha⟩

/-- An error ends both runs. -/
theorem together_throw (h : R b b') {e : Error} (he : E e) :
    Together R Q E ((throw e : BuildM α).runIn b) ((throw e : BuildM α).runIn b') :=
  ⟨h, .error he⟩

/-- The relation may be a stronger one up to the middle. -/
theorem together_bind_of {R' : Builder → Builder → Prop} {x y : BuildM α} {f g : α → BuildM β}
    (himp : ∀ c c', R' c c' → R c c') (hx : Together R' Q E (x.runIn b) (y.runIn b'))
    (hf : ∀ a c c', Q a → R' c c' → Together R S E ((f a).runIn c) ((g a).runIn c')) :
    Together R S E ((x >>= f).runIn b) ((y >>= g).runIn b') := by
  rw [runIn_bind, runIn_bind]
  obtain ⟨hrelated, hends⟩ := hx
  cases hxb : x.runIn b with
  | mk r c =>
    cases hyb : y.runIn b' with
    | mk r' c' =>
      rw [hxb, hyb] at hrelated hends
      cases hends with
      | ok ha => exact hf _ c c' ha hrelated
      | error he => exact ⟨himp c c' hrelated, .error he⟩

/-- Two steps in a row, each of which keeps the relation. -/
theorem together_bind {x y : BuildM α} {f g : α → BuildM β}
    (hx : Together R Q E (x.runIn b) (y.runIn b'))
    (hf : ∀ a c c', Q a → R c c' → Together R S E ((f a).runIn c) ((g a).runIn c')) :
    Together R S E ((x >>= f).runIn b) ((y >>= g).runIn b') :=
  together_bind_of (fun _ _ hR => hR) hx hf

/-- Steps that start by looking at the builder. -/
theorem together_get {f g : Builder → BuildM β}
    (h : Together R S E ((f b).runIn b) ((g b').runIn b')) :
    Together R S E ((get >>= f).runIn b) ((get >>= g).runIn b') :=
  h

/-- Steps that start by changing the builder. -/
theorem together_modify {f g : Builder → Builder} {x y : BuildM β}
    (h : Together R S E (x.runIn (f b)) (y.runIn (g b'))) :
    Together R S E ((modify f >>= fun _ => x).runIn b) ((modify g >>= fun _ => y).runIn b') :=
  h

/-- A value that is read off the builder and has to be there. -/
theorem together_read {x y : BuildM α} {f g : α → BuildM β} {o o' : Option α} (hR : R b b')
    (hshape : E .shape) (hx : x.runIn b = ((o.map Except.ok).getD (.error .shape), b))
    (hy : y.runIn b' = ((o'.map Except.ok).getD (.error .shape), b')) (ho : o = o')
    (hf : ∀ a, o = some a → Together R S E ((f a).runIn b) ((g a).runIn b')) :
    Together R S E ((x >>= f).runIn b) ((y >>= g).runIn b') := by
  subst ho
  rw [runIn_bind, runIn_bind, hx, hy]
  cases o with
  | none => exact ⟨hR, .error hshape⟩
  | some a => exact hf a rfl

/-- A value that has to be there. -/
theorem together_require {f g : α → BuildM β} (hR : R b b') (hshape : E .shape) (o : Option α)
    (hf : ∀ a, o = some a → Together R S E ((f a).runIn b) ((g a).runIn b')) :
    Together R S E ((require o >>= f).runIn b) ((require o >>= g).runIn b') :=
  together_read hR hshape (runIn_require b o) (runIn_require b' o) rfl hf

/-- A step that fails here and leaves the builder as it is. -/
def FailsIn (E : Error → Prop) (x : BuildM α) (b : Builder) : Prop :=
  ∃ e, x.runIn b = (.error e, b) ∧ E e

/-- An error is a failure. -/
theorem failsIn_throw {e : Error} (he : E e) : FailsIn E (throw e : BuildM α) b :=
  ⟨e, rfl, he⟩

theorem failsIn_get {f : Builder → BuildM β} (h : FailsIn E (f b) b) : FailsIn E (get >>= f) b :=
  h

/-- A reading fails by itself, or what follows it does. -/
theorem failsIn_read {x : BuildM α} {f : α → BuildM β} {o : Option α} (hshape : E .shape)
    (hx : x.runIn b = ((o.map Except.ok).getD (.error .shape), b))
    (hf : ∀ a, FailsIn E (f a) b) : FailsIn E (x >>= f) b := by
  unfold FailsIn
  rw [runIn_bind, hx]
  cases o with
  | none => exact ⟨.shape, rfl, hshape⟩
  | some a => exact hf a

/-- What comes after a failure does not matter. -/
theorem failsIn_bind {x : BuildM α} (hx : FailsIn E x b) (f : α → BuildM β) :
    FailsIn E (x >>= f) b := by
  obtain ⟨e, hx, he⟩ := hx
  exact ⟨e, by rw [runIn_bind, hx], he⟩

/-- Two steps that fail, whatever they find on the way. -/
theorem together_fails {x y : BuildM α} (hR : R b b') (hx : FailsIn E x b) (hy : FailsIn E y b') :
    Together R Q E (x.runIn b) (y.runIn b') := by
  obtain ⟨e, hx, he⟩ := hx
  obtain ⟨e', hy, -⟩ := hy
  rw [hx, hy]
  exact ⟨hR, .error he⟩

end Together

/-- A relation between builders that new lists respect. -/
structure Growing (R : Builder → Builder → Prop) (reach : Item → Prop) : Prop where
  alike {b b' : Builder} : R b b' → b.Alike b'
  atom (a : Atom) : reach (.atom a)
  fresh {b b' : Builder} : R b b' → reach (.list b.arena.lists.size)
  /-- A new list; its items may differ by what was read from builders that do. -/
  push {b b' : Builder} {xs ys : List Item} : R b b' → blurItems xs = blurItems ys →
    (b = b' → xs = ys) → R (b.push xs) (b'.push ys)

/-- A relation that new lists and new content in the place of old respect. -/
structure Replacing (R : Builder → Builder → Prop) (reach : Item → Prop) : Prop
    extends Growing R reach where
  /-- Content in a list is replaced. -/
  replace {b b' : Builder} {v item piece : Item} {xs ys : List Item} {i : Nat} : R b b' →
    reach v → b.arena.items? v = some xs → b'.arena.items? v = some ys → xs[i]? = some item →
    b.arena.tag? item = some "@tstring_content" →
    R (b.setItems v (xs.set i piece)) (b'.setItems v (ys.set i piece))

/-- A relation between builders that the changes made by events respect. -/
structure Lockstep (R : Builder → Builder → Prop) (reach : Item → Prop) (tables : List Table) :
    Prop extends Replacing R reach where
  /-- One more item in a list. -/
  grow {b b' : Builder} {v x : Item} {xs ys : List Item} : R b b' → reach v →
    b.arena.items? v = some xs → b'.arena.items? v = some ys →
    R (b.setItems v (xs ++ [x])) (b'.setItems v (ys ++ [x]))
  /-- A table is written. -/
  write {b b' : Builder} {t : Table} : t ∈ tables → ∀ source, R b b' →
    R (t.copy source b) (t.copy source b')

section Reading

variable {α : Type} {R : Builder → Builder → Prop} {reach : Item → Prop} {Q : α → Prop}
  {E : Error → Prop} {b b' : Builder}

/-- A field that both lists have alike, or that neither has. -/
theorem together_itemAt (hR : R b b') (hshape : E .shape) {v : Item} {i : Nat}
    (hitem : b.arena.item? v i = b'.arena.item? v i) {f g : Item → BuildM α}
    (hf : ∀ x, b.arena.item? v i = some x →
      Together R Q E ((f x).runIn b) ((g x).runIn b')) :
    Together R Q E ((itemAt v i >>= f).runIn b) ((itemAt v i >>= g).runIn b') :=
  together_read hR hshape (runIn_itemAt b v i) (runIn_itemAt b' v i) hitem hf

/-- Whether a name is due is asked of tables that agree. -/
theorem together_namePosition (hR : R b b') (hshape : E .shape)
    (hname : b.nameNext? = b'.nameNext?) {f g : Bool → BuildM α}
    (hf : ∀ only, Together R Q E ((f only).runIn b) ((g only).runIn b')) :
    Together R Q E ((Effect.namePosition >>= f).runIn b) ((Effect.namePosition >>= g).runIn b') :=
  together_read hR hshape (runIn_namePosition b) (runIn_namePosition b') hname fun only _ => hf only

end Reading

namespace Growing

variable {R : Builder → Builder → Prop} {reach : Item → Prop} {E : Error → Prop} {b b' : Builder}

/-- New lists keep what is known of the builders, if it is not about lists that
    are still to come. -/
theorem holding (h : Growing R reach) {P : Builder → Builder → Prop}
    (hP : ∀ b b' xs ys, P b b' → P (b.push xs) (b'.push ys)) :
    Growing (fun b b' => R b b' ∧ P b b') reach where
  alike hR := h.alike hR.1
  atom := h.atom
  fresh hR := h.fresh hR.1
  push hR hitems heq := ⟨h.push hR.1 hitems heq, hP _ _ _ _ hR.2⟩

/-- A new list gets the same number on both sides. -/
theorem newList (h : Growing R reach) (hR : R b b') {xs ys : List Item}
    (hitems : blurItems xs = blurItems ys) (heq : b = b' → xs = ys) :
    Together R reach E ((BuildM.newList xs).runIn b) ((BuildM.newList ys).runIn b') := by
  refine ⟨h.push hR hitems heq, ?_⟩
  rw [runIn_newList, runIn_newList, (h.alike hR).size]
  exact .ok ((h.alike hR).size ▸ h.fresh hR)

/-- A new node gets the same number on both sides. -/
theorem newNode (h : Growing R reach) (hR : R b b') (tag : String) (fields : List Item) :
    Together R reach E ((BuildM.newNode tag fields).runIn b)
      ((BuildM.newNode tag fields).runIn b') :=
  h.newList hR rfl fun _ => rfl

/-- A position is a list with no text in it. -/
theorem here (h : Growing R reach) (hR : R b b') :
    Together R reach E (BuildM.here.runIn b) (BuildM.here.runIn b') := by
  unfold BuildM.here
  refine together_get ?_
  rw [(h.alike hR).line, (h.alike hR).column]
  exact h.newList hR rfl fun _ => rfl

/-- Tags are the same on both sides, also of lists that differ in a text. -/
theorem tagOf {α : Type} {Q : α → Prop} (h : Growing R reach) (hR : R b b') (v : Item)
    {f g : Option String → BuildM α}
    (hf : Together R Q E ((f (b.arena.tag? v)).runIn b) ((g (b.arena.tag? v)).runIn b')) :
    Together R Q E ((BuildM.tagOf v >>= f).runIn b) ((BuildM.tagOf v >>= g).runIn b') := by
  rw [(h.alike hR).tag? v] at hf
  rw [runIn_bind, runIn_bind, runIn_tagOf, runIn_tagOf, (h.alike hR).tag? v]
  exact hf

/-- The items of a list, which at most a keyword's text can tell apart. -/
theorem itemsOf {α : Type} {Q : α → Prop} (h : Growing R reach) (hR : R b b') (hshape : E .shape)
    (v : Item) {f g : List Item → BuildM α}
    (hf : ∀ xs ys, b.arena.items? v = some xs → b'.arena.items? v = some ys →
      blurItems xs = blurItems ys → Together R Q E ((f xs).runIn b) ((g ys).runIn b')) :
    Together R Q E ((BuildM.itemsOf v >>= f).runIn b) ((BuildM.itemsOf v >>= g).runIn b') := by
  have hitems := (h.alike hR).items? v
  rw [runIn_bind, runIn_bind, runIn_itemsOf, runIn_itemsOf]
  cases hxs : b.arena.items? v with
  | none =>
    cases hys : b'.arena.items? v with
    | none => exact ⟨hR, .error hshape⟩
    | some ys => rw [hxs, hys] at hitems; cases hitems
  | some xs =>
    cases hys : b'.arena.items? v with
    | none => rw [hxs, hys] at hitems; cases hitems
    | some ys =>
      rw [hxs, hys] at hitems
      exact hf xs ys hxs hys (Option.some.inj hitems)

mutual

/-- A reference stands for a value within reach, or is unknown on both sides. -/
theorem resolve (h : Growing R reach) {b b' : Builder} (hR : R b b') {values : Values}
    (hvalues : ∀ p ∈ values, reach p.2) (hunknown : ∀ id, E (.unknownEvent id)) :
    (arg : Arg) → Together R reach E ((BuildM.resolve values arg).runIn b)
      ((BuildM.resolve values arg).runIn b')
  | .atom a => by
    unfold BuildM.resolve
    exact together_pure hR (h.atom a)
  | .ref id => by
    unfold BuildM.resolve
    cases hid : values.lookup id with
    | none => exact together_throw hR (hunknown id)
    | some v =>
      obtain ⟨before, after, rfl, -⟩ := List.lookup_eq_some_iff.1 hid
      exact together_pure hR (hvalues (id, v) (by simp))
  | .list items => by
    unfold BuildM.resolve
    exact together_bind (h.resolveAll hR hvalues hunknown items) fun args _ _ _ hR =>
      h.newList hR rfl fun _ => rfl

/-- All arguments of an event, one after the other. -/
theorem resolveAll (h : Growing R reach) {b b' : Builder} (hR : R b b') {values : Values}
    (hvalues : ∀ p ∈ values, reach p.2) (hunknown : ∀ id, E (.unknownEvent id)) :
    (args : List Arg) → Together R (fun items => ∀ v ∈ items, reach v) E
      ((BuildM.resolveAll values args).runIn b) ((BuildM.resolveAll values args).runIn b')
  | [] => by
    unfold BuildM.resolveAll
    exact together_pure hR (List.forall_mem_nil _)
  | arg :: args => by
    unfold BuildM.resolveAll
    refine together_bind (h.resolve hR hvalues hunknown arg) fun v _ _ hv hR => ?_
    exact together_bind (h.resolveAll hR hvalues hunknown args) fun vs _ _ hvs hR =>
      together_pure hR (List.forall_mem_cons.2 ⟨hv, hvs⟩)

end

end Growing

namespace Lockstep

variable {R : Builder → Builder → Prop} {reach : Item → Prop} {tables : List Table}
  {E : Error → Prop} {b b' : Builder}

/-- A list within reach has one more item on both sides. -/
theorem append (h : Lockstep R reach tables) (hR : R b b') (hshape : E .shape) {v : Item}
    (hv : reach v) (item : Item) :
    Together R (fun _ => True) E ((BuildM.append v item).runIn b)
      ((BuildM.append v item).runIn b') := by
  unfold BuildM.append
  exact h.itemsOf hR hshape v fun xs ys hxs hys _ => ⟨h.grow hR hv hxs hys, .ok trivial⟩

/-- The buffer may change if it is among the tables. -/
theorem setBuffer (h : Lockstep R reach tables) (ht : .buffer ∈ tables) (hR : R b b')
    (text : String) :
    R { b with comments := { b.comments with buffer := text } }
      { b' with comments := { b'.comments with buffer := text } } :=
  h.write ht { b with comments := { b.comments with buffer := text } } hR

/-- Buffer and stack may change if both are among the tables. -/
theorem setComments (h : Lockstep R reach tables) (hbuffer : .buffer ∈ tables)
    (hconstructs : .constructs ∈ tables) (hR : R b b') (comments : Comments Item) :
    R { b with comments } { b' with comments } :=
  h.write hconstructs { b with comments } (h.write hbuffer { b with comments } hR)

theorem setOperators (h : Lockstep R reach tables) (ht : .operators ∈ tables) (hR : R b b')
    (operators : List String) : R { b with operators } { b' with operators } :=
  h.write ht { b with operators } hR

theorem setDelimiters (h : Lockstep R reach tables) (ht : .delimiters ∈ tables) (hR : R b b')
    (delimiters : List Item) : R { b with delimiters } { b' with delimiters } :=
  h.write ht { b with delimiters } hR

theorem setSymbol (h : Lockstep R reach tables) (ht : .symbol ∈ tables) (hR : R b b')
    (inSymbol : Bool) : R { b with inSymbol } { b' with inSymbol } :=
  h.write ht { b with inSymbol } hR

theorem setPlace (h : Lockstep R reach tables) (ht : .place ∈ tables) (hR : R b b')
    (line column : Int) : R { b with line, column } { b' with line, column } :=
  h.write ht { b with line, column } hR

theorem setSigned (h : Lockstep R reach tables) (ht : .signed ∈ tables) (hR : R b b')
    (signed : List Item) : R { b with signed } { b' with signed } :=
  h.write ht { b with signed } hR

theorem setLastToken (h : Lockstep R reach tables) (ht : .previous ∈ tables) (hR : R b b')
    (lastToken : Option Token) : R { b with lastToken } { b' with lastToken } :=
  h.write ht { b with lastToken } hR

theorem setLastSignificant (h : Lockstep R reach tables) (ht : .significant ∈ tables)
    (hR : R b b') (lastSignificant : Option Token) :
    R { b with lastSignificant } { b' with lastSignificant } :=
  h.write ht { b with lastSignificant } hR

end Lockstep

end BuildM

end RubyTree
