import RubyTree.Build.Replay

/-!
# Running the Builder

A step of the builder gives a value or an error, and in either case a builder.
What running gives is said once for each operation that steps are put together
with and for each of the operations on lists, so that no later argument opens
the layers a step is made from.

Scanning a token is four steps in a row: the node is made, a number after a sign
is noted, the callback of the token is run, and the token is remembered.

## Main definitions

* `BuildM.runIn`: The value or error of a step, and the builder it leaves.
* `Builder.lookUp?`: Whether a token is among some, if it can be looked up.
* `Builder.nameNext?`: Whether a keyword that comes now is only a name.
* `BuildM.noteSign`, `BuildM.tokenValue`, `Builder.remembering`: The parts of a scan.

## Theorems

* `runIn_bind`: Sequences.
* `runIn_newList`, `runIn_append`, `runIn_itemAt`: Operations on lists.
* `runIn_namePosition`: The test for a name.
* `scan_eq`: A scan is its parts in a row.
-/

namespace RubyTree

/-- A text can be looked up. -/
theorem Item.key_of_text {v : Item} {text : String} (h : v.text? = some text) :
    ∃ word, v.atom?.filter Atom.isKey = some word ∧ word.text? = some text := by
  cases v with
  | list id => cases h
  | atom a =>
    refine ⟨a, ?_, h⟩
    cases a <;> first | rfl | cases h

theorem Item.text_of_key {v : Item} {word : Atom} (h : v.atom?.filter Atom.isKey = some word) :
    v.text? = word.text? := by
  cases v with
  | list id => cases h
  | atom a =>
    have ha := Option.filter_eq_some_iff.1 h
    cases ha.1
    rfl

namespace Builder

/-- The builder with one more list. -/
def push (b : Builder) (items : List Item) : Builder :=
  { b with arena := (b.arena.new items).2 }

/-- The builder with other items in a list. -/
def setItems (b : Builder) (v : Item) (items : List Item) : Builder :=
  { b with arena := b.arena.set v items }

/-- The node of the token that comes now. -/
def tokenNode (b : Builder) : Item :=
  .list (b.arena.lists.size + 1)

/-- The builder with the node of a token, and with its position. -/
def withToken (b : Builder) (name : String) (text : Item) : Builder :=
  (b.push [.int b.line, .int b.column]).push [.str name, text, .list b.arena.lists.size]

/-- The builder after a token; one that is not layout ends the comments before
    it. -/
def remembering (b : Builder) (name : String) (text : Item) : Builder :=
  if BuildM.layout.contains name then { b with lastToken := some (name, text) }
  else
    { b with
      lastToken := some (name, text)
      lastSignificant := some (name, text)
      comments := b.comments.discard }

/-- Whether the token is one of these; `none` if it cannot be looked up. -/
def lookUp? (tokens : List (String × String)) : Option Token → Option Bool
  | some (name, text) =>
    (text.atom?.filter Atom.isKey).map fun a =>
      tokens.any fun (n, t) => n == name && a.text? == some t
  | none => some false

/-- Whether a keyword or backtick that comes now is only a name; `none` if the
    token before it cannot be looked up. -/
def nameNext? (b : Builder) : Option Bool :=
  if b.inSymbol then some true else lookUp? Effect.namesNext b.lastSignificant

@[simp] theorem stack_remembering (b : Builder) (name : String) (text : Item) :
    (b.remembering name text).comments.stack = b.comments.stack := by
  unfold remembering
  split <;> rfl

theorem size_push (b : Builder) (items : List Item) :
    (b.push items).arena.lists.size = b.arena.lists.size + 1 :=
  Array.size_push _

theorem items?_push_self (b : Builder) (items : List Item) :
    (b.push items).arena.items? (.list b.arena.lists.size) = some items :=
  Array.getElem?_push_size

theorem size_setItems (b : Builder) (v : Item) (items : List Item) :
    (b.setItems v items).arena.lists.size = b.arena.lists.size := by
  cases v with
  | atom a => rfl
  | list id => exact Array.size_setIfInBounds

@[simp] theorem arena_remembering (b : Builder) (name : String) (text : Item) :
    (b.remembering name text).arena = b.arena := by
  unfold remembering
  split <;> rfl

@[simp] theorem operators_withToken (b : Builder) (name : String) (text : Item) :
    (b.withToken name text).operators = b.operators :=
  rfl

@[simp] theorem operators_remembering (b : Builder) (name : String) (text : Item) :
    (b.remembering name text).operators = b.operators := by
  unfold remembering
  split <;> rfl

theorem items?_tokenNode (b : Builder) (name : String) (text : Item) :
    (b.withToken name text).arena.items? b.tokenNode =
      some [.str name, text, .list b.arena.lists.size] := by
  rw [tokenNode, ← size_push b [.int b.line, .int b.column]]
  exact Array.getElem?_push_size

theorem item?_tokenNode (b : Builder) (name : String) (text : Item) (i : Nat) :
    (b.withToken name text).arena.item? b.tokenNode i =
      [.str name, text, .list b.arena.lists.size][i]? := by
  have hitems := items?_tokenNode b name text
  rw [tokenNode] at hitems ⊢
  rw [Arena.item?, hitems]
  rfl

/-- A new list leaves the others as they are. -/
theorem items?_push {b : Builder} {v : Item} {items : List Item}
    (h : b.arena.items? v = some items) (xs : List Item) :
    (b.push xs).arena.items? v = some items := by
  cases v with
  | atom a => cases h
  | list id =>
    obtain ⟨hid, -⟩ := Array.getElem?_eq_some_iff.1 h
    rw [← h]
    exact Array.getElem?_push_lt hid |>.trans (Array.getElem?_eq_getElem hid).symm

theorem item?_push {b : Builder} {v x : Item} {i : Nat} (h : b.arena.item? v i = some x)
    (xs : List Item) : (b.push xs).arena.item? v i = some x := by
  cases v with
  | atom a => exact h
  | list id =>
    obtain ⟨items, hitems, hi⟩ := Option.bind_eq_some_iff.1 h
    rw [Arena.item?, items?_push hitems]
    exact hi

theorem tag?_push {b : Builder} {v : Item} {tag : String} (h : b.arena.tag? v = some tag)
    (xs : List Item) : (b.push xs).arena.tag? v = some tag := by
  cases hitems : b.arena.items? v with
  | none =>
    rw [Arena.tag?, hitems] at h
    cases h
  | some items =>
    rw [Arena.tag?, items?_push hitems, ← h, Arena.tag?, hitems]

theorem items?_setItems_self {b : Builder} {v : Item} {items : List Item}
    (h : b.arena.items? v = some items) (xs : List Item) :
    (b.setItems v xs).arena.items? v = some xs := by
  cases v with
  | atom a => cases h
  | list id =>
    obtain ⟨hid, -⟩ := Array.getElem?_eq_some_iff.1 h
    exact Array.getElem?_setIfInBounds_self_of_lt hid

theorem items?_setItems_ne {b : Builder} {v w : Item} (h : v ≠ w) (xs : List Item) :
    (b.setItems v xs).arena.items? w = b.arena.items? w := by
  cases v with
  | atom a => rfl
  | list id =>
    cases w with
    | atom a => rfl
    | list id' => exact Array.getElem?_setIfInBounds_ne fun hid => h (congrArg Item.list hid)

/-- An item of a list can change only if the list is given other items. -/
theorem item?_setItems {b : Builder} {v w x : Item} {i : Nat} {items xs : List Item}
    (h : b.arena.item? w i = some x) (hv : b.arena.items? v = some items)
    (hx : items[i]? = some x → xs[i]? = some x) : (b.setItems v xs).arena.item? w i = some x := by
  cases w with
  | atom a => exact h
  | list id =>
    -- Either the list itself has been given new items, or another one has.
    by_cases hw : v = .list id
    · subst hw
      rw [Arena.item?, items?_setItems_self hv]
      rw [Arena.item?, hv] at h
      exact hx h
    · rw [Arena.item?, items?_setItems_ne hw]
      exact h

end Builder

namespace BuildM

/-- The value or error of a step, and the builder it leaves. -/
def runIn {α : Type} (x : BuildM α) (b : Builder) : Except Error α × Builder :=
  x.run.run b

section Running

variable {α β : Type} (b : Builder)

@[simp] theorem runIn_pure (a : α) : (pure a : BuildM α).runIn b = (.ok a, b) :=
  rfl

@[simp] theorem runIn_throw (e : Error) : (throw e : BuildM α).runIn b = (.error e, b) :=
  rfl

theorem runIn_bind (x : BuildM α) (f : α → BuildM β) :
    (x >>= f).runIn b = match x.runIn b with
      | (.ok a, middle) => (f a).runIn middle
      | (.error e, middle) => (.error e, middle) := by
  unfold runIn ExceptT.run
  simp only [bind, ExceptT.bind, ExceptT.mk, StateT.bind, StateT.run, ExceptT.bindCont]
  cases x b with
  | mk result middle => cases result <;> rfl

/-- A sequence that gives a value gives one at each step. -/
theorem of_runIn_bind {b c : Builder} {x : BuildM α} {f : α → BuildM β} {v : β}
    (h : (x >>= f).runIn b = (.ok v, c)) :
    ∃ a middle, x.runIn b = (.ok a, middle) ∧ (f a).runIn middle = (.ok v, c) := by
  rw [runIn_bind] at h
  cases hx : x.runIn b with
  | mk result middle =>
    rw [hx] at h
    cases result with
    | ok a => exact ⟨a, middle, rfl, h⟩
    | error e =>
      injection h with hv
      cases hv

@[simp] theorem runIn_get : (get : BuildM Builder).runIn b = (.ok b, b) :=
  rfl

@[simp] theorem runIn_modify (f : Builder → Builder) :
    (modify f : BuildM Unit).runIn b = (.ok (), f b) :=
  rfl

theorem runIn_require (o : Option α) :
    (require o).runIn b = ((o.map Except.ok).getD (.error .shape), b) := by
  cases o <;> rfl

@[simp] theorem runIn_newList (items : List Item) :
    (newList items).runIn b = (.ok (.list b.arena.lists.size), b.push items) :=
  rfl

@[simp] theorem runIn_newNode (tag : String) (fields : List Item) :
    (newNode tag fields).runIn b =
      (.ok (.list b.arena.lists.size), b.push (.str tag :: fields)) :=
  rfl

@[simp] theorem runIn_here :
    here.runIn b = (.ok (.list b.arena.lists.size), b.push [.int b.line, .int b.column]) :=
  rfl

@[simp] theorem runIn_tagOf (v : Item) : (tagOf v).runIn b = (.ok (b.arena.tag? v), b) :=
  rfl

theorem runIn_itemsOf (v : Item) :
    (itemsOf v).runIn b = (((b.arena.items? v).map Except.ok).getD (.error .shape), b) :=
  runIn_require b (b.arena.items? v)

theorem runIn_itemAt (v : Item) (i : Nat) :
    (itemAt v i).runIn b = (((b.arena.item? v i).map Except.ok).getD (.error .shape), b) :=
  runIn_require b (b.arena.item? v i)

theorem runIn_freeze (v : Item) :
    (freeze v).runIn b = (((b.arena.freeze? v).map Except.ok).getD (.error .shape), b) :=
  runIn_require b (b.arena.freeze? v)

theorem runIn_isLabel (key : Item) :
    (isLabel key).runIn b = (((b.arena.isLabel? key).map Except.ok).getD (.error .shape), b) :=
  runIn_require b (b.arena.isLabel? key)

theorem runIn_append (v item : Item) :
    (append v item).runIn b = match b.arena.items? v with
      | some items => (.ok (), b.setItems v (items ++ [item]))
      | none => (.error .shape, b) := by
  unfold append
  rw [runIn_bind, runIn_itemsOf]
  cases b.arena.items? v <;> rfl

theorem runIn_isOneOf (tokens : List (String × String)) (token : Option Token) :
    (Effect.isOneOf tokens token).runIn b =
      (((Builder.lookUp? tokens token).map Except.ok).getD (.error .shape), b) := by
  cases token with
  | none => rfl
  | some t =>
    obtain ⟨name, text⟩ := t
    simp only [Effect.isOneOf, Builder.lookUp?, key]
    rw [runIn_bind, runIn_require]
    cases text.atom?.filter Atom.isKey <;> rfl

theorem runIn_namePosition :
    Effect.namePosition.runIn b = ((b.nameNext?.map Except.ok).getD (.error .shape), b) := by
  unfold Effect.namePosition Builder.nameNext?
  rw [runIn_bind, runIn_get]
  dsimp only
  split
  · rfl
  · exact runIn_isOneOf b _ _

end Running

/-- Remembers a number token that comes right after a sign. -/
def noteSign (name : String) (node : Item) : BuildM Unit := do
  if Effect.numberTags.contains name then
    if ← Effect.isOneOf signs (← get).lastToken then
      modify fun b => { b with signed := node :: b.signed }

/-- The value a token leaves. -/
def tokenValue (name : String) (node : Item) : BuildM Item :=
  match Callback.ofName (bareName name) with
  | .plain => pure node
  | callback => callback.run name [node]

theorem remember_bind {α : Type} (name : String) (text : Item) (value : α) :
    (do modify (·.remembering name text); return value : BuildM α) = do
      modify fun b => { b with lastToken := some (name, text) }
      if !layout.contains name then
        modify fun b =>
          { b with comments := b.comments.discard, lastSignificant := some (name, text) }
      return value := by
  refine funext fun b => ?_
  unfold Builder.remembering
  cases layout.contains name <;> rfl

/-- A scan is its parts in a row. -/
theorem scan_eq (name : String) (text : Item) :
    scan name text = do
      let node ← newNode name [text, ← here]
      noteSign name node
      let value ← tokenValue name node
      modify (·.remembering name text)
      return value := by
  unfold scan noteSign tokenValue
  -- Binds are moved to the right, and then both sides start with the same steps.
  simp only [remember_bind]
  refine bind_congr fun place => bind_congr fun node => ?_
  split
  · simp only [bind_assoc]
    refine bind_congr fun b => bind_congr fun afterSign => ?_
    split <;> cases Callback.ofName (bareName name) <;> simp
  · cases Callback.ofName (bareName name) <;> simp

theorem runIn_scan (b : Builder) (name : String) (text : Item) :
    (scan name text).runIn b = (do
      noteSign name b.tokenNode
      let value ← tokenValue name b.tokenNode
      modify (·.remembering name text)
      return value : BuildM Item).runIn (b.withToken name text) := by
  rw [scan_eq, runIn_bind, runIn_here]
  dsimp only
  rw [runIn_bind, runIn_newNode, Builder.size_push]
  rfl

/-- A token that does not fail is remembered. -/
theorem remembering_of_scan {b c : Builder} {name : String} {text v : Item}
    (hrun : (scan name text).runIn b = (.ok v, c)) :
    ∃ d : Builder, c = d.remembering name text := by
  rw [runIn_scan] at hrun
  obtain ⟨⟨⟩, middle, -, hrun⟩ := of_runIn_bind hrun
  obtain ⟨value, last, -, hrun⟩ := of_runIn_bind hrun
  cases hrun
  exact ⟨last, rfl⟩

/-- A token that is no number is scanned without a look at the one before it. -/
theorem runIn_scan_of_not_number (b : Builder) {name : String}
    (h : Effect.numberTags.contains name = false) (text : Item) :
    (scan name text).runIn b =
      match (tokenValue name b.tokenNode).runIn (b.withToken name text) with
      | (.ok value, c) => (.ok value, c.remembering name text)
      | (.error e, c) => (.error e, c) := by
  have hsign : noteSign name b.tokenNode = pure () := by
    unfold noteSign
    rw [h]
    rfl
  rw [runIn_scan, hsign, pure_bind, runIn_bind]
  cases (tokenValue name b.tokenNode).runIn (b.withToken name text) with
  | mk result c => cases result <;> rfl

/-- What an event does once its arguments are there. -/
def perform (e : Event) : List Item → BuildM Item :=
  if e.isToken then Effect.oneArg (scan e.name) else build e.name

theorem replayEvent_eq (values : Values) (e : Event) :
    replayEvent values e = (do
      modify fun b => { b with line := e.line, column := e.column }
      let args ← resolveAll values e.args
      perform e args) := by
  unfold replayEvent perform
  cases e.isToken <;> rfl

end BuildM

end RubyTree
