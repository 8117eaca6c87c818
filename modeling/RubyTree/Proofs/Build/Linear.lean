import RubyTree.Proofs.Build.OpenKeyword
import RubyTree.Proofs.Build.Tracking

/-!
# Logs That Use Each Value Once

The parser that records a log hands each value on once: an event that completes
a construct gets the values of its parts, and no other event refers to them. On
such a log it makes no difference that lists are changed in place. The builder
gives the raw tree, or the error, that it would give if every event made new
lists, and leaves the same side tables.

Events are taken one at a time. The values that are open are those that a later
event refers to; an event uses up its arguments and leaves one value, which is
open if it is referred to and closed otherwise. A value that is referred to twice
would be open twice, and one of the two would see what happens to the other.

There is one value that is used without being referred to: the token of a keyword
that opens a construct is remembered until the construct is complete. An event that
adds to this token adds to what is remembered, and not to what the other replay
remembers. So the keywords of open constructs agree in their tag, word and position,
and in everything if no event adds to a keyword token.

## Main definitions

* `Event.refs`, `refsOf`: The events that events refer to.
* `UsesOnce`: No value is used twice.
* `SameTables`: The side tables after both replays say the same.
* `Builder.openConstructs?`: The open constructs, with their keywords as trees.

## Theorems

* `tracks_scan`, `tracks_resolveAll`, `tracks_replayEvent`: One event.
* `tracks_replayFrom`: Any number of events.
* `rawTree_eq_immutableTree`: The raw tree of a log that uses each value once.
* `openConstructs?_keywordAddedTo`: A log with an event that adds to a keyword token.
-/

namespace RubyTree

open Immutable

section Uses

mutual

/-- The events that an argument refers to, as often as it does. -/
def Arg.refs : Arg → List Nat
  | .atom _ => []
  | .ref id => [id]
  | .list items => Arg.refsAll items

/-- The events that arguments refer to. -/
def Arg.refsAll : List Arg → List Nat
  | [] => []
  | arg :: args => arg.refs ++ Arg.refsAll args

end

/-- The events that an event refers to. -/
def Event.refs (e : Event) : List Nat :=
  Arg.refsAll e.args

/-- The events that some events refer to. -/
def refsOf (events : List Event) : List Nat :=
  events.flatMap Event.refs

/-- Each value is used once at most, that of a program not at all, and what is
    named like a keyword is a token. -/
def UsesOnce : List Event → Prop
  | [] => True
  | e :: later =>
    (refsOf later).count e.id ≤ 1 ∧ (e.name = "program" → e.id ∉ refsOf later) ∧
      (e.isToken = false → e.name ≠ "kw") ∧ UsesOnce later

instance decidableUsesOnce : (events : List Event) → Decidable (UsesOnce events)
  | [] => inferInstanceAs (Decidable True)
  | _ :: later =>
    have := decidableUsesOnce later
    inferInstanceAs (Decidable (_ ∧ _ ∧ _ ∧ UsesOnce later))

end Uses

namespace Immutable

open Arena (Shows Stands)

variable {α β : Type} {opens xs : List (Item × Value)} {closed : List (Item × Raw)} {b : Builder}
  {s : State} {v : Item} {t : Value} {r text : Raw}

section Scanning

/-- A value gets a mark. -/
theorem Agree.mark {id : Nat} (h : Agree ((.list id, t) :: opens) closed b s) :
    Agree ((.list id, { t with signed := true }) :: opens) closed
      { b with signed := .list id :: b.signed } s where
  distinct := h.distinct
  stands x hx := by
    rcases List.mem_cons.1 hx with rfl | hx
    · exact h.head_stands
    · exact h.stands x (List.mem_cons_of_mem _ hx)
  marks x hx := by
    rcases List.mem_cons.1 hx with rfl | hx
    · simp
    · -- No other value has this list at the top.
      have hne : x.1 ≠ .list id := by
        intro heq
        have hdistinct := h.distinct
        exact (List.nodup_cons.1 hdistinct).1 (List.mem_filterMap.2 ⟨x, hx, by rw [heq]; rfl⟩)
      rw [h.marks x (List.mem_cons_of_mem _ hx)]
      simp [hne]
  signed w hw := by
    rcases List.mem_cons.1 hw with rfl | hw
    · have hhead := h.head_stands
      generalize t.tree = r at hhead
      cases hhead with
      | list stored _ => exact ⟨id, (Array.getElem?_eq_some_iff.1 stored).1, rfl⟩
    · exact h.signed w hw
  shows := h.shows
  view := { h.view with }

/-- The test for a sign before a number, which leaves a mark. -/
theorem tracks_noteSign {id : Nat} {name : String} {Q : α → β → Builder → State → Prop}
    {x : BuildM α} {g : Bool → Step β}
    (h : Agree ((.list id, { tree := r }) :: opens) closed b s)
    (hf : ∀ b marked, Agree ((.list id, { tree := r, signed := marked }) :: opens) closed b s →
      Tracks Q (x.runIn b) (runIn (g marked) s)) :
    Tracks Q ((BuildM.noteSign name (.list id) >>= fun _ => x).runIn b)
      (runIn (afterSign name >>= g) s) := by
  unfold BuildM.noteSign afterSign
  split
  · simp only [bind_assoc]
    refine tracks_get ?_
    refine tracks_isOneOf h.view h.view.lastToken fun found => ?_
    -- A sign in front leaves a mark at the leaf on both sides.
    cases found with
    | true => exact tracks_modify (hf _ true h.mark)
    | false => exact hf _ false h
  · exact hf b false h

/-- A token is remembered by its text. -/
theorem tracks_remember (name : String) (h : Agree ((v, t) :: opens) closed b s)
    {w : Item} (htext : b.arena.Shows (Closed ((v, t) :: opens)) text w) :
    Tracks (Leaves opens closed)
      ((do modify (·.remembering name w); return v : BuildM Item).runIn b)
      (runIn (do remember name text; return t) s) := by
  have htoken : Option.Rel (SameToken b.arena (Closed ((v, t) :: opens)))
      (some (name, text)) (some (name, w)) :=
    .some ⟨rfl, htext⟩
  unfold remember Builder.remembering
  refine tracks_modify (tracks_pure ?_)
  split
  · exact h.withView { h.view with lastToken := htoken } rfl rfl
  · refine h.withView ?_ rfl rfl
    exact { h.view with buffer := rfl, lastToken := htoken, lastSignificant := htoken }

theorem tracks_tokenValue {name : String} {id : Nat} {place : Raw}
    (h : Agree ((.list id, t) :: opens) closed b s)
    (htree : t.tree = .list [.str name, text, place])
    (hplace : place.hasTag "@tstring_content" = false) :
    Tracks (Leaves opens closed) ((BuildM.tokenValue name (.list id)).runIn b)
      (runIn (tokenValue name t) s) := by
  unfold BuildM.tokenValue tokenValue
  by_cases hkeyword : Callback.ofName (BuildM.bareName name) = .keyword
  · rw [hkeyword]
    exact tracks_keyword h htree hplace
  · have hrun := @tracks_run opens [(.list id, t)] closed b s name _ hkeyword h
    cases hcallback : Callback.ofName (BuildM.bareName name) <;> rw [hcallback] at hrun
    case plain => exact tracks_pure h
    all_goals exact hrun

/-- A scanned token. -/
theorem tracks_scan (name : String) (h : Agree ((v, t) :: opens) closed b s) :
    Tracks (Leaves opens closed) ((BuildM.scan name v).runIn b) (runIn (scan name t.tree) s) := by
  have hused := h.close
  rw [BuildM.scan_eq]
  unfold scan
  refine tracks_here hused fun place b hplace => ?_
  have htext := hplace.shows (v, t.tree) (by simp)
  have hposition := hplace.shows _ List.mem_cons_self
  have hnode := hplace.push (.cons (.atom (.str name)) (.cons htext (.cons hposition .nil)))
  rw [BuildM.runIn_bind, BuildM.runIn_newNode]
  dsimp only
  refine tracks_noteSign (hnode.forget (List.subset_cons_self _ _)) fun b marked hmarked => ?_
  -- The text is at hand until the token is remembered.
  refine tracks_bind (tracks_tokenValue hmarked rfl rfl) fun value t' b s hvalue => ?_
  have htext := hvalue.shows _ List.mem_cons_self
  exact tracks_remember name (hvalue.forget (List.subset_cons_self _ _)) htext

end Scanning

section Events

/-- Values of earlier events on both sides, by number. -/
abbrev Table := List (Nat × Item × Value)

/-- The values for a builder that changes lists. -/
def Table.items (table : Table) : BuildM.Values :=
  table.map fun p => (p.1, p.2.1)

/-- The values for a builder that does not. -/
def Table.values (table : Table) : Values :=
  table.map fun p => (p.1, p.2.2)

/-- The values that some references give. -/
def Table.live (table : Table) (ids : List Nat) : List (Item × Value) :=
  ids.filterMap fun id => List.lookup id table

theorem lookup_map (f : α → β) (table : List (Nat × α)) (id : Nat) :
    (table.map fun p => (p.1, f p.2)).lookup id = (table.lookup id).map f := by
  induction table with
  | nil => rfl
  | cons p table ih =>
    obtain ⟨i, y⟩ := p
    simp only [List.map_cons, List.lookup_cons]
    cases id == i with
    | true => rfl
    | false => exact ih

theorem Table.live_append (table : Table) (ids ids' : List Nat) :
    table.live (ids ++ ids') = table.live ids ++ table.live ids' :=
  List.filterMap_append

/-- A value that is not used is not open. -/
theorem Table.live_of_unused (table : Table) {id : Nat} (x : Item × Value) {ids : List Nat}
    (hid : id ∉ ids) : Table.live ((id, x) :: table) ids = table.live ids :=
  List.filterMap_congr fun i hi => by
    rw [List.lookup_cons, beq_false_of_ne (ne_of_mem_of_not_mem hi hid)]

/-- A value that is used once at most is open once at most. -/
theorem Table.live_cons (table : Table) {id : Nat} (x : Item × Value) {ids : List Nat}
    (hids : ids.count id ≤ 1) :
    (Table.live ((id, x) :: table) ids).Subperm (x :: table.live ids) := by
  by_cases hid : id ∈ ids
  · -- The value is used here, and neither before nor after.
    obtain ⟨before, after, rfl⟩ := List.append_of_mem hid
    rw [List.count_append, List.count_cons_self] at hids
    have hbefore : id ∉ before := fun hmem => by
      have := List.count_pos_iff.2 hmem
      omega
    have hafter : id ∉ after := fun hmem => by
      have := List.count_pos_iff.2 hmem
      omega
    have hself : Table.live ((id, x) :: table) [id] = [x] := by simp [Table.live]
    rw [show id :: after = [id] ++ after from rfl, Table.live_append, Table.live_append,
      Table.live_append, Table.live_append, hself, table.live_of_unused x hbefore,
      table.live_of_unused x hafter]
    refine List.perm_middle.subperm.trans (List.Sublist.cons_cons x ?_).subperm
    exact List.Sublist.append_left (List.sublist_append_right _ _) _
  · rw [table.live_of_unused x hid]
    exact (List.sublist_cons_self x _).subperm

mutual

/-- An argument with the values it refers to in place. -/
theorem tracks_resolve (table : Table) {opens : List (Item × Value)} {b : Builder} {s : State}
    (arg : Arg) (h : Agree (table.live arg.refs ++ opens) closed b s) :
    Tracks (Leaves opens closed) ((BuildM.resolve table.items arg).runIn b)
      (runIn (resolve table.values arg) s) := by
  cases arg with
  | atom x =>
    unfold BuildM.resolve resolve
    exact tracks_pure (h.atom x)
  | ref id =>
    have hitem : table.items.lookup id = (table.lookup id).map Prod.fst := lookup_map _ _ _
    have hvalue : table.values.lookup id = (table.lookup id).map Prod.snd := lookup_map _ _ _
    -- The open values of a reference are the value that it stands for, or none.
    have hlive : table.live [id] = (table.lookup id).toList := by
      unfold Table.live
      cases hid : table.lookup id <;> simp [hid]
    unfold BuildM.resolve resolve
    rw [Arg.refs, hlive] at h
    rw [hitem, hvalue]
    cases hid : table.lookup id with
    | none => exact .error _ h.view
    | some x =>
      rw [hid] at h
      exact tracks_pure h
  | list items =>
    unfold BuildM.resolve resolve
    rw [Arg.refs] at h
    refine tracks_bind (tracks_resolveAll table items h) fun vs ts b s hargs => ?_
    obtain ⟨xs, rfl, rfl, h⟩ := hargs
    exact .ok (h.closeAll.1.push h.closeAll.2)

/-- Arguments with the values they refer to in place. -/
theorem tracks_resolveAll (table : Table) {opens : List (Item × Value)} {b : Builder} {s : State}
    (args : List Arg) (h : Agree (table.live (Arg.refsAll args) ++ opens) closed b s) :
    Tracks (fun vs ts b s => ∃ xs : List (Item × Value), vs = xs.map Prod.fst ∧
        ts = xs.map Prod.snd ∧ Agree (xs ++ opens) closed b s)
      ((BuildM.resolveAll table.items args).runIn b)
      (runIn (resolveAll table.values args) s) := by
  cases args with
  | nil =>
    unfold BuildM.resolveAll resolveAll
    exact tracks_pure ⟨[], rfl, rfl, h⟩
  | cons arg args =>
    unfold BuildM.resolveAll resolveAll
    rw [Arg.refsAll, table.live_append, List.append_assoc] at h
    -- The value that is left waits with the others while the rest is resolved.
    refine tracks_bind (tracks_resolve table arg h) fun v t b s hv => ?_
    have hrest : Agree (table.live (Arg.refsAll args) ++ (v, t) :: opens) closed b s :=
      Agree.perm hv List.perm_middle
    refine tracks_bind (tracks_resolveAll table args hrest) fun vs ts b s hvs => ?_
    obtain ⟨xs, rfl, rfl, h⟩ := hvs
    exact tracks_pure ⟨(v, t) :: xs, rfl, rfl, h.perm List.perm_middle.symm⟩

end

/-- The value an event leaves takes the place of the values it refers to. -/
theorem tracks_replayEvent (table : Table) {e : Event} (hkw : e.isToken = false → e.name ≠ "kw")
    (h : Agree (table.live e.refs ++ opens) closed b s) :
    Tracks (Leaves opens closed) ((BuildM.replayEvent table.items e).runIn b)
      (runIn (replayEvent table.values e) s) := by
  unfold BuildM.replayEvent replayEvent
  refine tracks_modify ?_
  have hplace : Agree (table.live e.refs ++ opens) closed
      { b with line := e.line, column := e.column } { s with line := e.line, column := e.column } :=
    h.withView { h.view with line := rfl, column := rfl } rfl rfl
  refine tracks_bind (tracks_resolveAll table e.args hplace) fun vs ts b s hargs => ?_
  obtain ⟨xs, rfl, rfl, h⟩ := hargs
  by_cases htoken : e.isToken
  · simp only [htoken, if_true]
    rcases xs with _ | ⟨x, _ | ⟨y, xs⟩⟩
    · exact .error _ h.view
    · exact tracks_scan e.name h
    · exact .error _ h.view
  · simp only [htoken, Bool.false_eq_true, if_false]
    refine tracks_run e.name _ (fun hname => ?_) h
    exact hkw (by simpa using htoken) (Callback.name_of_keyword hname)

/-- The program so far, which no later event changes. -/
def kept (program : Option (Item × Value)) : List (Item × Raw) :=
  program.toList.map fun x => (x.1, x.2.tree)

/-- Both sides end with the same program, or with none. -/
def Finishes (v : Option Item) (t : Option Value) (b : Builder) (s : State) : Prop :=
  ∃ program : Option (Item × Value),
    v = program.map Prod.fst ∧ t = program.map Prod.snd ∧ Agree [] (kept program) b s

/-- Any number of events. -/
theorem tracks_replayFrom {events : List Event} (huses : UsesOnce events) (table : Table)
    (program : Option (Item × Value))
    (h : Agree (table.live (refsOf events)) (kept program) b s) :
    Tracks Finishes
      ((BuildM.replayFrom table.items (program.map Prod.fst) events).runIn b)
      (runIn (replayFrom table.values (program.map Prod.snd) events) s) := by
  -- Values that are still to be used are open; each event closes those it uses.
  induction events generalizing table program b s with
  | nil => exact tracks_pure ⟨program, rfl, rfl, h⟩
  | cons e later ih =>
    obtain ⟨honce, hprogram, hkw, hlater⟩ := huses
    rw [refsOf, List.flatMap_cons, table.live_append] at h
    unfold BuildM.replayFrom replayFrom
    refine tracks_bind (tracks_replayEvent table hkw h) fun v t b s hv => ?_
    have hnext := @ih b s hlater ((e.id, v, t) :: table)
    by_cases hname : e.name = "program"
    · -- The value of a program is never used, so it is closed.
      simp only [hname, beq_self_eq_true, if_true]
      refine hnext (some (v, t)) ?_
      rw [table.live_of_unused (v, t) (hprogram hname)]
      exact hv.close.forget (List.cons_subset_cons _ (List.nil_subset _))
    · simp only [beq_iff_eq, hname, if_false]
      exact hnext program (hv.subperm (table.live_cons (v, t) honce))

end Events

end Immutable

/-- The side tables say the same. A keyword token that was added to after it
    opened a construct is remembered with what was added, behind the tag, the
    word and the position that it has on the other side as well. -/
structure SameTables (b : Builder) (s : Immutable.State) : Prop where
  delimiters : b.delimiters.mapM b.arena.freeze? = some s.delimiters
  operators : b.operators = s.operators
  inSymbol : b.inSymbol = s.inSymbol
  buffer : b.comments.buffer = s.comments.buffer
  constructs : List.Forall₂ (fun opened opened' => opened.2 = opened'.2 ∧
    ∃ tag word place more, opened'.1 = .list [.str tag, word, place] ∧
      b.arena.freeze? opened.1 = some (.list (.str tag :: word :: place :: more)))
    b.comments.stack s.comments.stack

theorem sameTables_of_view {P : Nat → Prop} {b : Builder} {s : Immutable.State}
    (h : View P b s) : SameTables b s where
  delimiters := Arena.mapM_of_forall₂ (h.delimiters.imp fun _ _ hd => Arena.freeze?_of_shows hd)
  operators := h.operators.symm
  inSymbol := h.inSymbol.symm
  buffer := h.buffer.symm
  constructs := by
    refine List.Forall₂.flip (h.stack.imp fun opened' opened hopener => ?_)
    obtain ⟨htext, front, more, htree, ⟨tag, word, place, rfl⟩, -, hstands⟩ := hopener
    exact ⟨htext.symm, tag, word, place, more, htree, Arena.freeze?_of_stands hstands⟩

/-- The open constructs, innermost first, each with the token of its keyword as a
    tree and with the comments before it. -/
def Builder.openConstructs? (b : Builder) : Option (List (Raw × String)) :=
  b.comments.stack.mapM fun opened => (b.arena.freeze? opened.1).map (·, opened.2)

/-- Keyword tokens that nothing was added to are remembered as they are on the other
    side. -/
theorem SameTables.openConstructs?_eq {b : Builder} {s : Immutable.State} (h : SameTables b s)
    (hkeywords : ∀ p ∈ b.comments.stack, b.IsKeyword p.1) :
    b.openConstructs? = some s.comments.stack := by
  have hboth := (List.forall₂_and_left b.comments.stack s.comments.stack).2
    ⟨hkeywords, h.constructs⟩
  refine Arena.mapM_of_forall₂ (List.Forall₂.flip (hboth.imp fun opened opened' hopened => ?_))
  obtain ⟨⟨_, _, hitems⟩, htext, tag, word, place, more, htree, hfreeze⟩ := hopened
  -- The tree has three items, as the list has that it was read off.
  obtain rfl : more = [] := by simpa using Arena.length_of_freeze? hitems hfreeze
  show (b.arena.freeze? opened.1).map (·, opened.2) = some opened'
  rw [hfreeze, htext, ← htree]
  rfl

/-- The replay of a log that uses each value once, in which lists are changed in
    place, gives the raw tree, or the error, and the side tables of the replay in
    which every event makes new lists. The keywords of open constructs have the same
    tag, word and position, and are the same altogether if no event adds to a keyword
    token. In particular the raw tree of a program is finite: no list that it leads to
    leads back to itself. -/
theorem rawTree_eq_immutableTree (filename : String) (line : Int) {events : List Event}
    (h : UsesOnce events) :
    (rawTree filename line events).1 = (immutableTree filename line events).1 ∧
      SameTables (rawTree filename line events).2 (immutableTree filename line events).2 ∧
      (SparesKeywords [] events → (rawTree filename line events).2.openConstructs? =
        some (immutableTree filename line events).2.comments.stack) ∧
      ∀ v b, (BuildM.replayFrom [] none events).runIn { filename, line } = (.ok (some v), b) →
        (∃ r, b.arena.freeze? v = some r) ∧
          ∀ top, v = .list top → ∀ id, Relation.ReflTransGen b.arena.Inside top id →
            ¬ Relation.TransGen b.arena.Inside id id := by
  -- What is remembered of open constructs follows from what the tables say.
  refine (fun hrest => ⟨hrest.1, hrest.2.1, fun hspares => hrest.2.1.openConstructs?_eq
    (isKeyword_of_sparesKeywords filename line hspares), hrest.2.2⟩ : _ ∧ _ ∧ _ → _) ?_
  -- Nothing has been recorded yet, so no value waits to be used.
  have hlive : Table.live [] (refsOf events) = [] := List.filterMap_eq_nil_iff.2 fun _ _ => rfl
  have hstart : Agree (Table.live [] (refsOf events)) (kept none) { filename, line }
      { filename, line } := by
    rw [hlive]
    exact ⟨.nil, by simp, by simp, by simp, by simp [kept],
      ⟨rfl, rfl, rfl, rfl, .nil, .nil, rfl, rfl, .none, .none⟩⟩
  have hrun := tracks_replayFrom h [] none hstart
  unfold rawTree immutableTree BuildM.replay Immutable.replay
  show (BuildM.runIn _ _).1 = (runIn _ _).1 ∧ SameTables (BuildM.runIn _ _).2 (runIn _ _).2 ∧ _
  rw [BuildM.runIn_bind, runIn_bind]
  change Tracks Finishes ((BuildM.replayFrom [] none events).runIn { filename, line })
    (runIn (replayFrom [] none events) { filename, line }) at hrun
  generalize (BuildM.replayFrom [] none events).runIn { filename, line } = run at hrun ⊢
  generalize runIn (replayFrom [] none events) { filename, line } = run' at hrun ⊢
  cases hrun with
  | error e hview => exact ⟨rfl, sameTables_of_view hview, fun _ _ hv => by cases hv⟩
  | ok hfinish =>
    -- The tree that the list shows is the one the other run has built, so freezing gives it.
    obtain ⟨program, rfl, rfl, hagree⟩ := hfinish
    cases program with
    | none => exact ⟨rfl, sameTables_of_view hagree.view, fun _ _ hv => by cases hv⟩
    | some x =>
      have hshows := hagree.shows (x.1, x.2.tree) List.mem_cons_self
      have hfreeze := Arena.freeze?_of_shows hshows
      simp only [Option.map_some]
      rw [BuildM.runIn_freeze, hfreeze]
      refine ⟨rfl, sameTables_of_view hagree.view, fun v b hv => ?_⟩
      cases hv
      refine ⟨⟨_, hfreeze⟩, fun top htop id hid => ?_⟩
      -- A list within itself would show a tree less deep than its own.
      rw [htop] at hshows
      exact Arena.acyclic_of_shows hshows hid

/-- A method that is still open, with a heredoc of one indented line in it. The list
    of the heredoc's contents is added to, and then its item is replaced. -/
def indentedHeredoc : List Event :=
  [ ⟨0, "@kw", 1, 0, [.atom (.str "def")]⟩,
    ⟨1, "stmts_new", 1, 4, []⟩,
    ⟨2, "@heredoc_beg", 1, 4, [.atom (.str "<<~A")]⟩,
    ⟨3, "string_content", 1, 8, []⟩,
    ⟨4, "@tstring_content", 2, 0, [.atom (.str "  b\n")]⟩,
    ⟨5, "string_add", 2, 4, [.ref 3, .ref 4]⟩,
    ⟨6, "heredoc_dedent", 3, 0, [.ref 5, .atom (.int 2)]⟩,
    ⟨7, "@heredoc_end", 3, 0, [.atom (.str "A\n")]⟩,
    ⟨8, "string_literal", 3, 0, [.ref 6]⟩,
    ⟨9, "stmts_add", 3, 2, [.ref 1, .ref 8]⟩,
    ⟨10, "program", 3, 2, [.ref 9]⟩ ]

theorem rawTree_eq_immutableTree_indentedHeredoc :
    UsesOnce indentedHeredoc ∧ SparesKeywords [] indentedHeredoc ∧
      (rawTree "(string)" 1 indentedHeredoc).1 = .ok (.list [.str "program", .list [.str "stmts",
        .list [.str "string_literal", .list [.str "string_content", .list [.str "@tstring_content",
          .str "b\n", .list [.int 2, .int 0], .str "<<~A"]]]]]) ∧
      (rawTree "(string)" 1 indentedHeredoc).2.openConstructs? =
        some [(.list [.str "@kw", .str "def", .list [.int 1, .int 0]], "")] := by
  have huses : UsesOnce indentedHeredoc := by decide
  have hspares : SparesKeywords [] indentedHeredoc := by decide
  obtain ⟨hraw, -, hopen, -⟩ := rawTree_eq_immutableTree "(string)" 1 huses
  exact ⟨huses, hspares, hraw.trans rfl, (hopen hspares).trans rfl⟩

/-- A keyword token is given one more item, as if it were a list of arguments. -/
def keywordAddedTo : List Event :=
  [ ⟨0, "@kw", 1, 0, [.atom (.str "def")]⟩,
    ⟨1, "@ident", 1, 4, [.atom (.str "x")]⟩,
    ⟨2, "args_add", 1, 4, [.ref 0, .ref 1]⟩,
    ⟨3, "program", 1, 0, [.ref 2]⟩ ]

/-- The method that is left open is remembered with the item that was added to its
    keyword, where new lists for every event would leave the keyword as it was. Numbers
    are distinct, values are used once, and no construct is named like a token. -/
theorem openConstructs?_keywordAddedTo :
    (keywordAddedTo.map (·.id)).Nodup ∧ UsesOnce keywordAddedTo ∧
      (∀ e ∈ keywordAddedTo, e.isToken = false → e.callback.ofToken = false) ∧
      (rawTree "(string)" 1 keywordAddedTo).2.openConstructs? =
        some [(.list [.str "@kw", .str "def", .list [.int 1, .int 0],
          .list [.str "@ident", .str "x", .list [.int 1, .int 4]]], "")] ∧
      (immutableTree "(string)" 1 keywordAddedTo).2.comments.stack =
        [(.list [.str "@kw", .str "def", .list [.int 1, .int 0]], "")] ∧
      (rawTree "(string)" 1 keywordAddedTo).2.openConstructs? ≠
        some (immutableTree "(string)" 1 keywordAddedTo).2.comments.stack := by
  have hraw : (rawTree "(string)" 1 keywordAddedTo).2.openConstructs? =
      some [(.list [.str "@kw", .str "def", .list [.int 1, .int 0],
        .list [.str "@ident", .str "x", .list [.int 1, .int 4]]], "")] := rfl
  have himmutable : (immutableTree "(string)" 1 keywordAddedTo).2.comments.stack =
      [(.list [.str "@kw", .str "def", .list [.int 1, .int 0]], "")] := rfl
  refine ⟨by decide, by decide, by decide, hraw, himmutable, ?_⟩
  rw [hraw, himmutable]
  simp

end RubyTree
