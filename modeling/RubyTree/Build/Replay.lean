import RubyTree.Build.Effect
import RubyTree.Log.Event

/-!
# Replaying Events

Replays recorded events in order and keeps the value each one leaves under its
number, so that later events can refer to it. The value of the last `program`
event is the raw tree of the whole source. It is read off after the last event,
so that it has everything that was added to its lists.

## Main definitions

* `BuildM.scan`: A token.
* `BuildM.build`: A construct.
* `BuildM.resolve`: An argument, with the values it refers to.
* `BuildM.replay`: A sequence of events.
* `rawTree`: The raw tree that events describe.
-/

namespace RubyTree

namespace BuildM

/-- Tokens that leave no trace for the ones after them. -/
def layout : List String :=
  ["@sp", "@ignored_sp", "@nl", "@ignored_nl", "@words_sep", "@comment", "@embdoc_beg", "@embdoc",
   "@embdoc_end"]

/-- The signs that can be folded into a number. -/
def signs : List (String × String) :=
  [("@op", "-"), ("@op", "+")]

/-- A name without the `@` in front. -/
def bareName (name : String) : String :=
  String.ofList name.toList.tail

/-- A scanned token. A number right after a sign is remembered, and comments
    are forgotten unless the token is layout. -/
def scan (name : String) (text : Item) : BuildM Item := do
  let node ← newNode name [text, ← here]
  if Effect.numberTags.contains name then
    if ← Effect.isOneOf signs (← get).lastToken then
      modify fun b => { b with signed := node :: b.signed }
  let value ←
    match Callback.ofName (bareName name) with
    | .plain => pure node
    | callback => callback.run name [node]
  -- The callback has looked at the tokens before this one, so this one is noted after it.
  modify fun b => { b with lastToken := some (name, text) }
  if !layout.contains name then
    modify fun b =>
      { b with comments := b.comments.discard, lastSignificant := some (name, text) }
  return value

/-- A completed construct. -/
def build (name : String) (args : List Item) : BuildM Item :=
  (Callback.ofName name).run name args

/-- The values of earlier events, by number, the latest first. -/
abbrev Values := List (Nat × Item)

mutual

/-- An argument with the values it refers to in place. -/
def resolve (values : Values) : Arg → BuildM Item
  | .atom a => return .atom a
  | .ref id =>
    match values.lookup id with
    | some v => return v
    | none => throw (.unknownEvent id)
  | .list items => do newList (← resolveAll values items)

/-- Arguments with the values they refer to in place. -/
def resolveAll (values : Values) : List Arg → BuildM (List Item)
  | [] => return []
  | arg :: args => return (← resolve values arg) :: (← resolveAll values args)

end

/-- The value an event leaves. -/
def replayEvent (values : Values) (e : Event) : BuildM Item := do
  modify fun b => { b with line := e.line, column := e.column }
  let args ← resolveAll values e.args
  if e.isToken then
    match args with
    | [text] => scan e.name text
    | _ => throw .shape
  else build e.name args

/-- Replays events; `program` is the value of the last one that completed a program. -/
def replayFrom (values : Values) (program : Option Item) : List Event → BuildM (Option Item)
  | [] => return program
  | e :: events => do
    let v ← replayEvent values e
    replayFrom ((e.id, v) :: values) (if e.name == "program" then some v else program) events

/-- The raw tree of the program that events describe. -/
def replay (events : List Event) : BuildM Raw := do
  match ← replayFrom [] none events with
  | some v => freeze v
  | none => throw .noProgram

end BuildM

/-- The raw tree that events describe, or what is wrong with them; and the
    state of the builder after the last event that was replayed. -/
def rawTree (filename : String) (line : Int) (events : List Event) :
    Except Error Raw × Builder :=
  (BuildM.replay events).run.run { filename, line }

end RubyTree
