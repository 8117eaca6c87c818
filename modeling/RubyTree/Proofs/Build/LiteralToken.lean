import RubyTree.Proofs.Build.Session

/-!
# Tokens of Literals

The delimiters of the literals that are open form a stack. What each token that
belongs to a literal does with it is said here, in terms of the text of the token:
opening ones put it on top, without the blanks at its ends for a list of words,
closing ones take the top off, and content gets the top as its fourth item. A
backtick may also be a name, and is then no delimiter.

## Theorems

* `runIn_openLiteral`, `runIn_openWords`, `runIn_openSymbol`, `runIn_backtick`: Tokens
  that open a literal.
* `runIn_closeLiteral`, `runIn_content`: Its end and its content.
* `Reads.step_of_run`: What a token gives, by what its callback does.
-/

namespace RubyTree

open BuildM

namespace Builder

@[simp] theorem delimiters_withToken (b : Builder) (name : String) (text : Item) :
    (b.withToken name text).delimiters = b.delimiters :=
  rfl

@[simp] theorem delimiters_remembering (b : Builder) (name : String) (text : Item) :
    (b.remembering name text).delimiters = b.delimiters := by
  unfold remembering
  split <;> rfl

end Builder

namespace BuildM

variable {b : Builder} {node text d : Item}

theorem runIn_openLiteral (h : b.arena.item? node 1 = some text) :
    (Effect.openLiteral node).runIn b =
      (.ok node, { b with delimiters := text :: b.delimiters }) := by
  unfold Effect.openLiteral
  rw [runIn_bind, runIn_itemAt, h]
  rfl

theorem runIn_openSymbol (h : b.arena.item? node 1 = some text) :
    (Effect.openSymbol node).runIn b =
      (.ok node, { b with inSymbol := true, delimiters := text :: b.delimiters }) :=
  runIn_openLiteral (b := { b with inSymbol := true }) h

theorem runIn_openWords (h : b.arena.item? node 1 = some text)
    (htrim : Effect.trimmed? text = some d) :
    (Effect.openWords node).runIn b = (.ok node, { b with delimiters := d :: b.delimiters }) := by
  unfold Effect.openWords
  rw [runIn_bind, runIn_itemAt, h]
  change (require (Effect.trimmed? text) >>= _).runIn b = _
  rw [htrim]
  rfl

theorem runIn_backtick (h : b.arena.item? node 1 = some text) :
    (Effect.backtick node).runIn b = match b.nameNext? with
      | none => (.error .shape, b)
      | some true => (.ok node, b)
      | some false => (.ok node, { b with delimiters := text :: b.delimiters }) := by
  unfold Effect.backtick
  rw [runIn_bind, runIn_namePosition]
  cases b.nameNext? with
  | none => rfl
  | some only =>
    cases only with
    | true => rfl
    | false => exact runIn_openLiteral h

theorem runIn_closeLiteral {rest : List Item} (htop : b.delimiters = d :: rest) :
    (Effect.closeLiteral node).runIn b = (.ok node, { b with delimiters := rest }) := by
  unfold Effect.closeLiteral
  rw [runIn_bind, runIn_get]
  dsimp only
  rw [htop]
  rfl

theorem runIn_content {items : List Item} (h : b.arena.items? node = some items) :
    (Effect.content node).runIn b =
      (.ok node, b.setItems node (items ++ [b.delimiters.headD .null])) := by
  unfold Effect.content
  rw [runIn_bind, runIn_get]
  dsimp only
  rw [runIn_bind, runIn_append, h]
  rfl

/-- A token that its callback does something with is no number. -/
theorem not_number_of_callback {name : String} (h : Callback.ofName (bareName name) ≠ .plain) :
    Effect.numberTags.contains name = false := by
  have hplain : ∀ name ∈ Effect.numberTags, Callback.ofName (bareName name) = .plain := by decide
  rw [← Bool.not_eq_true, List.contains_iff_mem]
  exact fun hmem => h (hplain name hmem)

end BuildM

namespace Session

variable {s : Session} {e : Event}

/-- A token is read with what its callback does to the node made for it. -/
theorem Reads.step_of_run {name : String} {text v : Item} {callback : Callback} {c : Builder}
    (h : s.Reads e name text) (hcallback : e.callback = callback) (hplain : callback ≠ .plain)
    (hrun : (callback.run name [(s.prepare e).2.tokenNode]).runIn
      ((s.prepare e).2.withToken name text) = (.ok v, c)) :
    s.step e = (.ok v, c.remembering name text) := by
  rw [Event.callback, if_pos h.isToken, h.name_eq] at hcallback
  subst hcallback
  have hvalue (node : Item) :
      tokenValue name node = (Callback.ofName (bareName name)).run name [node] := by
    unfold tokenValue
    split
    · rename_i heq
      exact absurd heq hplain
    · rfl
  rw [h.step_eq, runIn_scan_of_not_number _ (not_number_of_callback hplain), hvalue, hrun]

end Session

end RubyTree
