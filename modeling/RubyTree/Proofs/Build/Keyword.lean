import RubyTree.Proofs.Build.Session

/-!
# Keyword Tokens

A keyword is only a name if a symbol is being read or if the token before it
introduces one. Otherwise it opens a construct, is the operator `in`, or does
nothing. Every look at a keyword goes through what is said here: what scanning
it gives, in each of these cases.

## Main definitions

* `Builder.meeting`: The builder after a keyword that is not a name.

## Theorems

* `runIn_keyword`: What a keyword does.
* `runIn_scan_keyword`: What scanning one gives.
-/

namespace RubyTree

/-- The builder after a keyword that is not a name. -/
def Builder.meeting (b : Builder) (node : Item) (word : Atom) : Builder :=
  if Effect.opensConstruct.any (word.text? == some ·) then
    { b with comments := b.comments.enter node }
  else if word.text? == some "in" then { b with operators := "in" :: b.operators }
  else b

/-- There is one name that keywords have. -/
theorem Callback.name_of_keyword {name : String} (h : Callback.ofName name = .keyword) :
    name = "kw" := by
  unfold Callback.ofName at h
  cases hlookup : Callback.table.lookup name with
  | none =>
    rw [hlookup] at h
    cases h
  | some callback =>
    rw [hlookup] at h
    obtain rfl : callback = .keyword := h
    obtain ⟨before, after, htable, -⟩ := List.lookup_eq_some_iff.1 hlookup
    have hall : ∀ p ∈ Callback.table, p.2 = .keyword → p.1 = "kw" := by decide
    exact hall (name, .keyword) (by rw [htable]; simp) rfl

namespace BuildM

theorem runIn_keyword {b : Builder} {node text : Item} (hitem : b.arena.item? node 1 = some text) :
    (Effect.keyword node).runIn b = match b.nameNext? with
      | none => (.error .shape, b)
      | some true => (.ok node, b)
      | some false => match text.atom?.filter Atom.isKey with
        | none => (.error .shape, b)
        | some word => (.ok node, b.meeting node word) := by
  unfold Effect.keyword
  rw [runIn_bind, runIn_namePosition]
  -- As a name a keyword is not even looked up; otherwise its text has to be a key.
  cases b.nameNext? with
  | none => rfl
  | some only =>
    cases only with
    | true => rfl
    | false =>
      change (itemAt node 1 >>= _).runIn b = _
      rw [runIn_bind, runIn_itemAt, hitem]
      change (key text >>= _).runIn b = _
      rw [runIn_bind, key, runIn_require]
      cases text.atom?.filter Atom.isKey with
      | none => rfl
      | some word =>
        change (if _ then _ else if _ then _ else _ : BuildM Item).runIn b =
          (.ok node, b.meeting node word)
        unfold Builder.meeting
        cases Effect.opensConstruct.any (word.text? == some ·) with
        | true => rfl
        | false => cases word.text? == some "in" <;> rfl

/-- What scanning a keyword gives, after the node is there. -/
theorem runIn_scan_keyword (b : Builder) (text : Item) :
    (scan "@kw" text).runIn b = match b.nameNext? with
      | none => (.error .shape, b.withToken "@kw" text)
      | some true => (.ok b.tokenNode, (b.withToken "@kw" text).remembering "@kw" text)
      | some false => match text.atom?.filter Atom.isKey with
        | none => (.error .shape, b.withToken "@kw" text)
        | some word => (.ok b.tokenNode,
            ((b.withToken "@kw" text).meeting b.tokenNode word).remembering "@kw" text) := by
  have hvalue : tokenValue "@kw" b.tokenNode = Effect.keyword b.tokenNode := rfl
  have hname : (b.withToken "@kw" text).nameNext? = b.nameNext? := rfl
  -- A keyword is no number, so the scan has nothing to remember about a sign.
  rw [runIn_scan_of_not_number b (by decide), hvalue,
    runIn_keyword (Builder.item?_tokenNode b "@kw" text 1), hname]
  cases b.nameNext? with
  | none => rfl
  | some only =>
    cases only with
    | true => rfl
    | false => cases text.atom?.filter Atom.isKey <;> rfl

theorem runIn_operator {b : Builder} {node text : Item}
    (hitem : b.arena.item? node 1 = some text) :
    (Effect.operator node).runIn b =
      (.ok node, if text.isText "=>" then { b with operators := "=>" :: b.operators } else b) := by
  unfold Effect.operator
  rw [runIn_bind, runIn_itemAt, hitem]
  change (if text.isText "=>" then _ else _ : BuildM Item).runIn b = _
  cases text.isText "=>" <;> rfl

/-- What scanning an operator gives. -/
theorem runIn_scan_operator (b : Builder) (text : Item) :
    (scan "@op" text).runIn b = (.ok b.tokenNode,
      (if text.isText "=>" then
        { b.withToken "@op" text with operators := "=>" :: b.operators }
      else b.withToken "@op" text).remembering "@op" text) := by
  have hvalue : tokenValue "@op" b.tokenNode = Effect.operator b.tokenNode := rfl
  rw [runIn_scan_of_not_number b (by decide), hvalue,
    runIn_operator (Builder.item?_tokenNode b "@op" text 1)]
  rfl

end BuildM

end RubyTree
