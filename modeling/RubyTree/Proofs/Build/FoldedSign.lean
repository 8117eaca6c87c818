import RubyTree.Proofs.Build.Shows
import RubyTree.Proofs.Build.SignedNumber
import RubyTree.Proofs.Lower.ExactLiteral

/-!
# Signs Folded into Numbers

A sign in front of a number is an operation, unless the number was scanned right
after it. Then the operation leaves the leaf of the number, with the sign in its
text, and that text is read as a literal when the leaf is lowered. The leaf has
the position of the number, since it refers to the same list.

Only the sign of the operation itself is looked for at the start of the text. A
number that has the other sign is folded too, and its leaf then has two signs, or
one that the operation does not show.

## Main definitions

* `Sign.Makes`, `Sign.put`: The operator of a sign, and a text with it.
* `Session.LeavesNew`, `Session.LeavesNumber`: What an operation leaves.
* `Session.Folds`: When an operation is folded.

## Theorems

* `runIn_foldSign_of_mem`, `runIn_foldSign_of_notMem`: What folding does.
* `lower_folded`: The value of a leaf with a sign.
* `sign_folding_exact`: When signs are folded, and the values of what they become.
-/

namespace RubyTree

open BuildM NumberText

namespace NumberText

namespace Sign

/-- The operator that a sign is in front of a value. -/
def Makes (sign : Sign) (op : Item) : Prop :=
  match sign with
  | absent => False
  | plus => op.isText "+@"
  | minus => op.isText "-@"

/-- A text with the sign folded into it; a plus is not written. -/
def put (sign : Sign) (text : String) : String :=
  match sign with
  | minus => "-" ++ text
  | _ => text

theorem sign?_of_makes {sign : Sign} {op : Item} (h : sign.Makes op) :
    Effect.sign? op = some (String.ofList sign.text) := by
  cases sign with
  | absent => cases h
  | plus =>
    have hplus : op.text? = some "+@" := by simpa [Makes, Item.isText] using h
    simp [Effect.sign?, Item.isText, hplus, text]
  | minus =>
    have hminus : op.isText "-@" := h
    rw [Effect.sign?, if_pos hminus]
    rfl

theorem makes_of_sign? {op : Item} {text : String} (h : Effect.sign? op = some text) :
    ∃ sign : Sign, sign.Makes op ∧ text = String.ofList sign.text := by
  unfold Effect.sign? at h
  split at h
  · rename_i hminus
    exact ⟨.minus, hminus, (Option.some.inj h).symm⟩
  · split at h
    · rename_i hplus
      exact ⟨.plus, hplus, (Option.some.inj h).symm⟩
    · cases h

theorem withSign_eq {sign : Sign} {op : Item} (h : sign.Makes op) (text : String) :
    Effect.withSign (String.ofList sign.text) text (.str text) = .str (sign.put text) := by
  cases sign with
  | absent => cases h
  | plus => rfl
  | minus => rfl

end Sign

end NumberText

namespace Session

variable {s : Session} {e : Event} {es : List Event} {v : Item}

section Folding

variable {b : Builder} {op : Item} {place : Nat} {line column : Int}

/-- A value that is not remembered is not folded. -/
theorem runIn_foldSign_of_notMem (h : v ∉ b.signed) :
    (Effect.foldSign op v).runIn b = (newNode "unary" [op, v]).runIn b := by
  have hcontains : b.signed.contains v = false := by simpa using h
  unfold Effect.foldSign
  rw [runIn_bind, runIn_tagOf]
  dsimp only
  cases Effect.sign? op with
  | none => rfl
  | some sign =>
    dsimp only
    rw [runIn_bind, runIn_get]
    simp only [hcontains, Bool.and_false]
    rfl

theorem runIn_foldSign_of_not_makes (h : ∀ sign : Sign, ¬ sign.Makes op) :
    (Effect.foldSign op v).runIn b = (newNode "unary" [op, v]).runIn b := by
  have hsign : Effect.sign? op = none := by
    cases hsign : Effect.sign? op with
    | none => rfl
    | some text =>
      obtain ⟨sign, hmakes, -⟩ := Sign.makes_of_sign? hsign
      exact absurd hmakes (h sign)
  unfold Effect.foldSign
  rw [runIn_bind, runIn_tagOf, hsign]

/-- A number that is remembered is folded, unless it has the sign already. -/
theorem runIn_foldSign_of_mem {name text : String} {sign : Sign} (hmem : v ∈ b.signed)
    (hnumber : name ∈ Effect.numberTags) (hholds : b.HoldsToken v place name text line column)
    (hmakes : sign.Makes op) :
    (Effect.foldSign op v).runIn b =
      if sign.text <+: text.toList then (newNode "unary" [op, v]).runIn b
      else (newList [.str name, .str (sign.put text), .list place]).runIn b := by
  obtain ⟨⟨more, hnode⟩, -⟩ := hholds
  have htag : b.arena.tag? v = some name := by
    rw [Arena.tag?, hnode]
  -- The items that are read are the ones that the token was made with.
  have hitem (i : Nat) (x : Item)
      (hx : (.str name :: .str text :: .list place :: more)[i]? = some x) :
      (itemAt v i).runIn b = (.ok x, b) := by
    cases v with
    | atom a => cases hnode
    | list id =>
      rw [runIn_itemAt, Arena.item?, hnode, Option.bind_some, hx]
      rfl
  have htext : (textAt v 1).runIn b = (.ok text, b) := by
    unfold textAt
    rw [runIn_bind, hitem 1 (.str text) rfl]
    rfl
  have hfound : ((some name).any Effect.numberTags.contains && b.signed.contains v) = true := by
    simp [hnumber, hmem]
  unfold Effect.foldSign
  rw [runIn_bind, runIn_tagOf, htag, Sign.sign?_of_makes hmakes]
  dsimp only
  rw [runIn_bind, runIn_get]
  dsimp only
  rw [if_pos hfound, runIn_bind, htext]
  dsimp only
  rw [String.toList_ofList]
  by_cases hown : sign.text <+: text.toList
  · rw [if_pos hown, List.isPrefixOf_iff_prefix.2 hown]
    rfl
  · have hprefix : sign.text.isPrefixOf text.toList = false := by
      rw [← Bool.not_eq_true, List.isPrefixOf_iff_prefix]
      exact hown
    rw [if_neg hown, hprefix]
    simp only [Bool.not_false, if_true]
    rw [runIn_bind, hitem 1 (.str text) rfl]
    dsimp only
    rw [runIn_bind, hitem 0 (.str name) rfl]
    dsimp only
    rw [runIn_bind, hitem 2 (.list place) rfl]
    dsimp only
    rw [Sign.withSign_eq hmakes]

end Folding

/-- The session before any event of a source that starts at some line. -/
def start (filename : String) (line : Int) : Session where
  values := []
  builder := { filename, line }
  known := List.forall_mem_nil _

/-- The next event leaves a new list with these items, and changes nothing else. -/
def LeavesNew (s : Session) (e : Event) (items : List Item) : Prop :=
  s.step e = (.ok (.list (s.prepare e).2.arena.lists.size), (s.prepare e).2.push items)

/-- The next event leaves the leaf of a number. -/
def LeavesNumber (s : Session) (e : Event) : Prop :=
  ∃ tag ∈ Effect.numberTags, (s.next e).builder.arena.tag? (s.value e) = some tag

/-- The operation is a sign, its value is a number scanned right after a sign, and
    the text of that number does not start with the sign of the operation. -/
structure Folds (s : Session) (es : List Event) (op v : Item) (sign : Sign) (n : Event)
    (text : String) : Prop where
  number : s.SignedNumber es n text v
  operator : sign.Makes op
  notOwn : ¬ sign.text <+: text.toList

section Operations

variable {op : Item}

theorem Builds.step_unary (h : s.Builds e [op, v]) (hname : e.name = "unary") :
    s.step e = (Effect.foldSign op v).runIn (s.prepare e).2 := by
  have hcallback : Callback.ofName "unary" = .unary := by decide
  rw [h.step_eq hname, hcallback]
  rfl

/-- The tag of a new list is its first item. -/
theorem LeavesNew.tag? {tag : String} {items : List Item} (h : s.LeavesNew e (.str tag :: items)) :
    (s.next e).builder.arena.tag? (s.value e) = some tag := by
  have hvalue : s.value e = .list (s.prepare e).2.arena.lists.size := by
    rw [value, h]
    rfl
  have hbuilder : (s.next e).builder = (s.prepare e).2.push (.str tag :: items) :=
    congrArg Prod.snd h
  rw [hvalue, hbuilder, Arena.tag?, Builder.items?_push_self]

end Operations

end Session

section Frozen

open Raw (node token)

variable {b : Builder} {v : Item} {place : Nat} {name text : String} {line column : Int}

/-- A list in the place of a position is read as one. -/
theorem Builder.HoldsToken.shows_place (h : b.HoldsToken v place name text line column) :
    b.arena.Shows (fun _ => True) (.list [.int line, .int column]) (.list place) :=
  .list trivial h.2 (.cons (.atom _) (.cons (.atom _) .nil))

/-- The raw tree of a token starts with its name, text and position. -/
theorem Builder.HoldsToken.freeze?_eq (h : b.HoldsToken v place name text line column) {r : Raw}
    (hr : b.arena.freeze? v = some r) :
    ∃ more, r = node name (.str text :: .list [.int line, .int column] :: more) := by
  obtain ⟨more, hnode⟩ := h.1
  have hshows := Arena.shows_of_freezeAt hr
  -- The frozen node shows the stored items one by one, so its first three are the token's.
  cases hshows with
  | atom x => cases hnode
  | list _ stored parts =>
    obtain rfl := Option.some.inj (stored.symm.trans hnode)
    cases parts with
    | cons hname parts =>
      cases parts with
      | cons htext parts =>
        cases parts with
        | @cons r _ rs _ hplace _ =>
          cases hname
          cases htext
          rw [hplace.unique h.shows_place]
          exact ⟨rs, rfl⟩

/-- A leaf with the position of a token. -/
theorem Builder.HoldsToken.freeze?_push (h : b.HoldsToken v place name text line column)
    (tag leaf : String) :
    (b.push [.str tag, .str leaf, .list place]).arena.freeze? (.list b.arena.lists.size) =
      some (token tag leaf (.list [.int line, .int column])) := by
  have hplace : (b.push [.str tag, .str leaf, .list place]).arena.Shows (fun _ => True)
      (.list [.int line, .int column]) (.list place) :=
    .list trivial (Builder.items?_push h.2 _) (.cons (.atom _) (.cons (.atom _) .nil))
  refine Arena.freeze?_of_shows (P := fun _ => True) ?_
  exact .list trivial (b.items?_push_self _) (.cons (.atom _) (.cons (.atom _) (.cons hplace .nil)))

end Frozen

namespace Session

open LowerM (lower)
open Raw (token)

variable {filename : String} {line : Int} {es : List Event} {e : Event} {op v : Item}
  {sign : Sign} {n : Event} {text : String}

/-- A number is what was scanned when its turn comes. -/
theorem SignedNumber.holds_prepare {s : Session} (h : s.SignedNumber es n text v) (e : Event) :
    n.name ∈ Effect.numberTags ∧ ∃ place,
      ((s.run es).prepare e).2.HoldsToken v place n.name text n.line n.column := by
  obtain ⟨hnumber, place, hne, hholds, hvalues⟩ := h.holds
  have hstable := stable_holdsToken hne n.name text n.line n.column [.place]
  exact ⟨hnumber, place, prepare_stable hstable List.mem_cons_self hholds hvalues⟩

/-- What is not folded is left as it is. -/
theorem leavesNew_of_not_folds (htexts : ∀ e ∈ es, e.HasText)
    (hbuilds : ((start filename line).run es).Builds e [op, v]) (hname : e.name = "unary")
    (hnot : ∀ sign n text, ¬ (start filename line).Folds es op v sign n text) :
    ((start filename line).run es).LeavesNew e [.str "unary", op, v] := by
  have hsigned := signed_iff (s := start filename line) (v := v) rfl rfl htexts
  rw [← prepare_signed _ e] at hsigned
  unfold LeavesNew
  rw [hbuilds.step_unary hname, ← runIn_newList]
  by_cases hmem : v ∈ (((start filename line).run es).prepare e).2.signed
  · -- A number that is remembered is folded but for its own sign or the operator.
    obtain ⟨n, text, hnumber⟩ := hsigned.1 hmem
    by_cases hmakes : ∃ sign : Sign, sign.Makes op
    · obtain ⟨sign, hmakes⟩ := hmakes
      have hown : sign.text <+: text.toList := by
        by_contra hown
        exact hnot sign n text ⟨hnumber, hmakes, hown⟩
      obtain ⟨htag, place, hholds⟩ := hnumber.holds_prepare e
      rw [runIn_foldSign_of_mem hmem htag hholds hmakes, if_pos hown]
      rfl
    · exact runIn_foldSign_of_not_makes fun sign hsign => hmakes ⟨sign, hsign⟩
  · exact runIn_foldSign_of_notMem hmem

/-- What is folded is a leaf with the position of the number. -/
theorem leavesNew_of_folds (htexts : ∀ e ∈ es, e.HasText)
    (hbuilds : ((start filename line).run es).Builds e [op, v]) (hname : e.name = "unary")
    (h : (start filename line).Folds es op v sign n text) :
    ∃ place, (((start filename line).run es).prepare e).2.HoldsToken v place n.name text n.line
        n.column ∧
      ((start filename line).run es).LeavesNew e
        [.str n.name, .str (sign.put text), .list place] := by
  -- Being remembered as signed is a fact about the run before this event.
  have hmem : v ∈ (((start filename line).run es).prepare e).2.signed := by
    rw [prepare_signed]
    exact (signed_iff rfl rfl htexts).2 ⟨n, text, h.number⟩
  obtain ⟨htag, place, hholds⟩ := h.number.holds_prepare e
  refine ⟨place, hholds, ?_⟩
  unfold LeavesNew
  rw [hbuilds.step_unary hname, runIn_foldSign_of_mem hmem htag hholds h.operator, if_neg h.notOwn]
  rfl

/-- The text of a literal with a sign folded into it has the value of the literal,
    multiplied by the sign. -/
theorem lower_folded {l : ExactLiteral} (hsign : l.sign = .absent) (hmakes : sign.Makes op)
    (place : Raw) : lower (token l.tag (sign.put (String.ofList l.text)) place) =
      l.lowered sign.factor place.positionLine? := by
  cases sign with
  | absent => cases hmakes
  | plus => exact l.lower_leaf place []
  | minus =>
    -- The text with the minus is that of another literal.
    have htext : "-" ++ String.ofList l.text = String.ofList (l.withSign .minus).text := by
      rw [ExactLiteral.text_withSign hsign, Sign.text, String.ofList_append]
    have hleaf := (l.withSign .minus).lower_leaf place []
    rw [ExactLiteral.tag_withSign, ExactLiteral.lowered_withSign hsign, ← htext] at hleaf
    exact hleaf

/-- Folding is exact, with one exception: the sign that the text may not start with
    is that of the operation. Where the text has no sign and is a literal, the
    folded leaf has the value of the number times the sign. -/
theorem sign_folding_exact (htexts : ∀ e ∈ es, e.HasText)
    (hbuilds : ((start filename line).run es).Builds e [op, v]) (hname : e.name = "unary") :
    let before := start filename line
    let s := before.run es
    (s.LeavesNumber e ↔ ∃ sign n text, before.Folds es op v sign n text) ∧
      (¬ s.LeavesNumber e → s.LeavesNew e [.str "unary", op, v]) ∧
      ∀ sign n text, before.Folds es op v sign n text →
        let leaf := token n.name (sign.put text) (.list [.int n.line, .int n.column])
        (s.next e).builder.arena.freeze? (s.value e) = some leaf ∧
        ∀ l : ExactLiteral, l.sign = .absent → l.tag = n.name → String.ofList l.text = text →
          (∀ number, (s.next e).builder.arena.freeze? v = some number →
            lower number = l.lowered 1 (some (.int n.line))) ∧
          lower leaf = l.lowered sign.factor (some (.int n.line)) := by
  intro before s
  have hunary (hnot : ¬ ∃ sign n text, before.Folds es op v sign n text) :
      s.LeavesNew e [.str "unary", op, v] :=
    leavesNew_of_not_folds htexts hbuilds hname fun sign n text h => hnot ⟨sign, n, text, h⟩
  -- A list that is left as it is starts with a tag that no number has.
  have hleaves : s.LeavesNumber e ↔ ∃ sign n text, before.Folds es op v sign n text := by
    constructor
    · rintro ⟨tag, htag, hleaf⟩
      by_contra hnot
      obtain rfl := Option.some.inj (hleaf.symm.trans (hunary hnot).tag?)
      exact absurd htag (by decide)
    · rintro ⟨sign, n, text, h⟩
      obtain ⟨place, -, hnew⟩ := leavesNew_of_folds htexts hbuilds hname h
      exact ⟨n.name, h.number.holds.1, hnew.tag?⟩
  refine ⟨hleaves, fun hnot => hunary (mt hleaves.2 hnot), fun sign n text h => ?_⟩
  obtain ⟨place, hholds, hnew⟩ := leavesNew_of_folds htexts hbuilds hname h
  have hvalue : s.value e = .list (s.prepare e).2.arena.lists.size := by
    rw [value, hnew]
    rfl
  have hbuilder : (s.next e).builder =
      (s.prepare e).2.push [.str n.name, .str (sign.put text), .list place] :=
    congrArg Prod.snd hnew
  refine ⟨?_, fun l hsign htag htext => ⟨fun number hnumber => ?_, ?_⟩⟩
  · rw [hvalue, hbuilder]
    exact hholds.freeze?_push _ _
  · -- The number itself is not changed by the new leaf.
    rw [hbuilder] at hnumber
    obtain ⟨more, hnode⟩ := hholds.1
    have hlasts : ((s.prepare e).2.push [.str n.name, .str (sign.put text), .list place]).HoldsToken
        v place n.name text n.line n.column :=
      ⟨⟨more, Builder.items?_push hnode _⟩, Builder.items?_push hholds.2 _⟩
    obtain ⟨rest, rfl⟩ := hlasts.freeze?_eq hnumber
    rw [← htag, ← htext]
    exact l.lower_leaf _ rest
  · rw [← htag, ← htext]
    exact lower_folded hsign h.operator _

end Session

section Samples

open LowerM Session
open Raw (token)

/-- A minus and the number right after it. -/
def numberAfterMinus (text : String) : List Event :=
  [.token 0 1 "@op" "-", .token 1 2 "@int" text]

/-- The negation of that number. -/
def negation : Event :=
  .construct 2 3 "unary" [.atom (.sym "-@"), .ref 1]

/-- A literal that tells the bases apart. -/
def hexadecimalSample : IntegerLiteral where
  sign := .absent
  radix := .hexadecimal
  mark := ['0', 'x']
  mark_mem := by decide
  figures := ⟨⟨1, by decide, false⟩, [(false, ⟨15, by decide, true⟩)]⟩
  leads := nofun

theorem hasText_numberAfterMinus (text : String) : ∀ e ∈ numberAfterMinus text, e.HasText := by
  intro e he _
  simp only [numberAfterMinus, List.mem_cons, List.not_mem_nil, or_false] at he
  rcases he with rfl | rfl
  · exact ⟨"-", rfl⟩
  · exact ⟨text, rfl⟩

theorem builds_negation {text : String} (h : text ∈ ["0x1F", "+010"]) :
    ((start "" 1).run (numberAfterMinus text)).Builds negation [.atom (.sym "-@"), .list 3] := by
  have hargs : ∀ text ∈ ["0x1F", "+010"],
      ((start "" 1).run (numberAfterMinus text)).args? negation =
        some [.atom (.sym "-@"), .list 3] := by
    decide +kernel
  exact ⟨by decide, hargs text h⟩

theorem signedNumber_numberAfterMinus {text : String} (h : text ∈ ["0x1F", "+010"]) :
    (start "" 1).SignedNumber (numberAfterMinus text) (.token 1 2 "@int" text) text (.list 3) := by
  have hsucceeds : ∀ text ∈ ["0x1F", "+010"], ((start "" 1).run [.token 0 1 "@op" "-"]).Succeeds
      (.token 1 2 "@int" text) := by
    decide +kernel
  have hvalue : ∀ text ∈ ["0x1F", "+010"], ((start "" 1).run [.token 0 1 "@op" "-"]).value
      (.token 1 2 "@int" text) = .list 3 := by
    decide +kernel
  have hminus : (start "" 1).LatestToken [.token 0 1 "@op" "-"] "@op" (.str "-") :=
    @LatestToken.scanned _ [] (.token 0 1 "@op" "-") "@op" (.str "-") ⟨by decide, rfl, rfl⟩
      (by decide +kernel)
  rw [← hvalue text h]
  exact @SignedNumber.scanned _ [.token 0 1 "@op" "-"] (.token 1 2 "@int" text) text (.str "-")
    ⟨by simp [Event.isToken, Event.token], rfl, rfl⟩ (hsucceeds text h)
    (by simp [Event.token, Effect.numberTags]) hminus (.inl (by decide))

/-- `-0x1F`, with the number on the line below the sign, is -31 on that line. -/
theorem sign_folding_exact_negativeHexadecimal :
    let s := (start "" 1).run (numberAfterMinus "0x1F")
    let leaf := token "@int" "-0x1F" (.list [.int 2, .int 0])
    (∀ e ∈ numberAfterMinus "0x1F", e.HasText) ∧
      s.Builds negation [.atom (.sym "-@"), .list 3] ∧ negation.name = "unary" ∧
      s.LeavesNumber negation ∧
      (s.next negation).builder.arena.freeze? (s.value negation) = some leaf ∧
      lower leaf = pure (.placed (some (.int 2)) "int" [.int (-31)]) := by
  intro s leaf
  have hbuilds : s.Builds negation [.atom (.sym "-@"), .list 3] := builds_negation (by decide)
  have htexts := hasText_numberAfterMinus "0x1F"
  obtain ⟨hleaves, -, hfolded⟩ := sign_folding_exact htexts hbuilds rfl
  have hfolds : (start "" 1).Folds (numberAfterMinus "0x1F") (.atom (.sym "-@")) (.list 3) .minus
      (.token 1 2 "@int" "0x1F") "0x1F" :=
    ⟨signedNumber_numberAfterMinus (by decide), by rw [Sign.Makes]; decide, by decide⟩
  obtain ⟨hleaf, hvalue⟩ := hfolded _ _ _ hfolds
  refine ⟨htexts, hbuilds, rfl, hleaves.2 ⟨_, _, _, hfolds⟩, hleaf, ?_⟩
  exact (hvalue (.integer hexadecimalSample) rfl rfl (by decide)).2

/-- `-+010` is folded although its number has a sign, and what comes of eight in
    base eight is minus ten in base ten. -/
theorem sign_folding_misses_other_sign :
    let s := (start "" 1).run (numberAfterMinus "+010")
    ¬ (s.LeavesNumber negation ↔ ∃ sign n text,
      (start "" 1).Folds (numberAfterMinus "+010") (.atom (.sym "-@")) (.list 3) sign n text ∧
        ¬ ['-'] <+: text.toList ∧ ¬ ['+'] <+: text.toList) ∧
      (s.next negation).builder.arena.item? (s.value negation) 1 = some (.str "-+010") ∧
      integerLiteral "+010".toList = .ok 8 ∧ integerLiteral "-+010".toList = .ok (-10) := by
  refine ⟨fun hiff => ?_, ?_, ?_, ?_⟩
  · have hleaves : ((start "" 1).run (numberAfterMinus "+010")).LeavesNumber negation :=
      ⟨"@int", by decide, by decide +kernel⟩
    obtain ⟨sign, n, text, hfolds, -, hplus⟩ := hiff.1 hleaves
    -- The node of the number says which text it is.
    obtain ⟨-, place, -, ⟨⟨more, hnode⟩, -⟩, -⟩ := hfolds.number.holds
    have htext : ((start "" 1).run (numberAfterMinus "+010")).builder.arena.item? (.list 3) 1 =
        some (.str "+010") := by
      decide +kernel
    rw [Arena.item?, hnode] at htext
    obtain rfl : text = "+010" := by simpa using htext
    exact hplus (by decide)
  · decide +kernel
  · rfl
  · rfl

end Samples

end RubyTree
