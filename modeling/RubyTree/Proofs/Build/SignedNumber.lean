import Mathlib.Data.List.Induction
import RubyTree.Proofs.Build.Session

/-!
# Numbers After a Sign

Whether a sign belongs to a number is decided when the number is scanned, and
asked when an operation is completed, any number of events later. In between the
builder remembers the value of the number and nothing else. So there are two
invariants, each kept by a single event and then by a sequence: the last token is
the latest one that was scanned, and the values remembered are those of numbers
whose latest token was a sign.

A number keeps its name, text and position while other events go on, since its
node can only grow at the end and no value refers to its position.

## Main definitions

* `Builder.HoldsToken`: A node that starts as the one of a token does.
* `Session.LatestToken`: The latest token that was scanned.
* `Session.SignedNumber`: A number that was scanned right after a sign.

## Theorems

* `lastToken_iff`, `signed_iff`: What the builder remembers.
* `SignedNumber.holds`: A number is still what was scanned.
-/

namespace RubyTree

open BuildM

namespace Builder

@[simp] theorem lastToken_remembering (b : Builder) (name : String) (text : Item) :
    (b.remembering name text).lastToken = some (name, text) := by
  unfold remembering
  split <;> rfl

@[simp] theorem signed_remembering (b : Builder) (name : String) (text : Item) :
    (b.remembering name text).signed = b.signed := by
  unfold remembering
  split <;> rfl

/-- Only an operator is found to be a sign. -/
theorem lookUp?_signs_iff {token : Option Token} : lookUp? signs token = some true ↔
    ∃ sign, token = some ("@op", sign) ∧ (sign.isText "-" ∨ sign.isText "+") := by
  cases token with
  | none => simp [lookUp?]
  | some token =>
    obtain ⟨name, text⟩ := token
    have htext : (text.isText "-" ∨ text.isText "+") ↔
        text.text? = some "-" ∨ text.text? = some "+" := by
      simp only [Item.isText, beq_iff_eq]
    have hlook : lookUp? signs (some (name, text)) = some true ↔
        name = "@op" ∧ (text.text? = some "-" ∨ text.text? = some "+") := by
      rw [lookUp?]
      cases hkey : text.atom?.filter Atom.isKey with
      | none =>
        -- A text that reads as a string could be looked up.
        have hnone (t : String) : text.text? ≠ some t := by
          intro ht
          obtain ⟨word, hword, -⟩ := Item.key_of_text ht
          cases hkey.symm.trans hword
        simp [hnone]
      | some word =>
        rw [Item.text_of_key hkey]
        simp only [Option.map_some, signs, Option.some.injEq, List.any_cons, List.any_nil,
          Bool.or_false, Bool.or_eq_true, Bool.and_eq_true, beq_iff_eq]
        rw [← and_or_left, eq_comm]
    rw [hlook, ← htext]
    constructor
    · rintro ⟨rfl, hsign⟩
      exact ⟨text, rfl, hsign⟩
    · rintro ⟨sign, hsame, hsign⟩
      cases hsame
      exact ⟨rfl, hsign⟩

/-- The node of a token is there, with its name, text and position in front. -/
def HoldsToken (b : Builder) (v : Item) (place : Nat) (name text : String) (line column : Int) :
    Prop :=
  (∃ more, b.arena.items? v = some (.str name :: .str text :: .list place :: more)) ∧
    b.arena.items? (.list place) = some [.int line, .int column]

end Builder

namespace BuildM

theorem previous_notMem_writes (c : Callback) : .previous ∉ c.writes ∧ .signed ∉ c.writes := by
  cases c <;> exact ⟨by simp [Callback.writes], by simp [Callback.writes]⟩

/-- What is done with a token leaves the tables of the last tokens alone. -/
theorem tokenValue_keeps (b : Builder) (name : String) (node : Item) :
    ((tokenValue name node).runIn b).2.lastToken = b.lastToken ∧
      ((tokenValue name node).runIn b).2.signed = b.signed := by
  -- Of the tables, only the two of tokens matter here, and no callback writes either.
  have hkeeps (t : Table) (ht : ∀ c : Callback, t ∉ c.writes) :
      t.copy b ((tokenValue name node).runIn b).2 = ((tokenValue name node).runIn b).2 := by
    unfold tokenValue
    split
    · exact t.copy_self b
    · exact ((t.stable_copy b (ht _)).run _ name (List.Subset.refl _) (t.copy_self b)
        (fun _ _ _ => trivial) rfl).1
  have hprevious := hkeeps .previous fun c => (previous_notMem_writes c).1
  have hsigned := hkeeps .signed fun c => (previous_notMem_writes c).2
  exact ⟨(congrArg Builder.lastToken hprevious).symm, (congrArg Builder.signed hsigned).symm⟩

/-- A number is looked at together with the token before it, and then left as it
    is. -/
theorem runIn_scan_number (b : Builder) {name : String} (h : name ∈ Effect.numberTags)
    (text : Item) : (scan name text).runIn b =
      match Builder.lookUp? signs b.lastToken with
      | none => (.error .shape, b.withToken name text)
      | some true => (.ok b.tokenNode,
          ({ b.withToken name text with signed := b.tokenNode :: b.signed }).remembering name text)
      | some false => (.ok b.tokenNode, (b.withToken name text).remembering name text) := by
  have hplain : ∀ name ∈ Effect.numberTags, Callback.ofName (bareName name) = .plain := by decide
  have hvalue (node : Item) : tokenValue name node = pure node := by
    unfold tokenValue
    rw [hplain name h]
  have hlook := runIn_isOneOf (b.withToken name text) signs (b.withToken name text).lastToken
  have hlast : (b.withToken name text).lastToken = b.lastToken := rfl
  rw [runIn_scan, hvalue, noteSign, if_pos (List.contains_iff_mem.2 h), bind_assoc, runIn_bind,
    runIn_get]
  dsimp only
  rw [bind_assoc, runIn_bind, hlook, hlast]
  -- The look-up is the only step that can fail.
  cases Builder.lookUp? signs b.lastToken with
  | none => rfl
  | some found => cases found <;> rfl

end BuildM

namespace Session

@[simp] theorem prepare_lastToken (s : Session) (e : Event) :
    (s.prepare e).2.lastToken = s.builder.lastToken := by
  obtain ⟨arena, h⟩ := s.prepare_builder e
  rw [h]

@[simp] theorem prepare_signed (s : Session) (e : Event) :
    (s.prepare e).2.signed = s.builder.signed := by
  obtain ⟨arena, h⟩ := s.prepare_builder e
  rw [h]

end Session

/-- A token is scanned with a text. -/
def Event.HasText (e : Event) : Prop :=
  e.isToken → ∃ text : String, e.args = [.atom (.str text)]

namespace Session

/-- The next event leaves no token behind it. -/
def Skips (s : Session) (e : Event) : Prop :=
  e.isToken → ¬ s.Succeeds e

/-- The latest token that was scanned after the start of a sequence. -/
inductive LatestToken (s : Session) : List Event → String → Item → Prop where
  | scanned {es : List Event} {t : Event} {name : String} {text : Item}
      (h : (s.run es).Reads t name text) (hsucceeds : (s.run es).Succeeds t) :
      LatestToken s (es ++ [t]) name text
  | later {es : List Event} {e : Event} {name : String} {text : Item}
      (h : LatestToken s es name text) (hskips : (s.run es).Skips e) :
      LatestToken s (es ++ [e]) name text

/-- A number that was scanned with a sign as the token before it, and the value
    that it left. -/
inductive SignedNumber (s : Session) : List Event → Event → String → Item → Prop where
  | scanned {es : List Event} {n : Event} {text : String} {sign : Item}
      (h : (s.run es).Reads n n.name (.str text)) (hsucceeds : (s.run es).Succeeds n)
      (hnumber : n.name ∈ Effect.numberTags) (hlatest : s.LatestToken es "@op" sign)
      (hsign : sign.isText "-" ∨ sign.isText "+") :
      SignedNumber s (es ++ [n]) n text ((s.run es).value n)
  | later {es : List Event} {n : Event} {text : String} {v : Item}
      (h : SignedNumber s es n text v) (e : Event) : SignedNumber s (es ++ [e]) n text v

variable {s : Session} {e : Event} {es : List Event} {name : String} {text v : Item}

section Steps

theorem reads_of_hasText (s : Session) (h : e.HasText) (htoken : e.isToken) :
    ∃ text : String, s.Reads e e.name (.str text) := by
  obtain ⟨text, hargs⟩ := h htoken
  refine ⟨text, htoken, rfl, ?_⟩
  rw [args?, prepare, hargs]
  rfl

/-- A token that fails is not remembered. -/
theorem Reads.of_fails (h : s.Reads e name text) (hfails : ¬ s.Succeeds e) :
    (s.step e).2.lastToken = s.builder.lastToken ∧ (s.step e).2.signed = s.builder.signed := by
  have hprepared : (s.prepare e).2.lastToken = s.builder.lastToken ∧
      (s.prepare e).2.signed = s.builder.signed :=
    ⟨s.prepare_lastToken e, s.prepare_signed e⟩
  by_cases hnumber : name ∈ Effect.numberTags
  · -- A number fails where the token before it is looked up, or not at all.
    have hscan := runIn_scan_number (s.prepare e).2 hnumber text
    rw [← h.step_eq] at hscan
    cases hlook : Builder.lookUp? signs (s.prepare e).2.lastToken with
    | none =>
      rw [hlook] at hscan
      rw [hscan]
      exact hprepared
    | some found =>
      rw [hlook] at hscan
      cases found <;> exact absurd ⟨_, congrArg Prod.fst hscan⟩ hfails
  · -- Any other token fails in its callback, before it would be remembered.
    have hscan := runIn_scan_of_not_number (s.prepare e).2 (by simpa using hnumber) text
    rw [← h.step_eq] at hscan
    have hkeeps := tokenValue_keeps ((s.prepare e).2.withToken name text) name
      (s.prepare e).2.tokenNode
    generalize (tokenValue name (s.prepare e).2.tokenNode).runIn
      ((s.prepare e).2.withToken name text) = outcome at hscan hkeeps
    obtain ⟨result, c⟩ := outcome
    cases result with
    | ok value => exact absurd ⟨_, congrArg Prod.fst hscan⟩ hfails
    | error error =>
      rw [hscan]
      exact ⟨hkeeps.1.trans hprepared.1, hkeeps.2.trans hprepared.2⟩

/-- What leaves no token behind changes nothing that is remembered of tokens. -/
theorem Skips.step (h : s.Skips e) (htext : e.HasText) :
    (s.step e).2.lastToken = s.builder.lastToken ∧ (s.step e).2.signed = s.builder.signed := by
  cases htoken : e.isToken with
  | true =>
    obtain ⟨text, hreads⟩ := s.reads_of_hasText htext htoken
    exact hreads.of_fails (h htoken)
  | false =>
    -- An event that is no token writes what its callback writes, and the place.
    have hwrites (t : Table) (hplace : t ≠ .place) (ht : ∀ c : Callback, t ∉ c.writes) :
        t ∉ e.writes := by
      rw [Event.writes, htoken, List.mem_cons, not_or]
      exact ⟨hplace, ht e.callback⟩
    have hprevious := s.step_keeps (hwrites .previous nofun fun c => (previous_notMem_writes c).1)
    have hsigned := s.step_keeps (hwrites .signed nofun fun c => (previous_notMem_writes c).2)
    exact ⟨(congrArg Builder.lastToken hprevious).symm, (congrArg Builder.signed hsigned).symm⟩

/-- A token that is scanned is the last one. -/
theorem Reads.lastToken (h : s.Reads e name text) (hsucceeds : s.Succeeds e) :
    (s.step e).2.lastToken = some (name, text) := by
  obtain ⟨v, hv⟩ := hsucceeds
  have hscan : (scan name text).runIn (s.prepare e).2 = (.ok v, (s.step e).2) :=
    h.step_eq ▸ Prod.ext hv rfl
  obtain ⟨d, hd⟩ := remembering_of_scan hscan
  rw [hd, Builder.lastToken_remembering]

/-- A token that is no number changes no sign. -/
theorem Reads.signed_of_notMem (h : s.Reads e name text) (hnumber : name ∉ Effect.numberTags) :
    (s.step e).2.signed = s.builder.signed := by
  have hscan := runIn_scan_of_not_number (s.prepare e).2 (by simpa using hnumber) text
  rw [← h.step_eq] at hscan
  have hkeeps := (tokenValue_keeps ((s.prepare e).2.withToken name text) name
    (s.prepare e).2.tokenNode).2.trans (s.prepare_signed e)
  generalize (tokenValue name (s.prepare e).2.tokenNode).runIn
    ((s.prepare e).2.withToken name text) = outcome at hscan hkeeps
  obtain ⟨result, c⟩ := outcome
  cases result with
  | ok value =>
    rw [hscan, Builder.signed_remembering]
    exact hkeeps
  | error error =>
    rw [hscan]
    exact hkeeps

/-- A number is remembered if the token before it is a sign. -/
theorem Reads.number (h : s.Reads e name text) (hnumber : name ∈ Effect.numberTags)
    (hsucceeds : s.Succeeds e) :
    s.value e = (s.prepare e).2.tokenNode ∧
      (s.step e).2.arena = ((s.prepare e).2.withToken name text).arena ∧
      (s.step e).2.signed =
        if Builder.lookUp? signs s.builder.lastToken = some true then
          s.value e :: s.builder.signed
        else s.builder.signed := by
  have hscan := runIn_scan_number (s.prepare e).2 hnumber text
  rw [← h.step_eq, s.prepare_lastToken, s.prepare_signed] at hscan
  -- The token before the number could be looked up, since the scan has succeeded.
  cases hlook : Builder.lookUp? signs s.builder.lastToken with
  | none =>
    obtain ⟨v, hv⟩ := hsucceeds
    rw [hlook] at hscan
    rw [hscan] at hv
    cases hv
  | some found =>
    rw [hlook] at hscan
    have hvalue : s.value e = (s.prepare e).2.tokenNode := by
      rw [value, hscan]
      cases found <;> rfl
    rw [hvalue, hscan]
    cases found with
    | true => exact ⟨rfl, by simp, by simp⟩
    | false =>
      rw [if_neg (by simp)]
      refine ⟨rfl, by simp, ?_⟩
      rw [Builder.signed_remembering]
      exact s.prepare_signed e

/-- One more value is remembered if a number is scanned right after a sign. -/
theorem mem_signed_step (htext : e.HasText) : v ∈ (s.step e).2.signed ↔ v ∈ s.builder.signed ∨
    (e.isToken ∧ s.Succeeds e ∧ e.name ∈ Effect.numberTags ∧
      Builder.lookUp? signs s.builder.lastToken = some true ∧ v = s.value e) := by
  -- What leaves no token changes nothing; a token may be a number or not.
  by_cases hskips : s.Skips e
  · rw [(hskips.step htext).2]
    constructor
    · exact .inl
    · rintro (hv | ⟨htoken, hsucceeds, -⟩)
      · exact hv
      · exact absurd hsucceeds (hskips htoken)
  · obtain ⟨htoken, hsucceeds⟩ : e.isToken ∧ s.Succeeds e := by
      simpa [Skips] using hskips
    obtain ⟨text, hreads⟩ := s.reads_of_hasText htext htoken
    by_cases hnumber : e.name ∈ Effect.numberTags
    · rw [(hreads.number hnumber hsucceeds).2.2]
      by_cases hlook : Builder.lookUp? signs s.builder.lastToken = some true
      · simp [hlook, htoken, hsucceeds, hnumber, or_comm]
      · simp [hlook]
    · rw [hreads.signed_of_notMem hnumber]
      simp [hnumber]

end Steps

section Runs

theorem builder_run_concat (s : Session) (es : List Event) (e : Event) :
    (s.run (es ++ [e])).builder = ((s.run es).step e).2 := by
  rw [run_append]
  rfl

theorem latestToken_nil : ¬ s.LatestToken [] name text := by
  generalize hes : ([] : List Event) = es
  rintro (_ | _) <;> simp at hes

/-- What the latest token is after one more event. -/
theorem latestToken_concat : s.LatestToken (es ++ [e]) name text ↔
    ((s.run es).Reads e name text ∧ (s.run es).Succeeds e) ∨
      (s.LatestToken es name text ∧ (s.run es).Skips e) := by
  constructor
  · -- The last of the events is the new one.
    generalize hall : es ++ [e] = all
    rintro (⟨h, hsucceeds⟩ | ⟨h, hskips⟩)
    · obtain ⟨rfl, ⟨⟩⟩ := List.append_inj' hall rfl
      exact .inl ⟨h, hsucceeds⟩
    · obtain ⟨rfl, ⟨⟩⟩ := List.append_inj' hall rfl
      exact .inr ⟨h, hskips⟩
  · rintro (⟨h, hsucceeds⟩ | ⟨h, hskips⟩)
    · exact .scanned h hsucceeds
    · exact .later h hskips

/-- The last token is the latest one that was scanned. -/
theorem lastToken_iff (hstart : s.builder.lastToken = none) (htexts : ∀ e ∈ es, e.HasText) :
    (s.run es).builder.lastToken = some (name, text) ↔ s.LatestToken es name text := by
  -- The last event decides, so the induction takes events off at the end.
  induction es using List.reverseRecOn generalizing name text with
  | nil => simp [hstart, latestToken_nil]
  | append_singleton es e ih =>
    have htexts' : ∀ e ∈ es, e.HasText := fun e he => htexts e (List.mem_append_left _ he)
    have htext : e.HasText := htexts e (by simp)
    rw [latestToken_concat, ← ih htexts', builder_run_concat]
    by_cases hskips : (s.run es).Skips e
    · rw [(hskips.step htext).1]
      constructor
      · intro hlast
        exact .inr ⟨hlast, hskips⟩
      · rintro (⟨h, hsucceeds⟩ | ⟨hlast, -⟩)
        · exact absurd hsucceeds (hskips h.isToken)
        · exact hlast
    · obtain ⟨htoken, hsucceeds⟩ : e.isToken ∧ (s.run es).Succeeds e := by
        simpa [Skips] using hskips
      constructor
      · intro hlast
        obtain ⟨text', hreads⟩ := (s.run es).reads_of_hasText htext htoken
        obtain ⟨rfl, rfl⟩ : e.name = name ∧ Item.str text' = text := by
          simpa using (hreads.lastToken hsucceeds).symm.trans hlast
        exact .inl ⟨hreads, hsucceeds⟩
      · rintro (⟨h, -⟩ | ⟨-, hskips'⟩)
        · exact h.lastToken hsucceeds
        · exact absurd hskips' hskips

theorem signedNumber_nil {n : Event} {text : String} : ¬ s.SignedNumber [] n text v := by
  generalize hes : ([] : List Event) = es
  rintro (_ | _) <;> simp at hes

/-- What the signed numbers are after one more event. -/
theorem signedNumber_concat {n : Event} {text : String} :
    s.SignedNumber (es ++ [e]) n text v ↔ s.SignedNumber es n text v ∨
      (n = e ∧ (s.run es).Reads e e.name (.str text) ∧ (s.run es).Succeeds e ∧
        e.name ∈ Effect.numberTags ∧ v = (s.run es).value e ∧
        ∃ sign, s.LatestToken es "@op" sign ∧ (sign.isText "-" ∨ sign.isText "+")) := by
  constructor
  · generalize hall : es ++ [e] = all
    rintro (⟨h, hsucceeds, hnumber, hlatest, hsign⟩ | ⟨h, f⟩)
    · obtain ⟨rfl, ⟨⟩⟩ := List.append_inj' hall rfl
      exact .inr ⟨rfl, h, hsucceeds, hnumber, rfl, _, hlatest, hsign⟩
    · obtain ⟨rfl, ⟨⟩⟩ := List.append_inj' hall rfl
      exact .inl h
  · rintro (h | ⟨rfl, h, hsucceeds, hnumber, rfl, sign, hlatest, hsign⟩)
    · exact h.later e
    · exact .scanned h hsucceeds hnumber hlatest hsign

/-- The values remembered are those of numbers that came right after a sign. -/
theorem signed_iff (hstart : s.builder.lastToken = none) (hnone : s.builder.signed = [])
    (htexts : ∀ e ∈ es, e.HasText) :
    v ∈ (s.run es).builder.signed ↔ ∃ n text, s.SignedNumber es n text v := by
  -- By the events from the last one on; the last token says whether a number is signed.
  induction es using List.reverseRecOn with
  | nil => simp [hnone, signedNumber_nil]
  | append_singleton es e ih =>
    have htexts' : ∀ e ∈ es, e.HasText := fun e he => htexts e (List.mem_append_left _ he)
    have htext : e.HasText := htexts e (by simp)
    simp only [builder_run_concat, mem_signed_step htext, ih htexts', signedNumber_concat,
      Builder.lookUp?_signs_iff, lastToken_iff hstart htexts']
    constructor
    · rintro (⟨n, text, h⟩ | ⟨htoken, hsucceeds, hnumber, ⟨sign, hlatest, hsign⟩, rfl⟩)
      · exact ⟨n, text, .inl h⟩
      · obtain ⟨text, hreads⟩ := (s.run es).reads_of_hasText htext htoken
        exact ⟨e, text, .inr ⟨rfl, hreads, hsucceeds, hnumber, rfl, sign, hlatest, hsign⟩⟩
    · rintro ⟨n, text, h | ⟨rfl, h, hsucceeds, hnumber, rfl, sign, hlatest, hsign⟩⟩
      · exact .inl ⟨n, text, h⟩
      · exact .inr ⟨h.isToken, hsucceeds, hnumber, ⟨sign, hlatest, hsign⟩, rfl⟩

end Runs

section Leaves

/-- A token keeps its name, text and position, as long as no value refers to the
    position: its node grows at the end, and what is replaced in it is content. -/
theorem stable_holdsToken {place : Nat} (hne : v ≠ .list place) (name text : String)
    (line column : Int) (tables : List Table) :
    Stable (fun b => b.HoldsToken v place name text line column) (· ≠ .list place) tables where
  atom a := nofun
  fresh := by
    rintro b ⟨-, hplace⟩ hid
    injection hid with hid
    obtain ⟨hlt, -⟩ := Array.getElem?_eq_some_iff.1 hplace
    omega
  push := by
    rintro b xs ⟨⟨more, hnode⟩, hplace⟩
    exact ⟨⟨more, Builder.items?_push hnode xs⟩, Builder.items?_push hplace xs⟩
  grow := by
    rintro b w xs x ⟨⟨more, hnode⟩, hplace⟩ hw hxs
    refine ⟨?_, by rwa [Builder.items?_setItems_ne hw]⟩
    by_cases hsame : w = v
    · subst hsame
      obtain rfl := Option.some.inj (hxs.symm.trans hnode)
      exact ⟨more ++ [x], Builder.items?_setItems_self hxs _⟩
    · exact ⟨more, by rwa [Builder.items?_setItems_ne hsame]⟩
  replace := by
    rintro b w item xs i piece ⟨⟨more, hnode⟩, hplace⟩ hw hxs hi htag
    refine ⟨?_, by rwa [Builder.items?_setItems_ne hw]⟩
    by_cases hsame : w = v
    · subst hsame
      obtain rfl := Option.some.inj (hxs.symm.trans hnode)
      -- The first three items are two texts and the position, and none of them is content.
      have hfourth : ∃ j, i = j + 3 := by
        match i with
        | 0 => cases hi; cases htag
        | 1 => cases hi; cases htag
        | 2 =>
          cases hi
          rw [Arena.tag?, hplace] at htag
          cases htag
        | j + 3 => exact ⟨j, rfl⟩
      obtain ⟨j, rfl⟩ := hfourth
      exact ⟨more.set j piece, Builder.items?_setItems_self hxs _⟩
    · exact ⟨more, by rwa [Builder.items?_setItems_ne hsame]⟩
  write {b t} _ source hP := by cases t <;> exact hP

/-- A number is what was scanned, when it is scanned. -/
theorem Reads.holdsToken {text : String} (h : s.Reads e name (.str text))
    (hnumber : name ∈ Effect.numberTags) (hsucceeds : s.Succeeds e) :
    ∃ place, s.value e ≠ .list place ∧
      (s.step e).2.HoldsToken (s.value e) place name text e.line e.column ∧
      ∀ p ∈ (s.next e).values, p.2 ≠ .list place := by
  obtain ⟨hvalue, harena, -⟩ := h.number hnumber hsucceeds
  -- The position is made before the node, so it is another list.
  have hnew : s.value e ≠ .list (s.prepare e).2.arena.lists.size := by
    rw [hvalue, Builder.tokenNode]
    intro hid
    injection hid with hid
    omega
  have hplace : ((s.prepare e).2.withToken name (.str text)).arena.items?
      (.list (s.prepare e).2.arena.lists.size) = some [.int e.line, .int e.column] := by
    obtain ⟨arena, hprepare⟩ := s.prepare_builder e
    rw [hprepare]
    exact Builder.items?_push (Builder.items?_push_self _ _) _
  refine ⟨_, hnew, ⟨⟨[], ?_⟩, ?_⟩, List.forall_mem_cons.2 ⟨hnew, fun p hp hid => ?_⟩⟩
  · rw [harena, hvalue]
    exact Builder.items?_tokenNode _ name (.str text)
  · rw [harena]
    exact hplace
  · -- Earlier values were there before the position was made.
    have hlt := s.known p hp _ hid
    have hle := prepare_stable (e := e) (stable_size s.builder.arena.lists.size [.place])
      List.mem_cons_self (Nat.le_refl _) fun _ _ => trivial
    omega

/-- A number is still what was scanned. -/
theorem SignedNumber.holds {n : Event} {text : String} (h : s.SignedNumber es n text v) :
    n.name ∈ Effect.numberTags ∧ ∃ place, v ≠ .list place ∧
      (s.run es).builder.HoldsToken v place n.name text n.line n.column ∧
      ∀ p ∈ (s.run es).values, p.2 ≠ .list place := by
  -- By how the number came to be signed: scanned just now, or kept through later events.
  induction h with
  | scanned h hsucceeds hnumber _ _ =>
    rw [run_append]
    exact ⟨hnumber, h.holdsToken hnumber hsucceeds⟩
  | @later es n text v h e ih =>
    obtain ⟨hnumber, place, hne, hholds, hvalues⟩ := ih
    have hstable := stable_holdsToken hne n.name text n.line n.column e.writes
    rw [run_append]
    exact ⟨hnumber, place, hne, run_stable hstable (by simp) hholds hvalues⟩

end Leaves

end Session

end RubyTree
