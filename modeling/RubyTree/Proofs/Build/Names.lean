import RubyTree.Proofs.Build.Keyword
import RubyTree.Proofs.Build.LiteralToken

/-!
# Keywords as Names

A keyword in a symbol or after a token that introduces a name is only a name.
Its text should not matter: with any other keyword in its place the session goes
on in the same way, and the two differ in this text alone.

There is one look at the text later. The keyword is remembered like every other
token, and `def`, `alias` and `undef` introduce names themselves. So the text is
seen if the next keyword or backtick comes with nothing but layout in between,
as in `:def` with a class on the line after it: the class is taken for a name,
and the event that completes it fails. Between two texts of which both or
neither introduce names there is no difference, and neither is there one after
the next token that is not layout.

## Main definitions

* `Session.GoAlike`: Two sessions in which the same events do the same.
* `Session.Settles`: No keyword or backtick sees the name before it.

## Theorems

* `nameNext?_of_introduces`: A place where a keyword is only a name.
* `Paired.next`: One event in two sessions.
* `keyword_name_leaves_no_trace`: The text of a name does not matter.
* `symbolThenClass_taken_for_name`: The text of a name that does.
-/

namespace RubyTree

open BuildM

/-- A keyword token. -/
def Event.keyword (id line column : Nat) (text : String) : Event :=
  { id, name := "@kw", line, column, args := [.atom (.str text)] }

namespace Session

/-- The next event is a token that a name comes after. -/
inductive Introduces (s : Session) (e : Event) : Prop where
  | symbol {text : Item} (h : s.Reads e "@symbeg" text)
  | token {name word : String} {text : Item} (h : s.Reads e name text)
      (htext : text.text? = some word) (hmem : (name, word) ∈ Effect.namesNext)

/-- Two sessions in which the same events do the same: they leave builders that
    are alike, and they fail in both or in neither. -/
def GoAlike (s s' : Session) : List Event → Prop
  | [] => s.builder.Alike s'.builder
  | e :: es => s.builder.Alike s'.builder ∧ (s.Succeeds e ↔ s'.Succeeds e) ∧
      (s.next e).GoAlike (s'.next e) es

/-- The next event is a token that is not layout, and it does not fail. -/
def Advances (s : Session) (e : Event) : Prop :=
  e.isToken ∧ layout.contains e.name = false ∧ s.Succeeds e

/-- Until the first token that is not layout, keywords and backticks come in a
    symbol only. -/
def Settles (s : Session) : List Event → Prop
  | [] => True
  | e :: es => (e.callback = .keyword ∨ e.callback = .backtick → s.builder.inSymbol) ∧
      (s.Advances e ∨ (s.next e).Settles es)

end Session

namespace Builder

/-- Whether a number that comes now has a sign is seen alike. -/
def SameSign (b b' : Builder) : Prop :=
  lookUp? signs b.lastToken = lookUp? signs b'.lastToken

/-- Whether the last token introduces a name is seen alike. -/
def SameName (b b' : Builder) : Prop :=
  lookUp? Effect.namesNext b.lastSignificant = lookUp? Effect.namesNext b'.lastSignificant

variable {b b' : Builder}

theorem lookUp?_str (tokens : List (String × String)) (name text : String) :
    lookUp? tokens (some (name, .str text)) = some (tokens.contains (name, text)) := by
  have hany : (fun token : String × String => token.1 == name && some text == some token.2) =
      (fun token => (name, text) == token) := by
    funext ⟨n, t⟩
    rw [Bool.beq_comm (a := n)]
    rfl
  rw [List.contains_eq_any_beq]
  exact congrArg (fun f => some (tokens.any f)) hany

theorem SameName.nameNext? (h : b.SameName b') (hsymbol : b.inSymbol = b'.inSymbol) :
    b.nameNext? = b'.nameNext? := by
  unfold Builder.nameNext?
  rw [hsymbol, h]

theorem Alike.remembering (h : b.Alike b') (name : String) (text text' : Item) :
    (b.remembering name text).Alike (b'.remembering name text') := by
  unfold Builder.remembering
  split
  · exact { h with }
  · exact { h with comments := congrArg Comments.discard h.comments }

/-- Keyword tokens at the same place are alike. -/
theorem alike_withToken (b : Builder) (word word' : String) :
    (b.withToken "@kw" (.str word)).Alike (b.withToken "@kw" (.str word')) :=
  (Alike.refl (b.push _)).push rfl

theorem Alike.copy (h : b.Alike b') (t : Table) (source : Builder) :
    (t.copy source b).Alike (t.copy source b') := by
  cases t with
  | place => exact { h with line := rfl, column := rfl }
  | buffer =>
    exact { h with comments := congrArg ({ · with buffer := source.comments.buffer }) h.comments }
  | constructs =>
    exact { h with comments := congrArg ({ · with stack := source.comments.stack }) h.comments }
  | operators => exact { h with operators := rfl }
  | delimiters => exact { h with delimiters := rfl }
  | symbol => exact { h with inSymbol := rfl }
  | previous | significant => exact { h with }
  | signed => exact { h with signed := rfl }

end Builder

section Lockstep

variable {P : Builder → Builder → Prop}

/-- Builders that are alike stay alike, with everything else that depends on the
    last tokens only. -/
theorem lockstep_alike (tables : List Table)
    (harena : ∀ {b b'} (a a' : Arena), P b b' → P { b with arena := a } { b' with arena := a' })
    (hwrite : ∀ {b b'} (t : Table) (source : Builder), P b b' →
      P (t.copy source b) (t.copy source b')) :
    Lockstep (fun b b' => b.Alike b' ∧ P b b') (fun _ => True) tables where
  alike hR := hR.1
  atom _ := trivial
  fresh _ := trivial
  push hR hitems _ := ⟨hR.1.push hitems, harena _ _ hR.2⟩
  grow {b b' v x xs ys} hR _ hxs hys := by
    -- Lists of builders that are alike differ in texts only, and both are changed alike.
    have hitems := hR.1.items? v
    rw [hxs, hys] at hitems
    exact ⟨hR.1.setItems (blurItems_append (Option.some.inj hitems) x), harena _ _ hR.2⟩
  replace {b b' v item piece xs ys i} hR _ hxs hys hi htag := by
    have hitems := hR.1.items? v
    rw [hxs, hys] at hitems
    cases item with
    | atom a => cases htag
    | list id =>
      exact ⟨hR.1.setItems (blurItems_set (Option.some.inj hitems) hi piece), harena _ _ hR.2⟩
  write {b b' t} _ source hR := ⟨hR.1.copy t source, hwrite t source hR.2⟩

theorem lockstep_sign (tables : List Table) :
    Lockstep (fun b b' => b.Alike b' ∧ b.SameSign b') (fun _ => True) tables :=
  lockstep_alike tables (fun _ _ h => h) fun t _ h => by cases t <;> first | rfl | exact h

theorem lockstep_name (tables : List Table) :
    Lockstep (fun b b' => b.Alike b' ∧ b.SameSign b' ∧ b.SameName b') (fun _ => True) tables :=
  lockstep_alike tables (fun _ _ h => h) fun t _ h => by
    cases t <;> first | exact h | exact ⟨rfl, h.2⟩ | exact ⟨h.1, rfl⟩

end Lockstep

namespace Session

/-- Two sessions with the same values and with related builders. -/
structure Paired (R : Builder → Builder → Prop) (s s' : Session) : Prop where
  values : s.values = s'.values
  builder : R s.builder s'.builder

variable {R : Builder → Builder → Prop} {s s' : Session} {e : Event} {es : List Event}

/-- An event has the same arguments in both. -/
theorem Paired.args? (h : Paired R s s') (hR : ∀ tables, Lockstep R (fun _ => True) tables) :
    s.args? e = s'.args? e := by
  have hmoved := (hR [.place]).setPlace List.mem_cons_self h.builder e.line e.column
  have hends := ((hR [.place]).resolveAll hmoved (E := fun _ => True)
    (fun p (_ : p ∈ s.values) => trivial) (fun _ => trivial) e.args).ends
  unfold Session.args? prepare
  rw [← h.values]
  exact hends.toOption

/-- An event ends in the same way in both, and the next sessions go together. -/
theorem Paired.next (h : Paired R s s') (hR : Lockstep R (fun _ => True) e.writes)
    (hsign : s.builder.SameSign s'.builder)
    (hname : e.callback = .keyword ∨ e.callback = .backtick →
      s.builder.nameNext? = s'.builder.nameNext?)
    (hregular : e.isToken = false → e.callback.readsText = false) :
    (s.Succeeds e ↔ s'.Succeeds e) ∧ Paired R (s.next e) (s'.next e) := by
  -- Both sessions read the event with the same values from builders that are alike.
  have htogether : Together R (fun _ => True) (fun _ => True) (s.step e) (s'.step e) := by
    unfold step
    rw [← h.values]
    refine hR.replayEvent (fun _ _ => trivial) e h.builder (List.Subset.refl _)
      (fun _ _ => trivial) hsign hname fun htoken hreads => ?_
    rw [hregular htoken] at hreads
    cases hreads
  obtain ⟨hbuilder, hends⟩ := htogether
  refine ⟨hends.ok_iff, ?_, hbuilder⟩
  change (e.id, s.value e) :: s.values = (e.id, s'.value e) :: s'.values
  rw [value, hends.toOption, h.values]
  rfl

/-- A token that is not layout is the last one from then on. -/
theorem lastSignificant_next {name : String} {text : Item} (h : s.Reads e name text)
    (hlayout : layout.contains name = false) (hsucceeds : s.Succeeds e) :
    (s.next e).builder.lastSignificant = some (name, text) := by
  obtain ⟨v, hv⟩ := hsucceeds
  have hrun : (scan name text).runIn (s.prepare e).2 = (.ok v, (s.step e).2) := by
    rw [← h.step_eq]
    exact Prod.ext hv rfl
  obtain ⟨d, hd⟩ := remembering_of_scan hrun
  change (s.step e).2.lastSignificant = _
  rw [hd, Builder.remembering, hlayout]
  rfl

theorem sameName_of_advances (hargs : s.args? e = s'.args? e) (h : s.Advances e)
    (h' : s'.Advances e) : (s.next e).builder.SameName (s'.next e).builder := by
  obtain ⟨htoken, hlayout, hsucceeds⟩ := h
  obtain ⟨text, hreads⟩ := reads_of_succeeds hsucceeds htoken
  have hreads' : s'.Reads e e.name text := { hreads with args_eq := hargs ▸ hreads.args_eq }
  rw [Builder.SameName, lastSignificant_next hreads hlayout hsucceeds,
    lastSignificant_next hreads' hlayout h'.2.2]

/-- A keyword that comes after such a token is only a name. -/
theorem nameNext?_of_introduces (h : s.Introduces e) (hsucceeds : s.Succeeds e) :
    (s.next e).builder.nameNext? = some true := by
  cases h with
  | @symbol text h =>
    have hvalue (b : Builder) : tokenValue "@symbeg" b.tokenNode = Effect.openSymbol b.tokenNode :=
      rfl
    have hsymbol : (s.next e).builder.inSymbol = true := by
      change (s.step e).2.inSymbol = true
      rw [h.step_eq, runIn_scan_of_not_number _ (by decide), hvalue,
        runIn_openSymbol (Builder.item?_tokenNode _ _ text 1)]
      rfl
    rw [Builder.nameNext?, hsymbol]
    rfl
  -- Such a token is no layout, so it is the last one that counts.
  | @token name word text h htext hmem =>
    have hlayout : layout.contains name = false := by
      have hall : ∀ token ∈ Effect.namesNext, layout.contains token.1 = false := by decide
      exact hall _ hmem
    obtain ⟨a, ha, hword⟩ := Item.key_of_text htext
    have hfound : Builder.lookUp? Effect.namesNext (some (name, text)) = some true := by
      rw [Builder.lookUp?, ha]
      exact congrArg some (List.any_eq_true.2 ⟨_, hmem, by simp [hword]⟩)
    rw [Builder.nameNext?, lastSignificant_next h hlayout hsucceeds, hfound, ite_self]

/-- If the last tokens are treated alike, everything after them is. -/
theorem goAlike_of_sameName
    (h : Paired (fun b b' => b.Alike b' ∧ b.SameSign b' ∧ b.SameName b') s s')
    (hregular : ∀ e ∈ es, e.isToken = false → e.callback.readsText = false) :
    s.GoAlike s' es := by
  induction es generalizing s s' with
  | nil => exact h.builder.1
  | cons e es ih =>
    obtain ⟨halike, hsign, hname⟩ := h.builder
    obtain ⟨hsucceeds, hnext⟩ := h.next (lockstep_name e.writes) hsign
      (fun _ => hname.nameNext? halike.inSymbol) (hregular e List.mem_cons_self)
    exact ⟨halike, hsucceeds, ih hnext fun f hf => hregular f (List.mem_cons_of_mem _ hf)⟩

/-- If no keyword or backtick sees the last token, nothing depends on it. -/
theorem goAlike_of_settles (h : Paired (fun b b' => b.Alike b' ∧ b.SameSign b') s s')
    (hregular : ∀ e ∈ es, e.isToken = false → e.callback.readsText = false)
    (hes : s.Settles es) : s.GoAlike s' es := by
  induction es generalizing s s' with
  | nil => exact h.builder.1
  | cons e es ih =>
    obtain ⟨halike, hsign⟩ := h.builder
    obtain ⟨hsymbol, hrest⟩ := hes
    have hname (he : e.callback = .keyword ∨ e.callback = .backtick) :
        s.builder.nameNext? = s'.builder.nameNext? := by
      unfold Builder.nameNext?
      rw [← halike.inSymbol, hsymbol he]
      rfl
    obtain ⟨hsucceeds, hnext⟩ := h.next (lockstep_sign e.writes) hsign hname
      (hregular e List.mem_cons_self)
    have hregular (f : Event) (hf : f ∈ es) := hregular f (List.mem_cons_of_mem _ hf)
    refine ⟨halike, hsucceeds, ?_⟩
    -- Once a token other than layout is scanned, the two agree on the last one as well.
    rcases hrest with hadvances | hrest
    · have hadvances' : s'.Advances e := ⟨hadvances.1, hadvances.2.1, hsucceeds.1 hadvances.2.2⟩
      have hname := sameName_of_advances (h.args? lockstep_sign) hadvances hadvances'
      exact goAlike_of_sameName ⟨hnext.values, hnext.builder.1, hnext.builder.2, hname⟩ hregular
    · exact ih hnext hregular hrest

variable (id line column : Nat)

/-- A keyword that is only a name leaves a node, and nothing else but that it was
    the last token. -/
theorem step_name (h : s.builder.nameNext? = some true) (word : String) :
    s.step (.keyword id line column word) =
      (.ok s.builder.tokenNode,
        ((({ s.builder with line, column } : Builder).withToken "@kw" (.str word)).remembering "@kw"
          (.str word))) := by
  have hreads : s.Reads (.keyword id line column word) "@kw" (.str word) :=
    ⟨(by decide : (Event.keyword 0 0 0 "").isToken), rfl, rfl⟩
  rw [hreads.step_eq, runIn_scan_keyword, prepare_nameNext?, h]
  rfl

/-- The two nodes of the name differ in its text, and so do the last tokens. -/
theorem paired_name (h : s.builder.nameNext? = some true) (word word' : String) :
    Paired (fun b b' => b.Alike b' ∧ b.SameSign b' ∧
        (Effect.namesNext.contains ("@kw", word) = Effect.namesNext.contains ("@kw", word') →
          b.SameName b'))
      (s.next (.keyword id line column word)) (s.next (.keyword id line column word')) where
  values := by
    -- A name is its token, and tokens get the same number whatever their text.
    change (id, s.value _) :: s.values = (id, s.value _) :: s.values
    rw [value, value, step_name id line column h, step_name id line column h]
  builder := by
    change (s.step _).2.Alike (s.step _).2 ∧ (s.step _).2.SameSign (s.step _).2 ∧
      (_ → (s.step _).2.SameName (s.step _).2)
    rw [step_name id line column h, step_name id line column h]
    dsimp only
    refine ⟨(Builder.alike_withToken _ word word').remembering _ _ _, ?_, fun hwords => ?_⟩
    · -- The nodes differ in a text that nothing looks at, so the last tokens are what counts.
      change Builder.lookUp? _ (some ("@kw", .str word)) = Builder.lookUp? _ (some ("@kw", _))
      rw [Builder.lookUp?_str, Builder.lookUp?_str]
      rfl
    · change Builder.lookUp? _ (some ("@kw", .str word)) = Builder.lookUp? _ (some ("@kw", _))
      rw [Builder.lookUp?_str, Builder.lookUp?_str, hwords]

/-- A keyword that is only a name leaves the open constructs and the operators as
    they are, and with another text in its place the same events do the same,
    unless a keyword or backtick sees the name. Left out are events that complete a
    construct and bear the name of a token whose text is read (`readsText`): given the
    token of the name, they would read the text itself. -/
theorem keyword_name_leaves_no_trace {word word' : String} (hname : s.builder.nameNext? = some true)
    (hregular : ∀ e ∈ es, e.isToken = false → e.callback.readsText = false)
    (hes : Effect.namesNext.contains ("@kw", word) = Effect.namesNext.contains ("@kw", word') ∨
      (s.next (.keyword id line column word)).Settles es) :
    s.Succeeds (.keyword id line column word) ∧
      (s.next (.keyword id line column word)).builder.comments.stack = s.builder.comments.stack ∧
      (s.next (.keyword id line column word)).builder.operators = s.builder.operators ∧
      (s.next (.keyword id line column word)).GoAlike (s.next (.keyword id line column word'))
        es := by
  obtain ⟨hvalues, halike, hsign, hsame⟩ := paired_name id line column hname word word'
  have hstep := step_name id line column hname word
  refine ⟨⟨_, congrArg Prod.fst hstep⟩, ?_, ?_, ?_⟩
  · change (s.step _).2.comments.stack = _
    rw [hstep, Builder.stack_remembering]
    rfl
  · change (s.step _).2.operators = _
    rw [hstep, Builder.operators_remembering]
    rfl
  · -- What follows reads the words alike, or settles before it asks for them.
    rcases hes with hwords | hsettles
    · exact goAlike_of_sameName ⟨hvalues, halike, hsign, hsame hwords⟩ hregular
    · exact goAlike_of_settles ⟨hvalues, halike, hsign⟩ hregular hsettles

end Session

section Samples

open Session

/-- A symbol that is a keyword, something after it, and the start of a class. -/
def symbolThenClass (word : String) (between : String × String) : List Event :=
  [.token 0 1 "@symbeg" ":", .keyword 1 1 1 word, .construct 2 1 "symbol" [.ref 1],
    .token 3 1 between.1 between.2, .token 4 2 "@kw" "class", .token 5 2 "@const" "A"]

/-- The class is complete. -/
def classDone : Event :=
  .construct 6 2 "class" [.ref 5, .atom .null, .atom .null]

/-- With a token in between that is not layout, the class is treated alike. -/
theorem keyword_name_leaves_no_trace_symbolThenClass :
    ((initial.next (.token 0 1 "@symbeg" ":")).next (.keyword 1 1 1 "def")).GoAlike
      ((initial.next (.token 0 1 "@symbeg" ":")).next (.keyword 1 1 1 "if"))
      ((symbolThenClass "def" ("@semicolon", ";")).drop 2 ++ [classDone]) := by
  have hsymbol : initial.Introduces (.token 0 1 "@symbeg" ":") :=
    .symbol ⟨by decide, rfl, rfl⟩
  have hname := nameNext?_of_introduces hsymbol (by decide +kernel)
  refine (keyword_name_leaves_no_trace 1 1 1 hname ?_ (.inr ?_)).2.2.2
  · decide +kernel
  · refine ⟨by decide +kernel, .inr ⟨by decide +kernel, .inl ?_⟩⟩
    exact ⟨by decide, by decide, by decide +kernel⟩

/-- With a line break in between, the class after `:def` is taken for a name and
    cannot be completed. After `:if` it can. -/
theorem symbolThenClass_taken_for_name :
    (initial.run (symbolThenClass "def" ("@nl", "\n"))).builder.comments.stack.length = 0 ∧
      (initial.run (symbolThenClass "if" ("@nl", "\n"))).builder.comments.stack.length = 1 ∧
      ¬ (initial.run (symbolThenClass "def" ("@nl", "\n"))).Succeeds classDone ∧
      (initial.run (symbolThenClass "if" ("@nl", "\n"))).Succeeds classDone := by
  decide +kernel

-- The second name of an alias comes after the first one, so it is not taken for a name.
example : (initial.run [.token 0 1 "@kw" "alias", .token 1 1 "@ident" "a",
    .token 2 1 "@kw" "class"]).builder.comments.stack.length = 1 := by
  decide +kernel

end Samples

end RubyTree
