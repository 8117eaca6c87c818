import RubyTree.Proofs.Build.Keyword
import RubyTree.Proofs.Build.Nesting
import RubyTree.Proofs.Build.Shows

/-!
# Clauses and Their Operators

The same event completes a clause of a pattern match and a rightward assignment.
Which of the two it is depends on the operator that started it, and that is
remembered on a stack. The arrow also stands in pairs of a hash, in captures and
before the variable of a rescue clause, and `in` stands in `for` loops; all of
these take their operator off the stack again.

Events nest if every operator is claimed by the construct it belongs to. Then
the stack is restored, no event complains about an operator, and every clause is
built as its own operator says. This rests on telling keys with an arrow from
labels by what was built of them. That fails for a quoted symbol without
content of its own: it is built like a quoted label, its arrow stays on the
stack, and a clause around it takes the arrow for its own.

## Main definitions

* `Raw.TakesArrow`, `Raw.WrittenAsLabel`: Keys before an arrow, and labels.
* `Session.Starts`, `Session.Claims`, `Session.Spares`: What the next event does
  to the stack.
* `operatorNesting`: Every operator is claimed by its construct.

## Theorems

* `Starts.step`, `Claims.step`, `Spares.step`: One event.
* `clause_built_by_own_operator`: Nested events restore the stack, and every clause
  is built as its own operator says.
* `clauseAroundEmptySymbol_misread`: A clause around a quoted symbol without content.
-/

namespace RubyTree

open BuildM

namespace Raw

/-- A key that stands before an arrow. A quoted symbol shows this by the
    delimiter of its content. -/
inductive TakesArrow (key : Raw) : Prop where
  | expression (hlabel : key.hasTag "@label" = false) (hquoted : key.hasTag "dyna_symbol" = false)
  | symbol {parts content delimiter : Raw} {text : String} (hkey : key.hasTag "dyna_symbol")
      (hparts : key.item? 1 = some parts)
      (hcontent : parts.pieces.find? (·.hasTag "@tstring_content") = some content)
      (hdelimiter : content.item? 3 = some delimiter) (htext : delimiter.text? = some text)
      (hopens : opensSymbol text)

/-- A key that is a label, plain or quoted. -/
inductive WrittenAsLabel (key : Raw) : Prop where
  | plain (hkey : key.hasTag "@label")
  | quoted {parts : Raw} (hkey : key.hasTag "dyna_symbol") (hparts : key.item? 1 = some parts)
      (hcontent : ∀ content, parts.pieces.find? (·.hasTag "@tstring_content") = some content →
        ∃ delimiter text, content.item? 3 = some delimiter ∧ delimiter.text? = some text ∧
          opensSymbol text = false)

theorem hasTag_unique {t t' : String} {key : Raw} (h : key.hasTag t) (hne : t ≠ t') :
    key.hasTag t' = false := by
  unfold hasTag at h ⊢
  rw [eq_of_beq h]
  simpa using hne

/-- A text that counts as absent is empty. -/
theorem eq_empty_of_isEmpty {r : Raw} {text : String} (htext : r.text? = some text)
    (h : r.isEmpty) : text = "" := by
  match r with
  | list items => cases htext
  | atom (.str t) =>
    cases htext
    exact eq_of_beq h
  | atom (.sym t) =>
    cases htext
    exact eq_of_beq h
  | atom (.torn points) =>
    cases htext
    cases points with
    | nil => rfl
    | cons p ps => cases h

theorem isLabel?_eq (key : Raw) :
    key.isLabel? =
      if key.hasTag "@label" then some true
      else if !key.hasTag "dyna_symbol" then some false
      else (key.item? 1).bind fun r =>
        match r.pieces.find? (·.hasTag "@tstring_content") with
        | none => some true
        | some content => (content.item? 3).bind fun delimiter =>
          if delimiter.isEmpty then some true
          else delimiter.text?.map fun text => !opensSymbol text := by
  unfold isLabel?
  congr 2
  refine Option.bind_congr fun r _ => ?_
  congr 1
  funext content
  refine Option.bind_congr fun delimiter _ => ?_
  congr 1
  cases delimiter.text? <;> rfl

theorem TakesArrow.isLabel? {key : Raw} (h : key.TakesArrow) : key.isLabel? = some false := by
  rw [isLabel?_eq]
  cases h with
  | expression hlabel hquoted => simp [hlabel, hquoted]
  | @symbol parts content delimiter text hkey hparts hcontent hdelimiter htext hopens =>
    have hlabel : key.hasTag "@label" = false := hasTag_unique hkey (by decide)
    have hfull : ¬ delimiter.isEmpty := by
      intro hempty
      rw [eq_empty_of_isEmpty htext hempty] at hopens
      exact absurd hopens (by decide)
    simp [hlabel, hkey, hparts, hcontent, hdelimiter, hfull, htext, hopens]

/-- There are no other keys that are not taken for labels. -/
theorem takesArrow_of_isLabel? {key : Raw} (h : key.isLabel? = some false) : key.TakesArrow := by
  rw [isLabel?_eq] at h
  split at h
  · cases h
  rename_i hlabel
  split at h
  · rename_i hquoted
    exact .expression (by simpa using hlabel) (by simpa using hquoted)
  rename_i hquoted
  obtain ⟨parts, hparts, h⟩ := Option.bind_eq_some_iff.1 h
  split at h
  · cases h
  rename_i content hcontent
  obtain ⟨delimiter, hdelimiter, h⟩ := Option.bind_eq_some_iff.1 h
  split at h
  · cases h
  obtain ⟨text, htext, hopens⟩ := Option.map_eq_some_iff.1 h
  exact .symbol (by simpa using hquoted) hparts hcontent hdelimiter htext (by simpa using hopens)

theorem WrittenAsLabel.isLabel? {key : Raw} (h : key.WrittenAsLabel) :
    key.isLabel? = some true := by
  rw [isLabel?_eq]
  cases h with
  | plain hkey => rw [if_pos hkey]
  | @quoted parts hkey hparts hcontent =>
    have hlabel : key.hasTag "@label" = false := hasTag_unique hkey (by decide)
    simp only [hlabel, hkey, hparts, Bool.not_true, Bool.false_eq_true, if_false, Option.bind_some]
    cases hfind : parts.pieces.find? (·.hasTag "@tstring_content") with
    | none => rfl
    | some content =>
      obtain ⟨delimiter, text, hdelimiter, htext, hopens⟩ := hcontent content hfind
      simp [hdelimiter, htext, hopens]

end Raw

/-- Whether an error is about an operator on the stack. -/
def Error.aboutOperators : Error → Bool
  | .missingOperator | .unexpectedOperator _ | .missingArrow _ => true
  | _ => false

namespace Session

/-- The next event puts an operator on the stack. -/
inductive Starts (s : Session) (e : Event) : String → Prop where
  | keyword {text : Item} (h : s.Reads e "@kw" text) (htext : text.text? = some "in")
      (hname : s.builder.nameNext? = some false) : Starts s e "in"
  | arrow {text : Item} (h : s.Reads e "@op" text) (htext : text.text? = some "=>") :
      Starts s e "=>"

/-- The next event completes a construct that this operator belongs to. -/
inductive Claims (s : Session) (e : Event) : String → Prop where
  | clause {args : List Item} {op : String} (h : s.Builds e args) (he : e.name = "in")
      (hop : op = "in" ∨ op = "=>") : Claims s e op
  | loop {args : List Item} (h : s.Builds e args) (he : e.name = "for") : Claims s e "in"
  | pair {key value : Item} {raw : Raw} (h : s.Builds e [key, value]) (he : e.name = "assoc_new")
      (hkey : (s.prepare e).2.arena.freeze? key = some raw) (harrow : raw.TakesArrow) :
      Claims s e "=>"
  | capture {left op right : Item} (h : s.Builds e [left, op, right]) (he : e.name = "binary")
      (hop : op.isText "=>") : Claims s e "=>"
  | rescue {exceptions captured : Item} {rest : List Item}
      (h : s.Builds e (exceptions :: captured :: rest)) (he : e.name = "rescue")
      (hcaptured : (s.prepare e).2.arena.isEmpty captured = false) : Claims s e "=>"

/-- The next event leaves the operators alone. -/
inductive Spares (s : Session) (e : Event) : Prop where
  | other (h : .operators ∉ e.callback.writes)
  | keyword {text : Item} (h : s.Reads e "@kw" text) (hno : ¬ s.Starts e "in")
  | operator {text : Item} (h : s.Reads e "@op" text) (hno : ¬ s.Starts e "=>")
  | label {key value : Item} {raw : Raw} (h : s.Builds e [key, value]) (he : e.name = "assoc_new")
      (hkey : (s.prepare e).2.arena.freeze? key = some raw) (hlabel : raw.WrittenAsLabel)
  | operation {left op right : Item} (h : s.Builds e [left, op, right]) (he : e.name = "binary")
      (hop : op.isText "=>" = false)
  | rescue {exceptions captured : Item} {rest : List Item}
      (h : s.Builds e (exceptions :: captured :: rest)) (he : e.name = "rescue")
      (hcaptured : (s.prepare e).2.arena.isEmpty captured)

end Session

/-- Every operator is claimed by the construct it belongs to. -/
def operatorNesting : Nesting String where
  single := Session.Spares
  opens := Session.Starts
  closes := Session.Claims

namespace Builder

/-- The builder after a construct has claimed the operator on top, if it is this
    one. -/
def claiming (b : Builder) (op : String) : Builder :=
  match b.operators with
  | top :: rest => if top == op then { b with operators := rest } else b
  | [] => b

theorem claiming_eq {b : Builder} {op : String} {rest : List String}
    (h : b.operators = op :: rest) : b.claiming op = { b with operators := rest } := by
  rw [claiming, h]
  exact if_pos (beq_self_eq_true op)

theorem operators_meeting {b : Builder} {node : Item} {word : Atom} (h : word.text? ≠ some "in") :
    (b.meeting node word).operators = b.operators := by
  unfold meeting
  split
  · rfl
  split
  · rename_i hin
    exact absurd (eq_of_beq hin) h
  · rfl

end Builder

namespace BuildM

variable {b : Builder}

theorem runIn_pair {key : Item} {label : Bool}
    (h : b.arena.isLabel? key = some label) (value : Item) :
    (Effect.pair key value).runIn b =
      (newNode "assoc_new" [key, value]).runIn (if label then b else b.claiming "=>") := by
  unfold Effect.pair
  rw [runIn_bind, runIn_isLabel, h]
  cases label <;> rfl

theorem runIn_binary_of_ne {op : Item} (h : op.isText "=>" = false) (left right : Item) :
    (Effect.binary left op right).runIn b = (newNode "binary" [left, op, right]).runIn b := by
  unfold Effect.binary
  rw [h]
  rfl

theorem runIn_binary {op : Item} (h : op.isText "=>") {rest : List String}
    (htop : b.operators = "=>" :: rest) (left right : Item) :
    (Effect.binary left op right).runIn b =
      (newNode "binary" [left, op, right]).runIn (b.claiming "=>") := by
  unfold Effect.binary
  rw [if_pos h, runIn_bind, runIn_get]
  dsimp only
  rw [htop]
  rfl

theorem runIn_rescue (exceptions captured : Item) (rest : List Item) :
    (Effect.rescue (exceptions :: captured :: rest)).runIn b =
      (newNode "rescue" (exceptions :: captured :: rest)).runIn
        (if b.arena.isEmpty captured then b else b.claiming "=>") := by
  unfold Effect.rescue
  rw [runIn_bind, runIn_get]
  dsimp only
  cases b.arena.isEmpty captured <;> rfl

/-- What a clause is built as, by the operator that started it. -/
def clauseTag (op : String) : String :=
  if op == "in" then "in" else "right_assign"

theorem runIn_clause {op : String} (hop : op = "in" ∨ op = "=>") {rest : List String}
    (htop : b.operators = op :: rest) (args : List Item) :
    (Effect.clause args).runIn b =
      (newNode (clauseTag op) args).runIn { b with operators := rest } := by
  unfold Effect.clause
  rw [runIn_bind, runIn_get]
  dsimp only
  rw [htop]
  rcases hop with rfl | rfl <;> rfl

end BuildM

namespace Session

variable {s : Session} {e : Event} {op : String}

theorem Starts.step (h : s.Starts e op) :
    s.Succeeds e ∧ (s.step e).2.operators = op :: s.builder.operators := by
  cases h with
  | @keyword text h htext hname =>
    obtain ⟨word, hword, hin⟩ := Item.key_of_text htext
    have hmeeting (b : Builder) (node : Item) :
        b.meeting node word = { b with operators := "in" :: b.operators } := by
      rw [Builder.meeting, hin]
      rfl
    rw [Succeeds, h.step_eq, runIn_scan_keyword, prepare_nameNext?, hname]
    dsimp only
    rw [hword]
    exact ⟨⟨_, rfl⟩, by simp [hmeeting, Builder.withToken, Builder.push]⟩
  | @arrow text h htext =>
    have harrow : text.isText "=>" := by rw [Item.isText, htext, beq_self_eq_true]
    rw [Succeeds, h.step_eq, runIn_scan_operator, if_pos harrow]
    exact ⟨⟨_, rfl⟩, by simp⟩

/-- An event without operators among the tables of its callback. -/
theorem step_of_not_mem (h : .operators ∉ e.callback.writes) :
    (s.step e).2.operators = s.builder.operators ∧
      ∀ error, (s.step e).1 = .error error → error.aboutOperators = false := by
  have hwrites : .operators ∉ e.writes := fun hmem => by
    rcases Event.mem_writes hmem with hmem | hmem
    · exact absurd hmem (by decide)
    · exact h hmem
  refine ⟨(congrArg Builder.operators (s.step_keeps hwrites)).symm, fun error herror => ?_⟩
  -- Only callbacks that write the table raise errors about operators.
  rcases raises_of_step herror with hraises | ⟨id, rfl⟩
  · generalize e.callback = c at h hraises
    cases hraises <;> first | rfl | exact absurd (by decide) h
  · rfl

/-- An event that ends by making a node has the operators it had before. -/
theorem step_of_newNode {tag : String} {fields : List Item} {c : Builder}
    (h : s.step e = (newNode tag fields).runIn c) :
    s.Succeeds e ∧ (s.step e).2.operators = c.operators := by
  rw [Succeeds, h]
  exact ⟨⟨_, rfl⟩, rfl⟩

theorem spared_of_succeeds (h : s.Succeeds e ∧ (s.step e).2.operators = s.builder.operators) :
    (s.step e).2.operators = s.builder.operators ∧
      ∀ error, (s.step e).1 = .error error → error.aboutOperators = false := by
  obtain ⟨⟨v, hv⟩, hoperators⟩ := h
  refine ⟨hoperators, fun error herror => ?_⟩
  rw [hv] at herror
  cases herror

theorem Spares.step (h : s.Spares e) :
    (s.step e).2.operators = s.builder.operators ∧
      ∀ error, (s.step e).1 = .error error → error.aboutOperators = false := by
  cases h with
  | other h => exact step_of_not_mem h
  | @keyword text h hno =>
    rw [h.step_eq, runIn_scan_keyword, prepare_nameNext?]
    cases hname : s.builder.nameNext? with
    | none => exact ⟨by simp, by rintro error ⟨⟩; rfl⟩
    | some only =>
      cases only with
      | true => exact ⟨by simp, by rintro error ⟨⟩⟩
      | false =>
        dsimp only
        cases hword : text.atom?.filter Atom.isKey with
        | none => exact ⟨by simp, by rintro error ⟨⟩; rfl⟩
        | some word =>
          -- A keyword `in` that is no name would be put on the stack.
          have hin : word.text? ≠ some "in" := fun hin =>
            hno (.keyword h (Item.text_of_key hword ▸ hin) hname)
          exact ⟨by simp [Builder.operators_meeting hin], by rintro error ⟨⟩⟩
  | @operator text h hno =>
    have harrow : ¬ text.isText "=>" := fun harrow => hno (.arrow h (eq_of_beq harrow))
    rw [h.step_eq, runIn_scan_operator, if_neg harrow]
    exact ⟨by simp, by rintro error ⟨⟩⟩
  | @label key value raw h he hkey hlabel =>
    have hkind : (s.prepare e).2.arena.isLabel? key = some true :=
      (Arena.isLabel?_of_freeze hkey).trans hlabel.isLabel?
    refine spared_of_succeeds ?_
    have hstep := step_of_newNode ((h.step_eq he).trans (runIn_pair hkind value))
    simpa using hstep
  | @operation left op right h he hop =>
    refine spared_of_succeeds ?_
    have hstep := step_of_newNode ((h.step_eq he).trans (runIn_binary_of_ne hop left right))
    simpa using hstep
  | @rescue exceptions captured rest h he hcaptured =>
    refine spared_of_succeeds ?_
    have hstep := step_of_newNode ((h.step_eq he).trans (runIn_rescue exceptions captured rest))
    simpa [hcaptured] using hstep

theorem Claims.step (h : s.Claims e op) {rest : List String}
    (htop : s.builder.operators = op :: rest) :
    s.Succeeds e ∧ (s.step e).2.operators = rest := by
  rw [← s.prepare_operators e] at htop
  -- Each construct takes the operator on top under its own condition, which its event meets.
  cases h with
  | @clause args _ h he hop =>
    exact step_of_newNode ((h.step_eq he).trans (runIn_clause hop htop args))
  | @loop args h he =>
    have hstep := step_of_newNode ((h.step_eq he).trans
      (rfl : _ = (newNode "for" args).runIn ((s.prepare e).2.claiming "in")))
    rwa [Builder.claiming_eq htop] at hstep
  | @pair key value raw h he hkey harrow =>
    have hkind : (s.prepare e).2.arena.isLabel? key = some false :=
      (Arena.isLabel?_of_freeze hkey).trans harrow.isLabel?
    have hstep := step_of_newNode ((h.step_eq he).trans (runIn_pair hkind value))
    rwa [if_neg Bool.false_ne_true, Builder.claiming_eq htop] at hstep
  | @capture left _ right h he hop =>
    have hstep := step_of_newNode ((h.step_eq he).trans (runIn_binary hop htop left right))
    rwa [Builder.claiming_eq htop] at hstep
  | @rescue exceptions captured fields h he hcaptured =>
    have hstep := step_of_newNode ((h.step_eq he).trans (runIn_rescue exceptions captured fields))
    rwa [hcaptured, if_neg Bool.false_ne_true, Builder.claiming_eq htop] at hstep

/-- A pair claims its arrow if its key is not taken for a label. -/
theorem Claims.pair_of_isLabel? {k v : Item} (h : s.Builds e [k, v]) (he : e.name = "assoc_new")
    (hkind : ((s.prepare e).2.arena.freeze? k).bind Raw.isLabel? = some false) :
    s.Claims e "=>" := by
  obtain ⟨raw, hkey, hlabel⟩ := Option.bind_eq_some_iff.1 hkind
  exact .pair h he hkey (Raw.takesArrow_of_isLabel? hlabel)

theorem Starts.isToken (h : s.Starts e op) : e.isToken := by
  cases h with
  | keyword h => exact h.isToken
  | arrow h => exact h.isToken

/-- What leaves the operators alone completes no clause. -/
theorem Spares.name_ne (h : s.Spares e) (htoken : e.isToken = false) : e.name ≠ "in" := by
  intro hname
  cases h with
  | other h =>
    rw [Event.callback, htoken, hname] at h
    exact h (by decide)
  | keyword h | operator h =>
    rw [h.isToken] at htoken
    cases htoken
  | label _ he | operation _ he | rescue _ he =>
    rw [hname] at he
    exact absurd he (by decide)

/-- The next event completes a clause and builds it as this operator says. -/
def BuildsClause (s : Session) (e : Event) (op : String) : Prop :=
  ∃ args v c, s.Builds e args ∧ s.step e = (.ok v, c) ∧
    c.arena.items? v = some (.str (clauseTag op) :: args)

theorem Claims.buildsClause (h : s.Claims e op) (he : e.name = "in") {rest : List String}
    (htop : s.builder.operators = op :: rest) : s.BuildsClause e op := by
  rw [← s.prepare_operators e] at htop
  cases h with
  | @clause args _ h _ hop =>
    refine ⟨args, _, _, h, (h.step_eq he).trans (runIn_clause hop htop args), ?_⟩
    exact Array.getElem?_push_size
  | loop _ hname | pair _ hname | capture _ hname | rescue _ hname =>
    rw [he] at hname
    exact absurd hname (by decide)

end Session

section Nested

variable {s : Session} {es : List Event}

theorem nested_operators (h : operatorNesting.Nested s es) :
    (s.run es).builder.operators = s.builder.operators :=
  h.restores Builder.operators (fun op top => top = op)
    (fun _ _ he => (Session.Spares.step he).1)
    (fun _ _ op he => ⟨op, rfl, (Session.Starts.step he).2⟩)
    fun _ _ _ _ _ he htop hstack => (Session.Claims.step he (htop ▸ hstack)).2

/-- What completes a construct finds the operator its partner has put on top. -/
theorem operators_of_opens {opener : Event} {op : String} (hopener : s.Starts opener op)
    (hinside : operatorNesting.Nested (s.next opener) es) :
    ((s.next opener).run es).builder.operators = op :: s.builder.operators :=
  (nested_operators hinside).trans hopener.step.2

/-- Nested events restore the operators and never complain about one, and every
    clause is built as its own operator says. -/
theorem clause_built_by_own_operator (h : operatorNesting.Nested s es) :
    (s.run es).builder.operators = s.builder.operators ∧
      ∀ front e after, es = front ++ e :: after →
        (∀ error, ((s.run front).step e).1 = .error error → error.aboutOperators = false) ∧
        (e.isToken = false → e.name = "in" →
          ∃ before opener inside op, front = before ++ opener :: inside ∧
            (s.run before).Starts opener op ∧
            operatorNesting.Nested ((s.run before).next opener) inside ∧
            (s.run front).BuildsClause e op) := by
  refine ⟨nested_operators h, fun front e after hes => ?_⟩
  -- By where the event stands among the others.
  cases h.placed hes with
  | single he =>
    exact ⟨(Session.Spares.step he).2, fun htoken hname =>
      absurd hname (Session.Spares.name_ne he htoken)⟩
  | opens he =>
    refine ⟨fun error herror => ?_, fun htoken _ => ?_⟩
    · obtain ⟨v, hv⟩ := (Session.Starts.step he).1
      rw [hv] at herror
      cases herror
    · rw [Session.Starts.isToken he] at htoken
      cases htoken
  | @closes before inside opener _ op hopener hinside he =>
    have htop := operators_of_opens hopener hinside
    rw [Session.run_append, Session.run_cons]
    refine ⟨fun error herror => ?_, fun htoken hname => ?_⟩
    · obtain ⟨v, hv⟩ := (Session.Claims.step he htop).1
      rw [hv] at herror
      cases herror
    · exact ⟨before, opener, inside, op, rfl, hopener, hinside,
        Session.Claims.buildsClause he hname htop⟩

end Nested

section Samples

open Session

/-- The pair `:"s" => 2`, with a key that has content. -/
def arrowPair : List Event :=
  [.token 1 1 "@symbeg" ":\"", .construct 2 1 "string_content" [],
    .token 3 1 "@tstring_content" "s", .construct 4 1 "string_add" [.ref 2, .ref 3],
    .token 5 1 "@tstring_end" "\"", .construct 6 1 "dyna_symbol" [.ref 4]] ++
  .token 7 1 "@op" "=>" :: ([.token 8 1 "@int" "2"] ++
    [.construct 9 1 "assoc_new" [.ref 6, .ref 8]])

/-- The assignment `=> y`. -/
def rightwardAssignment : List Event :=
  .token 10 2 "@op" "=>" :: ([.token 11 2 "@ident" "y"] ++
    [.construct 12 2 "in" [.ref 11, .atom .null, .atom .null]])

/-- A clause with a pair in its pattern and an assignment as its body. -/
def clauseAroundArrows : List Event :=
  .token 0 1 "@kw" "in" :: ((arrowPair ++ rightwardAssignment) ++
    [.construct 13 2 "in" [.ref 9, .ref 12, .atom .null]])

theorem nested_arrowPair :
    operatorNesting.Nested (initial.next (.token 0 1 "@kw" "in")) arrowPair := by
  refine .append (.single (.other ?_) (.single (.other ?_) (.single (.other ?_)
    (.single (.other ?_) (.single (.other ?_) (.single (.other ?_) (.nil _))))))) ?_
  iterate 6 decide +kernel
  have harrow (s : Session) : s.Starts (.token 7 1 "@op" "=>") "=>" :=
    .arrow ⟨by decide, rfl, rfl⟩ rfl
  refine .pair (harrow _) (.single (.other (by decide +kernel)) (.nil _)) ?_ (.nil _)
  refine Claims.pair_of_isLabel? (k := .list 9) (v := .list 13) ⟨by decide, ?_⟩ rfl ?_
  · decide +kernel
  · decide +kernel

theorem nested_clauseAroundArrows : operatorNesting.Nested initial clauseAroundArrows := by
  have hin : initial.Starts (.token 0 1 "@kw" "in") "in" :=
    .keyword ⟨by decide, rfl, rfl⟩ rfl (by decide)
  have harrow (s : Session) : s.Starts (.token 10 2 "@op" "=>") "=>" :=
    .arrow ⟨by decide, rfl, rfl⟩ rfl
  have hassignment (s : Session) : operatorNesting.Nested s rightwardAssignment := by
    refine .pair (harrow s) (.single (.other (by decide +kernel)) (.nil _)) ?_ (.nil _)
    exact .clause ⟨by decide, rfl⟩ rfl (.inr rfl)
  refine .pair hin (nested_arrowPair.append (hassignment _)) ?_ (.nil _)
  exact @Claims.clause _ _ [.list 14, .list 19, .null] _ ⟨by decide, by decide +kernel⟩ rfl
    (.inl rfl)

theorem clause_built_by_own_operator_clauseAroundArrows :
    operatorNesting.Nested initial clauseAroundArrows ∧
      (initial.run clauseAroundArrows).builder.operators = [] ∧
      ∃ before opener inside op,
        clauseAroundArrows.dropLast = before ++ opener :: inside ∧
          (initial.run before).Starts opener op ∧
          operatorNesting.Nested ((initial.run before).next opener) inside ∧
          (initial.run clauseAroundArrows.dropLast).BuildsClause
            (.construct 13 2 "in" [.ref 9, .ref 12, .atom .null]) op := by
  obtain ⟨hoperators, hclauses⟩ := clause_built_by_own_operator nested_clauseAroundArrows
  exact ⟨nested_clauseAroundArrows, hoperators, (hclauses _ _ [] rfl).2 (by decide) rfl⟩

/-- A clause around the pair `:"" => 1`, with a key that has no content. -/
def clauseAroundEmptySymbol : List Event :=
  [.token 0 1 "@kw" "in", .token 1 1 "@symbeg" ":\"", .construct 2 1 "string_content" [],
    .token 3 1 "@tstring_end" "\"", .construct 4 1 "dyna_symbol" [.ref 2],
    .token 5 1 "@op" "=>", .token 6 1 "@int" "1", .construct 7 1 "assoc_new" [.ref 4, .ref 6],
    .construct 8 1 "in" [.ref 7, .atom .null, .atom .null]]

/-- The clause is built as an assignment, by the arrow of the pair, and its own
    operator is left over. -/
theorem clauseAroundEmptySymbol_misread :
    (initial.run clauseAroundEmptySymbol).builder.operators = ["in"] ∧
      (initial.run clauseAroundEmptySymbol).values.head?.bind (fun p =>
        (initial.run clauseAroundEmptySymbol).builder.arena.tag? p.2) = some "right_assign" := by
  decide +kernel

end Samples

end RubyTree
