import RubyTree.Proofs.Build.Keyword
import RubyTree.Proofs.Build.Nesting

/-!
# Constructs and Their Comments

A class, method, module or block starts with a keyword, and the comments right
before the keyword document it. The construct is complete much later, and then
it gets these comments and the position of the keyword. What has come in between
may be full of other constructs with comments of their own.

Events nest if every keyword that opens a construct has the event that completes
it. Then the stack of open constructs is restored, and every construct that is
completed has the position of its own keyword and the comments before it: those
since the last token that is not layout, or the last construct completed.

The position is a list of its own, which no value refers to. So no event can
change it, whatever it does with the node of the keyword.

## Main definitions

* `Session.Opens`, `Session.Completes`, `Session.Passes`: What the next event does
  to the open constructs.
* `constructNesting`: Every keyword has the event that completes its construct.
* `Session.Collected`: The comments right before a point of a session.
* `Builder.Documents`: A construct with its comments and its position.

## Theorems

* `Opens.step`, `Completes.step`, `Passes.step`: One event.
* `collected`: What the buffer holds.
* `comments_and_position_of_own_keyword`: Every construct has its own comments and
  the position of its own keyword.
-/

namespace RubyTree

open BuildM

/-- The events that complete what a keyword opens. -/
def openedBy : String → List String
  | "class" => ["class", "sclass"]
  | "def" => ["def", "defs"]
  | "module" => ["module"]
  | "BEGIN" => ["BEGIN"]
  | "END" => ["END"]
  | "begin" => ["begin"]
  | _ => []

namespace Session

/-- The next event is a keyword that opens a construct. -/
inductive Opens (s : Session) (e : Event) (word : String) : Prop where
  | intro {text : Item} (h : s.Reads e "@kw" text) (htext : text.text? = some word)
      (hword : word ∈ Effect.opensConstruct) (hname : s.builder.nameNext? = some false)

/-- The next event completes a construct that this keyword opens. -/
inductive Completes (s : Session) (e : Event) : String → Prop where
  | construct {args : List Item} {word : String} (h : s.Builds e args)
      (hname : e.name ∈ openedBy word) (hbegin : e.name ≠ "begin") : Completes s e word
  | block {body : Item} (h : s.Builds e [body]) (hname : e.name = "begin")
      (hbody : (s.prepare e).2.arena.tag? body = some "bodystmt") : Completes s e "begin"

/-- The next event neither opens nor completes a construct. -/
inductive Passes (s : Session) (e : Event) : Prop where
  | other (h : .constructs ∉ e.callback.writes)
      (hcomment : e.callback = .comment → e.isToken)
  | keyword {text : Item} (h : s.Reads e "@kw" text) (hno : ∀ word, ¬ s.Opens e word)
  | pinned {body : Item} (h : s.Builds e [body]) (hname : e.name = "begin")
      (hbody : (s.prepare e).2.arena.tag? body ≠ some "bodystmt")

end Session

/-- Every keyword that opens a construct has the event that completes it. -/
def constructNesting : Nesting String where
  single := Session.Passes
  opens := Session.Opens
  closes := Session.Completes

namespace Builder

/-- A value is a construct with its comments, and the construct ends with its
    position. -/
def Documents (b : Builder) (v : Item) (text tag : String) (args : List Item)
    (line column : Nat) : Prop :=
  ∃ node place, b.arena.items? v = some [.str "comment", .str text, node] ∧
    b.arena.items? node = some (.str tag :: args ++ [place]) ∧
    b.arena.items? place = some [.int line, .int column]

/-- A construct gets a position that is there already. The construct itself is a
    new list, and so the position is left as it is. -/
theorem documents_push {b : Builder} {place : Item} {line column : Nat}
    (h : b.arena.items? place = some [.int line, .int column]) (text tag : String)
    (args : List Item) (comments : Comments Item) :
    ((({ b.push (.str tag :: args) with comments } : Builder).setItems
        (.list b.arena.lists.size) (.str tag :: args ++ [place])).push
      [.str "comment", .str text, .list b.arena.lists.size]).Documents
        (.list (b.arena.lists.size + 1)) text tag args line column := by
  -- A new list has a number that no list had before.
  have hne : .list b.arena.lists.size ≠ place := by
    rintro rfl
    obtain ⟨hlt, -⟩ := Array.getElem?_eq_some_iff.1 h
    exact absurd hlt (Nat.lt_irrefl _)
  refine ⟨.list b.arena.lists.size, place, ?_, ?_, ?_⟩
  · rw [← size_push b (.str tag :: args)]
    have hsize := size_setItems { b.push (.str tag :: args) with comments }
      (.list b.arena.lists.size) (.str tag :: args ++ [place])
    rw [← hsize]
    exact items?_push_self _ _
  · exact items?_push (items?_setItems_self (items?_push_self b _) _) _
  · refine items?_push ?_ _
    rw [items?_setItems_ne hne]
    exact items?_push h _

end Builder

namespace BuildM

variable {b : Builder} {opener : Item} {text : String} {rest : List (Item × String)}

/-- A construct takes the comments and the keyword on top, and gets the position
    of the keyword. -/
theorem runIn_documented (h : b.comments.stack = (opener, text) :: rest) (tag : String)
    (args : List Item) :
    (Effect.documented tag args).runIn b =
      let c := { b.push (.str tag :: args) with comments := { buffer := "", stack := rest } }
      match c.arena.item? opener 2 with
      | none => (.error .shape, c)
      | some place => (.ok (.list (b.arena.lists.size + 1)),
          (c.setItems (.list b.arena.lists.size) (.str tag :: args ++ [place])).push
            [.str "comment", .str text, .list b.arena.lists.size]) := by
  have hleave : (b.push (.str tag :: args)).comments.leave =
      .ok ((opener, text), { buffer := "", stack := rest }) := by
    change b.comments.leave = _
    rw [Comments.leave, h]
    rfl
  -- Step by step: the node, the comments of its opener, its position, and the wrapper.
  unfold Effect.documented
  rw [runIn_bind, runIn_newNode]
  dsimp only
  rw [runIn_bind, runIn_get]
  dsimp only
  rw [hleave]
  dsimp only
  rw [runIn_bind, runIn_modify]
  dsimp only
  rw [runIn_bind, runIn_itemAt]
  cases Arena.item? _ opener 2 with
  | none => rfl
  | some place =>
    simp only [Option.map_some, Option.getD_some]
    rw [runIn_bind, runIn_append, Builder.items?_push_self]
    dsimp only
    rw [runIn_newNode, Builder.size_setItems, Builder.size_push]

theorem runIn_documented_nil (h : b.comments.stack = []) (tag : String) (args : List Item) :
    (Effect.documented tag args).runIn b =
      (.error .noOpenConstruct, b.push (.str tag :: args)) := by
  have hleave : (b.push (.str tag :: args)).comments.leave = .error .noOpenConstruct := by
    change b.comments.leave = _
    rw [Comments.leave, h]
    rfl
  unfold Effect.documented
  rw [runIn_bind, runIn_newNode]
  dsimp only
  rw [runIn_bind, runIn_get]
  dsimp only
  rw [hleave]
  rfl

theorem documented_comments (h : b.comments.stack = (opener, text) :: rest) (tag : String)
    (args : List Item) :
    ((Effect.documented tag args).runIn b).2.comments = { buffer := "", stack := rest } := by
  rw [runIn_documented h]
  dsimp only
  split <;> rfl

theorem runIn_comment {node text : Item} (hitem : b.arena.item? node 1 = some text) :
    (Effect.comment node).runIn b = match text.text? with
      | none => (.error .shape, b)
      | some added => (.ok node, { b with comments := b.comments.add added }) := by
  unfold Effect.comment textAt
  rw [bind_assoc, runIn_bind, runIn_itemAt, hitem]
  change (require text.text? >>= _).runIn b = _
  rw [runIn_bind, runIn_require]
  cases text.text? <;> rfl

theorem runIn_beginBlock_of_body {body : Item} (h : b.arena.tag? body = some "bodystmt") :
    (Effect.beginBlock body).runIn b = (Effect.documented "begin" [body]).runIn b := by
  unfold Effect.beginBlock
  rw [runIn_bind, runIn_tagOf]
  dsimp only
  rw [h]
  rfl

theorem runIn_beginBlock_of_ne {body : Item} (h : b.arena.tag? body ≠ some "bodystmt") :
    (Effect.beginBlock body).runIn b = (newNode "begin" [body]).runIn b := by
  unfold Effect.beginBlock
  rw [runIn_bind, runIn_tagOf]
  dsimp only
  rw [if_neg (by simpa using h)]

end BuildM

theorem ofName_of_openedBy {name word : String} (h : name ∈ openedBy word) (hne : name ≠ "begin") :
    Callback.ofName name = .construct name := by
  unfold openedBy at h
  split at h <;> simp only [List.mem_cons, List.not_mem_nil, or_false] at h
  · rcases h with rfl | rfl <;> rfl
  · rcases h with rfl | rfl <;> rfl
  · subst h; rfl
  · subst h; rfl
  · subst h; rfl
  · exact absurd h hne

theorem Builder.comments_meeting {b : Builder} {node : Item} {word : Atom}
    (h : ∀ w ∈ Effect.opensConstruct, word.text? ≠ some w) :
    (b.meeting node word).comments = b.comments := by
  unfold meeting
  split
  · rename_i hopens
    obtain ⟨w, hw, heq⟩ := List.any_eq_true.1 hopens
    exact absurd (eq_of_beq heq) (h w hw)
  · split <;> rfl

namespace Session

variable {s : Session} {e : Event} {word : String}

/-- What a keyword that opens a construct does. -/
theorem Opens.step_eq (h : s.Opens e word) :
    ∃ text, s.step e = (.ok (s.prepare e).2.tokenNode,
      { (s.prepare e).2.withToken "@kw" text with
        comments := (s.prepare e).2.comments.enter (s.prepare e).2.tokenNode }.remembering
          "@kw" text) := by
  obtain ⟨hreads, htext, hword, hname⟩ := h
  rename_i text
  obtain ⟨key, hkey, hkeyword⟩ := Item.key_of_text htext
  -- A word that opens a construct is never `in`, so the first test of the keyword decides.
  have hmeeting (b : Builder) (node : Item) :
      b.meeting node key = { b with comments := b.comments.enter node } := by
    rw [Builder.meeting, hkeyword]
    exact if_pos (by simpa using hword)
  have hstep := hreads.step_eq
  rw [runIn_scan_keyword, prepare_nameNext?, hname] at hstep
  dsimp only at hstep
  rw [hkey] at hstep
  dsimp only at hstep
  rw [hmeeting] at hstep
  exact ⟨text, hstep⟩

/-- The value of a keyword that opens a construct is its token. -/
theorem Opens.items? (h : s.Opens e word) :
    s.value e = (s.prepare e).2.tokenNode ∧
      ∃ text, (s.step e).2.arena.items? (s.value e) =
        some [.str "@kw", text, .list (s.prepare e).2.arena.lists.size] := by
  obtain ⟨text, hstep⟩ := h.step_eq
  have hvalue : s.value e = (s.prepare e).2.tokenNode := by
    rw [value, hstep]
    rfl
  refine ⟨hvalue, text, ?_⟩
  rw [hvalue, hstep, Builder.arena_remembering]
  exact Builder.items?_tokenNode _ _ _

/-- A keyword that opens a construct puts it on the stack, with the comments in
    the buffer, and its node has its position. -/
theorem Opens.step (h : s.Opens e word) :
    s.value e = (s.prepare e).2.tokenNode ∧
      (s.step e).2.comments =
        ⟨"", (s.value e, s.builder.comments.buffer) :: s.builder.comments.stack⟩ ∧
      (s.step e).2.arena.item? (s.value e) 2 = some (.list (s.prepare e).2.arena.lists.size) ∧
      (s.step e).2.arena.items? (.list (s.prepare e).2.arena.lists.size) =
        some [.int e.line, .int e.column] := by
  obtain ⟨text, hstep⟩ := h.step_eq
  have hvalue := h.items?.1
  have harena : (s.step e).2.arena = ((s.prepare e).2.withToken "@kw" text).arena := by
    rw [hstep, Builder.arena_remembering]
  obtain ⟨arena, hprepare⟩ := s.prepare_builder e
  refine ⟨hvalue, ?_, ?_, ?_⟩
  · rw [hvalue, hstep, ← prepare_comments s e]
    rfl
  · rw [hvalue, harena]
    exact Builder.item?_tokenNode _ _ _ 2
  · rw [harena]
    -- The position was added right before the token, so it is still where it was put.
    have hplace := Builder.items?_push_self (s.prepare e).2
      [.int (s.prepare e).2.line, .int (s.prepare e).2.column]
    have hline : (s.prepare e).2.line = e.line ∧ (s.prepare e).2.column = e.column := by
      rw [hprepare]
      exact ⟨rfl, rfl⟩
    rw [hline.1, hline.2] at hplace
    unfold Builder.withToken
    rw [hline.1, hline.2]
    exact Builder.items?_push hplace _

/-- An event that completes a construct takes the one on top. -/
theorem Completes.step_eq (h : s.Completes e word) :
    ∃ args, s.args? e = some args ∧
      s.step e = (Effect.documented e.name args).runIn (s.prepare e).2 := by
  cases h with
  | @construct args _ h hname hbegin =>
    refine ⟨args, h.args_eq, (h.step_eq rfl).trans ?_⟩
    rw [ofName_of_openedBy hname hbegin]
    rfl
  | @block body h hname hbody =>
    refine ⟨[body], h.args_eq, (h.step_eq hname).trans ?_⟩
    rw [hname]
    exact runIn_beginBlock_of_body hbody

theorem Completes.step (h : s.Completes e word) {top : Item × String}
    {rest : List (Item × String)} (htop : s.builder.comments.stack = top :: rest) :
    (s.step e).2.comments = { buffer := "", stack := rest } := by
  obtain ⟨args, -, hstep⟩ := h.step_eq
  rw [← s.prepare_comments e] at htop
  rw [hstep]
  exact documented_comments htop e.name args

theorem Passes.step (h : s.Passes e) :
    (s.step e).2.comments.stack = s.builder.comments.stack := by
  cases h with
  | other h _ =>
    have hwrites : .constructs ∉ e.writes := fun hmem => by
      rcases Event.mem_writes hmem with hmem | hmem
      · exact absurd hmem (by decide)
      · exact h hmem
    exact (congrArg (·.comments.stack) (s.step_keeps hwrites)).symm
  | @keyword text h hno =>
    rw [h.step_eq, runIn_scan_keyword, prepare_nameNext?]
    cases hname : s.builder.nameNext? with
    | none => simp [Builder.withToken, Builder.push]
    | some only =>
      cases only with
      | true => simp [Builder.withToken, Builder.push]
      | false =>
        dsimp only
        cases hword : text.atom?.filter Atom.isKey with
        | none => simp [Builder.withToken, Builder.push]
        | some word =>
          -- A word that opens a construct is excluded, and no other touches the stack.
          have hopens (w : String) (hw : w ∈ Effect.opensConstruct) : word.text? ≠ some w :=
            fun htext => hno w (.intro h ((Item.text_of_key hword).trans htext) hw hname)
          simp [Builder.comments_meeting hopens, Builder.withToken, Builder.push]
  | @pinned body h hname hbody =>
    have hstep := (h.step_eq hname).trans (runIn_beginBlock_of_ne hbody)
    rw [hstep, ← prepare_comments s e]
    rfl

/-- The text that a comment token adds. -/
def comment (s : Session) (e : Event) : String :=
  if e.isToken && e.callback == .comment then
    ((s.args? e).bind fun args => args.head?.bind Item.text?).getD ""
  else ""

/-- The texts of the comment tokens in a sequence. -/
def comments (s : Session) : List Event → String
  | [] => ""
  | e :: es => s.comment e ++ (s.next e).comments es

/-- The next event ends the comments before it. -/
def Clears (s : Session) (e : Event) : Prop :=
  (e.isToken ∧ layout.contains e.name = false) ∨ ∃ word, s.Completes e word

/-- The comments right before a point of a session: those in the buffer at the
    start, or those since an event that has ended the ones before it. -/
inductive Collected (s : Session) : List Event → String → Prop where
  | start {recent : List Event} (h : s.Each (¬ Clears · ·) recent) :
      Collected s recent (s.builder.comments.buffer ++ s.comments recent)
  | since {old recent : List Event} {e : Event} (he : (s.run old).Clears e)
      (h : ((s.run old).next e).Each (¬ Clears · ·) recent) :
      Collected s (old ++ e :: recent) (((s.run old).next e).comments recent)

/-- A token that is not layout ends the comments before it. -/
theorem buffer_of_scan {b c : Builder} {name : String} {text v : Item}
    (hrun : (scan name text).runIn b = (.ok v, c)) (hlayout : layout.contains name = false) :
    c.comments.buffer = "" := by
  obtain ⟨d, rfl⟩ := remembering_of_scan hrun
  rw [Builder.remembering, hlayout]
  rfl

/-- Layout is comments, and tokens that leave a node and nothing more. -/
theorem callback_of_layout {name : String} (h : layout.contains name) :
    Callback.ofName (bareName name) = .comment ∨ Callback.ofName (bareName name) = .plain := by
  have hall : ∀ name ∈ layout, Callback.ofName (bareName name) = .comment ∨
      Callback.ofName (bareName name) = .plain := by decide +kernel
  exact hall name (by simpa using h)

theorem not_number_of_layout {name : String} (h : layout.contains name) :
    Effect.numberTags.contains name = false := by
  have hall : ∀ name ∈ layout, Effect.numberTags.contains name = false := by decide
  exact hall name (by simpa using h)

/-- A comment goes to the buffer. -/
theorem buffer_of_comment {b c : Builder} {name : String} {text v : Item}
    (hcallback : Callback.ofName (bareName name) = .comment) (hlayout : layout.contains name)
    (hrun : (scan name text).runIn b = (.ok v, c)) :
    c.comments.buffer = b.comments.buffer ++ text.text?.getD "" := by
  have hvalue : tokenValue name b.tokenNode = Effect.comment b.tokenNode := by
    unfold tokenValue
    rw [hcallback]
    rfl
  rw [runIn_scan_of_not_number b (not_number_of_layout hlayout), hvalue,
    runIn_comment (Builder.item?_tokenNode b name text 1)] at hrun
  cases htext : text.text? with
  | none =>
    rw [htext] at hrun
    cases hrun
  | some added =>
    rw [htext] at hrun
    cases hrun
    rw [Builder.remembering, if_pos hlayout]
    rfl

theorem Opens.isToken (h : s.Opens e word) : e.isToken := by
  obtain ⟨hreads, -, -, -⟩ := h
  exact hreads.isToken

theorem Completes.isToken (h : s.Completes e word) : e.isToken = false := by
  cases h with
  | construct h | block h => exact h.isToken

/-- An event that completes a construct has it among the tables it writes. -/
theorem Completes.not_passes (h : s.Completes e word) : ¬ s.Passes e := by
  intro hpasses
  -- Events that pass are other callbacks, keywords that open nothing, and pinned expressions.
  cases hpasses with
  | other hwrites _ =>
    rw [Event.callback, h.isToken] at hwrites
    cases h with
    | construct _ hname hbegin =>
      rw [if_neg Bool.false_ne_true, ofName_of_openedBy hname hbegin] at hwrites
      exact hwrites (.tail _ (.head _))
    | block _ hname _ =>
      rw [hname] at hwrites
      exact hwrites (by decide)
  | keyword hreads _ =>
    have htoken := h.isToken
    rw [hreads.isToken] at htoken
    cases htoken
  | pinned hbuilds hname hbody =>
    cases h with
    | construct _ _ hbegin => exact hbegin hname
    | block h _ hbody' =>
      have hargs := Option.some.inj (hbuilds.args_eq.symm.trans h.args_eq)
      rw [List.singleton_inj.1 hargs] at hbody
      exact hbody hbody'

/-- A construct can be completed only if one is open. -/
theorem Completes.buffer (h : s.Completes e word) (hsucceeds : s.Succeeds e) :
    (s.step e).2.comments.buffer = "" := by
  cases hstack : s.builder.comments.stack with
  | cons top rest => rw [h.step hstack]
  | nil =>
    obtain ⟨args, -, hstep⟩ := h.step_eq
    obtain ⟨v, hv⟩ := hsucceeds
    rw [← s.prepare_comments e] at hstack
    rw [hstep, runIn_documented_nil hstack] at hv
    cases hv

/-- An event that is no token and is not about constructs leaves the buffer. -/
theorem buffer_notMem {c : Callback} (h : .constructs ∉ c.writes) (hcomment : c ≠ .comment) :
    .buffer ∉ c.writes := by
  cases c <;> simp_all [Callback.writes]

theorem Passes.buffer (h : s.Passes e) (htoken : e.isToken = false) :
    (s.step e).2.comments.buffer = s.builder.comments.buffer := by
  cases h with
  | other h hcomment =>
    have hne : e.callback ≠ .comment := fun heq => by
      rw [hcomment heq] at htoken
      cases htoken
    -- An event that is no token names what it writes, and the buffer is not among it.
    have hwrites : .buffer ∉ e.writes := by
      rw [Event.writes, htoken]
      simpa using buffer_notMem h hne
    exact (congrArg (·.comments.buffer) (s.step_keeps hwrites)).symm
  | keyword h _ =>
    rw [h.isToken] at htoken
    cases htoken
  | pinned h hname hbody =>
    have hstep := (h.step_eq hname).trans (runIn_beginBlock_of_ne hbody)
    rw [hstep, ← prepare_comments s e]
    rfl

/-- Layout adds its text to the buffer if it is a comment. -/
theorem buffer_of_layout (htoken : e.isToken) (hlayout : layout.contains e.name)
    (hsucceeds : s.Succeeds e) :
    (s.step e).2.comments.buffer = s.builder.comments.buffer ++ s.comment e := by
  have hcallback : e.callback = Callback.ofName (bareName e.name) := by
    rw [Event.callback, if_pos htoken]
  unfold comment
  rw [htoken, hcallback]
  -- Layout is a comment or has no callback of its own.
  rcases callback_of_layout hlayout with hkind | hkind
  · obtain ⟨text, hreads⟩ := reads_of_succeeds hsucceeds htoken
    obtain ⟨v, hv⟩ := hsucceeds
    have hrun : (scan e.name text).runIn (s.prepare e).2 = (.ok v, (s.step e).2) := by
      rw [← hreads.step_eq]
      exact Prod.ext hv rfl
    rw [buffer_of_comment hkind hlayout hrun, prepare_comments, hreads.args_eq, hkind]
    rfl
  · have hwrites : .buffer ∉ e.writes := by
      rw [Event.writes, if_pos htoken, tokenWrites, if_pos hlayout, hkind,
        not_number_of_layout hlayout]
      decide
    have hkeeps : (s.step e).2.comments.buffer = s.builder.comments.buffer :=
      (congrArg (·.comments.buffer) (s.step_keeps hwrites)).symm
    rw [hkind, hkeeps]
    exact String.append_empty.symm

/-- What is in the buffer after an event that ends the comments before it. -/
theorem buffer_of_clears (h : s.Clears e) (hsucceeds : s.Succeeds e) :
    (s.step e).2.comments.buffer = "" := by
  rcases h with ⟨htoken, hlayout⟩ | ⟨word, hcompletes⟩
  · obtain ⟨text, hreads⟩ := reads_of_succeeds hsucceeds htoken
    obtain ⟨v, hv⟩ := hsucceeds
    have hrun : (scan e.name text).runIn (s.prepare e).2 = (.ok v, (s.step e).2) := by
      rw [← hreads.step_eq]
      exact Prod.ext hv rfl
    exact buffer_of_scan hrun hlayout
  · exact hcompletes.buffer hsucceeds

/-- What is in the buffer after any other event. -/
theorem buffer_of_not_clears (h : ¬ s.Clears e) (hpasses : e.isToken = false → s.Passes e)
    (hsucceeds : s.Succeeds e) :
    (s.step e).2.comments.buffer = s.builder.comments.buffer ++ s.comment e := by
  cases htoken : e.isToken with
  | true =>
    refine buffer_of_layout htoken ?_ hsucceeds
    rw [Clears, not_or, htoken] at h
    simpa using h.1
  | false =>
    rw [(hpasses htoken).buffer htoken, comment, htoken]
    exact String.append_empty.symm

end Session

section Nested

open Session

variable {s : Session} {es : List Event}

theorem nested_constructs (h : constructNesting.Nested s es) :
    (s.run es).builder.comments.stack = s.builder.comments.stack :=
  h.restores (·.comments.stack) (fun _ _ => True) (fun _ _ he => Passes.step he)
    (fun _ _ _ he => ⟨_, trivial, congrArg Comments.stack (Opens.step he).2.1⟩)
    fun _ _ _ _ _ he _ htop => congrArg Comments.stack (Completes.step he htop)

/-- The buffer holds the comments right before. -/
theorem collected (hsucceeds : s.Each Succeeds es)
    (hplaced : s.Each (fun t e => e.isToken = false → t.Clears e ∨ t.Passes e) es) :
    s.Collected es (s.run es).builder.comments.buffer := by
  induction es generalizing s with
  | nil =>
    have hstart := Collected.start (each_nil (¬ Clears · ·) s)
    rwa [Session.comments, String.append_empty] at hstart
  | cons e es ih =>
    obtain ⟨he, hes⟩ := each_cons.1 hsucceeds
    obtain ⟨hplace, hplaces⟩ := each_cons.1 hplaced
    have hrest := ih hes hplaces
    rw [run_cons]
    generalize ((s.next e).run es).builder.comments.buffer = text at hrest ⊢
    cases hrest with
    -- What clears the buffer later on is still the last event that does.
    | @since old recent f hclears hquiet =>
      have hsince : s.Collected ((e :: old) ++ f :: recent) _ := .since hclears hquiet
      exact hsince
    | start hquiet =>
      change s.Collected _ ((s.step e).2.comments.buffer ++ _)
      -- After that nothing clears it, so it is this event or none.
      by_cases hclears : s.Clears e
      · rw [buffer_of_clears hclears he, String.empty_append]
        have hsince : s.Collected ([] ++ e :: es) _ := .since hclears hquiet
        exact hsince
      · have hpasses (htoken : e.isToken = false) : s.Passes e :=
          (hplace htoken).resolve_left hclears
        rw [buffer_of_not_clears hclears hpasses he, String.append_assoc]
        exact .start (each_cons.2 ⟨hclears, hquiet⟩)

/-- The position of a token stays where it is: no event changes it, as long as no
    value refers to it. -/
theorem stable_position (node : Item) (id : Nat) (line column : Int) (tables : List Table) :
    Stable (fun b => b.arena.item? node 2 = some (.list id) ∧
      b.arena.items? (.list id) = some [.int line, .int column]) (· ≠ .list id) tables where
  atom a := nofun
  fresh := by
    rintro b ⟨-, hplace⟩ hid
    injection hid with hid
    obtain ⟨hlt, -⟩ := Array.getElem?_eq_some_iff.1 hplace
    omega
  push xs hP := ⟨Builder.item?_push hP.1 xs, Builder.items?_push hP.2 xs⟩
  grow x hP hv hxs := by
    refine ⟨Builder.item?_setItems hP.1 hxs fun hi => ?_, ?_⟩
    · rw [List.getElem?_append_left (List.getElem?_eq_some_iff.1 hi).1]
      exact hi
    · rw [Builder.items?_setItems_ne hv]
      exact hP.2
  replace := by
    intro b v item xs i piece hP hv hxs hi htag
    refine ⟨Builder.item?_setItems hP.1 hxs fun hplace => ?_, ?_⟩
    · -- What is replaced is content, and the position is none.
      have hne : i ≠ 2 := by
        rintro rfl
        obtain rfl := Option.some.inj (hi.symm.trans hplace)
        rw [Arena.tag?, hP.2] at htag
        cases htag
      rw [List.getElem?_set_ne hne]
      exact hplace
    · rw [Builder.items?_setItems_ne hv]
      exact hP.2
  write {b t} _ source hP := by cases t <;> exact hP

/-- No value refers to the position of a keyword. -/
theorem values_ne_position {opener : Event} {word : String} (h : s.Opens opener word) :
    ∀ p ∈ (s.next opener).values, p.2 ≠ .list (s.prepare opener).2.arena.lists.size := by
  refine List.forall_mem_cons.2 ⟨?_, fun p hp hid => ?_⟩
  · change s.value opener ≠ _
    rw [h.step.1, Builder.tokenNode]
    intro hid
    injection hid with hid
    omega
  · -- What was a value before is older than the position.
    have hlt := s.known p hp _ hid
    have hle := prepare_stable (e := opener) (stable_size s.builder.arena.lists.size [.place])
      List.mem_cons_self (Nat.le_refl _) fun _ _ => trivial
    omega

/-- What the event that completes a construct finds when its turn comes: the
    keyword with its comments on top, and the position where it was. -/
theorem open_of_opens {opener e : Event} {word : String} {c : Builder} (h : s.Opens opener word)
    (hes : constructNesting.Nested (s.next opener) es)
    (hc : (((s.next opener).run es).prepare e).2 = c) :
    c.comments.stack = (s.value opener, s.builder.comments.buffer) :: s.builder.comments.stack ∧
      ∃ id, c.arena.item? (s.value opener) 2 = some (.list id) ∧
        c.arena.items? (.list id) = some [.int opener.line, .int opener.column] := by
  obtain ⟨-, hcomments, hposition⟩ := h.step
  -- The position is a list of its own, and no value of the run is that list.
  have hstable := stable_position (s.value opener) (s.prepare opener).2.arena.lists.size
    opener.line opener.column (.place :: es.flatMap Event.writes)
  obtain ⟨hrun, hreach⟩ := run_stable (s := s.next opener) hstable
    (fun f hf t ht => .tail _ (List.mem_flatMap.2 ⟨f, hf, ht⟩)) hposition (values_ne_position h)
  subst hc
  refine ⟨?_, _, prepare_stable hstable List.mem_cons_self hrun hreach⟩
  rw [prepare_comments, nested_constructs hes]
  exact congrArg Comments.stack hcomments

/-- A construct that is complete has the position of its keyword, and the comments
    that were in the buffer before it. -/
theorem documents_of_completes {opener done : Event} {inside : List Event} {word : String}
    (hopener : s.Opens opener word) (hinside : constructNesting.Nested (s.next opener) inside)
    (hdone : ((s.next opener).run inside).Completes done word) :
    ∃ args v c, ((s.next opener).run inside).args? done = some args ∧
      ((s.next opener).run inside).step done = (.ok v, c) ∧
      c.Documents v s.builder.comments.buffer done.name args opener.line opener.column := by
  obtain ⟨args, hargs, hstep⟩ := hdone.step_eq
  generalize hc : (((s.next opener).run inside).prepare done).2 = c at hstep
  obtain ⟨hstack, id, hitem, hplace⟩ := open_of_opens hopener hinside hc
  rw [runIn_documented hstack] at hstep
  dsimp only at hstep
  rw [Builder.item?_push hitem] at hstep
  exact ⟨args, _, _, hargs, hstep, Builder.documents_push hplace _ _ args _⟩

/-- Every construct has its own comments and the position of its own keyword. -/
theorem comments_and_position_of_own_keyword (h : constructNesting.Nested s es)
    (hsucceeds : s.Each Succeeds es) :
    (s.run es).builder.comments.stack = s.builder.comments.stack ∧
      ∀ front done after, es = front ++ done :: after →
        (∃ word, (s.run front).Completes done word) →
        ∃ before opener inside word text args v c, front = before ++ opener :: inside ∧
          (s.run before).Opens opener word ∧
          constructNesting.Nested ((s.run before).next opener) inside ∧
          (s.run front).Completes done word ∧ s.Collected before text ∧
          (s.run front).args? done = some args ∧ (s.run front).step done = (.ok v, c) ∧
          c.Documents v text done.name args opener.line opener.column := by
  -- An event that is no token clears the buffer or passes, as it opens nothing.
  have hplaced : s.Each (fun t e => e.isToken = false → t.Clears e ∨ t.Passes e) es := by
    intro front e after hes htoken
    cases h.placed hes with
    | single he => exact .inr he
    | opens he => exact absurd (Opens.isToken he) (by simp [htoken])
    | closes hopener hinside he =>
      rw [run_append, run_cons]
      exact .inl (.inr ⟨_, he⟩)
  refine ⟨nested_constructs h, fun front done after hes hcompletes => ?_⟩
  obtain ⟨word, hcompletes⟩ := hcompletes
  cases h.placed hes with
  | single he => exact absurd he hcompletes.not_passes
  | opens he => exact absurd (Opens.isToken he) (by simp [hcompletes.isToken])
  | @closes before inside opener _ k hopener hinside he =>
    obtain ⟨args, v, c, hargs, hstep, hdocuments⟩ := documents_of_completes hopener hinside he
    rw [run_append, run_cons]
    refine ⟨before, opener, inside, k, _, args, v, c, rfl, hopener, hinside, he, ?_, hargs, hstep,
      hdocuments⟩
    -- Only what comes before the keyword is collected for it.
    rw [List.append_assoc] at hes
    rw [hes] at hsucceeds hplaced
    exact collected hsucceeds.of_append hplaced.of_append

end Nested

section Samples

open Session

/-- A method with a comment of its own. -/
def documentedMethod : List Event :=
  .token 3 3 "@comment" "# inner\n" :: .token 4 4 "@kw" "def" ::
    ([.token 5 4 "@ident" "f", .token 6 5 "@kw" "end"] ++
      [.construct 7 5 "def" [.ref 5, .atom .null, .atom .null]])

/-- A class with a comment and with the method in it. -/
def documentedClass : List Event :=
  .token 0 1 "@comment" "# outer\n" :: .token 1 2 "@kw" "class" ::
    ((.token 2 2 "@const" "A" :: (documentedMethod ++ [.token 8 6 "@kw" "end"])) ++
      [.construct 9 6 "class" [.ref 2, .atom .null, .ref 7]])

/-- A keyword that opens nothing passes, wherever it stands. -/
theorem passes_end (s : Session) (id line : Nat) : s.Passes (.token id line "@kw" "end") := by
  have hreads : s.Reads (.token id line "@kw" "end") "@kw" (.str "end") :=
    ⟨(by decide : (Event.token 0 0 "@kw" "end").isToken), rfl, rfl⟩
  refine .keyword hreads ?_
  rintro word ⟨hreads', htext, hword, -⟩
  cases hreads.args_eq.symm.trans hreads'.args_eq
  cases htext
  exact absurd hword (by decide)

theorem nested_documentedMethod {s : Session}
    (hname : (s.next (.token 3 3 "@comment" "# inner\n")).builder.nameNext? = some false) :
    constructNesting.Nested s documentedMethod := by
  refine .single (.other (by decide +kernel) fun _ => by decide) ?_
  refine .pair (k := "def") (.intro ⟨by decide, rfl, rfl⟩ rfl (by decide) hname)
    (.single (.other (by decide +kernel) fun _ => by decide)
      (.single (passes_end _ 6 5) (.nil _))) ?_ (.nil _)
  exact .construct ⟨by decide, rfl⟩ (by decide) (by decide)

theorem nested_documentedClass : constructNesting.Nested initial documentedClass := by
  refine .single (.other (by decide +kernel) fun _ => by decide) ?_
  refine .pair (k := "class") (.intro ⟨by decide, rfl, rfl⟩ rfl (by decide) (by decide +kernel))
    (.single (.other (by decide +kernel) fun _ => by decide) ?_) ?_ (.nil _)
  · exact (nested_documentedMethod (by decide +kernel)).append
      (.single (passes_end _ 8 6) (.nil _))
  · exact @Completes.construct _ _ [.list 5, .null, .list 15] _ ⟨by decide, by decide +kernel⟩
      (by decide) (by decide)

theorem succeeds_documentedClass : initial.Each Succeeds documentedClass := by
  decide +kernel

theorem comments_and_position_of_own_keyword_documentedClass :
    constructNesting.Nested initial documentedClass ∧ initial.Each Succeeds documentedClass ∧
      (initial.run documentedClass).builder.comments.stack = [] ∧
      ∃ before opener inside word text args v c,
        documentedClass.dropLast = before ++ opener :: inside ∧
          (initial.run before).Opens opener word ∧
          constructNesting.Nested ((initial.run before).next opener) inside ∧
          initial.Collected before text ∧
          (initial.run documentedClass.dropLast).step
            (.construct 9 6 "class" [.ref 2, .atom .null, .ref 7]) = (.ok v, c) ∧
          c.Documents v text "class" args opener.line opener.column := by
  obtain ⟨hstack, hconstructs⟩ :=
    comments_and_position_of_own_keyword nested_documentedClass succeeds_documentedClass
  -- The arguments of the last event are the name, no parent, and the body.
  have hcompletes : (initial.run documentedClass.dropLast).Completes
      (.construct 9 6 "class" [.ref 2, .atom .null, .ref 7]) "class" :=
    @Completes.construct _ _ [.list 5, .null, .list 15] _ ⟨by decide, by decide +kernel⟩
      (by decide) (by decide)
  obtain ⟨before, opener, inside, word, text, args, v, c, hfront, hopener, hinside, -, htext, -,
    hstep, hdocuments⟩ := hconstructs documentedClass.dropLast _ [] rfl ⟨_, hcompletes⟩
  exact ⟨nested_documentedClass, succeeds_documentedClass, hstack, before, opener, inside, word,
    text, args, v, c, hfront, hopener, hinside, htext, hstep, hdocuments⟩

end Samples

end RubyTree
