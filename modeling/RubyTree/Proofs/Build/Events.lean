import RubyTree.Proofs.Build.Lockstep

/-!
# What Events Can Do

Each callback goes in lockstep, and so do tokens, constructs and whole events.
There is one lemma for each callback: it takes the builder through the reads and
changes that the callback is made of. Everything that is to hold of all events is
derived from the last of these lemmas, and no other proof opens a callback.

Two things about the builder are not the same in builders that are alike: the
last tokens, which decide whether a number has a sign and whether a keyword is a
name, and the texts of keywords. So the lemmas ask for as much of them as the
callback reads.

## Main definitions

* `tokenWrites`, `Event.writes`: The tables a token and an event write.
* `Event.callback`: What an event does.
* `Event.Raises`: The errors an event may fail with.

## Theorems

* `Lockstep.run`: Callbacks go in lockstep.
* `Lockstep.scan`: So do tokens.
* `Lockstep.replayEvent`: And events with their arguments.
-/

namespace RubyTree

namespace BuildM

namespace Lockstep

variable {R : Builder → Builder → Prop} {reach : Item → Prop} {tables : List Table}
  {E : Error → Prop} {b b' : Builder}

/-- An operator goes onto both stacks. -/
theorem pushOperator (h : Lockstep R reach tables) (ht : .operators ∈ tables) (hR : R b b')
    (op : String) :
    Together R (fun _ => True) E ((Effect.pushOperator op).runIn b)
      ((Effect.pushOperator op).runIn b') := by
  refine ⟨?_, .ok trivial⟩
  simp only [Effect.pushOperator, runIn_modify, (h.alike hR).operators]
  exact h.setOperators ht hR _

/-- The stacks are related, so the same operator is on top of both. -/
theorem claimOperator (h : Lockstep R reach tables) (ht : .operators ∈ tables) (hR : R b b')
    (op : String) :
    Together R (fun _ => True) E ((Effect.claimOperator op).runIn b)
      ((Effect.claimOperator op).runIn b') := by
  refine ⟨?_, .ok trivial⟩
  simp only [Effect.claimOperator, runIn_modify, (h.alike hR).operators]
  cases b'.operators with
  | nil => exact hR
  | cons top rest =>
    dsimp only
    split
    · exact h.setOperators ht hR rest
    · exact hR

/-- A delimiter goes onto both stacks. -/
theorem pushDelimiter (h : Lockstep R reach tables) (ht : .delimiters ∈ tables) (hR : R b b')
    (d : Item) :
    Together R (fun _ => True) E ((Effect.pushDelimiter d).runIn b)
      ((Effect.pushDelimiter d).runIn b') := by
  refine ⟨?_, .ok trivial⟩
  simp only [Effect.pushDelimiter, runIn_modify, (h.alike hR).delimiters]
  exact h.setDelimiters ht hR _

section Constructs

/-- Both buffers take the same text, since the tokens show it. -/
theorem comment (h : Lockstep R reach tables) (ht : .buffer ∈ tables) (hR : R b b')
    (hshape : E .shape) {node : Item} (hnode : reach node)
    (hitem : b.arena.item? node 1 = b'.arena.item? node 1) :
    Together R reach E ((Effect.comment node).runIn b) ((Effect.comment node).runIn b') := by
  unfold Effect.comment BuildM.textAt
  rw [bind_assoc]
  refine together_itemAt hR hshape hitem fun x _ => ?_
  refine together_require hR hshape x.text? fun text _ => ?_
  refine together_modify (together_pure ?_ hnode)
  simp only [Comments.add, (h.alike hR).comments]
  have hbuffer := h.setBuffer ht hR (b'.comments.buffer ++ text)
  rw [(h.alike hR).comments] at hbuffer
  exact hbuffer

/-- The word is the same on both sides, so a construct opens in both or in none. -/
theorem keyword (h : Lockstep R reach tables) (hbuffer : .buffer ∈ tables)
    (hconstructs : .constructs ∈ tables) (hoperators : .operators ∈ tables) (hR : R b b')
    (hshape : E .shape) (hname : b.nameNext? = b'.nameNext?) {node : Item} (hnode : reach node)
    (hitem : b.arena.item? node 1 = b'.arena.item? node 1) :
    Together R reach E ((Effect.keyword node).runIn b) ((Effect.keyword node).runIn b') := by
  unfold Effect.keyword BuildM.key
  refine together_namePosition hR hshape hname fun only => ?_
  split
  · exact together_pure hR hnode
  refine together_itemAt hR hshape hitem fun x _ => together_require hR hshape _ fun word _ => ?_
  split
  · -- Both runs have the same comments, so they enter the construct with the same buffer.
    refine together_modify (together_pure ?_ hnode)
    rw [(h.alike hR).comments]
    exact h.setComments hbuffer hconstructs hR _
  split
  · exact together_bind (h.pushOperator hoperators hR "in") fun _ _ _ _ hR =>
      together_pure hR hnode
  · exact together_pure hR hnode

/-- The construct takes back the comments on top of both stacks. -/
theorem documented (h : Lockstep R reach tables) (hbuffer : .buffer ∈ tables)
    (hconstructs : .constructs ∈ tables) (hR : R b b') (hshape : E .shape)
    (hopen : E .noOpenConstruct) (tag : String) (args : List Item) :
    Together R reach E ((Effect.documented tag args).runIn b)
      ((Effect.documented tag args).runIn b') := by
  unfold Effect.documented
  refine together_bind (h.newNode hR tag args) fun node c c' hnode hR => together_get ?_
  rw [(h.alike hR).comments]
  unfold Comments.leave
  cases c'.comments.stack with
  | nil => exact together_throw hR hopen
  | cons top rest =>
    -- From here on the construct is closed in both runs, whatever fails later.
    refine together_modify ?_
    have hR := h.setComments hbuffer hconstructs hR { buffer := "", stack := rest }
    refine together_itemAt hR hshape ((h.alike hR).item? top.1 (by decide)) fun place _ => ?_
    refine together_bind (h.append hR hshape hnode place) fun _ c c' _ hR => ?_
    exact h.newNode hR "comment" _

/-- Whether a block is a construct is read off the tag of its body. -/
theorem beginBlock (h : Lockstep R reach tables) (hbuffer : .buffer ∈ tables)
    (hconstructs : .constructs ∈ tables) (hR : R b b') (hshape : E .shape)
    (hopen : E .noOpenConstruct) (body : Item) :
    Together R reach E ((Effect.beginBlock body).runIn b)
      ((Effect.beginBlock body).runIn b') := by
  unfold Effect.beginBlock
  refine h.tagOf hR body ?_
  split
  · exact h.documented hbuffer hconstructs hR hshape hopen "begin" [body]
  · exact h.newNode hR "begin" [body]

end Constructs

section Literals

/-- The delimiter of a literal is the text of its token. -/
theorem openLiteral (h : Lockstep R reach tables) (ht : .delimiters ∈ tables) (hR : R b b')
    (hshape : E .shape) {node : Item} (hnode : reach node)
    (hitem : b.arena.item? node 1 = b'.arena.item? node 1) :
    Together R reach E ((Effect.openLiteral node).runIn b)
      ((Effect.openLiteral node).runIn b') := by
  unfold Effect.openLiteral
  refine together_itemAt hR hshape hitem fun d _ => ?_
  exact together_bind (h.pushDelimiter ht hR d) fun _ _ _ _ hR => together_pure hR hnode

/-- The delimiter of a word list, without its white space. -/
theorem openWords (h : Lockstep R reach tables) (ht : .delimiters ∈ tables) (hR : R b b')
    (hshape : E .shape) {node : Item} (hnode : reach node)
    (hitem : b.arena.item? node 1 = b'.arena.item? node 1) :
    Together R reach E ((Effect.openWords node).runIn b) ((Effect.openWords node).runIn b') := by
  unfold Effect.openWords
  refine together_itemAt hR hshape hitem fun d _ => together_require hR hshape _ fun trimmed _ => ?_
  exact together_bind (h.pushDelimiter ht hR trimmed) fun _ _ _ _ hR => together_pure hR hnode

/-- Both stacks lose a delimiter, or both are empty. -/
theorem closeLiteral (h : Lockstep R reach tables) (ht : .delimiters ∈ tables) (hR : R b b')
    (hshape : E .shape) (hunbalanced : ∀ token line, E (.unbalancedDelimiter token line))
    {node : Item} (hnode : reach node) :
    Together R reach E ((Effect.closeLiteral node).runIn b)
      ((Effect.closeLiteral node).runIn b') := by
  unfold Effect.closeLiteral
  refine together_get ?_
  rw [(h.alike hR).delimiters]
  cases b'.delimiters with
  | cons d rest => exact ⟨h.setDelimiters ht hR rest, .ok hnode⟩
  | nil =>
    -- Both fail, if with different tokens.
    have hfails (c : Builder) (line : Int) : FailsIn E (do
        throw (.unbalancedDelimiter (← freeze (← BuildM.itemAt node 1)) line) : BuildM Item) c :=
      failsIn_read hshape (runIn_itemAt c node 1) fun x =>
        failsIn_read hshape (runIn_freeze c x) fun r => failsIn_throw (hunbalanced r line)
    exact together_fails hR (hfails b b.line) (hfails b' b'.line)

/-- Whether a backtick is a name is read off tables that agree. -/
theorem backtick (h : Lockstep R reach tables) (ht : .delimiters ∈ tables) (hR : R b b')
    (hshape : E .shape) (hname : b.nameNext? = b'.nameNext?) {node : Item} (hnode : reach node)
    (hitem : b.arena.item? node 1 = b'.arena.item? node 1) :
    Together R reach E ((Effect.backtick node).runIn b) ((Effect.backtick node).runIn b') := by
  unfold Effect.backtick
  refine together_namePosition hR hshape hname fun only => ?_
  split
  · exact together_pure hR hnode
  · exact h.openLiteral ht hR hshape hnode hitem

/-- A symbol is open on both sides. -/
theorem openSymbol (h : Lockstep R reach tables) (hsymbol : .symbol ∈ tables)
    (hdelimiters : .delimiters ∈ tables) (hR : R b b') (hshape : E .shape) {node : Item}
    (hnode : reach node) (hitem : b.arena.item? node 1 = b'.arena.item? node 1) :
    Together R reach E ((Effect.openSymbol node).runIn b) ((Effect.openSymbol node).runIn b') := by
  unfold Effect.openSymbol
  exact together_modify (h.openLiteral hdelimiters (h.setSymbol hsymbol hR true) hshape hnode hitem)

/-- A symbol is over, and its colon is taken back. -/
theorem closeSymbol (h : Lockstep R reach tables) (hsymbol : .symbol ∈ tables)
    (hdelimiters : .delimiters ∈ tables) (hR : R b b') (args : List Item) :
    Together R reach E ((Effect.closeSymbol args).runIn b)
      ((Effect.closeSymbol args).runIn b') := by
  unfold Effect.closeSymbol
  refine together_modify (h.newNode ?_ "symbol" args)
  rw [(h.alike hR).delimiters]
  exact h.setDelimiters hdelimiters (h.setSymbol hsymbol hR false) _

/-- A symbol in quotes is over. -/
theorem closeQuotedSymbol (h : Lockstep R reach tables) (ht : .symbol ∈ tables) (hR : R b b')
    (args : List Item) :
    Together R reach E ((Effect.closeQuotedSymbol args).runIn b)
      ((Effect.closeQuotedSymbol args).runIn b') := by
  unfold Effect.closeQuotedSymbol
  exact together_modify (h.newNode (h.setSymbol ht hR false) "dyna_symbol" args)

/-- Code in a literal is outside of any symbol. -/
theorem interpolation (h : Lockstep R reach tables) (ht : .symbol ∈ tables) (hR : R b b')
    {node : Item} (hnode : reach node) :
    Together R reach E ((Effect.interpolation node).runIn b)
      ((Effect.interpolation node).runIn b') := by
  unfold Effect.interpolation
  exact together_modify (together_pure (h.setSymbol ht hR false) hnode)

/-- The delimiter on top goes into both tokens. -/
theorem content (h : Lockstep R reach tables) (hR : R b b') (hshape : E .shape) {node : Item}
    (hnode : reach node) :
    Together R reach E ((Effect.content node).runIn b) ((Effect.content node).runIn b') := by
  unfold Effect.content
  refine together_get ?_
  rw [(h.alike hR).delimiters]
  exact together_bind (h.append hR hshape hnode _) fun _ _ _ _ hR => together_pure hR hnode

end Literals

section Operators

/-- An arrow goes onto the stack of operators. -/
theorem operator (h : Lockstep R reach tables) (ht : .operators ∈ tables) (hR : R b b')
    (hshape : E .shape) {node : Item} (hnode : reach node)
    (hitem : b.arena.item? node 1 = b'.arena.item? node 1) :
    Together R reach E ((Effect.operator node).runIn b) ((Effect.operator node).runIn b') := by
  unfold Effect.operator
  refine together_itemAt hR hshape hitem fun op _ => ?_
  split
  · exact together_bind (h.pushOperator ht hR "=>") fun _ _ _ _ hR => together_pure hR hnode
  · exact together_pure hR hnode

/-- The operator on top says what becomes of a clause. -/
theorem clause (h : Lockstep R reach tables) (ht : .operators ∈ tables) (hR : R b b')
    (hmissing : E .missingOperator) (hunexpected : ∀ op, E (.unexpectedOperator op))
    (args : List Item) :
    Together R reach E ((Effect.clause args).runIn b) ((Effect.clause args).runIn b') := by
  unfold Effect.clause
  refine together_get ?_
  rw [(h.alike hR).operators]
  cases b'.operators with
  | nil => exact together_throw hR hmissing
  | cons op rest =>
    have hR := h.setOperators ht hR rest
    -- The operator is taken off before its kind is known.
    refine together_modify (f := fun _ => _) (g := fun _ => _) ?_
    split
    · exact h.newNode hR "in" args
    split
    · exact h.newNode hR "right_assign" args
    · exact together_throw hR (hunexpected op)

/-- A capture takes its arrow, other operations none. -/
theorem binary (h : Lockstep R reach tables) (ht : .operators ∈ tables) (hR : R b b')
    (hmissing : ∀ found, E (.missingArrow found)) (left op right : Item) :
    Together R reach E ((Effect.binary left op right).runIn b)
      ((Effect.binary left op right).runIn b') := by
  unfold Effect.binary
  split
  · -- Only `=>` looks at the operators that are pending.
    refine together_get ?_
    rw [(h.alike hR).operators]
    cases b'.operators with
    | nil => exact together_throw hR (hmissing "nothing")
    | cons top rest =>
      dsimp only
      split
      · exact together_bind (h.claimOperator ht hR "=>") fun _ _ _ _ hR => h.newNode hR "binary" _
      · exact together_throw hR (hmissing top)
  · exact h.newNode hR "binary" _

/-- The key is a label on both sides or on neither. -/
theorem pair (h : Lockstep R reach tables) (ht : .operators ∈ tables) (hR : R b b')
    (hshape : E .shape) (key value : Item) :
    Together R reach E ((Effect.pair key value).runIn b) ((Effect.pair key value).runIn b') := by
  unfold Effect.pair
  refine together_read hR hshape (runIn_isLabel b key) (runIn_isLabel b' key)
    ((h.alike hR).isLabel? key) fun label _ => ?_
  split
  · exact together_bind (h.claimOperator ht hR "=>") fun _ _ _ _ hR => h.newNode hR "assoc_new" _
  · exact h.newNode hR "assoc_new" _

/-- A clause with a variable takes its arrow. -/
theorem rescue (h : Lockstep R reach tables) (ht : .operators ∈ tables) (hR : R b b')
    (hshape : E .shape) (args : List Item) :
    Together R reach E ((Effect.rescue args).runIn b) ((Effect.rescue args).runIn b') := by
  unfold Effect.rescue
  split
  · refine together_get ?_
    rw [(h.alike hR).isEmpty]
    split
    · exact together_bind (h.claimOperator ht hR "=>") fun _ _ _ _ hR => h.newNode hR "rescue" _
    · exact h.newNode hR "rescue" _
  · exact together_throw hR hshape

/-- A `for` loop takes its `in`. -/
theorem loop (h : Lockstep R reach tables) (ht : .operators ∈ tables) (hR : R b b')
    (args : List Item) :
    Together R reach E ((Effect.loop args).runIn b) ((Effect.loop args).runIn b') := by
  unfold Effect.loop
  exact together_bind (h.claimOperator ht hR "in") fun _ _ _ _ hR => h.newNode hR "for" args

end Operators

section Lists

/-- Content with less indentation is a new value. -/
theorem withoutIndent (h : Growing R reach) (hR : R b b') (hshape : E .shape)
    (width content : Item) :
    Together R reach E ((Effect.withoutIndent width content).runIn b)
      ((Effect.withoutIndent width content).runIn b') := by
  cases content with
  | atom a =>
    unfold Effect.withoutIndent
    exact together_require hR hshape _ fun left _ => together_pure hR (h.atom left)
  | list id =>
    unfold Effect.withoutIndent
    refine h.itemsOf hR hshape (.list id) fun xs ys hxs hys hitems => ?_
    -- Texts within the items may differ, and what is cut off does not depend on them.
    have hdedent := blurItems_dedentElements? hitems width.atom?
    have heq : b = b' → xs = ys := fun hb => by
      subst hb
      exact Option.some.inj (hxs.symm.trans hys)
    rw [runIn_bind, runIn_bind, runIn_require, runIn_require]
    cases hzs : dedentElements? (·.text?.bind Text.onlyChar?) width.atom? xs with
    | none =>
      cases hzs' : dedentElements? (·.text?.bind Text.onlyChar?) width.atom? ys with
      | none => exact ⟨hR, .error hshape⟩
      | some zs' => rw [hzs, hzs'] at hdedent; cases hdedent
    | some zs =>
      cases hzs' : dedentElements? (·.text?.bind Text.onlyChar?) width.atom? ys with
      | none => rw [hzs, hzs'] at hdedent; cases hdedent
      | some zs' =>
        rw [hzs, hzs'] at hdedent
        refine h.newList hR (Option.some.inj hdedent) fun hb => ?_
        rw [heq hb] at hzs
        exact Option.some.inj (hzs.symm.trans hzs')

/-- The loop over the parts. A part is replaced only where it stands, so the
    parts still to come are those of the list. -/
theorem dedentItems (h : Replacing R reach) (hshape : E .shape) {parts : Item}
    (hparts : reach parts) (width : Item) (items : List Item) {place : Nat} {lineStart : Bool}
    {xs : List Item} (hR : R b b') (hxs : b.arena.items? parts = some xs)
    (hrest : xs.drop place = items) :
    Together R (fun _ => True) E
      ((Effect.dedentItems parts width place lineStart items).runIn b)
      ((Effect.dedentItems parts width place lineStart items).runIn b') := by
  -- The parts change while they are gone through: what is left to do is what the list has left.
  induction items generalizing place lineStart b b' xs with
  | nil =>
    unfold Effect.dedentItems
    exact together_pure hR trivial
  | cons item rest ih =>
    have hplace : xs[place]? = some item := by
      rw [← List.head?_drop, hrest]
      rfl
    have hnext : xs.drop (place + 1) = rest := by
      rw [← List.tail_drop, hrest]
      rfl
    unfold Effect.dedentItems
    refine h.tagOf hR item ?_
    split
    · exact ih hR hxs hnext
    rename_i htag
    rw [bne_iff_ne, Decidable.not_not] at htag
    refine together_itemAt hR hshape ((h.alike hR).item?_of_tag htag (by decide) 1) fun text _ => ?_
    split
    · -- The new lists leave the parts, and the piece that is replaced, as they are.
      have hgrowing := h.toGrowing.holding (P := fun c _ => c.arena.items? parts = some xs ∧
          c.arena.tag? item = some "@tstring_content") fun c _ zs _ hc =>
        ⟨Builder.items?_push hc.1 zs, Builder.tag?_push hc.2 zs⟩
      refine together_bind_of (fun _ _ hR => hR.1)
        (withoutIndent hgrowing ⟨hR, hxs, htag⟩ hshape width text) fun left c c' _ hR => ?_
      refine h.itemsOf hR.1 hshape item fun zs zs' hzs hzs' _ => ?_
      have hsame := (h.alike hR.1).items?_of_tag hR.2.2 (by decide)
      obtain rfl : zs = zs' := Option.some.inj (hzs.symm.trans (hsame.trans hzs'))
      refine together_bind_of (fun _ _ hR => hR.1) (hgrowing.newList hR rfl fun _ => rfl)
        fun piece c c' _ hR => ?_
      refine h.itemsOf hR.1 hshape parts fun us vs hus hvs _ => ?_
      obtain rfl : us = xs := Option.some.inj (hus.symm.trans hR.2.1)
      refine together_modify ?_
      have hR' : R (c.setItems parts (us.set place piece))
          (c'.setItems parts (vs.set place piece)) :=
        h.replace hR.1 hparts hus hvs hplace hR.2.2
      refine together_require hR' hshape _ fun line _ => ?_
      refine ih hR' (Builder.items?_setItems_self hus _) ?_
      rw [List.drop_set_of_lt (Nat.lt_succ_self place), hnext]
    · exact together_require hR hshape _ fun line _ => ih hR hxs hnext

/-- What is no list is passed over. -/
theorem dedentItems_atom (parts width : Item) (place : Nat) (lineStart : Bool) (a : Atom)
    (rest : List Item) :
    Effect.dedentItems parts width place lineStart (.atom a :: rest) =
      Effect.dedentItems parts width (place + 1) lineStart rest := by
  rw [Effect.dedentItems]
  rfl

/-- Lines of a heredoc, each with its indentation cut off. -/
theorem dedent (h : Replacing R reach) (hR : R b b') (hshape : E .shape) {parts : Item}
    (hparts : reach parts) (width : Item) :
    Together R reach E ((Effect.dedent parts width).runIn b)
      ((Effect.dedent parts width).runIn b') := by
  unfold Effect.dedent
  split
  · refine h.itemsOf hR hshape parts fun xs ys hxs hys hitems => ?_
    rcases blurItems_eq_iff.1 hitems with rfl | ⟨word, word', rest, rfl, rfl⟩
    · exact together_bind (dedentItems h hshape hparts width xs hR hxs rfl) fun _ _ _ _ hR =>
        together_pure hR hparts
    · -- The parts of a keyword token start with two atoms, which are no content.
      rw [dedentItems_atom, dedentItems_atom, dedentItems_atom, dedentItems_atom]
      exact together_bind (dedentItems h hshape hparts width rest hR hxs rfl) fun _ _ _ _ hR =>
        together_pure hR hparts
  · exact together_pure hR hparts

/-- A sign goes into a number that was scanned behind it on both sides. -/
theorem foldSign (h : Lockstep R reach tables) (hR : R b b') (hshape : E .shape)
    (op value : Item) :
    Together R reach E ((Effect.foldSign op value).runIn b)
      ((Effect.foldSign op value).runIn b') := by
  unfold Effect.foldSign
  refine h.tagOf hR value ?_
  cases Effect.sign? op with
  | none => exact h.newNode hR "unary" _
  | some sign =>
    refine together_get ?_
    rw [(h.alike hR).signed]
    split
    · rename_i hnumber
      -- Only keyword tokens may differ in their text, and a number is none.
      have hitem (i : Nat) : b.arena.item? value i = b'.arena.item? value i := by
        cases htag : b.arena.tag? value with
        | none =>
          rw [htag] at hnumber
          cases hnumber
        | some tag =>
          refine (h.alike hR).item?_of_tag htag ?_ i
          rintro rfl
          rw [htag] at hnumber
          exact absurd (Bool.and_eq_true_iff.1 hnumber).1 (by decide)
      unfold BuildM.textAt
      rw [bind_assoc]
      refine together_itemAt hR hshape (hitem 1) fun x _ =>
        together_require hR hshape x.text? fun text _ => ?_
      split
      · refine together_itemAt hR hshape (hitem 1) fun y _ => ?_
        refine together_itemAt hR hshape (hitem 0) fun z _ => ?_
        refine together_itemAt hR hshape (hitem 2) fun w _ => ?_
        exact h.newList hR rfl fun _ => rfl
      · exact h.newNode hR "unary" _
    · exact h.newNode hR "unary" _

/-- One more item, in the list itself. -/
theorem addItem (h : Lockstep R reach tables) (hR : R b b') (hshape : E .shape) {items : Item}
    (hitems : reach items) (item : Item) :
    Together R reach E ((Effect.addItem items item).runIn b)
      ((Effect.addItem items item).runIn b') := by
  unfold Effect.addItem
  exact together_bind (h.append hR hshape hitems item) fun _ _ _ _ hR => together_pure hR hitems

/-- One more target, in the list itself or in a new node. -/
theorem addTarget (h : Lockstep R reach tables) (hR : R b b') (hshape : E .shape) {items : Item}
    (hitems : reach items) (item : Item) :
    Together R reach E ((Effect.addTarget items item).runIn b)
      ((Effect.addTarget items item).runIn b') := by
  unfold Effect.addTarget
  refine h.tagOf hR items ?_
  split
  · exact h.addItem hR hshape hitems item
  · exact h.newNode hR "mlhs_add_post" _

end Lists

section Complaints

/-- Invalid source ends the run, if only for the shape of the message. -/
theorem failsIn_invalid {α : Type} (hshape : E .shape)
    (hinvalid : ∀ text line filename, E (.invalidSource text line filename)) (message : Item)
    (c : Builder) : FailsIn E (Effect.invalid message : BuildM α) c :=
  failsIn_get (failsIn_read hshape (runIn_freeze c message) fun _ =>
    failsIn_throw (hinvalid _ _ _))

/-- Whether a complaint is fatal is said by its text. -/
theorem complaint (h : Lockstep R reach tables) (hR : R b b') (hshape : E .shape)
    (hinvalid : ∀ text line filename, E (.invalidSource text line filename)) (message : Item) :
    Together R reach E ((Effect.complaint message).runIn b)
      ((Effect.complaint message).runIn b') := by
  unfold Effect.complaint
  refine together_require hR hshape message.text? fun text _ => ?_
  split
  · exact together_fails hR (failsIn_bind (failsIn_invalid hshape hinvalid message b) _)
      (failsIn_bind (failsIn_invalid hshape hinvalid message b') _)
  · exact h.newNode hR "parse_error" _

/-- A misuse ends the run. -/
theorem misuse (hR : R b b') (hshape : E .shape)
    (hinvalid : ∀ text line filename, E (.invalidSource text line filename)) (args : List Item) :
    Together R reach E ((Effect.misuse args).runIn b) ((Effect.misuse args).runIn b') := by
  unfold Effect.misuse
  split
  · exact together_fails hR (failsIn_invalid hshape hinvalid _ b)
      (failsIn_invalid hshape hinvalid _ b')
  · exact together_throw hR hshape

/-- A warning leaves nothing. -/
theorem warning (h : Lockstep R reach tables) (hR : R b b') (hshape : E .shape) (message : Item) :
    Together R reach E ((Effect.warning message).runIn b)
      ((Effect.warning message).runIn b') := by
  unfold Effect.warning
  split
  · exact together_pure hR (h.atom .null)
  · exact together_throw hR hshape

end Complaints

section Arguments

variable {args : List Item}

/-- Any other number of arguments than one ends both runs. -/
theorem oneArg {f : Item → BuildM Item} (hR : R b b') (hshape : E .shape)
    (hf : ∀ x, args.head? = some x → Together R reach E ((f x).runIn b) ((f x).runIn b')) :
    Together R reach E ((Effect.oneArg f args).runIn b) ((Effect.oneArg f args).runIn b') := by
  unfold Effect.oneArg
  split
  · exact hf _ rfl
  · exact together_throw hR hshape

/-- Any other number of arguments than two ends both runs. -/
theorem twoArgs {f : Item → Item → BuildM Item} (hR : R b b') (hshape : E .shape)
    (hf : ∀ x, args.head? = some x → ∀ y, Together R reach E ((f x y).runIn b)
      ((f x y).runIn b')) :
    Together R reach E ((Effect.twoArgs f args).runIn b) ((Effect.twoArgs f args).runIn b') := by
  unfold Effect.twoArgs
  split
  · exact hf _ rfl _
  · exact together_throw hR hshape

/-- Any other number of arguments than three ends both runs. -/
theorem threeArgs {f : Item → Item → Item → BuildM Item} (hR : R b b') (hshape : E .shape)
    (hf : ∀ x y z, Together R reach E ((f x y z).runIn b) ((f x y z).runIn b')) :
    Together R reach E ((Effect.threeArgs f args).runIn b)
      ((Effect.threeArgs f args).runIn b') := by
  unfold Effect.threeArgs
  split
  · exact hf _ _ _
  · exact together_throw hR hshape

/-- Any argument at all ends both runs. -/
theorem noArgs {f : BuildM Item} (hR : R b b') (hshape : E .shape)
    (hf : Together R reach E (f.runIn b) (f.runIn b')) :
    Together R reach E ((Effect.noArgs f args).runIn b) ((Effect.noArgs f args).runIn b') := by
  unfold Effect.noArgs
  split
  · exact hf
  · exact together_throw hR hshape

end Arguments

/-- Callbacks go in lockstep: they write no other tables than their own, fail in
    no other way than their own, and leave a value within reach. -/
theorem run (h : Lockstep R reach tables) (c : Callback) (name : String) {args : List Item}
    (hR : R b b') (hwrites : c.writes ⊆ tables) (hE : ∀ e, c.Raises e → E e)
    (hargs : c.handsOn → ∀ x, args.head? = some x → reach x)
    (hname : c = .keyword ∨ c = .backtick → b.nameNext? = b'.nameNext?)
    (htext : c.readsText → ∀ x, args.head? = some x → b.arena.item? x 1 = b'.arena.item? x 1) :
    Together R reach E ((c.run name args).runIn b) ((c.run name args).runIn b') := by
  have hshape : E .shape := hE _ (.shape c)
  -- By the callbacks: each writes tables that are listed, and reads what is alike.
  cases c with
  | plain => exact h.newNode hR name args
  | comment =>
    exact oneArg hR hshape fun x hx =>
      h.comment (hwrites (by decide)) hR hshape (hargs rfl x hx) (htext rfl x hx)
  | keyword =>
    exact oneArg hR hshape fun x hx =>
      h.keyword (hwrites (by decide)) (hwrites (by decide)) (hwrites (by decide)) hR hshape
        (hname (.inl rfl)) (hargs rfl x hx) (htext rfl x hx)
  | construct tag =>
    exact h.documented (hwrites (.head _)) (hwrites (.tail _ (.head _))) hR hshape
      (hE _ (.noOpenConstruct _ (.tail _ (.head _)))) tag args
  | begin =>
    exact oneArg hR hshape fun x _ =>
      h.beginBlock (hwrites (by decide)) (hwrites (by decide)) hR hshape
        (hE _ (.noOpenConstruct _ (by decide))) x
  | openLiteral =>
    exact oneArg hR hshape fun x hx =>
      h.openLiteral (hwrites (by decide)) hR hshape (hargs rfl x hx) (htext rfl x hx)
  | openWords =>
    exact oneArg hR hshape fun x hx =>
      h.openWords (hwrites (by decide)) hR hshape (hargs rfl x hx) (htext rfl x hx)
  | closeLiteral =>
    exact oneArg hR hshape fun x hx =>
      h.closeLiteral (hwrites (by decide)) hR hshape (fun _ _ => hE _ (.unbalanced _ _))
        (hargs rfl x hx)
  | backtick =>
    exact oneArg hR hshape fun x hx =>
      h.backtick (hwrites (by decide)) hR hshape (hname (.inr rfl)) (hargs rfl x hx)
        (htext rfl x hx)
  | openSymbol =>
    exact oneArg hR hshape fun x hx =>
      h.openSymbol (hwrites (by decide)) (hwrites (by decide)) hR hshape (hargs rfl x hx)
        (htext rfl x hx)
  | closeSymbol => exact h.closeSymbol (hwrites (by decide)) (hwrites (by decide)) hR args
  | closeQuotedSymbol => exact h.closeQuotedSymbol (hwrites (by decide)) hR args
  | interpolation =>
    exact oneArg hR hshape fun x hx => h.interpolation (hwrites (by decide)) hR (hargs rfl x hx)
  | content => exact oneArg hR hshape fun x hx => h.content hR hshape (hargs rfl x hx)
  | dedent =>
    exact twoArgs hR hshape fun x hx y => dedent h.toReplacing hR hshape (hargs rfl x hx) y
  | operator =>
    exact oneArg hR hshape fun x hx =>
      h.operator (hwrites (by decide)) hR hshape (hargs rfl x hx) (htext rfl x hx)
  | clause =>
    exact h.clause (hwrites (by decide)) hR (hE _ .missingOperator)
      (fun op => hE _ (.unexpectedOperator op)) args
  | binary =>
    exact threeArgs hR hshape fun x y z =>
      h.binary (hwrites (by decide)) hR (fun found => hE _ (.missingArrow found)) x y z
  | pair => exact twoArgs hR hshape fun x _ y => h.pair (hwrites (by decide)) hR hshape x y
  | rescue => exact h.rescue (hwrites (by decide)) hR hshape args
  | loop => exact h.loop (hwrites (by decide)) hR args
  | unary => exact twoArgs hR hshape fun x _ y => h.foldSign hR hshape x y
  | empty =>
    exact noArgs hR hshape (together_bind (h.here hR) fun _ _ _ _ hR => h.newNode hR "void_stmt" _)
  | extraComma => exact h.newNode hR "excessed_comma" []
  | start tag => exact noArgs hR hshape (h.newNode hR tag [])
  | addItem => exact twoArgs hR hshape fun x hx y => h.addItem hR hshape (hargs rfl x hx) y
  | addTarget => exact twoArgs hR hshape fun x hx y => h.addTarget hR hshape (hargs rfl x hx) y
  | complaint =>
    exact oneArg hR hshape fun x _ =>
      h.complaint hR hshape (fun _ _ _ => hE _ (.invalidSource (.inl rfl) _ _ _)) x
  | misuse =>
    exact misuse hR hshape (fun _ _ _ => hE _ (.invalidSource (.inr (.inl rfl)) _ _ _)) args
  | fatal =>
    have hinvalid (text : String) (line : Option Int) (filename : Option String) :
        E (.invalidSource text line filename) :=
      hE _ (.invalidSource (.inr (.inr rfl)) _ _ _)
    exact oneArg hR hshape fun x _ =>
      together_fails hR (failsIn_invalid hshape hinvalid x b) (failsIn_invalid hshape hinvalid x b')
  | warning => exact oneArg hR hshape fun x _ => h.warning hR hshape x

/-- Whether a number comes after a sign is seen from the last token. -/
theorem noteSign (h : Lockstep R reach tables) (name : String) (hR : R b b') (hshape : E .shape)
    (ht : Effect.numberTags.contains name → .signed ∈ tables)
    (hsign : Effect.numberTags.contains name →
      Builder.lookUp? signs b.lastToken = Builder.lookUp? signs b'.lastToken) (node : Item) :
    Together (fun c c' => R c c' ∧ (∃ signed, c = { b with signed }) ∧
        ∃ signed, c' = { b' with signed }) (fun _ => True) E
      ((BuildM.noteSign name node).runIn b) ((BuildM.noteSign name node).runIn b') := by
  -- Nothing but the table of signs is touched, and that only for a number.
  have hsame : R b b' ∧ (∃ signed, b = { b with signed }) ∧ ∃ signed, b' = { b' with signed } :=
    ⟨hR, ⟨b.signed, rfl⟩, ⟨b'.signed, rfl⟩⟩
  unfold BuildM.noteSign
  split
  · rename_i hnumber
    refine together_get (together_read hsame hshape (runIn_isOneOf b signs b.lastToken)
      (runIn_isOneOf b' signs b'.lastToken) (hsign hnumber) fun found _ => ?_)
    split
    · refine ⟨⟨?_, ⟨_, rfl⟩, ⟨_, rfl⟩⟩, .ok trivial⟩
      simp only [runIn_modify, (h.alike hR).signed]
      exact h.setSigned (ht hnumber) hR _
    · exact together_pure hsame trivial
  · exact together_pure hsame trivial

/-- A token is remembered in tables that the relation lets change. -/
theorem remembering (h : Lockstep R reach tables) {name : String} (hR : R b b')
    (hprevious : .previous ∈ tables)
    (hsignificant : layout.contains name = false → .significant ∈ tables ∧ .buffer ∈ tables)
    (text : Item) : R (b.remembering name text) (b'.remembering name text) := by
  have hR := h.setLastToken hprevious hR (some (name, text))
  unfold Builder.remembering
  split
  · exact hR
  · rename_i hlayout
    obtain ⟨hsignificant, hbuffer⟩ := hsignificant (by simpa using hlayout)
    exact h.setBuffer hbuffer (h.setLastSignificant hsignificant hR (some (name, text))) ""

/-- What becomes of a token is said by its name and its text. -/
theorem tokenValue (h : Lockstep R reach tables) {name : String} (hR : R b b')
    (hwrites : (Callback.ofName (bareName name)).writes ⊆ tables)
    (hE : ∀ e, (Callback.ofName (bareName name)).Raises e → E e)
    (hname : Callback.ofName (bareName name) = .keyword ∨
      Callback.ofName (bareName name) = .backtick → b.nameNext? = b'.nameNext?)
    {node : Item} (hnode : reach node) (htext : b.arena.item? node 1 = b'.arena.item? node 1) :
    Together R reach E ((BuildM.tokenValue name node).runIn b)
      ((BuildM.tokenValue name node).runIn b') := by
  unfold BuildM.tokenValue
  split
  · exact together_pure hR hnode
  · have hhead {P : Item → Prop} (hP : P node) (x : Item) (hx : [node].head? = some x) : P x :=
      Option.some.inj hx ▸ hP
    exact h.run _ name hR hwrites hE (fun _ => hhead hnode) hname fun _ => hhead htext

end Lockstep

/-- The tables a token writes. -/
def tokenWrites (name : String) : List Table :=
  .previous :: (if layout.contains name then [] else [.significant, .buffer]) ++
    (if Effect.numberTags.contains name then [.signed] else []) ++
    (Callback.ofName (bareName name)).writes

/-- A number is noted with its sign. -/
theorem signed_mem_tokenWrites {name : String} (h : Effect.numberTags.contains name) :
    .signed ∈ tokenWrites name := by
  rw [tokenWrites, if_pos h]
  simp

/-- Tokens that are no layout are remembered as significant. -/
theorem significant_mem_tokenWrites {name : String} (h : layout.contains name = false) :
    .significant ∈ tokenWrites name ∧ .buffer ∈ tokenWrites name := by
  rw [tokenWrites, h]
  simp

namespace Lockstep

/-- Tokens go in lockstep, if the last tokens are treated alike. -/
theorem scan (h : Lockstep R reach tables) (name : String) (text : Item) (hR : R b b')
    (hwrites : tokenWrites name ⊆ tables)
    (hE : ∀ e, (Callback.ofName (bareName name)).Raises e → E e)
    (hsign : Builder.lookUp? signs b.lastToken = Builder.lookUp? signs b'.lastToken)
    (hname : Callback.ofName (bareName name) = .keyword ∨
      Callback.ofName (bareName name) = .backtick → b.nameNext? = b'.nameNext?) :
    Together R reach E ((BuildM.scan name text).runIn b) ((BuildM.scan name text).runIn b') := by
  -- There are as many lists in both, so the node gets the same number.
  have hsize : b'.tokenNode = b.tokenNode := by
    rw [Builder.tokenNode, ← (h.alike hR).size, Builder.tokenNode]
  have hplace : R (b.push [.int b.line, .int b.column]) (b'.push [.int b'.line, .int b'.column]) :=
    h.push hR (by rw [(h.alike hR).line, (h.alike hR).column]) fun hb => by rw [hb]
  have htoken : R (b.withToken name text) (b'.withToken name text) := by
    unfold Builder.withToken
    rw [(h.alike hR).size]
    exact h.push hplace rfl fun _ => rfl
  have hnode : reach b.tokenNode := by
    rw [Builder.tokenNode, ← Builder.size_push b [.int b.line, .int b.column]]
    exact h.fresh hplace
  rw [runIn_scan, runIn_scan, hsize]
  refine together_bind_of (fun _ _ hR => hR.1) (h.noteSign name htoken (hE _ (.shape _)) ?_
    (fun _ => hsign) b.tokenNode) fun _ c c' _ hR => ?_
  · intro hnumber
    exact hwrites (signed_mem_tokenWrites hnumber)
  obtain ⟨hR, ⟨signed, rfl⟩, ⟨signed', rfl⟩⟩ := hR
  refine together_bind (h.tokenValue hR (List.Subset.trans ?_ hwrites) hE hname hnode ?_)
    fun value d d' hvalue hR => ?_
  · exact List.subset_append_right _ _
  · have hitem := Builder.item?_tokenNode b name text 1
    have hitem' := Builder.item?_tokenNode b' name text 1
    rw [hsize] at hitem'
    exact hitem.trans hitem'.symm
  · refine together_modify (together_pure (h.remembering hR (hwrites ?_) ?_ text) hvalue)
    · exact List.mem_cons_self
    · intro hlayout
      exact ⟨hwrites (significant_mem_tokenWrites hlayout).1,
        hwrites (significant_mem_tokenWrites hlayout).2⟩

end Lockstep

end BuildM

namespace Event

/-- What an event does. -/
def callback (e : Event) : Callback :=
  Callback.ofName (if e.isToken then BuildM.bareName e.name else e.name)

/-- The tables an event writes. -/
def writes (e : Event) : List Table :=
  .place :: if e.isToken then BuildM.tokenWrites e.name else e.callback.writes

/-- Besides the tables of its callback an event writes the place and, if it is a
    token, what is remembered of it. -/
theorem mem_writes {e : Event} {t : Table} (h : t ∈ e.writes) :
    t ∈ [Table.place, .previous, .significant, .buffer, .signed] ∨ t ∈ e.callback.writes := by
  unfold writes callback at *
  cases htoken : e.isToken with
  | false =>
    rw [htoken] at h
    rcases List.mem_cons.1 h with rfl | h
    · exact .inl List.mem_cons_self
    · exact .inr h
  | true =>
    rw [htoken] at h
    rcases List.mem_cons.1 h with rfl | h
    · exact .inl List.mem_cons_self
    · -- A token is remembered as the previous one, and unless it is layout as significant.
      rcases List.mem_append.1 h with h | h
      · refine .inl (List.append_subset.2 ⟨?_, ?_⟩ h)
        · split <;> simp
        · split <;> simp
      · exact .inr h

/-- The errors an event may fail with. -/
def Raises (e : Event) (error : Error) : Prop :=
  e.callback.Raises error ∨ ∃ id, error = .unknownEvent id

end Event

namespace BuildM

namespace Lockstep

variable {R : Builder → Builder → Prop} {reach : Item → Prop} {tables : List Table}
  {E : Error → Prop} {b b' : Builder}

/-- Events go in lockstep, if the last tokens are treated alike and constructs do
    not read the texts of tokens. -/
theorem replayEvent (h : Lockstep R reach tables) {values : Values}
    (hvalues : ∀ p ∈ values, reach p.2) (e : Event) (hR : R b b') (hwrites : e.writes ⊆ tables)
    (hE : ∀ error, e.Raises error → E error)
    (hsign : Builder.lookUp? signs b.lastToken = Builder.lookUp? signs b'.lastToken)
    (hname : e.callback = .keyword ∨ e.callback = .backtick → b.nameNext? = b'.nameNext?)
    (htext : e.isToken = false → e.callback.readsText →
      ∀ c c', R c c' → ∀ v, c.arena.item? v 1 = c'.arena.item? v 1) :
    Together R reach E ((BuildM.replayEvent values e).runIn b)
      ((BuildM.replayEvent values e).runIn b') := by
  rw [replayEvent_eq]
  refine together_modify ?_
  have hR := h.setPlace (hwrites List.mem_cons_self) hR e.line e.column
  -- The arguments are new lists, which change nothing that a look at the tokens sees.
  have hgrowing := h.toGrowing.holding (P := fun c c' =>
    Builder.lookUp? signs c.lastToken = Builder.lookUp? signs c'.lastToken ∧
      (e.callback = .keyword ∨ e.callback = .backtick → c.nameNext? = c'.nameNext?))
    fun _ _ _ _ hP => hP
  refine together_bind_of (fun _ _ hR => hR.1) (hgrowing.resolveAll ⟨hR, hsign, hname⟩ hvalues
    (fun id => hE _ (.inr ⟨id, rfl⟩)) e.args) fun args c c' hargs hR => ?_
  obtain ⟨hR, hsign, hname⟩ := hR
  have hwrites : (if e.isToken then tokenWrites e.name else e.callback.writes) ⊆ tables :=
    List.Subset.trans (List.subset_cons_self _ _) hwrites
  have hE (error : Error) (herror : e.callback.Raises error) : E error := hE _ (.inl herror)
  unfold perform
  unfold Event.callback at hwrites hE hname htext
  cases htoken : e.isToken with
  | true =>
    rw [htoken] at hwrites hE hname
    exact oneArg hR (hE _ (.shape _)) fun text _ => h.scan e.name text hR hwrites hE hsign hname
  | false =>
    rw [htoken] at hwrites hE hname htext
    exact h.run _ e.name hR hwrites hE (fun _ x hx => hargs x (List.mem_of_head? hx)) hname
      fun hreads v _ => htext rfl hreads c c' hR v

end Lockstep

end BuildM

end RubyTree
