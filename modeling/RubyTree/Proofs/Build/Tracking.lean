import RubyTree.Proofs.Build.Ownership

/-!
# Callbacks in Place and Without Change

Each callback is run on a builder that changes lists and on one that does not.
If the builders agree and the arguments are the open values in front, then both
runs end in the same way: with the same error, or with a value that takes the
place of the arguments. The values behind the arguments are out of reach, so they
stay what they are, as does everything closed that is at hand.

A wrong number of arguments is the same error on both sides, and so are all
readings of a field, since what a value shows has the same fields. What is left
for each callback are its changes: most close their arguments and open a new
node, those for flat lists add to the first argument, and the one for heredocs
replaces items of it.

## Main definitions

* `Immutable.runIn`: The value or error of a step, and the state it leaves.
* `Immutable.Tracks`: Two runs that end in the same way.
* `Immutable.Leaves`: A value takes the place of the arguments.

## Theorems

* `tracks_bind`, `tracks_read`: Sequences, and steps that only look.
* `tracks_append`: An item is added to an open list.
* `tracks_dedentItems`: Items of an open list are replaced.
* `tracks_run`: All callbacks other than that of a keyword.
* `tracks_keyword`: A keyword token.
-/

namespace RubyTree

namespace Immutable

open Arena (Shows Stands)

variable {α β γ δ : Type}

/-- The value or error of a step, and the state it leaves. -/
def runIn (y : Step α) (s : State) : Except Error α × State :=
  y.run.run s

/-- A step behind another, which runs only if that one ends well. -/
theorem runIn_bind (y : Step α) (g : α → Step β) (s : State) :
    runIn (y >>= g) s = match runIn y s with
      | (.ok a, middle) => runIn (g a) middle
      | (.error e, middle) => (.error e, middle) := by
  unfold runIn ExceptT.run
  simp only [bind, ExceptT.bind, ExceptT.mk, StateT.bind, StateT.run, ExceptT.bindCont]
  cases y s with
  | mk result middle => cases result <;> rfl

/-- Two runs that end in the same way: with values that are as they should be, or
    with the same error and side tables that agree. -/
inductive Tracks (Q : α → β → Builder → State → Prop) :
    Except Error α × Builder → Except Error β × State → Prop where
  | ok {v : α} {t : β} {b : Builder} {s : State} (h : Q v t b s) : Tracks Q (.ok v, b) (.ok t, s)
  | error (e : Error) {P : Nat → Prop} {b : Builder} {s : State} (h : View P b s) :
      Tracks Q (.error e, b) (.error e, s)

section Steps

variable {Q : α → β → Builder → State → Prop} {R : γ → δ → Builder → State → Prop}
  {P : Nat → Prop} {b : Builder} {s : State}

/-- Values that are as they should be are the end. -/
theorem tracks_pure {v : α} {t : β} (h : Q v t b s) :
    Tracks Q ((pure v : BuildM α).runIn b) (runIn (pure t) s) :=
  .ok h

/-- Two sequences, each pair of steps in its place. -/
theorem tracks_bind {x : BuildM α} {y : Step β} {f : α → BuildM γ} {g : β → Step δ}
    (hx : Tracks Q (x.runIn b) (runIn y s))
    (hf : ∀ v t b s, Q v t b s → Tracks R ((f v).runIn b) (runIn (g t) s)) :
    Tracks R ((x >>= f).runIn b) (runIn (y >>= g) s) := by
  rw [BuildM.runIn_bind, runIn_bind]
  generalize x.runIn b = p at hx ⊢
  generalize runIn y s = q at hx ⊢
  cases hx with
  | ok h => exact hf _ _ _ _ h
  | error e h => exact .error e h

theorem tracks_get {f : Builder → BuildM γ} {g : State → Step δ}
    (h : Tracks R ((f b).runIn b) (runIn (g s) s)) :
    Tracks R ((get >>= f).runIn b) (runIn (get >>= g) s) :=
  h

theorem tracks_modify {f : Builder → Builder} {g : State → State} {x : BuildM γ} {y : Step δ}
    (h : Tracks R (x.runIn (f b)) (runIn y (g s))) :
    Tracks R ((modify f >>= fun _ => x).runIn b) (runIn (modify g >>= fun _ => y) s) :=
  h

/-- A value that is read off and has to be there. -/
theorem tracks_read {x : BuildM α} {o : Option α} {o' : Option β} {S : β → α → Prop}
    {f : α → BuildM γ} {g : β → Step δ} (hview : View P b s)
    (hx : x.runIn b = ((o.map Except.ok).getD (.error .shape), b)) (ho : Option.Rel S o' o)
    (hf : ∀ v t, o' = some t → S t v → Tracks R ((f v).runIn b) (runIn (g t) s)) :
    Tracks R ((x >>= f).runIn b) (runIn (require o' >>= g) s) := by
  rw [BuildM.runIn_bind, hx]
  cases ho with
  | none => exact .error _ hview
  | some h => exact hf _ _ rfl h

/-- A value that has to be there. -/
theorem tracks_require {o : Option α} {f : α → BuildM γ} {g : α → Step δ} (hview : View P b s)
    (hf : ∀ v, o = some v → Tracks R ((f v).runIn b) (runIn (g v) s)) :
    Tracks R ((BuildM.require o >>= f).runIn b) (runIn (require o >>= g) s) := by
  cases o with
  | none => exact .error _ hview
  | some v => exact hf v rfl

end Steps

/-- A value takes the place of the arguments. -/
def Leaves (opens : List (Item × Value)) (closed : List (Item × Raw)) (v : Item) (t : Value)
    (b : Builder) (s : State) : Prop :=
  Agree ((v, t) :: opens) closed b s

variable {opens xs : List (Item × Value)} {closed : List (Item × Raw)} {b : Builder} {s : State}
  {v w : Item} {t u : Value} {r : Raw} {rs : List Raw} {items : List Item}

/-- The side tables may change, in the same way. -/
theorem Agree.withView {b' : Builder} {s' : State} (h : Agree opens closed b s)
    (hview : View (Closed opens) b' s') (harena : b'.arena = b.arena)
    (hsigned : b'.signed = b.signed) : Agree opens closed b' s' where
  distinct := h.distinct
  stands := harena ▸ h.stands
  marks := hsigned ▸ h.marks
  signed := harena ▸ hsigned ▸ h.signed
  shows := harena ▸ h.shows
  view := hview

section Lists

/-- A node is added on one side and written down on the other. -/
theorem tracks_newNode (h : Agree opens closed b s) (tag : String)
    (hitems : List.Forall₂ (b.arena.Shows (Closed opens)) rs items) :
    Tracks (Leaves opens closed) ((BuildM.newNode tag items).runIn b)
      (runIn (pure (node tag rs)) s) :=
  .ok (h.push (.cons (.atom _) hitems))

/-- A node of all arguments. -/
theorem tracks_plain (h : Agree (xs ++ opens) closed b s) (tag : String) :
    Tracks (Leaves opens closed) ((BuildM.newNode tag (xs.map Prod.fst)).runIn b)
      (runIn (pure (node tag (trees (xs.map Prod.snd)))) s) :=
  tracks_newNode h.closeAll.1 tag h.closeAll.2

/-- An item is added to an open list. -/
theorem tracks_append (h : Agree ((v, t) :: opens) closed b s)
    (hitem : b.arena.Shows (Closed ((v, t) :: opens)) r w) :
    Tracks (fun _ u => Leaves opens closed v u) ((BuildM.append v w).runIn b)
      (runIn (append t r) s) := by
  have hhead := h.head_stands
  rw [BuildM.runIn_append]
  -- A list that can be appended to is one on both sides.
  unfold append
  cases htree : t.tree with
  | atom x =>
    rw [htree] at hhead
    cases hhead
    exact .error _ h.view
  | list rs =>
    rw [htree] at hhead
    cases hhead with
    | @list id items _ stored parts =>
      have hitems : b.arena.items? (.list id) = some items := stored
      rw [hitems]
      exact .ok (h.update htree (List.rel_append parts (.cons hitem .nil))
        (Agree.keeps_append rs [r]))

/-- A value that is read as a tree. -/
theorem tracks_freeze {f : Raw → BuildM α} {Q : α → β → Builder → State → Prop} {P : Nat → Prop}
    {o : Except Error β × State} (hr : b.arena.Stands P r v)
    (hf : Tracks Q ((f r).runIn b) o) : Tracks Q ((BuildM.freeze v >>= f).runIn b) o := by
  rw [BuildM.runIn_bind, BuildM.runIn_freeze, Arena.freeze?_of_stands hr]
  exact hf

/-- The element at a place of a value. -/
theorem tracks_itemAt {f : Item → BuildM α} {g : Raw → Step β}
    {Q : α → β → Builder → State → Prop} (h : Agree opens closed b s) {P : Nat → Prop}
    (hv : b.arena.Stands P r v) (i : Nat)
    (hf : ∀ v' r', r.item? i = some r' → b.arena.Shows P r' v' →
      Tracks Q ((f v').runIn b) (runIn (g r') s)) :
    Tracks Q ((BuildM.itemAt v i >>= f).runIn b) (runIn (require (r.item? i) >>= g) s) :=
  tracks_read h.view (BuildM.runIn_itemAt b v i) (hv.item?_rel i) hf

end Lists

section Arguments

variable {Q : Item → Value → Builder → State → Prop}

/-- More arguments than none are the same error on both sides. -/
theorem tracks_noArgs {f : BuildM Item} {g : Step Value} (h : Agree (xs ++ opens) closed b s)
    (hf : xs = [] → Tracks Q (f.runIn b) (runIn g s)) :
    Tracks Q ((Effect.noArgs f (xs.map Prod.fst)).runIn b)
      (runIn (noArgs g (xs.map Prod.snd)) s) := by
  cases xs with
  | nil => exact hf rfl
  | cons x xs => exact .error _ h.view

/-- Any other number of arguments than one is the same error. -/
theorem tracks_oneArg {f : Item → BuildM Item} {g : Value → Step Value}
    (h : Agree (xs ++ opens) closed b s)
    (hf : ∀ v t, xs = [(v, t)] → Tracks Q ((f v).runIn b) (runIn (g t) s)) :
    Tracks Q ((Effect.oneArg f (xs.map Prod.fst)).runIn b)
      (runIn (oneArg g (xs.map Prod.snd)) s) := by
  rcases xs with _ | ⟨x, _ | ⟨y, xs⟩⟩
  · exact .error _ h.view
  · exact hf x.1 x.2 rfl
  · exact .error _ h.view

/-- Any other number of arguments than two is the same error. -/
theorem tracks_twoArgs {f : Item → Item → BuildM Item} {g : Value → Value → Step Value}
    (h : Agree (xs ++ opens) closed b s)
    (hf : ∀ v t w u, xs = [(v, t), (w, u)] → Tracks Q ((f v w).runIn b) (runIn (g t u) s)) :
    Tracks Q ((Effect.twoArgs f (xs.map Prod.fst)).runIn b)
      (runIn (twoArgs g (xs.map Prod.snd)) s) := by
  rcases xs with _ | ⟨x, _ | ⟨y, _ | ⟨z, xs⟩⟩⟩
  · exact .error _ h.view
  · exact .error _ h.view
  · exact hf x.1 x.2 y.1 y.2 rfl
  · exact .error _ h.view

/-- Any other number of arguments than three is the same error. -/
theorem tracks_threeArgs {f : Item → Item → Item → BuildM Item}
    {g : Value → Value → Value → Step Value} (h : Agree (xs ++ opens) closed b s)
    (hf : ∀ x y z, xs = [x, y, z] →
      Tracks Q ((f x.1 y.1 z.1).runIn b) (runIn (g x.2 y.2 z.2) s)) :
    Tracks Q ((Effect.threeArgs f (xs.map Prod.fst)).runIn b)
      (runIn (threeArgs g (xs.map Prod.snd)) s) := by
  rcases xs with _ | ⟨x, _ | ⟨y, _ | ⟨z, _ | ⟨w, xs⟩⟩⟩⟩
  · exact .error _ h.view
  · exact .error _ h.view
  · exact .error _ h.view
  · exact hf x y z rfl
  · exact .error _ h.view

end Arguments

section Tokens

/-- A token is looked up with the same answer, or is no text on either side. -/
theorem tracks_isOneOf {Q : α → β → Builder → State → Prop} {P : Nat → Prop}
    {tokens : List (String × String)} {token : Option (String × Raw)} {token' : Option Token}
    {f : Bool → BuildM α} {g : Bool → Step β} (hview : View P b s)
    (htoken : Option.Rel (SameToken b.arena P) token token')
    (hf : ∀ found, Tracks Q ((f found).runIn b) (runIn (g found) s)) :
    Tracks Q ((Effect.isOneOf tokens token' >>= f).runIn b)
      (runIn (isOneOf tokens token >>= g) s) := by
  cases htoken with
  | none => exact hf false
  | @some t t' h =>
    obtain ⟨name, text⟩ := t
    obtain ⟨name', text'⟩ := t'
    obtain ⟨hname, htext⟩ := h
    have hname : name = name' := hname
    subst hname
    -- The two tokens have the same name and the same key, and the tables compare only these.
    have hatom : text'.atom? = text.atom? := htext.stands.atom?_eq
    unfold Effect.isOneOf isOneOf BuildM.key key
    simp only [bind_assoc, hatom]
    exact tracks_require hview fun word _ => hf _

/-- Whether a name is due is read off tokens that are the same. -/
theorem tracks_namePosition {Q : α → β → Builder → State → Prop} {P : Nat → Prop}
    {f : Bool → BuildM α} {g : Bool → Step β} (hview : View P b s)
    (hf : ∀ found, Tracks Q ((f found).runIn b) (runIn (g found) s)) :
    Tracks Q ((Effect.namePosition >>= f).runIn b) (runIn (namePosition >>= g) s) := by
  unfold Effect.namePosition namePosition
  simp only [bind_assoc]
  refine tracks_get ?_
  rw [hview.inSymbol]
  cases b.inSymbol with
  | true => exact hf true
  | false => exact tracks_isOneOf hview hview.lastSignificant hf

/-- Operators are texts, so the two stacks are equal. -/
theorem tracks_pushOperator {Q : α → β → Builder → State → Prop} {op : String} {x : BuildM α}
    {y : Step β} (h : Agree opens closed b s)
    (hx : ∀ b s, Agree opens closed b s → Tracks Q (x.runIn b) (runIn y s)) :
    Tracks Q ((Effect.pushOperator op >>= fun _ => x).runIn b)
      (runIn (pushOperator op >>= fun _ => y) s) := by
  refine tracks_modify (hx _ _ (h.withView ?_ rfl rfl))
  exact { h.view with operators := congrArg (op :: ·) h.view.operators }

/-- The same operator is taken, or both stacks are left as they are. -/
theorem tracks_claimOperator {Q : α → β → Builder → State → Prop} {op : String} {x : BuildM α}
    {y : Step β} (h : Agree opens closed b s)
    (hx : ∀ b s, Agree opens closed b s → Tracks Q (x.runIn b) (runIn y s)) :
    Tracks Q ((Effect.claimOperator op >>= fun _ => x).runIn b)
      (runIn (claimOperator op >>= fun _ => y) s) := by
  refine tracks_modify (hx _ _ ?_)
  -- Both stacks are the same, so they drop the operator together or not at all.
  have hoperators := h.view.operators
  cases hb : b.operators with
  | nil =>
    rw [hb] at hoperators
    simp only [hoperators]
    exact h
  | cons top rest =>
    rw [hb] at hoperators
    simp only [hoperators]
    split
    · exact h.withView { h.view with operators := rfl } rfl rfl
    · exact h

/-- A delimiter shows the same value on both sides. -/
theorem tracks_pushDelimiter {Q : α → β → Builder → State → Prop} {x : BuildM α} {y : Step β}
    (h : Agree opens closed b s) (hr : b.arena.Shows (Closed opens) r v)
    (hx : ∀ b s, Agree opens closed b s → Tracks Q (x.runIn b) (runIn y s)) :
    Tracks Q ((Effect.pushDelimiter v >>= fun _ => x).runIn b)
      (runIn (pushDelimiter r >>= fun _ => y) s) := by
  refine tracks_modify (hx _ _ (h.withView ?_ rfl rfl))
  exact { h.view with delimiters := .cons hr h.view.delimiters }

/-- The items of an open value are closed. -/
theorem Agree.tracks_field {Q : α → β → Builder → State → Prop}
    (h : Agree ((v, t) :: opens) closed b s) (i : Nat) {f : Item → BuildM α} {g : Raw → Step β}
    (hf : ∀ v' r', t.tree.item? i = some r' → b.arena.Shows (Closed ((v, t) :: opens)) r' v' →
      Tracks Q ((f v').runIn b) (runIn (g r') s)) :
    Tracks Q ((BuildM.itemAt v i >>= f).runIn b) (runIn (require (t.tree.item? i) >>= g) s) :=
  tracks_itemAt h h.head_stands i hf

/-- A comment is added to the same buffer. -/
theorem tracks_comment (h : Agree ((v, t) :: opens) closed b s) :
    Tracks (Leaves opens closed) ((Effect.comment v).runIn b) (runIn (comment t) s) := by
  unfold Effect.comment comment BuildM.textAt
  simp only [bind_assoc]
  refine h.tracks_field 1 fun v' r' _ hr => ?_
  rw [hr.stands.text?_eq]
  refine tracks_require h.view fun text _ => tracks_modify (tracks_pure (h.withView ?_ rfl rfl))
  exact { h.view with buffer := congrArg (· ++ text) h.view.buffer }

/-- A keyword token, of which the position is remembered. -/
theorem tracks_keyword {name : String} {text place : Raw} (h : Agree ((v, t) :: opens) closed b s)
    (htree : t.tree = .list [.str name, text, place])
    (hplace : place.hasTag "@tstring_content" = false) :
    Tracks (Leaves opens closed) ((Effect.keyword v).runIn b) (runIn (keyword t) s) := by
  unfold Effect.keyword keyword
  refine tracks_namePosition h.view fun isName => ?_
  cases isName with
  | true => exact tracks_pure h
  | false =>
    dsimp only
    rw [if_neg Bool.false_ne_true, if_neg Bool.false_ne_true]
    refine h.tracks_field 1 fun v' r' hitem hr => ?_
    have hatom : v'.atom? = r'.atom? := hr.stands.atom?_eq
    unfold BuildM.key key
    rw [hatom]
    refine tracks_require h.view fun word hword => ?_
    split
    · refine tracks_modify (tracks_pure (h.withView ?_ rfl rfl))
      refine { h.view with buffer := rfl, stack := .cons ?_ h.view.stack }
      -- The token is what was scanned, and its text is an atom.
      obtain rfl : text = r' := by
        rw [htree] at hitem
        exact Option.some.inj hitem
      obtain ⟨y, rfl⟩ : ∃ y, text = .atom y := by
        cases text with
        | atom y => exact ⟨y, rfl⟩
        | list items => cases hword
      have hstands := h.head_stands
      rw [htree] at hstands
      refine ⟨h.view.buffer, [.str name, .atom y, place], [], htree, ⟨name, _, place, rfl⟩, ?_,
        hstands⟩
      intro r hr
      simp only [List.mem_cons, List.not_mem_nil, or_false] at hr
      obtain rfl | rfl | rfl := hr
      · rfl
      · rfl
      · exact hplace
    · split
      · exact tracks_pushOperator h fun b s h => tracks_pure h
      · exact tracks_pure h

/-- The text of the token becomes a delimiter. -/
theorem tracks_openLiteral (h : Agree ((v, t) :: opens) closed b s) :
    Tracks (Leaves opens closed) ((Effect.openLiteral v).runIn b) (runIn (openLiteral t) s) :=
  h.tracks_field 1 fun _ _ _ hr => tracks_pushDelimiter h hr fun _ _ h => tracks_pure h

/-- White space is cut off texts and octets, which are the same on both sides. -/
theorem trimmed?_rel {P : Nat → Prop} (h : b.arena.Shows P r v) :
    Option.Rel (b.arena.Shows P) (trimmed? r) (Effect.trimmed? v) := by
  have htext : ∀ o : Option String, Option.Rel (b.arena.Shows P)
      (o.map fun t => Raw.str (Text.trim t)) (o.map fun t => Item.str (Text.trim t)) := by
    intro o
    cases o with
    | none => exact .none
    | some t => exact .some (.atom _)
  cases h with
  | list _ _ _ => exact .none
  | atom x =>
    cases x with
    | octets bs => exact .some (.atom _)
    | str t => exact htext (some t)
    | sym n => exact htext (some n)
    | torn points => exact htext (some (Text.shownPoints points))
    | _ => exact .none

/-- The opening of a word list, without its white space. -/
theorem tracks_openWords (h : Agree ((v, t) :: opens) closed b s) :
    Tracks (Leaves opens closed) ((Effect.openWords v).runIn b) (runIn (openWords t) s) := by
  refine h.tracks_field 1 fun v' r' _ hr => ?_
  refine tracks_read h.view (BuildM.runIn_require b _) (trimmed?_rel hr) fun d d' _ hd => ?_
  exact tracks_pushDelimiter h hd fun _ _ h => tracks_pure h

/-- A delimiter is taken back, or missed with the same error. -/
theorem tracks_closeLiteral (h : Agree ((v, t) :: opens) closed b s) :
    Tracks (Leaves opens closed) ((Effect.closeLiteral v).runIn b) (runIn (closeLiteral t) s) := by
  unfold Effect.closeLiteral closeLiteral
  refine tracks_get ?_
  -- The delimiters are shown by each other pairwise, so both stacks run empty together.
  have hdelimiters := h.view.delimiters
  cases hb : b.delimiters with
  | nil =>
    rw [hb] at hdelimiters
    rw [List.forall₂_nil_right_iff.1 hdelimiters]
    dsimp only
    refine h.tracks_field 1 fun v' r' _ hr => ?_
    refine tracks_freeze hr.stands ?_
    rw [h.view.line]
    exact .error _ h.view
  | cons d delimiters =>
    rw [hb] at hdelimiters
    obtain ⟨d', delimiters', hd, hrest, hs⟩ := List.forall₂_cons_right_iff.1 hdelimiters
    rw [hs]
    exact .ok (h.withView { h.view with delimiters := hrest } rfl rfl)

/-- A backtick opens a literal where it is no name. -/
theorem tracks_backtick (h : Agree ((v, t) :: opens) closed b s) :
    Tracks (Leaves opens closed) ((Effect.backtick v).runIn b) (runIn (backtick t) s) := by
  refine tracks_namePosition h.view fun isName => ?_
  cases isName with
  | true => exact tracks_pure h
  | false => exact tracks_openLiteral h

/-- The beginning of a symbol is a delimiter, and a symbol is open. -/
theorem tracks_openSymbol (h : Agree ((v, t) :: opens) closed b s) :
    Tracks (Leaves opens closed) ((Effect.openSymbol v).runIn b) (runIn (openSymbol t) s) :=
  tracks_modify (tracks_openLiteral (h.withView { h.view with inSymbol := rfl } rfl rfl))

/-- A symbol takes its delimiter back and is over. -/
theorem tracks_closeSymbol (h : Agree (xs ++ opens) closed b s) :
    Tracks (Leaves opens closed) ((Effect.closeSymbol (xs.map Prod.fst)).runIn b)
      (runIn (closeSymbol (xs.map Prod.snd)) s) := by
  refine tracks_modify ?_
  refine tracks_plain ?_ "symbol"
  refine h.withView ?_ rfl rfl
  have htail : List.Forall₂ (b.arena.Shows (Closed (xs ++ opens))) s.delimiters.tail
      b.delimiters.tail := by
    simpa using List.forall₂_drop 1 h.view.delimiters
  exact { h.view with inSymbol := rfl, delimiters := htail }

/-- A symbol in quotes is over; its closing quote took the delimiter. -/
theorem tracks_closeQuotedSymbol (h : Agree (xs ++ opens) closed b s) :
    Tracks (Leaves opens closed) ((Effect.closeQuotedSymbol (xs.map Prod.fst)).runIn b)
      (runIn (closeQuotedSymbol (xs.map Prod.snd)) s) := by
  refine tracks_modify ?_
  refine tracks_plain ?_ "dyna_symbol"
  refine h.withView ?_ rfl rfl
  exact { h.view with inSymbol := rfl }

/-- Code in a literal is outside of any symbol. -/
theorem tracks_interpolation (h : Agree ((v, t) :: opens) closed b s) :
    Tracks (Leaves opens closed) ((Effect.interpolation v).runIn b) (runIn (interpolation t) s) :=
  tracks_modify (tracks_pure (h.withView { h.view with inSymbol := rfl } rfl rfl))

/-- Content takes along the delimiter on top of the stack. -/
theorem tracks_content (h : Agree ((v, t) :: opens) closed b s) :
    Tracks (Leaves opens closed) ((Effect.content v).runIn b) (runIn (content t) s) := by
  have hdelimiter : b.arena.Shows (Closed ((v, t) :: opens)) (s.delimiters.headD .null)
      (b.delimiters.headD .null) := by
    -- The delimiter on top, or nothing where none is open.
    have hdelimiters := h.view.delimiters
    generalize s.delimiters = ds at hdelimiters ⊢
    generalize b.delimiters = ds' at hdelimiters ⊢
    cases hdelimiters with
    | nil => exact .atom _
    | cons hd _ => exact hd
  unfold Effect.content content
  refine tracks_get ?_
  rw [← bind_pure (append t _)]
  exact tracks_bind (tracks_append h hdelimiter) fun _ _ _ _ h => tracks_pure h

/-- Arrows go onto the stack of operators. -/
theorem tracks_operator (h : Agree ((v, t) :: opens) closed b s) :
    Tracks (Leaves opens closed) ((Effect.operator v).runIn b) (runIn (operator t) s) := by
  refine h.tracks_field 1 fun v' r' _ hr => ?_
  rw [hr.stands.isText_eq]
  split
  · exact tracks_pushOperator h fun _ _ h => tracks_pure h
  · exact tracks_pure h

end Tokens

section Constructs

/-- A construct takes back its comments, which show the same on both sides. -/
theorem tracks_documented {args : List Item} (h : Agree opens closed b s) (tag : String)
    (hitems : List.Forall₂ (b.arena.Shows (Closed opens)) rs args) :
    Tracks (Leaves opens closed) ((Effect.documented tag args).runIn b)
      (runIn (documented tag rs) s) := by
  have hnode := h.push (.cons (.atom (.str tag)) hitems)
  unfold Effect.documented documented
  rw [BuildM.runIn_bind, BuildM.runIn_newNode]
  dsimp only
  refine tracks_get ?_
  have hstack := hnode.view.stack
  unfold Comments.leave
  cases hb : (b.push (.str tag :: args)).comments.stack with
  | nil =>
    rw [hb] at hstack
    rw [List.forall₂_nil_right_iff.1 hstack]
    exact .error _ hnode.view
  | cons entry stack =>
    rw [hb] at hstack
    obtain ⟨entry', stack', hentry, hrest, hs⟩ := List.forall₂_cons_right_iff.1 hstack
    rw [hs]
    obtain ⟨opener, text⟩ := entry
    obtain ⟨opener', text'⟩ := entry'
    obtain ⟨htext, front, more, htree, hscanned, -, hstands⟩ := hentry
    have htext : text' = text := htext
    have htree : opener' = .list front := htree
    subst htext htree
    refine tracks_modify ?_
    have hpopped : Agree ((.list b.arena.lists.size, { tree := .list (.str tag :: rs) }) :: opens)
        closed { b.push (.str tag :: args) with comments := { buffer := "", stack } }
        { s with comments := { buffer := "", stack := stack' } } :=
      hnode.withView { hnode.view with buffer := rfl, stack := hrest } rfl rfl
    -- The position is the last of the three items that the keyword started with.
    have hplace : (Raw.list (front ++ more)).item? 2 = (Raw.list front).item? 2 := by
      obtain ⟨_, _, _, rfl⟩ := hscanned
      rfl
    rw [← hplace]
    refine tracks_itemAt hpopped hstands 2 fun place r' _ hr => ?_
    show Tracks _ _ (runIn (do
      let u ← append { tree := .list (.str tag :: rs) } r'
      return node "comment" [.str text', u.tree]) _)
    refine tracks_bind (tracks_append hpopped hr) fun _ u b s hu => ?_
    have hused := hu.close
    exact tracks_newNode (hused.forget (List.subset_cons_self _ _)) "comment"
      (.cons (.atom _) (.cons (hused.shows _ List.mem_cons_self) .nil))

/-- The field of a value that is a bodystmt or not. -/
theorem tracks_beginBlock (h : Agree ((v, t) :: opens) closed b s) :
    Tracks (Leaves opens closed) ((Effect.beginBlock v).runIn b) (runIn (beginBlock t) s) := by
  have hused := h.close
  have hbody := hused.shows _ List.mem_cons_self
  have hrest := hused.forget (List.subset_cons_self _ _)
  unfold Effect.beginBlock beginBlock
  rw [BuildM.runIn_bind, BuildM.runIn_tagOf, h.head_stands.tag?_eq]
  dsimp only
  split
  · exact tracks_documented hrest "begin" (.cons hbody .nil)
  · exact tracks_newNode hrest "begin" (.cons hbody .nil)

/-- An `in` clause takes the operator it was opened with. -/
theorem tracks_clause (h : Agree (xs ++ opens) closed b s) :
    Tracks (Leaves opens closed) ((Effect.clause (xs.map Prod.fst)).runIn b)
      (runIn (clause (xs.map Prod.snd)) s) := by
  have hoperators := h.view.operators
  unfold Effect.clause clause
  refine tracks_get ?_
  rw [hoperators]
  cases b.operators with
  | nil => exact .error _ h.view
  | cons op operators =>
    have hclaimed : Agree (xs ++ opens) closed { b with operators } { s with operators } :=
      h.withView { h.view with operators := rfl } rfl rfl
    -- The operators read the same on both sides.
    refine tracks_modify ?_
    split
    · exact tracks_plain hclaimed "in"
    · split
      · exact tracks_plain hclaimed "right_assign"
      · exact .error _ hclaimed.view

/-- A capture takes its arrow, or misses it with the same error. -/
theorem tracks_binary {x y z : Item × Value} (h : Agree (x :: y :: z :: opens) closed b s) :
    Tracks (Leaves opens closed) ((Effect.binary x.1 y.1 z.1).runIn b)
      (runIn (binary x.2 y.2 z.2) s) := by
  have hop : y.1.isText "=>" = y.2.tree.isText "=>" :=
    (h.stands y (by simp)).isText_eq "=>"
  -- With or without an arrow to take, the node is made of all three arguments.
  have hnode : ∀ b s, Agree ([x, y, z] ++ opens) closed b s → Tracks (Leaves opens closed)
      ((BuildM.newNode "binary" [x.1, y.1, z.1]).runIn b)
      (runIn (pure (node "binary" [x.2.tree, y.2.tree, z.2.tree])) s) :=
    fun b s h => tracks_plain h "binary"
  have hoperators := h.view.operators
  unfold Effect.binary binary
  rw [hop]
  split
  · refine tracks_get ?_
    rw [hoperators]
    cases b.operators with
    | nil => exact .error _ h.view
    | cons top rest =>
      dsimp only
      split
      · exact tracks_claimOperator h hnode
      · exact .error _ h.view
  · exact hnode b s h

/-- The key says whether a pair takes an arrow, and both keys show the same. -/
theorem tracks_pair {x y : Item × Value} (h : Agree (x :: y :: opens) closed b s) :
    Tracks (Leaves opens closed) ((Effect.pair x.1 y.1).runIn b) (runIn (pair x.2 y.2) s) := by
  have hnode : ∀ b s, Agree ([x, y] ++ opens) closed b s → Tracks (Leaves opens closed)
      ((BuildM.newNode "assoc_new" [x.1, y.1]).runIn b)
      (runIn (pure (node "assoc_new" [x.2.tree, y.2.tree])) s) :=
    fun b s h => tracks_plain h "assoc_new"
  unfold Effect.pair pair
  -- The key stands in the arena as its tree, so both sides judge the label alike.
  have hlabel : Option.Rel (· = ·) x.2.tree.isLabel? (b.arena.isLabel? x.1) := by
    rw [(h.stands x List.mem_cons_self).isLabel?_eq]
    cases x.2.tree.isLabel? with
    | none => exact .none
    | some label => exact .some rfl
  refine tracks_read h.view (BuildM.runIn_isLabel b x.1) hlabel fun label _ _ heq => ?_
  rw [heq]
  split
  · exact tracks_claimOperator h hnode
  · exact hnode b s h

/-- A `rescue` clause with a variable takes its arrow. -/
theorem tracks_rescue (h : Agree (xs ++ opens) closed b s) :
    Tracks (Leaves opens closed) ((Effect.rescue (xs.map Prod.fst)).runIn b)
      (runIn (rescue (xs.map Prod.snd)) s) := by
  rcases xs with _ | ⟨x, _ | ⟨y, xs⟩⟩
  · exact .error _ h.view
  · exact .error _ h.view
  · have hempty : b.arena.isEmpty y.1 = y.2.tree.isEmpty := (h.stands y (by simp)).isEmpty_eq
    have hnode : ∀ b s, Agree ((x :: y :: xs) ++ opens) closed b s → Tracks (Leaves opens closed)
        ((BuildM.newNode "rescue" ((x :: y :: xs).map Prod.fst)).runIn b)
        (runIn (pure (node "rescue" (trees ((x :: y :: xs).map Prod.snd)))) s) :=
      fun b s h => tracks_plain h "rescue"
    simp only [List.map_cons, Effect.rescue, rescue] at hnode ⊢
    rw [BuildM.runIn_bind, BuildM.runIn_get]
    dsimp only
    -- Only a captured exception has an arrow in front, and both sides see whether there is one.
    rw [hempty]
    split
    · exact tracks_claimOperator h hnode
    · exact hnode b s h

/-- A `for` loop takes its `in`. -/
theorem tracks_loop (h : Agree (xs ++ opens) closed b s) :
    Tracks (Leaves opens closed) ((Effect.loop (xs.map Prod.fst)).runIn b)
      (runIn (loop (xs.map Prod.snd)) s) :=
  tracks_claimOperator h fun _ _ h => tracks_plain h "for"

/-- The sign before a number is read off the same token. -/
theorem sign?_eq {P : Nat → Prop} (h : b.arena.Stands P r v) : Effect.sign? v = sign? r := by
  rw [Effect.sign?, sign?, h.isText_eq, h.isText_eq]

/-- A sign goes into the number behind it, on both sides or on neither. -/
theorem tracks_foldSign {x y : Item × Value} (h : Agree (x :: y :: opens) closed b s) :
    Tracks (Leaves opens closed) ((Effect.foldSign x.1 y.1).runIn b)
      (runIn (foldSign x.2 y.2) s) := by
  have hy := h.stands y (by simp)
  have hmark := h.marks y (by simp)
  have hnode : Tracks (Leaves opens closed) ((BuildM.newNode "unary" [x.1, y.1]).runIn b)
      (runIn (pure (node "unary" [x.2.tree, y.2.tree])) s) :=
    @tracks_plain opens [x, y] closed b s h "unary"
  unfold Effect.foldSign foldSign
  rw [BuildM.runIn_bind, BuildM.runIn_tagOf, hy.tag?_eq]
  dsimp only
  rw [sign?_eq (h.stands x List.mem_cons_self)]
  cases sign? x.2.tree with
  | none => exact hnode
  | some sign =>
    dsimp only
    rw [BuildM.runIn_bind, BuildM.runIn_get]
    dsimp only
    rw [hmark]
    split
    · unfold BuildM.textAt
      rw [bind_assoc]
      refine tracks_itemAt h hy 1 fun v' r' _ hr => ?_
      rw [hr.stands.text?_eq]
      refine tracks_require h.view fun text _ => ?_
      split
      · refine tracks_itemAt h hy 1 fun number number' _ hnumber => ?_
        refine tracks_itemAt h hy 0 fun name name' _ hname => ?_
        refine tracks_itemAt h hy 2 fun place place' _ hplace => ?_
        -- The parts share nothing with the two nodes, so they stay after these are gone.
        have hclosed : ∀ id, Closed (x :: y :: opens) id → Closed opens id := fun id hid hmem =>
          hid ((List.sublist_append_right [x, y] opens).filterMap _ |>.subset hmem)
        have hsigned : b.arena.Shows (Closed opens)
            (if sign == "-" then .str (sign ++ text) else number')
            (Effect.withSign sign text number) := by
          unfold Effect.withSign
          split
          · exact .atom _
          · exact hnumber.mono hclosed
        have hrest : Agree opens closed b s := @Agree.drop opens closed b s [x, y] h
        rw [BuildM.runIn_newList]
        exact .ok (hrest.push (.cons (hname.mono hclosed) (.cons hsigned
          (.cons (hplace.mono hclosed) .nil))))
      · exact hnode
    · exact hnode

/-- The current place is the same on both sides. -/
theorem tracks_here {f : Item → BuildM α} {g : Raw → Step β} {Q : α → β → Builder → State → Prop}
    (h : Agree opens closed b s)
    (hf : ∀ v b, Agree opens ((v, .list [.int s.line, .int s.column]) :: closed) b s →
      Tracks Q ((f v).runIn b) (runIn (g (.list [.int s.line, .int s.column])) s)) :
    Tracks Q ((BuildM.here >>= f).runIn b) (runIn (here >>= g) s) := by
  rw [BuildM.runIn_bind, BuildM.runIn_here]
  have hplace := (h.push (.cons (.atom (.int s.line)) (.cons (.atom (.int s.column)) .nil))).close
  rw [h.view.line, h.view.column] at hplace
  exact hf _ _ (by rw [h.view.line, h.view.column]; exact hplace)

/-- The first argument is the list that is added to. -/
theorem tracks_addItem {x y : Item × Value} (h : Agree (x :: y :: opens) closed b s) :
    Tracks (Leaves opens closed) ((Effect.addItem x.1 y.1).runIn b)
      (runIn (addItem x.2 y.2) s) := by
  have hused : Agree (x :: opens) ((y.1, y.2.tree) :: closed) b s :=
    Agree.close (h.perm (List.Perm.swap x y opens))
  unfold Effect.addItem addItem
  rw [← bind_pure (append _ _)]
  refine tracks_bind (tracks_append (hused.forget ?_) (hused.shows _ List.mem_cons_self))
    fun _ _ _ _ h => tracks_pure h
  exact List.subset_cons_self _ _

/-- A list of targets is added to; anything else becomes a new node. -/
theorem tracks_addTarget {x y : Item × Value} (h : Agree (x :: y :: opens) closed b s) :
    Tracks (Leaves opens closed) ((Effect.addTarget x.1 y.1).runIn b)
      (runIn (addTarget x.2 y.2) s) := by
  have hx := h.stands x List.mem_cons_self
  unfold Effect.addTarget addTarget
  rw [BuildM.runIn_bind, BuildM.runIn_tagOf, hx.tag?_eq]
  dsimp only
  split
  · exact tracks_addItem h
  · exact @tracks_plain opens [x, y] closed b s h "mlhs_add_post"

/-- Invalid source is the same error, with the same message. -/
theorem tracks_invalid {Q : α → β → Builder → State → Prop} {P : Nat → Prop}
    (h : Agree opens closed b s) (hr : b.arena.Stands P r v) :
    Tracks Q ((Effect.invalid v : BuildM α).runIn b) (runIn (invalid r : Step β) s) := by
  unfold Effect.invalid invalid
  refine tracks_get (tracks_freeze hr ?_)
  rw [h.view.line, h.view.filename]
  exact .error _ h.view

/-- A complaint is an error or a node, by its text. -/
theorem tracks_complaint (h : Agree ((v, t) :: opens) closed b s) :
    Tracks (Leaves opens closed) ((Effect.complaint v).runIn b) (runIn (complaint t) s) := by
  unfold Effect.complaint complaint
  rw [h.head_stands.text?_eq]
  refine tracks_require h.view fun text _ => ?_
  split
  · exact tracks_bind (tracks_invalid h h.head_stands) fun _ _ b s h => h
  · exact @tracks_plain opens [(v, t)] closed b s h "parse_error"

/-- A misuse is always an error. -/
theorem tracks_misuse (h : Agree (xs ++ opens) closed b s) :
    Tracks (Leaves opens closed) ((Effect.misuse (xs.map Prod.fst)).runIn b)
      (runIn (misuse (xs.map Prod.snd)) s) := by
  cases xs with
  | nil => exact .error _ h.view
  | cons x xs => exact tracks_invalid h (h.stands x List.mem_cons_self)

/-- A warning leaves nothing on either side. -/
theorem tracks_warning (h : Agree ((v, t) :: opens) closed b s) :
    Tracks (Leaves opens closed) ((Effect.warning v).runIn b) (runIn (warning t) s) := by
  have htextual : v.isTextual = t.tree.atom?.any Atom.isTextual := by
    rw [Item.isTextual, h.head_stands.atom?_eq]
  have hrest : Agree opens closed b s := @Agree.drop opens closed b s [(v, t)] h
  unfold Effect.warning warning
  rw [htextual]
  split
  · exact .ok (hrest.atom .null)
  · exact .error _ h.view

end Constructs

section Dedenting

/-- Indentation is cut off by the characters alone. -/
theorem dedentFrom_rel {S : α → β → Prop} {f : α → Option Char} {g : β → Option Char}
    (hchar : ∀ x y, S x y → f x = g y) (width : Width) {ys : List α} {zs : List β}
    (h : List.Forall₂ S ys zs) (col : Nat) :
    List.Forall₂ S (dedentFrom f width col ys) (dedentFrom g width col zs) := by
  induction h generalizing col with
  | nil => exact .nil
  | cons hxy hrest ih =>
    rw [dedentFrom, dedentFrom, hchar _ _ hxy]
    split
    · split
      · exact ih _
      · split
        · exact ih _
        · exact .cons hxy hrest
    · exact .cons hxy hrest

/-- Sequences that agree item by item lose the same items. -/
theorem dedentElements?_rel {S : α → β → Prop} {f : α → Option Char} {g : β → Option Char}
    (hchar : ∀ x y, S x y → f x = g y) (width : Option Atom) {ys : List α} {zs : List β}
    (h : List.Forall₂ S ys zs) :
    Option.Rel (List.Forall₂ S) (dedentElements? f width ys) (dedentElements? g width zs) := by
  cases h with
  | nil => exact .some .nil
  | cons hxy hrest =>
    have hall := List.Forall₂.cons hxy hrest
    simp only [dedentElements?, hall.length_eq, Option.bind_eq_bind]
    cases width with
    | none => exact .none
    | some w =>
      simp only [Option.bind_some]
      cases Width.ofAtom? _ w with
      | none => exact .none
      | some w => exact .some (dedentFrom_rel hchar w hall 0)

/-- Content without its indentation is a new value on both sides. -/
theorem tracks_withoutIndent {width : Item} {width' : Raw} (h : Agree opens closed b s)
    (hwidth : width.atom? = width'.atom?) (hr : b.arena.Shows (Closed opens) r v) :
    Tracks (fun v r b s => Agree opens ((v, r) :: closed) b s)
      ((Effect.withoutIndent width v).runIn b) (runIn (require (r.dedent? width'.atom?)) s) := by
  unfold Effect.withoutIndent Raw.dedent?
  rw [hwidth]
  cases hr with
  | atom x =>
    dsimp only
    cases x.dedent? width'.atom? with
    | none => exact .error _ h.view
    | some y =>
      refine .ok { h with shows := fun z hz => ?_ }
      rcases List.mem_cons.1 hz with rfl | hz
      · exact .atom y
      · exact h.shows z hz
  | @list id items rs mem stored parts =>
    have hitems : b.arena.items? (.list id) = some items := stored
    -- The indentation is taken off by the characters alone, and these are the same.
    have hchars : ∀ (x : Raw) (y : Item), b.arena.Shows (Closed opens) x y →
        (x.text?.bind Text.onlyChar?) = y.text?.bind Text.onlyChar? := fun x y hxy => by
      rw [hxy.stands.text?_eq]
    have hleft := dedentElements?_rel hchars width'.atom? parts
    dsimp only
    rw [BuildM.runIn_bind, BuildM.runIn_itemsOf, hitems]
    dsimp only [Option.map_some, Option.getD_some]
    rw [BuildM.runIn_bind, BuildM.runIn_require]
    generalize dedentElements? _ _ rs = left at hleft ⊢
    generalize dedentElements? _ _ items = left' at hleft ⊢
    cases hleft with
    | none => exact .error _ h.view
    | some hleft => exact .ok (h.push hleft).close

/-- Replacing an item on both sides. -/
theorem forall₂_set {S : α → β → Prop} {ys : List α} {zs : List β} {y : α} {z : β}
    (h : List.Forall₂ S ys zs) (hyz : S y z) (i : Nat) :
    List.Forall₂ S (ys.set i y) (zs.set i z) := by
  induction h generalizing i with
  | nil => exact .nil
  | cons hxy hrest ih =>
    cases i with
    | zero => exact .cons hyz hrest
    | succ i => exact .cons hxy (ih i)

/-- The items that are left are dedented in place on one side and made anew on the
    other. They are closed, so that what happens to the list does not reach them. -/
theorem tracks_dedentItems {id : Nat} {width : Item} {width' : Raw} {marked : Bool}
    (hwidth : width.atom? = width'.atom?) {zs : List (Item × Raw)} {done : List Raw}
    {b : Builder} {s : State} {lineStart : Bool}
    (h : Agree ((.list id, { tree := .list (done ++ zs.map Prod.snd), signed := marked }) :: opens)
      (zs ++ closed) b s) :
    Tracks (fun _ left b s => Agree
        ((.list id, { tree := .list (done ++ left), signed := marked }) :: opens) closed b s)
      ((Effect.dedentItems (.list id) width done.length lineStart (zs.map Prod.fst)).runIn b)
      (runIn (dedentItems width' lineStart (zs.map Prod.snd)) s) := by
  induction zs generalizing done b s lineStart with
  | nil => exact .ok h
  | cons z zs ih =>
    obtain ⟨v, r⟩ := z
    have hr := h.shows (v, r) List.mem_cons_self
    -- What is left after this item, with what this item has become.
    have hrest : ∀ (b : Builder) (s : State) (r' : Raw) (lineStart : Bool), Agree ((.list id,
          { tree := .list (done ++ r' :: zs.map Prod.snd), signed := marked }) :: opens)
          (zs ++ closed) b s →
        Tracks (fun _ left b s => Agree
            ((.list id, { tree := .list (done ++ left), signed := marked }) :: opens) closed b s)
          ((Effect.dedentItems (.list id) width (done.length + 1) lineStart
            (zs.map Prod.fst)).runIn b)
          (runIn (do return r' :: (← dedentItems width' lineStart (zs.map Prod.snd))) s) := by
      intro b s r' lineStart h
      have hdone : done ++ r' :: zs.map Prod.snd = (done ++ [r']) ++ zs.map Prod.snd := by simp
      rw [hdone] at h
      have hlength : (done ++ [r']).length = done.length + 1 := by simp
      have hloop := @ih (done ++ [r']) b s lineStart h
      rw [hlength] at hloop
      rw [← bind_pure (Effect.dedentItems _ _ _ _ _)]
      refine tracks_bind hloop fun _ left b s hleft => tracks_pure ?_
      rwa [List.append_assoc] at hleft
    simp only [List.map_cons] at h ⊢
    unfold Effect.dedentItems dedentItems
    rw [BuildM.runIn_bind, BuildM.runIn_tagOf, hr.stands.tag?_eq]
    dsimp only
    by_cases htag : r.hasTag "@tstring_content"
    · have hcontent : r.tag? = some "@tstring_content" := by simpa [Raw.hasTag] using htag
      rw [hcontent, if_neg (by decide), if_pos htag]
      refine tracks_itemAt h hr.stands 1 fun content content' _ hshown => ?_
      have htext : content.text? = content'.text? := hshown.stands.text?_eq
      cases lineStart with
      | false =>
        simp only [Bool.false_eq_true, if_false, pure_bind]
        rw [htext]
        exact tracks_require h.view fun text _ =>
          hrest b s r _ (h.forget (List.subset_cons_self _ _))
      | true =>
        simp only [if_true]
        refine tracks_bind (tracks_withoutIndent h hwidth hshown) fun left left' b s hleft => ?_
        have hv := hleft.shows (v, r) (List.mem_cons_of_mem _ List.mem_cons_self)
        have hl := hleft.shows (left, left') List.mem_cons_self
        cases hv with
        | atom x => cases hcontent
        | @list id' items rs _ stored parts =>
          -- The piece is the item with other content, and it takes the place of the item.
          have hitems : b.arena.items? (.list id') = some items := stored
          rw [BuildM.runIn_bind, BuildM.runIn_itemsOf, hitems]
          dsimp only [Option.map_some, Option.getD_some]
          rw [BuildM.runIn_bind, BuildM.runIn_newList]
          have hpiece := (hleft.push (forall₂_set parts hl 1)).close
          have hp := hpiece.shows _ List.mem_cons_self
          have hhead := hpiece.head_stands
          generalize Item.list b.arena.lists.size = piece at hpiece hp hhead ⊢
          generalize b.push (items.set 1 left) = b at hpiece hp hhead ⊢
          dsimp only
          cases hhead with
          | @list _ items' _ stored hall =>
            have hparts : b.arena.items? (.list id) = some items' := stored
            rw [BuildM.runIn_bind, BuildM.runIn_itemsOf, hparts]
            dsimp only [Option.map_some, Option.getD_some]
            refine tracks_modify ?_
            have hset := hpiece.update rfl (forall₂_set hall hp done.length)
              (Agree.keeps_set (by simp) htag (.list (rs.set 1 left')))
            rw [List.set_append_right _ _ (Nat.le_refl _), Nat.sub_self, List.set_cons_zero] at hset
            rw [htext]
            refine tracks_require hset.view fun text _ => hrest _ s _ _ (hset.forget ?_)
            -- The dedented content and the item that is replaced are not looked at again.
            intro x hx
            simp only [List.cons_append, List.mem_cons]
            exact Or.inr (Or.inr (Or.inr hx))
    · have hother : (r.tag? != some "@tstring_content") = true := by
        simpa [Raw.hasTag] using htag
      rw [hother, if_pos rfl, if_neg htag]
      exact hrest b s r lineStart (h.forget (List.subset_cons_self _ _))

/-- Parts of a node are replaced; a text has none. -/
theorem tracks_dedent {x y : Item × Value} (h : Agree (x :: y :: opens) closed b s) :
    Tracks (Leaves opens closed) ((Effect.dedent x.1 y.1).runIn b) (runIn (dedent x.2 y.2) s) := by
  obtain ⟨v, t⟩ := x
  obtain ⟨w, u⟩ := y
  have hx : Agree ((v, t) :: opens) closed b s :=
    h.subperm ((List.sublist_cons_self (w, u) opens).cons_cons (v, t)).subperm
  have hwidth : w.atom? = u.tree.atom? := (h.stands (w, u) (by simp)).atom?_eq
  have hhead := hx.head_stands
  unfold Effect.dedent dedent
  obtain ⟨tree, marked⟩ := t
  cases hhead with
  | atom x =>
    show Tracks _ ((if !x.isTextual then _ else _ : BuildM Item).runIn b) _
    by_cases htextual : x.isTextual
    · simp only [htextual]
      exact tracks_pure hx
    · simp only [htextual]
      exact .error _ h.view
  | @list id items rs stored parts =>
    have hitems : b.arena.items? (.list id) = some items := stored
    have hlength := parts.length_eq
    -- All parts are closed, so they are at hand while the list changes.
    have hclosed : Agree ((.list id, { tree := .list rs, signed := marked }) :: opens)
        (items.zip rs ++ closed) b s := by
      refine { hx with shows := fun z hz => ?_ }
      rcases List.mem_append.1 hz with hz | hz
      · have hparts := List.Forall₂.flip (R := fun v r => b.arena.Shows _ r v) parts
        exact (List.forall₂_iff_zip.1 hparts).2 hz
      · exact hx.shows z hz
    have hfst : (items.zip rs).map Prod.fst = items := List.map_fst_zip (Nat.le_of_eq hlength.symm)
    have hsnd : (items.zip rs).map Prod.snd = rs := List.map_snd_zip (Nat.le_of_eq hlength)
    have hloop := @tracks_dedentItems opens closed id w u.tree marked hwidth (items.zip rs) [] b s
      true (by rw [List.nil_append, hsnd]; exact hclosed)
    rw [hfst, hsnd] at hloop
    show Tracks _ ((do
      Effect.dedentItems (.list id) w 0 true (← BuildM.itemsOf (.list id))
      return .list id : BuildM Item).runIn b) _
    rw [BuildM.runIn_bind, BuildM.runIn_itemsOf, hitems]
    dsimp only [Option.map_some, Option.getD_some]
    exact tracks_bind hloop fun _ left b s hleft => tracks_pure hleft

end Dedenting

/-- All callbacks other than that of a keyword: what comes out of both runs takes
    the place of the arguments. -/
theorem tracks_run (name : String) (callback : Callback) (hcallback : callback ≠ .keyword)
    (h : Agree (xs ++ opens) closed b s) :
    Tracks (Leaves opens closed) ((callback.run name (xs.map Prod.fst)).runIn b)
      (runIn (run name callback (xs.map Prod.snd)) s) := by
  -- Callbacks of one and of two arguments are given them in front of the open values.
  have hone : ∀ {f : Item → BuildM Item} {g : Value → Step Value},
      (∀ v t, Agree ((v, t) :: opens) closed b s →
        Tracks (Leaves opens closed) ((f v).runIn b) (runIn (g t) s)) →
      Tracks (Leaves opens closed) ((Effect.oneArg f (xs.map Prod.fst)).runIn b)
        (runIn (oneArg g (xs.map Prod.snd)) s) := fun hf =>
    tracks_oneArg h fun v t hxs => hf v t (by rw [hxs] at h; exact h)
  have htwo : ∀ {f : Item → Item → BuildM Item} {g : Value → Value → Step Value},
      (∀ x y, Agree (x :: y :: opens) closed b s →
        Tracks (Leaves opens closed) ((f x.1 y.1).runIn b) (runIn (g x.2 y.2) s)) →
      Tracks (Leaves opens closed) ((Effect.twoArgs f (xs.map Prod.fst)).runIn b)
        (runIn (twoArgs g (xs.map Prod.snd)) s) := fun hf =>
    tracks_twoArgs h fun v t w u hxs => hf (v, t) (w, u) (by rw [hxs] at h; exact h)
  cases callback with
  | keyword => exact absurd rfl hcallback
  | plain => exact tracks_plain h name
  | comment => exact hone fun _ _ => tracks_comment
  | construct tag => exact tracks_documented h.closeAll.1 tag h.closeAll.2
  | begin => exact hone fun _ _ => tracks_beginBlock
  | openLiteral => exact hone fun _ _ => tracks_openLiteral
  | openWords => exact hone fun _ _ => tracks_openWords
  | closeLiteral => exact hone fun _ _ => tracks_closeLiteral
  | backtick => exact hone fun _ _ => tracks_backtick
  | openSymbol => exact hone fun _ _ => tracks_openSymbol
  | closeSymbol => exact tracks_closeSymbol h
  | closeQuotedSymbol => exact tracks_closeQuotedSymbol h
  | interpolation => exact hone fun _ _ => tracks_interpolation
  | content => exact hone fun _ _ => tracks_content
  | dedent => exact htwo fun _ _ => tracks_dedent
  | operator => exact hone fun _ _ => tracks_operator
  | clause => exact tracks_clause h
  | binary => exact tracks_threeArgs h fun x y z hxs => tracks_binary (by rw [hxs] at h; exact h)
  | pair => exact htwo fun _ _ => tracks_pair
  | rescue => exact tracks_rescue h
  | loop => exact tracks_loop h
  | unary => exact htwo fun _ _ => tracks_foldSign
  | empty =>
    refine tracks_noArgs h fun _ => tracks_here h.drop fun v b hplace => ?_
    exact tracks_newNode (hplace.forget (List.subset_cons_self _ _)) "void_stmt"
      (.cons (hplace.shows _ List.mem_cons_self) .nil)
  | extraComma => exact tracks_newNode h.drop "excessed_comma" .nil
  | start tag => exact tracks_noArgs h fun _ => tracks_newNode h.drop tag .nil
  | addItem => exact htwo fun _ _ => tracks_addItem
  | addTarget => exact htwo fun _ _ => tracks_addTarget
  | complaint => exact hone fun _ _ => tracks_complaint
  | misuse => exact tracks_misuse h
  | fatal => exact hone fun _ _ h => tracks_invalid h h.head_stands
  | warning => exact hone fun _ _ => tracks_warning

end Immutable

end RubyTree
