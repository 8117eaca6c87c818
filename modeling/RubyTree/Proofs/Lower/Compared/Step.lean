import RubyTree.Proofs.Lower.Compared.Tree

/-!
# Steps of Two Runs

Two steps run in parallel if from scopes that agree they end alike: either both
fail, with the same error, or both succeed with results that are related, and
the scopes they reach agree again. Here are the rules by which longer steps are
found to run in parallel. Most are about the operations that steps are put
together with; steps that only look at their arguments run in parallel with
themselves.

Scopes agree if they know the same names. The double-splat parameters in reach
are trees, and of these it only matters which names are the same as they are.

## Main definitions

* `Change.Scopes`: Scopes that know the same names.
* `Change.Settings`: The options of the two runs.
* `Change.Ends`: Results that are related, or the same failure.
* `Change.Parallel`: Steps that run in parallel.
* `Steady`: A step that only looks at its arguments.

## Theorems

* `Parallel.bind`, `Parallel.andThen`, `Parallel.mapM`: Sequences.
* `Parallel.inBody`, `Parallel.withRest`: Steps in a scope of their own.
* `parallel_isLocal`: Looking up a name.
* `Steady.parallel`: A steady step runs in parallel with itself.
-/

namespace RubyTree

open LowerM

namespace Change

/-- Trees that are the same as the same names. -/
def SameNames (c : Change) (t t' : Tree) : Prop :=
  ∀ n n', c.Agree n n' → c.Legible n → n.same t = n'.same t'

/-- Scopes that know the same names. -/
structure Scopes (c : Change) (s s' : Scope) : Prop where
  locals : s.locals = s'.locals
  inMethod : s.inMethod = s'.inMethod
  numbered : c.Numbers s.numbered s'.numbered
  rests : List.Forall₂ c.SameNames s.rests s'.rests

/-- The options of the two runs. -/
def Settings : Change → Options → Options → Prop
  | unnumbered, o, o' => o.numberedParams = true ∧ o' = { o with numberedParams := false }
  | _, o, o' => o = o'

/-- Results that are related, or the same failure. -/
inductive Ends {α β : Type} (P : α → β → Prop) : Except Error α → Except Error β → Prop where
  | ok {a : α} {b : β} (h : P a b) : Ends P (.ok a) (.ok b)
  | error (e : Error) : Ends P (.error e) (.error e)

/-- Steps that end alike from scopes that agree. -/
def Parallel (c : Change) {α β : Type} (P : α → β → Prop) (x : LowerM α) (y : LowerM β) : Prop :=
  ∀ o o' s s', c.Settings o o' → c.Scopes s s' →
    Ends P (x.runIn o s).1 (y.runIn o' s').1 ∧ c.Scopes (x.runIn o s).2 (y.runIn o' s').2

/-- Steps that give trees that agree. -/
abbrev Trees (c : Change) (x y : LowerM Tree) : Prop :=
  c.Parallel c.Agree x y

/-- Steps that give lists of trees that agree. -/
abbrev TreeLists (c : Change) (x y : LowerM (List Tree)) : Prop :=
  c.Parallel c.AgreeAll x y

namespace Scopes

variable {c : Change} {s s' inner inner' : Scope}

/-- A name is bound on both sides. -/
theorem bindLocal (h : c.Scopes s s') (name : String) :
    c.Scopes (s.bindLocal name) (s'.bindLocal name) where
  locals := by simp only [Scope.bindLocal, h.locals]
  inMethod := h.inMethod
  numbered := h.numbered
  rests := h.rests

/-- A body starts without locals on both sides. -/
theorem enterBody (h : c.Scopes s s') (method : Bool) :
    c.Scopes (s.enterBody method) (s'.enterBody method) :=
  ⟨rfl, rfl, h.numbered, h.rests⟩

/-- After a body both sides have the locals they had before it. -/
theorem leaveBody (h : c.Scopes s s') (hinner : c.Scopes inner inner') :
    c.Scopes (inner.leaveBody s) (inner'.leaveBody s') :=
  ⟨h.locals, h.inMethod, hinner.numbered, hinner.rests⟩

/-- Rest names that are the same are put on both stacks. -/
theorem enterRest (h : c.Scopes s s') {name name' : Tree} (hname : c.SameNames name name') :
    c.Scopes (s.enterRest name) (s'.enterRest name') :=
  ⟨h.locals, h.inMethod, h.numbered, .cons hname h.rests⟩

theorem leaveRest (hinner : c.Scopes inner inner') (s s' : Scope) :
    c.Scopes (inner.leaveRest s) (inner'.leaveRest s') := by
  have htail : List.Forall₂ c.SameNames inner.rests.tail inner'.rests.tail := by
    simpa using List.forall₂_drop 1 hinner.rests
  exact ⟨hinner.locals, hinner.inMethod, hinner.numbered, htail⟩

/-- A name that reads the same is a local on both sides or on neither. -/
theorem isLocal (h : c.Scopes s s') {n n' : Tree} (hn : c.Agree n n') (hlegible : c.Legible n) :
    s.isLocal n = s'.isLocal n' := by
  have hrests : ∀ {ts ts' : List Tree}, List.Forall₂ c.SameNames ts ts' →
      ts.any n.same = ts'.any n'.same := by
    intro ts ts' hpairs
    induction hpairs with
    | nil => rfl
    | cons hpair _ ih => rw [List.any_cons, List.any_cons, hpair n n' hn hlegible, ih]
  rw [Scope.isLocal, Scope.isLocal, hn.text?, h.locals, hrests h.rests]

end Scopes

/-- A scope agrees with itself. -/
theorem scopes_refl {c : Change} (s : Scope) : c.Scopes s s where
  locals := rfl
  inMethod := rfl
  numbered := by
    cases c with
    | moved k => exact (rfl : s.numbered = s.numbered)
    | unnumbered => exact (rfl : s.numbered = s.numbered)
    | renumbered => trivial
  rests := by
    refine List.forall₂_same.2 fun t _ n n' hn hlegible => ?_
    rw [← Tree.unmarked_same, hn.unmarked_of_legible hlegible, Tree.unmarked_same]

section Rules

variable {c : Change} {α β γ δ : Type} {P : α → β → Prop} {Q : γ → δ → Prop}

theorem parallel_pure {a : α} {b : β} (h : P a b) :
    c.Parallel P (pure a : LowerM α) (pure b : LowerM β) :=
  fun _ _ _ _ _ hs => ⟨.ok h, hs⟩

/-- The same error ends both runs. -/
theorem parallel_throw (e : Error) :
    c.Parallel P (throw e : LowerM α) (throw e : LowerM β) :=
  fun _ _ _ _ _ hs => ⟨.error e, hs⟩

namespace Parallel

theorem mono {P' : α → β → Prop} {x : LowerM α} {y : LowerM β} (h : c.Parallel P x y)
    (himp : ∀ a b, P a b → P' a b) : c.Parallel P' x y := by
  intro o o' s s' ho hs
  have hrun := h o o' s s' ho hs
  refine ⟨?_, hrun.2⟩
  cases hx : (x.runIn o s).1 <;> cases hy : (y.runIn o' s').1 <;> rw [hx, hy] at hrun <;>
    cases hrun.1
  · exact .error _
  · exact .ok (himp _ _ ‹_›)

/-- The second steps need only run in parallel after what the first ones return. -/
theorem bind {x : LowerM α} {y : LowerM β} {f : α → LowerM γ} {g : β → LowerM δ}
    (hxy : c.Parallel P x y)
    (hfg : ∀ a b, P a b → Returns x a → Returns y b → c.Parallel Q (f a) (g b)) :
    c.Parallel Q (x >>= f) (y >>= g) := by
  intro o o' s s' ho hs
  obtain ⟨hends, hscopes⟩ := hxy o o' s s' ho hs
  rw [runIn_bind, runIn_bind]
  -- Both first steps fail alike, or what they return goes on in parallel.
  cases hx : x.runIn o s with
  | mk r m =>
    cases hy : y.runIn o' s' with
    | mk r' m' =>
      rw [hx, hy] at hends hscopes
      cases hends with
      | error e => exact ⟨.error e, hscopes⟩
      | ok h => exact hfg _ _ h ⟨o, s, m, hx⟩ ⟨o', s', m', hy⟩ o o' m m' ho hscopes

/-- Two steps in a row. -/
theorem andThen {x : LowerM α} {y : LowerM β} {f : α → LowerM γ} {g : β → LowerM δ}
    (hxy : c.Parallel P x y) (hfg : ∀ a b, P a b → c.Parallel Q (f a) (g b)) :
    c.Parallel Q (x >>= f) (y >>= g) :=
  hxy.bind fun a b h _ _ => hfg a b h

/-- The first two steps of a sequence belong together. -/
theorem assoc {ι κ : Type} {x : LowerM ι} {y : LowerM κ} {f : ι → LowerM α} {g : κ → LowerM β}
    {f' : α → LowerM γ} {g' : β → LowerM δ} (hxy : c.Parallel P (x >>= f) (y >>= g))
    (hfg : ∀ a b, P a b → c.Parallel Q (f' a) (g' b)) :
    c.Parallel Q (x >>= fun i => f i >>= f') (y >>= fun k => g k >>= g') := by
  rw [← bind_assoc, ← bind_assoc]
  exact hxy.andThen hfg

/-- A result that is only wrapped up. -/
theorem map {x : LowerM α} {y : LowerM β} {f : α → γ} {g : β → δ} (hxy : c.Parallel P x y)
    (hfg : ∀ a b, P a b → Q (f a) (g b)) :
    c.Parallel Q (do return f (← x)) (do return g (← y)) :=
  hxy.andThen fun a b h => parallel_pure (hfg a b h)

/-- The same step for each item of two lists. -/
theorem mapM {R : α → β → Prop} {f : α → LowerM γ} {g : β → LowerM δ} {xs : List α} {ys : List β}
    (h : List.Forall₂ R xs ys) (hfg : ∀ x y, R x y → c.Parallel Q (f x) (g y)) :
    c.Parallel (List.Forall₂ Q) (xs.mapM f) (ys.mapM g) := by
  induction h with
  | nil =>
    simp only [List.mapM_nil]
    exact parallel_pure .nil
  | cons h _ ih =>
    simp only [List.mapM_cons]
    refine (hfg _ _ h).andThen fun a b hab => ih.andThen fun as bs habs => ?_
    exact parallel_pure (.cons hab habs)

/-- A step for each of two images of a list. -/
theorem mapM_map {ι : Type} {p : ι → α} {q : ι → β} {f : α → LowerM γ} {g : β → LowerM δ}
    {l : List ι} (hfg : ∀ i ∈ l, c.Parallel Q (f (p i)) (g (q i))) :
    c.Parallel (List.Forall₂ Q) ((l.map p).mapM f) ((l.map q).mapM g) := by
  refine mapM (R := fun a b => c.Parallel Q (f a) (g b)) ?_ fun _ _ h => h
  rw [List.forall₂_map_left_iff, List.forall₂_map_right_iff, List.forall₂_same]
  exact hfg

/-- The same step inside of a body. -/
theorem inBody {x : LowerM α} {y : LowerM β} (h : c.Parallel P x y) (method : Bool) :
    c.Parallel P (LowerM.inBody method x) (LowerM.inBody method y) := by
  intro o o' s s' ho hs
  obtain ⟨hends, hscopes⟩ := h o o' _ _ ho (hs.enterBody method)
  rw [runIn_inBody, runIn_inBody]
  exact ⟨hends, hs.leaveBody hscopes⟩

/-- The same step under a rest name. -/
theorem withRest {x : LowerM α} {y : LowerM β} (h : c.Parallel P x y) {name name' : Tree}
    (hname : c.SameNames name name') :
    c.Parallel P (LowerM.withRest name x) (LowerM.withRest name' y) := by
  intro o o' s s' ho hs
  obtain ⟨hends, hscopes⟩ := h o o' _ _ ho (hs.enterRest hname)
  rw [runIn_withRest, runIn_withRest]
  exact ⟨hends, hscopes.leaveRest s s'⟩

end Parallel

/-- What is missing on one side is missing on the other. -/
theorem parallel_require {o : Option α} {o' : Option β} (h : Option.Rel P o o') :
    c.Parallel P (require o) (require o') := by
  cases h with
  | none => exact parallel_throw _
  | some h => exact parallel_pure h

theorem parallel_bindLocal (name : String) :
    c.Parallel (fun _ _ => True) (bindLocal name) (bindLocal name) :=
  fun _ _ _ _ _ hs => ⟨.ok trivial, hs.bindLocal name⟩

theorem parallel_bindLocals : (names : List String) →
    c.Parallel (fun _ _ => True) (names.forM bindLocal) (names.forM bindLocal)
  | [] => parallel_pure trivial
  | name :: names =>
    (parallel_bindLocal name).andThen fun _ _ _ => parallel_bindLocals names

/-- The scopes are asked for the same name. -/
theorem parallel_isLocal {n n' : Tree} (hn : c.Agree n n') (hlegible : c.Legible n) :
    c.Parallel Eq (isLocal n) (isLocal n') :=
  fun _ _ _ _ _ hs => ⟨.ok (hs.isLocal hn hlegible), hs⟩

/-- Both sides give out their next number. -/
theorem parallel_freshNumber : c.Parallel c.Numbers freshNumber freshNumber := by
  intro o o' s s' _ hs
  rw [runIn_freshNumber, runIn_freshNumber]
  exact ⟨.ok hs.numbered, hs.locals, hs.inMethod, numbers_succ hs.numbered, hs.rests⟩

theorem parallel_read : c.Parallel c.Settings (read : LowerM Options) read :=
  fun _ _ _ _ ho hs => ⟨.ok ho, hs⟩

/-- The file name is the same whatever is changed. -/
theorem Settings.filename {o o' : Options} (h : c.Settings o o') : o.filename = o'.filename := by
  cases c with
  | moved k => rw [show o = o' from h]
  | unnumbered => rw [h.2]
  | renumbered => rw [show o = o' from h]

end Rules

end Change

namespace LowerM

/-- What comes after a choice comes after both of its branches. -/
theorem ite_bind {α β : Type} {p : Prop} [Decidable p] (x y : LowerM α) (f : α → LowerM β) :
    (if p then x else y) >>= f = if p then x >>= f else y >>= f := by
  split <;> rfl

/-- A step that only looks at its arguments. -/
def Steady {α : Type} (x : LowerM α) : Prop :=
  ∃ result, ∀ options scope, x.runIn options scope = (result, scope)

section Steady

variable {α β : Type}

theorem steady_pure (a : α) : Steady (pure a) :=
  ⟨.ok a, fun _ _ => rfl⟩

theorem steady_throw (e : Error) : Steady (throw e : LowerM α) :=
  ⟨.error e, fun _ _ => rfl⟩

theorem steady_require (o : Option α) : Steady (require o) := by
  cases o with
  | none => exact steady_throw _
  | some a => exact steady_pure a

theorem steady_ofExcept (x : Except Error α) : Steady (ofExcept x) := by
  cases x with
  | error e => exact steady_throw e
  | ok a => exact steady_pure a

/-- Steps in a row that see no scope. -/
theorem Steady.bind {x : LowerM α} {f : α → LowerM β} (hx : Steady x) (hf : ∀ a, Steady (f a)) :
    Steady (x >>= f) := by
  obtain ⟨result, hx⟩ := hx
  cases result with
  | error e => exact ⟨.error e, fun options scope => by rw [runIn_bind, hx]⟩
  | ok a =>
    obtain ⟨result, hf⟩ := hf a
    exact ⟨result, fun options scope => by rw [runIn_bind, hx]; exact hf options scope⟩

theorem Steady.mapM {f : α → LowerM β} (hf : ∀ a, Steady (f a)) : (l : List α) → Steady (l.mapM f)
  | [] => by
    rw [List.mapM_nil]
    exact steady_pure _
  | a :: l => by
    rw [List.mapM_cons]
    exact (hf a).bind fun b => (Steady.mapM hf l).bind fun bs => steady_pure _

/-- A step that sees no scope and no tree runs the same on both sides. -/
theorem Steady.parallel {c : Change} {x : LowerM α} (hx : Steady x) : c.Parallel Eq x x := by
  obtain ⟨result, hx⟩ := hx
  intro o o' s s' _ hs
  rw [hx, hx]
  refine ⟨?_, hs⟩
  cases result with
  | error e => exact .error e
  | ok a => exact .ok rfl

theorem steady_nameIn (token : Raw) : Steady (nameIn token) :=
  (steady_require _).bind fun _ => steady_pure _

/-- A name is read off a token alone. -/
theorem steady_nameOf (token : Raw) : Steady (nameOf token) := by
  unfold nameOf
  split
  · exact steady_pure _
  · exact steady_nameIn token

theorem steady_nameFrom (t : Tree) : Steady (nameFrom t) :=
  (steady_ofExcept _).bind fun _ => steady_pure _

theorem steady_clippedName (text : Raw) : Steady (clippedName text) :=
  (steady_require _).bind fun _ => steady_pure _

theorem steady_literalText (fs : Fields) : Steady (literalText fs) :=
  (steady_require _).bind fun _ => steady_pure _

theorem steady_isAmong (tags : List String) (tag : Raw) : Steady (isAmong tags tag) := by
  unfold isAmong
  split
  · exact steady_pure _
  · exact steady_throw _

theorem steady_callTag (operator : Raw) : Steady (callTag operator) := by
  unfold callTag
  dsimp only
  split
  on_goal 1 => refine (steady_require _).bind fun op => ?_
  on_goal 2 => refine (steady_pure _).bind fun op => ?_
  all_goals
    split
    · exact steady_throw _
    · split
      · exact steady_pure _
      · exact steady_pure _
      · exact steady_pure _
      · exact steady_throw _

end Steady

end LowerM

end RubyTree
