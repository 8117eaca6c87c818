import RubyTree.Lower.Field

/-!
# Running Steps

A step reads the options, may fail, and leaves a scope behind in either case.
What running a step gives is said once for each of the operations that steps
are put together with, so that no later argument opens the layers a step is
made from.

A value that a step returns, from whatever scope, is related to the step by
`Returns`. Many steps look at their argument alone, and then what they return
says something about that argument; the inversion lemmas here read it off.

## Main definitions

* `Returns`: A value that a step returns.

## Theorems

* `runIn_pure`, `runIn_throw`, `runIn_bind`: Results, failures and sequences.
* `runIn_read`, `runIn_get`, `runIn_bindLocal`, `runIn_freshNumber`: Operations
  on the options and the scope.
* `runIn_inBody`, `runIn_withRest`: Steps in a scope of their own.
* `returns_bind`, `returns_mapM`: What a sequence returns.
-/

namespace RubyTree

namespace LowerM

section Running

variable {α β : Type} (options : Options) (scope : Scope)

@[simp] theorem runIn_pure (a : α) :
    (pure a : LowerM α).runIn options scope = (.ok a, scope) :=
  rfl

@[simp] theorem runIn_throw (e : Error) :
    (throw e : LowerM α).runIn options scope = (.error e, scope) :=
  rfl

theorem runIn_bind (x : LowerM α) (f : α → LowerM β) :
    (x >>= f).runIn options scope = match x.runIn options scope with
      | (.ok a, middle) => (f a).runIn options middle
      | (.error e, middle) => (.error e, middle) := by
  unfold runIn ExceptT.run
  simp only [bind, ReaderT.bind, ExceptT.bind, ExceptT.mk, StateT.bind, ExceptT.bindCont]
  cases x options scope with
  | mk result middle => cases result <;> rfl

@[simp] theorem runIn_read :
    (read : LowerM Options).runIn options scope = (.ok options, scope) :=
  rfl

@[simp] theorem runIn_get : (get : LowerM Scope).runIn options scope = (.ok scope, scope) :=
  rfl

@[simp] theorem runIn_bindLocal (name : String) :
    (bindLocal name).runIn options scope = (.ok (), scope.bindLocal name) :=
  rfl

@[simp] theorem runIn_freshNumber :
    freshNumber.runIn options scope =
      (.ok scope.numbered, { scope with numbered := scope.numbered + 1 }) :=
  rfl

theorem runIn_inBody (method : Bool) (x : LowerM α) :
    (inBody method x).runIn options scope =
      ((x.runIn options (scope.enterBody method)).1,
        (x.runIn options (scope.enterBody method)).2.leaveBody scope) :=
  rfl

theorem runIn_withRest (name : Tree) (x : LowerM α) :
    (withRest name x).runIn options scope =
      ((x.runIn options (scope.enterRest name)).1,
        (x.runIn options (scope.enterRest name)).2.leaveRest scope) :=
  rfl

end Running

/-- Two steps are the same if they run alike from every scope. -/
theorem ext_runIn {α : Type} {x y : LowerM α}
    (h : ∀ options scope, x.runIn options scope = y.runIn options scope) : x = y :=
  funext fun options => funext fun scope => h options scope

/-- A value that a step returns, from one scope or another. -/
def Returns {α : Type} (x : LowerM α) (a : α) : Prop :=
  ∃ options scope scope', x.runIn options scope = (.ok a, scope')

section Returning

variable {α β : Type}

theorem returns_pure {a b : α} (h : Returns (pure a) b) : a = b := by
  obtain ⟨options, scope, scope', hrun⟩ := h
  rw [runIn_pure] at hrun
  injection hrun with hok
  injection hok

theorem not_returns_throw {e : Error} {a : α} : ¬ Returns (throw e) a := by
  rintro ⟨options, scope, scope', hrun⟩
  rw [runIn_throw] at hrun
  injection hrun with hok
  cases hok

theorem returns_require {o : Option α} {a : α} (h : Returns (require o) a) : o = some a := by
  cases o with
  | none => exact absurd h not_returns_throw
  | some b => rw [returns_pure h]

/-- What a sequence returns, its second step returns after the first. -/
theorem returns_bind {x : LowerM α} {f : α → LowerM β} {b : β} (h : Returns (x >>= f) b) :
    ∃ a, Returns x a ∧ Returns (f a) b := by
  obtain ⟨options, scope, scope', hrun⟩ := h
  rw [runIn_bind] at hrun
  split at hrun
  · rename_i a middle hx
    exact ⟨a, ⟨options, scope, middle, hx⟩, ⟨options, middle, scope', hrun⟩⟩
  · injection hrun with hok
    cases hok

/-- Each of the results of a list of steps is the result of one of them. -/
theorem returns_mapM {f : α → LowerM β} {xs : List α} {ys : List β}
    (h : Returns (xs.mapM f) ys) : ∀ y ∈ ys, ∃ x ∈ xs, Returns (f x) y := by
  induction xs generalizing ys with
  | nil =>
    rw [← returns_pure h]
    exact fun _ hy => absurd hy List.not_mem_nil
  | cons x xs ih =>
    rw [List.mapM_cons] at h
    obtain ⟨y, hy, h⟩ := returns_bind h
    obtain ⟨rest, hrest, h⟩ := returns_bind h
    rw [← returns_pure h, List.forall_mem_cons]
    refine ⟨⟨x, List.mem_cons_self, hy⟩, fun z hz => ?_⟩
    obtain ⟨x', hx', hz'⟩ := ih hrest z hz
    exact ⟨x', List.mem_cons_of_mem x hx', hz'⟩

end Returning

end LowerM

end RubyTree
