import RubyTree.Proofs.Lower.Step

/-!
# Steps That Succeed

A step yields a property if it succeeds from every scope and under all options,
and what it gives has the property. This says at once that lowering does not
fail and that its result is sound, which are needed together: the steps after
the first fail unless what they are given has the right form.

The property is about the result alone. No step succeeds in one scope and fails
in another, since a scope only decides between forms that may all follow, so
the scopes in between need not be described.

## Main definitions

* `Yields`: A step succeeds, and its result has a property.

## Theorems

* `Yields.bind`: A sequence, where the second step is given what the first yields.
* `Yields.mono`, `Yields.and`: A weaker property, and two at once.
* `Yields.mapM`, `Yields.forM`: A step for each element of a list.
* `Yields.mapM_exists`: What one of these steps gives is among the results.
* `Yields.inBody`, `Yields.withRest`: Steps in a scope of their own.
-/

namespace RubyTree

namespace LowerM

/-- The step succeeds from every scope, and its result has the property. -/
def Yields {α : Type} (x : LowerM α) (P : α → Prop) : Prop :=
  ∀ options scope, ∃ a scope', x.runIn options scope = (.ok a, scope') ∧ P a

variable {α β : Type} {P : α → Prop} {Q : β → Prop}

theorem yields_pure {a : α} (h : P a) : Yields (pure a) P :=
  fun _ scope => ⟨a, scope, rfl, h⟩

theorem yields_require {o : Option α} {a : α} (h : o = some a) : Yields (require o) (· = a) := by
  rw [h]
  exact yields_pure rfl

theorem yields_read : Yields read fun _ => True :=
  fun options scope => ⟨options, scope, rfl, trivial⟩

theorem yields_isLocal (name : Tree) : Yields (isLocal name) fun _ => True :=
  fun _ scope => ⟨scope.isLocal name, scope, rfl, trivial⟩

theorem yields_get : Yields (get : LowerM Scope) fun _ => True :=
  fun _ scope => ⟨scope, scope, rfl, trivial⟩

theorem yields_bindLocal (name : String) : Yields (bindLocal name) fun _ => True :=
  fun _ scope => ⟨(), scope.bindLocal name, rfl, trivial⟩

theorem yields_freshNumber : Yields freshNumber fun _ => True :=
  fun _ scope => ⟨scope.numbered, _, rfl, trivial⟩

namespace Yields

/-- Whatever the step returns has the property. -/
theorem of_returns {x : LowerM α} {a : α} (h : Yields x P) (ha : Returns x a) : P a := by
  obtain ⟨options, scope, scope', hrun⟩ := ha
  obtain ⟨b, scope'', hrun', hb⟩ := h options scope
  rw [hrun] at hrun'
  cases hrun'
  exact hb

theorem mono {x : LowerM α} {P' : α → Prop} (hx : Yields x P) (h : ∀ a, P a → P' a) :
    Yields x P' := by
  intro options scope
  obtain ⟨a, scope', hrun, ha⟩ := hx options scope
  exact ⟨a, scope', hrun, h a ha⟩

theorem bind {x : LowerM α} {f : α → LowerM β} (hx : Yields x P)
    (hf : ∀ a, P a → Yields (f a) Q) : Yields (x >>= f) Q := by
  intro options scope
  obtain ⟨a, middle, hrun, ha⟩ := hx options scope
  obtain ⟨b, scope', hrun', hb⟩ := hf a ha options middle
  refine ⟨b, scope', ?_, hb⟩
  rw [runIn_bind, hrun]
  exact hrun'

/-- A step has one result, so what is known of it apart is known together. -/
theorem and {x : LowerM α} {P' : α → Prop} (hx : Yields x P) (hx' : Yields x P') :
    Yields x fun a => P a ∧ P' a := by
  intro options scope
  obtain ⟨a, after, hrun, ha⟩ := hx options scope
  obtain ⟨b, after', hrun', hb⟩ := hx' options scope
  rw [hrun] at hrun'
  cases hrun'
  exact ⟨a, after, hrun, ha, hb⟩

theorem inBody {x : LowerM α} (hx : Yields x P) (method : Bool) :
    Yields (LowerM.inBody method x) P := by
  intro options scope
  obtain ⟨a, inner, hrun, ha⟩ := hx options (scope.enterBody method)
  refine ⟨a, inner.leaveBody scope, ?_, ha⟩
  rw [runIn_inBody, hrun]

theorem withRest {x : LowerM α} (hx : Yields x P) (name : Tree) :
    Yields (LowerM.withRest name x) P := by
  intro options scope
  obtain ⟨a, inner, hrun, ha⟩ := hx options (scope.enterRest name)
  refine ⟨a, inner.leaveRest scope, ?_, ha⟩
  rw [runIn_withRest, hrun]

theorem mapM {xs : List α} {f : α → LowerM β} (h : ∀ x ∈ xs, Yields (f x) Q) :
    Yields (xs.mapM f) fun ys => ∀ y ∈ ys, Q y := by
  induction xs with
  | nil => exact yields_pure fun y hy => nomatch hy
  | cons x xs ih =>
    rw [List.mapM_cons]
    refine (h x List.mem_cons_self).bind fun y hy => ?_
    refine (ih fun x' hx' => h x' (List.mem_cons_of_mem x hx')).bind fun ys hys => ?_
    refine yields_pure fun z hz => ?_
    rcases List.mem_cons.1 hz with rfl | hz
    · exact hy
    · exact hys z hz

theorem mapM_exists {xs : List α} {f : α → LowerM β} {x : α} (hmem : x ∈ xs)
    (h : ∀ x ∈ xs, Yields (f x) fun _ => True) (hx : Yields (f x) Q) :
    Yields (xs.mapM f) fun ys => ∃ y ∈ ys, Q y := by
  -- The list is cut at the element, and what is before and after it succeeds.
  obtain ⟨before, after, rfl⟩ := List.append_of_mem hmem
  rw [List.forall_mem_append, List.forall_mem_cons] at h
  rw [List.mapM_append, List.mapM_cons]
  refine (mapM h.1).bind fun ys _ => Yields.bind (P := fun zs => ∃ y ∈ zs, Q y) ?_ ?_
  · exact hx.bind fun y hy => (mapM h.2.2).bind fun _ _ => yields_pure ⟨y, List.mem_cons_self, hy⟩
  · rintro zs ⟨y, hmem, hy⟩
    exact yields_pure ⟨y, List.mem_append_right ys hmem, hy⟩

theorem forM {xs : List α} {f : α → LowerM Unit} (h : ∀ x, Yields (f x) fun _ => True) :
    Yields (xs.forM f) fun _ => True := by
  induction xs with
  | nil => exact yields_pure trivial
  | cons x xs ih => exact (h x).bind fun _ _ => ih

end Yields

end LowerM

end RubyTree
