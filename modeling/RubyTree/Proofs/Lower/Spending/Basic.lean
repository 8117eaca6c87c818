import RubyTree.Proofs.Lower.Uniform.Construct
import RubyTree.Proofs.Lower.Yields
import RubyTree.Proofs.Tree.Updates

/-!
# Spending Numbers

Lowering gives each number to one node, and whatever trees a step is handed it
builds into its result at most once. So no number is in two parts of a result,
which is what lets the places of shared nodes agree.

This is bookkeeping with a balance: a number that is still to be given out is a
credit of one, and a number in a tree has been paid for, by a tree that the step
was handed or by a credit. A step may spend no more than this. Sequences then
pass on what the first step gives to the second, and everything a production has
at hand while it runs is a list of trees.

## Main definitions

* `Scope.credit`: Whether a number is still to be given out.
* `Spends`: What a step gives is paid for by what it was handed.
* `Fresh`, `FreshAll`: A step that is handed nothing.
* `Quiet`: A step that gives no trees.

## Theorems

* `Spends.bind`, `Spends.andThen`, `Quiet.andThen`: Sequences.
* `spends_bare`, `spends_placed`: A node around what is at hand.
* `Spends.mapM`: A step for each element of a list.
* `congruence_quiet`: Every step gives out numbers from the first on.
-/

namespace RubyTree

open RubyTree.Tree (uses usesAll)

/-- Whether a number is still to be given out. -/
def Scope.credit (s : Scope) (k : Nat) : Nat :=
  if s.numbered ≤ k then 1 else 0

namespace LowerM

/-- What the step gives, if it succeeds, is paid for by what it was handed and by
    numbers that nothing had before. -/
def Spends {α : Type} (held : List Tree) (x : LowerM α) (parts : α → List Tree) : Prop :=
  ∀ options scope a scope', x.runIn options scope = (.ok a, scope') → ∀ k,
    usesAll k (parts a) + scope'.credit k ≤ usesAll k held + scope.credit k

/-- A step that gives a tree and was handed none. -/
abbrev Fresh (x : LowerM Tree) : Prop :=
  Spends [] x fun t => [t]

/-- A step that gives trees and was handed none. -/
abbrev FreshAll (x : LowerM (List Tree)) : Prop :=
  Spends [] x fun ts => ts

/-- A step that gives no trees. -/
abbrev Quiet {α : Type} (x : LowerM α) : Prop :=
  Spends [] x fun _ => []

section Rules

variable {α β : Type} {held held' : List Tree} {parts : α → List Tree} {parts' : β → List Tree}

theorem spends_pure {a : α} (h : ∀ k, usesAll k (parts a) ≤ usesAll k held) :
    Spends held (pure a) parts := by
  intro options scope b scope' hrun k
  rw [runIn_pure] at hrun
  cases hrun
  exact Nat.add_le_add_right (h k) _

theorem spends_throw {e : Error} : Spends held (throw e : LowerM α) parts := by
  intro options scope a scope' hrun
  rw [runIn_throw] at hrun
  cases hrun

theorem Spends.bind {x : LowerM α} {f : α → LowerM β} (hx : Spends held x parts)
    (hf : ∀ a, Returns x a → Spends (parts a) (f a) parts') : Spends held (x >>= f) parts' := by
  intro options scope b scope' hrun k
  rw [runIn_bind] at hrun
  cases hfirst : x.runIn options scope with
  | mk result middle =>
    rw [hfirst] at hrun
    cases result with
    | error e => cases hrun
    | ok a =>
      have hbefore := hx options scope a middle hfirst k
      have hafter := hf a ⟨options, scope, middle, hfirst⟩ options middle b scope' hrun k
      exact Nat.le_trans hafter hbefore

/-- What a step is not handed it does not touch. -/
theorem Spends.framed {x : LowerM α} (hx : Spends held x parts) (kept : List Tree) :
    Spends (kept ++ held) x fun a => kept ++ parts a := by
  intro options scope a scope' hrun k
  have hspent := hx options scope a scope' hrun k
  simp only [Tree.usesAll_append]
  omega

theorem Spends.mono {x : LowerM α} (hx : Spends held' x parts)
    (h : ∀ k, usesAll k held' ≤ usesAll k held) : Spends held x parts := by
  intro options scope a scope' hrun k
  have hspent := hx options scope a scope' hrun k
  have hmore := h k
  omega

/-- A step that is handed some of what is at hand. -/
theorem Spends.given {x : LowerM α} {f : α → LowerM β} (hx : Spends held' x parts)
    (kept : List Tree) (h : ∀ k, usesAll k (kept ++ held') ≤ usesAll k held)
    (hf : ∀ a, Returns x a → Spends (kept ++ parts a) (f a) parts') :
    Spends held (x >>= f) parts' :=
  ((hx.framed kept).bind hf).mono h

/-- A step that is handed nothing adds what it gives to what is at hand. -/
theorem Spends.andThen {x : LowerM α} {f : α → LowerM β} (hx : Spends [] x parts)
    (hf : ∀ a, Returns x a → Spends (held ++ parts a) (f a) parts') :
    Spends held (x >>= f) parts' :=
  hx.given held (fun _ => by simp) hf

theorem Quiet.andThen {x : LowerM α} {f : α → LowerM β} (hx : Quiet x)
    (hf : ∀ a, Returns x a → Spends held (f a) parts') : Spends held (x >>= f) parts' :=
  Spends.andThen hx fun a ha => (hf a ha).mono fun _ => by simp

/-- A node without a number has no more numbers than its children. -/
theorem spends_node {tag : Raw} {mark : Mark} {children : List Tree} (hmark : mark.shared = none)
    (h : ∀ k, usesAll k children ≤ usesAll k held) :
    Spends held (pure (.node tag mark children)) fun t => [t] :=
  spends_pure fun k => by
    have hnode : uses k (.node tag mark children) ≤ usesAll k children := Tree.uses_node_le hmark
    have hheld := h k
    simp only [Tree.usesAll_cons, Tree.usesAll_nil]
    omega

theorem spends_bare {tag : String} {children : List Tree}
    (h : ∀ k, usesAll k children ≤ usesAll k held) :
    Spends held (pure (.bare tag children)) fun t => [t] :=
  spends_node rfl h

theorem spends_placed {line : Option Raw} {tag : String} {children : List Tree}
    (h : ∀ k, usesAll k children ≤ usesAll k held) :
    Spends held (pure (.placed line tag children)) fun t => [t] :=
  spends_node rfl h

theorem Spends.mapM (handed : α → List Tree) {f : α → LowerM β} {xs : List α}
    (h : ∀ x ∈ xs, Spends (handed x) (f x) parts') :
    Spends (xs.flatMap handed) (xs.mapM f) fun ys => ys.flatMap parts' := by
  induction xs with
  | nil => exact spends_pure fun _ => Nat.le_refl _
  | cons x xs ih =>
    rw [List.forall_mem_cons] at h
    rw [List.mapM_cons]
    -- What is handed to the other elements waits, and what this one has made waits for them.
    refine h.1.given (xs.flatMap handed) (fun k => ?_) fun y _ => ?_
    · simp only [List.flatMap_cons, Tree.usesAll_append]
      omega
    · refine (ih h.2).given (parts' y) (fun k => ?_) fun ys _ => spends_pure fun k => ?_
      · simp only [Tree.usesAll_append]
        omega
      · simp only [List.flatMap_cons]
        exact Nat.le_refl _

theorem freshAll_mapM {f : α → LowerM Tree} {xs : List α} (h : ∀ x ∈ xs, Fresh (f x)) :
    FreshAll (xs.mapM f) := by
  have hall := Spends.mapM (fun _ => []) h
  have hnone : xs.flatMap (fun _ => ([] : List Tree)) = [] := by simp
  simpa only [List.flatMap_singleton', hnone] using hall

/-- A step for each of the trees at hand. -/
theorem spends_mapM {f : Tree → LowerM Tree} {ts : List Tree}
    (h : ∀ t ∈ ts, Spends [t] (f t) fun u => [u]) : Spends ts (ts.mapM f) fun us => us := by
  have hall := Spends.mapM (fun t => [t]) h
  simpa only [List.flatMap_singleton'] using hall

theorem Spends.inBody {x : LowerM α} (hx : Spends held x parts) (method : Bool) :
    Spends held (LowerM.inBody method x) parts := by
  intro options scope a scope' hrun
  obtain ⟨hfst, rfl⟩ := Prod.mk.inj hrun
  exact hx options (scope.enterBody method) a (x.runIn options (scope.enterBody method)).2
    (Prod.ext hfst rfl)

theorem Spends.withRest {x : LowerM α} (hx : Spends held x parts) (name : Tree) :
    Spends held (LowerM.withRest name x) parts := by
  intro options scope a scope' hrun
  obtain ⟨hfst, rfl⟩ := Prod.mk.inj hrun
  exact hx options (scope.enterRest name) a (x.runIn options (scope.enterRest name)).2
    (Prod.ext hfst rfl)

end Rules

/-- Numbers are given out one after the other, so none comes back. -/
theorem congruence_quiet : Congruence fun {α} (x _ : LowerM α) => Quiet x where
  pure _ := spends_pure fun _ => Nat.le_refl _
  throw _ := spends_throw
  bindReturned hx hf := Spends.bind hx hf
  read := fun _ _ _ _ hrun _ => by
    cases hrun
    exact Nat.le_refl _
  inMethod _ := fun _ _ _ _ hrun _ => by
    cases hrun
    exact Nat.le_refl _
  bindLocal name := fun _ _ _ _ hrun _ => by
    cases hrun
    exact Nat.le_refl _
  freshNumber := fun _ scope _ _ hrun k => by
    cases hrun
    -- The number is no longer owed, and the next one is larger.
    simp only [Scope.credit]
    split <;> split <;> omega
  inBody method _ _ hx := hx.inBody method
  withRest name _ _ hx := hx.withRest name

theorem quiet_isLocal (name : Tree) : Quiet (isLocal name) := fun _ _ _ _ hrun _ => by
  cases hrun
  exact Nat.le_refl _

/-- The number that is given out is paid for by its credit. -/
theorem runIn_freshNumber_credit {options : Options} {scope scope' : Scope} {n : Nat}
    (hrun : freshNumber.runIn options scope = (.ok n, scope')) (k : Nat) :
    (if n = k then 1 else 0) + scope'.credit k = scope.credit k := by
  cases hrun
  simp only [Scope.credit]
  split <;> split <;> split <;> omega

end LowerM

end RubyTree
