import RubyTree.Proofs.Lower.Accounts.Source
import RubyTree.Proofs.Lower.ScopeRestored
import RubyTree.Proofs.Lower.Uniform.Construct
import RubyTree.Proofs.Lower.Yields

/-!
# Keeping Accounts

Lowering puts class variables where they belong, and takes the comments of a raw
tree over as they are. Both are kept in the ledgers of a tree, and every step is
balanced in each of them: what the step gives counts for what the raw tree that it
lowers has to be counted for, and for the trees that it was handed.

A step runs inside of a method or outside of one, and what it gives is weighed for
the same place. It leaves a method where it was, so the next step runs at the same
place. Only the body of a definition is somewhere else.

## Main definitions

* `Accounts`: A step is balanced.
* `Counts`, `CountsAll`: A step that was handed nothing.

## Theorems

* `Accounts.andThen`, `Accounts.last`, `Accounts.given`: Sequences.
* `Restores.andThen`: A step that gives no trees comes first.
* `accounts_bare`, `accounts_placed`: A node around what is at hand.
* `accounts_opened`: A node that is taken apart.
* `Accounts.mapM`: A step for each element of a list.
* `Accounts.inBody`: The body of a definition.
-/

namespace RubyTree

open RubyTree.Tree (isPlain)

namespace LowerM

/-- What a step gives, run inside of a method or outside of one, counts for what is
    due and for what it was handed. -/
def Accounts {α : Type} (L : Ledger) (m : Bool) (due held : Nat) (x : LowerM α)
    (parts : α → Nat) : Prop :=
  ∀ options scope a scope', x.runIn options scope = (.ok a, scope') → scope.inMethod = m →
    scope'.inMethod = m ∧ L.Settles (due + held) (parts a)

/-- A step that gives a tree and was handed none. -/
abbrev Counts (L : Ledger) (m : Bool) (due : Nat) (x : LowerM Tree) : Prop :=
  Accounts L m due 0 x (L.weigh m)

/-- A step that gives trees and was handed none. -/
abbrev CountsAll (L : Ledger) (m : Bool) (due : Nat) (x : LowerM (List Tree)) : Prop :=
  Accounts L m due 0 x (L.total m)

section Rules

variable {L : Ledger} {m : Bool} {α β : Type} {due due' held held' : Nat}
  {parts : α → Nat} {parts' : β → Nat}

theorem accounts_settled {a : α} (h : L.Settles held (parts a)) :
    Accounts L m 0 held (pure a) parts := by
  intro options scope b scope' hrun hscope
  rw [runIn_pure] at hrun
  cases hrun
  rw [Nat.zero_add]
  exact ⟨hscope, h⟩

theorem accounts_pure {a : α} (h : parts a = held) : Accounts L m 0 held (pure a) parts :=
  accounts_settled (Ledger.settles_of_eq h)

theorem accounts_throw {e : Error} : Accounts L m due held (throw e : LowerM α) parts := by
  intro options scope a scope' hrun
  rw [runIn_throw] at hrun
  cases hrun

/-- A step that is handed some of what is at hand, and lowers some of what is due. -/
theorem Accounts.sequence {x : LowerM α} {f : α → LowerM β} (hx : Accounts L m due held' x parts)
    (kept : Nat) (h : L.Settles held (kept + held'))
    (hf : ∀ a, Returns x a → Accounts L m due' (parts a + kept) (f a) parts') :
    Accounts L m (due + due') held (x >>= f) parts' := by
  intro options scope b scope' hrun hscope
  rw [runIn_bind] at hrun
  cases hfirst : x.runIn options scope with
  | mk result middle =>
    rw [hfirst] at hrun
    cases result with
    | error e => cases hrun
    | ok a =>
      obtain ⟨hmiddle, hbefore⟩ := hx options scope a middle hfirst hscope
      obtain ⟨hscope', hafter⟩ :=
        hf a ⟨options, scope, middle, hfirst⟩ options middle b scope' hrun hmiddle
      refine ⟨hscope', Ledger.Settles.trans ?_ hafter⟩
      -- What is kept and what is still due stay aside while the first step runs.
      have hfirst := (h.add_left due).trans (Ledger.settles_of_eq
        (show kept + (due + held') = due + (kept + held') by omega))
      have hgiven := (hfirst.trans (hbefore.add_left kept)).add_left due'
      exact (Ledger.settles_of_eq (by omega)).trans
        (hgiven.trans (Ledger.settles_of_eq (by omega)))

/-- A step that is handed nothing adds what it gives to what is at hand. -/
theorem Accounts.andThen {x : LowerM α} {f : α → LowerM β} (hx : Accounts L m due 0 x parts)
    (hf : ∀ a, Returns x a → Accounts L m due' (parts a + held) (f a) parts') :
    Accounts L m (due + due') held (x >>= f) parts' :=
  hx.sequence held (Ledger.settles_of_eq rfl) hf

/-- Such a step after which nothing is due. -/
theorem Accounts.last {x : LowerM α} {f : α → LowerM β} (hx : Accounts L m due 0 x parts)
    (hf : ∀ a, Returns x a → Accounts L m 0 (parts a + held) (f a) parts') :
    Accounts L m due held (x >>= f) parts' :=
  Accounts.andThen hx hf

/-- A step that is handed all there is. -/
theorem Accounts.bind {x : LowerM α} {f : α → LowerM β} (hx : Accounts L m due held x parts)
    (hf : ∀ a, Returns x a → Accounts L m 0 (parts a) (f a) parts') :
    Accounts L m due held (x >>= f) parts' :=
  hx.sequence 0 (Ledger.settles_of_eq (Nat.zero_add held)) hf

/-- A step that is handed some of what is at hand and lowers nothing. -/
theorem Accounts.given {x : LowerM α} {f : α → LowerM β} (hx : Accounts L m 0 held' x parts)
    (kept : Nat) (h : kept + held' = held)
    (hf : ∀ a, Returns x a → Accounts L m due (parts a + kept) (f a) parts') :
    Accounts L m due held (x >>= f) parts' := by
  have hboth := hx.sequence kept (Ledger.settles_of_eq h) hf
  rwa [Nat.zero_add] at hboth

theorem Accounts.mono {x : LowerM α} (hx : Accounts L m due' held' x parts)
    (h : L.Settles (due + held) (due' + held')) : Accounts L m due held x parts := by
  intro options scope a scope' hrun hscope
  obtain ⟨hscope', hparts⟩ := hx options scope a scope' hrun hscope
  exact ⟨hscope', h.trans hparts⟩

theorem Accounts.congr {x : LowerM α} (hx : Accounts L m due' held' x parts)
    (h : due' + held' = due + held) : Accounts L m due held x parts :=
  hx.mono (Ledger.settles_of_eq h)

/-- A step for which nothing is due gives nothing that counts. -/
theorem Accounts.nothing {x : LowerM α} {f : α → LowerM β} (hx : Accounts L m 0 0 x parts)
    (hf : ∀ a, Returns x a → parts a = 0 → Accounts L m due held (f a) parts') :
    Accounts L m due held (x >>= f) parts' := by
  intro options scope b scope' hrun hscope
  rw [runIn_bind] at hrun
  -- An error of the first step is one of the whole, so the step has returned here.
  cases hfirst : x.runIn options scope with
  | mk result middle =>
    rw [hfirst] at hrun
    cases result with
    | error e => cases hrun
    | ok a =>
      obtain ⟨hmiddle, hbefore⟩ := hx options scope a middle hfirst hscope
      exact hf a ⟨options, scope, middle, hfirst⟩ hbefore.eq_zero options middle b scope' hrun
        hmiddle

/-- A step that only looks something up, or binds a name. -/
theorem Restores.andThen {x : LowerM α} {f : α → LowerM β} (hx : Restores x)
    (hf : ∀ a, Returns x a → Accounts L m due held (f a) parts') :
    Accounts L m due held (x >>= f) parts' := by
  have hfirst : Accounts L m 0 0 x fun _ => 0 := by
    intro options scope a scope' hrun hscope
    have hrestored := hx options scope
    rw [hrun] at hrestored
    exact ⟨hrestored.inMethod.trans hscope, Ledger.settles_of_eq rfl⟩
  exact hfirst.nothing fun a ha _ => hf a ha

theorem restores_isLocal (name : Tree) : Restores (isLocal name) :=
  fun _ scope => .refl scope

/-- A node without comments counts for its children. -/
theorem accounts_node {tag : Raw} {mark : Mark} {children : List Tree} (htag : isPlain tag)
    (hmark : mark.comments = none) (h : L.total m children = held) :
    Accounts L m 0 held (pure (.node tag mark children)) (L.weigh m) :=
  accounts_pure ((Ledger.weigh_unmarked htag hmark).trans h)

theorem accounts_bare {tag : String} {children : List Tree} (htag : isPlain (.str tag))
    (h : L.total m children = held) : Accounts L m 0 held (pure (.bare tag children)) (L.weigh m) :=
  accounts_node htag rfl h

theorem accounts_placed {line : Option Raw} {tag : String} {children : List Tree}
    (htag : isPlain (.str tag)) (h : L.total m children = held) :
    Accounts L m 0 held (pure (.placed line tag children)) (L.weigh m) :=
  accounts_node htag rfl h

/-- A node that is taken apart gives what its children count for. -/
theorem accounts_opened {a : α} {tag : Raw} {mark : Mark} {children : List Tree}
    (htag : isPlain tag) (h : parts a = L.total m children) :
    Accounts L m 0 (L.weigh m (.node tag mark children)) (pure a) parts :=
  accounts_settled ((Ledger.settles_children htag).trans (Ledger.settles_of_eq h))

theorem accounts_of_children? {a : α} {t : Tree} {children : List Tree} (ht : t.plain)
    (hchildren : t.children? = some children) (h : parts a = L.total m children) :
    Accounts L m 0 (L.weigh m t) (pure a) parts :=
  accounts_settled ((Ledger.settles_of_children? ht hchildren).trans (Ledger.settles_of_eq h))

/-- A step for each element of a list. -/
theorem Accounts.mapM (due handed : α → Nat) {f : α → LowerM β} {xs : List α}
    (h : ∀ x ∈ xs, Accounts L m (due x) (handed x) (f x) parts') :
    Accounts L m (xs.map due).sum (xs.map handed).sum (xs.mapM f)
      fun ys => (ys.map parts').sum := by
  -- By the list: the trees that are there already are handed on to the rest.
  induction xs with
  | nil => exact accounts_pure rfl
  | cons x xs ih =>
    rw [List.forall_mem_cons] at h
    rw [List.mapM_cons, List.map_cons, List.sum_cons, List.map_cons, List.sum_cons]
    refine h.1.sequence (xs.map handed).sum (Ledger.settles_of_eq (Nat.add_comm _ _)) fun y _ => ?_
    have hrest : Accounts L m ((xs.map due).sum + 0) (parts' y + (xs.map handed).sum)
        (do return y :: (← xs.mapM f)) fun ys => (ys.map parts').sum :=
      (ih h.2).sequence (parts' y) (Ledger.settles_of_eq rfl) fun ys _ => accounts_pure (by
        rw [List.map_cons, List.sum_cons, Nat.add_comm])
    exact hrest

/-- A step for each of several raw trees. -/
theorem counts_mapM {f : Raw → LowerM Tree} {rs : List Raw}
    (h : ∀ r ∈ rs, Counts L m (L.due r) (f r)) : CountsAll L m (L.dueAll rs) (rs.mapM f) := by
  have hall := Accounts.mapM L.due (fun _ => 0) h
  have hnone : (rs.map fun _ => 0).sum = 0 := by simp
  rw [← Ledger.dueAll_eq_sum, hnone] at hall
  simpa only [← Ledger.total_eq_sum] using hall

/-- A step for each of the trees at hand. -/
theorem accounts_mapM {parts : α → Nat} {f : Tree → LowerM α} {ts : List Tree}
    (h : ∀ t ∈ ts, Accounts L m 0 (L.weigh m t) (f t) parts) :
    Accounts L m 0 (L.total m ts) (ts.mapM f) fun as => (as.map parts).sum := by
  have hall := Accounts.mapM (fun _ => 0) (L.weigh m) h
  have hnone : (ts.map fun _ => 0).sum = 0 := by simp
  rwa [hnone, ← Ledger.total_eq_sum] at hall

/-- The body of a definition is inside of a method or outside of one wherever the
    definition is. -/
theorem Accounts.inBody {x : LowerM α} {method : Bool} (hx : Accounts L method due held x parts) :
    Accounts L m due held (LowerM.inBody method x) parts := by
  intro options scope a scope' hrun hscope
  obtain ⟨hfst, rfl⟩ := Prod.mk.inj hrun
  refine ⟨hscope, ?_⟩
  exact (hx options (scope.enterBody method) a (x.runIn options (scope.enterBody method)).2
    (Prod.ext hfst rfl) rfl).2

theorem Accounts.withRest {x : LowerM α} (hx : Accounts L m due held x parts) (name : Tree) :
    Accounts L m due held (LowerM.withRest name x) parts := by
  intro options scope a scope' hrun hscope
  obtain ⟨hfst, rfl⟩ := Prod.mk.inj hrun
  exact hx options (scope.enterRest name) a (x.runIn options (scope.enterRest name)).2
    (Prod.ext hfst rfl) hscope

end Rules

end LowerM

end RubyTree
