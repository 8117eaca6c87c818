import RubyTree.Proofs.Lower.Depth

/-!
# Scopes Are Restored

Lowering opens scopes for definitions and for the reach of double-splat
parameters, and may fail at any place inside them. Whatever happens, the scope
it leaves is the one it started in but for names that were bound on the way:
inside the same method or outside of any, with the same double-splat parameters
in reach, and with no local variable forgotten. A method definition leaves not
even a new name, since what it binds is bound in a body of its own.

The argument is about one step at a time. Binding a name adds one, a number for
a shared node is no name, and both ways of opening a scope put back what they
replaced, on the path of failure too. Everything else lowering does is a
sequence of such steps.

## Main definitions

* `Scope.Restored`: A scope that differs from another one by new names only.
* `Restores`: A step that leaves such a scope behind.

## Theorems

* `congruence_restores`: Steps made of restoring steps restore.
* `restores_lowerAt`: Lowering restores, up to every depth.
* `lowerMethod_locals`: A method definition leaves the names as they were.
* `lower_restores_scope`: All of this, for lowering.
-/

namespace RubyTree

namespace Scope

/-- A scope that `before` has become: nothing is different but for new names,
    and perhaps numbers of shared nodes. -/
structure Restored (before after : Scope) : Prop where
  inMethod : after.inMethod = before.inMethod
  rests : after.rests = before.rests
  locals : before.locals ⊆ after.locals

namespace Restored

theorem refl (s : Scope) : Restored s s :=
  ⟨rfl, rfl, List.Subset.refl _⟩

theorem trans {a b c : Scope} (hab : Restored a b) (hbc : Restored b c) : Restored a c :=
  ⟨hbc.inMethod.trans hab.inMethod, hbc.rests.trans hab.rests,
    List.Subset.trans hab.locals hbc.locals⟩

theorem bindLocal (s : Scope) (name : String) : Restored s (s.bindLocal name) := by
  refine ⟨rfl, rfl, fun x hx => ?_⟩
  unfold Scope.bindLocal
  dsimp only
  split
  · exact hx
  · exact List.mem_cons_of_mem _ hx

/-- Leaving a body forgets its names and recalls those outside. Of what happened
    inside only the double-splat parameters matter, and these were restored. -/
theorem leaveBody {outer inner : Scope} {method : Bool}
    (h : Restored (outer.enterBody method) inner) : Restored outer (inner.leaveBody outer) :=
  ⟨rfl, h.rests, List.Subset.refl _⟩

theorem leaveRest {outer inner : Scope} {name : Tree} (h : Restored (outer.enterRest name) inner) :
    Restored outer (inner.leaveRest outer) :=
  ⟨h.inMethod, congrArg List.tail h.rests, h.locals⟩

end Restored

end Scope

namespace LowerM

/-- A step after which the scope is restored, whether it succeeds or fails. -/
def Restores {α : Type} (x : LowerM α) : Prop :=
  ∀ options scope, Scope.Restored scope (x.runIn options scope).2

theorem restores_bind {α β : Type} {x : LowerM α} {f : α → LowerM β} (hx : Restores x)
    (hf : ∀ a, Returns x a → Restores (f a)) : Restores (x >>= f) := by
  intro options scope
  have hfirst := hx options scope
  rw [runIn_bind]
  cases hrun : x.runIn options scope with
  | mk result middle =>
    rw [hrun] at hfirst
    cases result with
    -- A failure ends the sequence, and the first step has restored the scope.
    | error e => exact hfirst
    | ok a => exact hfirst.trans (hf a ⟨options, scope, middle, hrun⟩ options middle)

theorem congruence_restores : Congruence fun {α} (x _ : LowerM α) => Restores x where
  pure _ _ scope := .refl scope
  throw _ _ scope := .refl scope
  bindReturned := restores_bind
  read _ scope := .refl scope
  inMethod _ _ scope := .refl scope
  bindLocal name _ scope := .bindLocal scope name
  freshNumber _ _ := ⟨rfl, rfl, List.Subset.refl _⟩
  inBody method _ _ hx options scope := (hx options (scope.enterBody method)).leaveBody
  withRest name _ _ hx options scope := (hx options (scope.enterRest name)).leaveRest

/-- A node restores if the visitor of its fields does. -/
theorem restores_lowerWith {go : Visit} (h : ∀ r, Restores (go r)) (r : Raw) :
    Restores (lowerWith go r) := by
  have hrel : Related (fun {α} (x _ : LowerM α) => Restores x) (fun _ => True) go go :=
    { congruence_restores with
      hereditary := ⟨fun _ => trivial, fun _ _ => trivial, fun _ _ => trivial⟩
      visit := fun x _ => h x }
  exact hrel.lowerWith (fun _ _ _ _ _ => trivial) fun _ _ _ _ _ _ _ _ scope => .refl scope

/-- Depth does not come into it: a visitor that does nothing but fail restores,
    and one more step of depth keeps this up. -/
theorem restores_lowerAt : ∀ (n : Nat) (r : Raw), Restores (lowerAt n r)
  | 0, r => restores_lowerWith (fun _ => congruence_restores.throw _) r
  | n + 1, r => restores_lowerWith (restores_lowerAt n) r

/-- A name is looked up after the body of the method has been left, which does
    not touch the scope. -/
theorem nameIn_scope (token : Raw) (options : Options) (scope : Scope) :
    ((nameIn token).runIn options scope).2 = scope := by
  unfold nameIn
  rw [runIn_bind]
  cases token.item? 1 <;> rfl

/-- The parameters and the statements of a method are lowered in a body of their
    own, so the names outside come back as they were. -/
theorem lowerMethod_locals (go : Visit) (fs : Fields) (options : Options) (scope : Scope) :
    ((lowerMethod go fs).runIn options scope).2.locals = scope.locals := by
  -- The parts are lowered in the body of their own, and the name adds nothing.
  have hparts : ((methodParts go (fs.get 1) (fs.get 2)).runIn options scope).2.locals
      = scope.locals := by
    unfold methodParts
    rw [runIn_inBody]
    rfl
  unfold lowerMethod
  rw [runIn_bind]
  cases hrun : (methodParts go (fs.get 1) (fs.get 2)).runIn options scope with
  | mk result middle =>
    rw [hrun] at hparts
    cases result with
    | error e => exact hparts
    | ok parts =>
      have hname := nameIn_scope (fs.get 0) options middle
      dsimp only
      rw [runIn_bind]
      cases hin : (nameIn (fs.get 0)).runIn options middle with
      | mk named after =>
        rw [hin] at hname
        cases named with
        | error e => exact (congrArg Scope.locals hname).trans hparts
        | ok name => exact (congrArg Scope.locals hname).trans hparts

theorem lower_def_locals {r : Raw} (h : r.hasTag "def") (options : Options) (scope : Scope) :
    ((lower r).runIn options scope).2.locals = scope.locals := by
  obtain ⟨fs, rfl⟩ := Raw.eq_of_hasTag h
  have hlower : lower (.list (.str "def" :: fs)) = lowerMethod lower fs := lower_node "def" fs
  rw [hlower]
  exact lowerMethod_locals lower fs options scope

/-- Lowering any value from any scope, with or without success, leaves that
    scope but for names bound on the way. A method definition binds none that
    is known after it. -/
theorem lower_restores_scope (options : Options) (scope : Scope) (r : Raw) :
    let after := ((lower r).runIn options scope).2
    after.inMethod = scope.inMethod ∧ after.rests = scope.rests ∧ scope.locals ⊆ after.locals ∧
      (r.hasTag "def" → after.locals = scope.locals ∧
        ∀ name, after.isLocal name = scope.isLocal name) := by
  intro after
  have hrestored : Scope.Restored scope after := restores_lowerAt r.depth r options scope
  refine ⟨hrestored.inMethod, hrestored.rests, hrestored.locals, fun hdef => ?_⟩
  have hlocals : after.locals = scope.locals := lower_def_locals hdef options scope
  refine ⟨hlocals, fun name => ?_⟩
  unfold Scope.isLocal
  rw [hlocals, hrestored.rests]

/-- A method whose body binds `y` by a pattern and then fails, since `@y` is a
    tag that nothing produces. -/
def failingMethod : Raw :=
  .list [.str "def", .list [.str "@ident", .str "m", .list [.int 1, .int 4]], .null,
    .list [.str "bodystmt", .list [.str "stmts",
      .list [.str "case", .list [.str "@int", .str "1", .list [.int 2, .int 5]],
        .list [.str "in", .list [.str "var_field", .list [.str "@ident", .str "y", .null]],
          .list [.str "stmts", .list [.str "@y"]], .null]]], .null, .null, .null],
    .list [.int 1, .int 0]]

theorem lower_restores_scope_failingMethod :
    failingMethod.hasTag "def" ∧
      ((lower failingMethod).runIn {} { locals := ["x"], inMethod := true }).2.locals = ["x"] :=
  ⟨by decide, ((lower_restores_scope {} { locals := ["x"], inMethod := true } failingMethod).2.2.2
    (by decide)).1⟩

end LowerM

end RubyTree
