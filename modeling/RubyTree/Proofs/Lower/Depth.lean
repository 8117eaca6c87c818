import RubyTree.Proofs.Lower.Uniform.Construct

/-!
# Lowering by Recursion

Lowering is defined up to a depth, and started with the depth of the raw tree.
Here that number disappears: any depth that is enough gives the same step, so
lowering satisfies the equation one would like to define it by, in which the
visitor of a node's fields is lowering itself.

Equality of steps is the congruence behind this. Two depths that are both
enough for a node are, less one, both enough for its fields.

## Theorems

* `congruence_eq`: Equality is a congruence.
* `lowerAt_eq_lowerAt`: Any depth that is enough gives the same step.
* `lower_eq_lowerWith`: The fields of a node are lowered by lowering.
* `lower_node`: A node is lowered by the production of its tag.
-/

namespace RubyTree

theorem Raw.eq_of_hasTag {t : String} {r : Raw} (h : r.hasTag t) :
    ∃ fs, r = .list (.str t :: fs) := by
  match r, h with
  | .list (.str tag :: fs), h =>
    have htag : tag = t := by simpa only [hasTag, tag?, beq_iff_eq, Option.some.injEq] using h
    exact ⟨fs, by rw [htag]⟩

namespace LowerM

/-- A sequence depends on its second step only at what the first returns. -/
theorem bind_congr_returned {α β : Type} {x : LowerM α} {f g : α → LowerM β}
    (h : ∀ a, Returns x a → f a = g a) : x >>= f = x >>= g := by
  refine ext_runIn fun options scope => ?_
  rw [runIn_bind, runIn_bind]
  cases hx : x.runIn options scope with
  | mk result middle =>
    cases result with
    | error e => rfl
    | ok a =>
      dsimp only
      rw [h a ⟨options, scope, middle, hx⟩]

theorem congruence_eq : Congruence fun {α} (x y : LowerM α) => x = y where
  pure _ := rfl
  throw _ := rfl
  -- What follows need only be the same for values that the first step returns.
  bindReturned := by
    rintro α β x _ f g rfl hfg
    exact bind_congr_returned hfg
  read := rfl
  inMethod _ := rfl
  bindLocal _ := rfl
  freshNumber := rfl
  inBody := by
    rintro α method x _ rfl
    rfl
  withRest := by
    rintro α name x _ rfl
    rfl

/-- Nothing below an atom is visited. -/
theorem lowerWith_atom (go go' : Visit) (a : Atom) :
    lowerWith go (.atom a) = lowerWith go' (.atom a) := by
  unfold lowerWith
  rfl

theorem lowerAt_eq_lowerAt : ∀ {m n : Nat} {r : Raw}, r.depth ≤ m → r.depth ≤ n →
    lowerAt m r = lowerAt n r := by
  intro m
  induction m with
  | zero =>
    intro n r hm hn
    cases r with
    -- A list is at least one deep, so only an atom is left.
    | list items =>
      rw [Raw.depth] at hm
      omega
    | atom a => cases n <;> exact lowerWith_atom _ _ a
  | succ m ih =>
    intro n r hm hn
    cases n with
    | zero =>
      cases r with
      | list items =>
        rw [Raw.depth] at hn
        omega
      | atom a => exact lowerWith_atom _ _ a
    | succ n =>
      -- The fields need one step less than the node, on both sides.
      have hrel : Related (fun {α} (x y : LowerM α) => x = y) (·.depth ≤ r.depth - 1)
          (lowerAt m) (lowerAt n) :=
        { congruence_eq with
          hereditary := Raw.hereditary_depth _
          visit := fun x hx => ih (by omega) (by omega) }
      exact hrel.lowerWith (Fields.within_of_depth_le (by omega)) fun _ _ _ _ _ _ _ => rfl

theorem lowerAt_eq_lower {n : Nat} {r : Raw} (h : r.depth ≤ n) : lowerAt n r = lower r :=
  lowerAt_eq_lowerAt h (Nat.le_refl _)

theorem lower_eq_lowerWith (r : Raw) : lower r = lowerWith lower r := by
  have hrel : Related (fun {α} (x y : LowerM α) => x = y) (·.depth ≤ r.depth)
      (lowerAt r.depth) lower :=
    { congruence_eq with
      hereditary := Raw.hereditary_depth _
      visit := fun x hx => lowerAt_eq_lower hx }
  calc lower r = lowerAt (r.depth + 1) r := lowerAt_eq_lowerAt (Nat.le_refl _) (Nat.le_succ _)
    _ = lowerWith lower r :=
      hrel.lowerWith (Fields.within_of_depth_le (Nat.le_succ _)) fun _ _ _ _ _ _ _ => rfl

/-- What counts as absent is absent. -/
theorem lower_of_isEmpty {r : Raw} (h : r.isEmpty) : lower r = pure .null := by
  rw [lower_eq_lowerWith]
  unfold lowerWith
  rw [if_pos h]

/-- A node is lowered by the production of its tag, and its fields by lowering. -/
theorem lower_node (tag : String) (fs : Fields) :
    lower (.list (.str tag :: fs)) = match Production.ofTag? tag with
      | some production => production.lower lower fs
      | none => throw (.unknownTag tag) := by
  rw [lower_eq_lowerWith]
  rfl

end LowerM

end RubyTree
