import RubyTree.Proofs.Lower.Soundness
import RubyTree.Proofs.Lower.Spending.Construct

/-!
# What Lowering Spends

Lowering is thrifty with a raw tree if the tree that it gives has new numbers only,
and none of them twice. What is asked of a raw tree depends on its sort: some sorts
are read by a function of their own, and some stand for a list of trees.

A tree may be taken apart if it is no assignment to a constant. That is told by the
form that each sort gives to its nodes.

## Main definitions

* `Thrifty`: What lowering a raw tree of a sort spends.

## Theorems

* `fresh_node`: A node is lowered by its production.
* `thrifty_elements`: The elements of a field that may be absent.
* `literal_not_casgn`: A literal is no assignment to a constant.
-/

namespace RubyTree

namespace LowerM

open Raw (node token)

/-- What lowering gives for a raw tree of a sort has new numbers only. Some sorts
    are read by a function of their own rather than lowered. -/
def Thrifty : Kind → Raw → Prop
  | .sequence, r => FreshAll (statementList lower r)
  | .optionalParam, r => Fresh (LowerM.optional lower r)
  | .keywordParam, r => Fresh (LowerM.keyword lower r)
  | .pattern, r => Fresh (lowerPattern lower r)
  | .guarded, r => Spends [] (lowerGuarded lower r) fun p => [p.1, p.2]
  | .keyPattern, r => Fresh (pairPattern lower r)
  | .exceptions, r => Fresh (exceptionList lower r)
  | .rescues, r => FreshAll (rescueClauses lower r)
  | .whens, r => FreshAll (whenClauses lower r)
  | .ins, r => FreshAll (inClauses lower r)
  | .optional k, r => r = .null ∨ Thrifty k r
  | .listOf k, r => ∃ rs, r = .list rs ∧ ∀ x ∈ rs, Thrifty k x
  | _, r => Fresh (lower r)

section Nodes

theorem fresh_node {tag : String} {fs : Fields} {p : Production}
    (hp : Production.ofTag? tag = some p) (h : Fresh (p.lower lower fs)) :
    Fresh (lower (node tag fs)) := by
  rw [lower_node, hp]
  exact h

theorem fresh_atom (a : Atom) : Fresh (lower (.atom a)) := by
  rw [lower_eq_lowerWith]
  unfold lowerWith
  split
  · exact spends_pure fun _ => by simp
  · exact spends_throw

/-- What an optional field is lowered to. -/
theorem fresh_of_optional {k : Kind} {r : Raw} (h : Thrifty (.optional k) r)
    (hk : Thrifty k r → Fresh (lower r)) : Fresh (lower r) := by
  rcases h with rfl | h
  · exact fresh_atom _
  · exact hk h

/-- The elements of a field that may be absent. -/
theorem thrifty_elements {k : Kind} {r : Raw} (h : Thrifty (.optional (.listOf k)) r)
    {rs : List Raw} (hrs : Returns (elementsOf r) rs) : ∀ x ∈ rs, Thrifty k x := by
  rcases h with rfl | ⟨xs, rfl, hxs⟩
  · rw [← returns_pure hrs]
    exact fun _ hx => absurd hx List.not_mem_nil
  · rw [elementsOf_list] at hrs
    rwa [← returns_pure hrs]

/-- Content tokens have no numbers. -/
theorem fresh_content {r : Raw} (h : r.hasTag "@tstring_content") : Fresh (lower r) := by
  obtain ⟨fs, rfl⟩ := Raw.eq_of_hasTag h
  exact fresh_node rfl (fresh_lowerContent fs)

theorem mem_interpolations {items : List LiteralItem} {i : Interpolation}
    (h : .interpolation i ∈ items) : i.raw ∈ interpolations items := by
  -- By the items: content tokens are passed over.
  induction items with
  | nil => cases h
  | cons item items ih =>
    cases item with
    | content token =>
      rw [interpolations]
      rcases List.mem_cons.1 h with heq | h
      · cases heq
      · exact ih h
    | interpolation j =>
      rw [interpolations]
      rcases List.mem_cons.1 h with heq | h
      · cases heq
        exact List.mem_cons_self
      · exact List.mem_cons_of_mem _ (ih h)

end Nodes

section Forms

variable {t : Tree}

theorem Holds.not_casgn {tag : String} {slot : Slot} (h : Holds tag slot t) (htag : tag ≠ "casgn") :
    t.hasTag "casgn" = false := by
  obtain ⟨mark, children, rfl, -⟩ := h
  exact beq_eq_false_iff_ne.2 htag

theorem Callee.not_casgn (h : Callee t) : t.hasTag "casgn" = false := by
  obtain ⟨tag, mark, receiver, name, rfl, htag, -, -⟩ := h
  rcases htag with rfl | rfl
  · rfl
  · rfl

theorem ParamList.not_casgn (h : ParamList t) : t.hasTag "casgn" = false := by
  obtain ⟨mark, children, rfl, -⟩ := h
  rfl

theorem BlockBody.not_casgn (h : BlockBody t) : t.hasTag "casgn" = false := by
  obtain ⟨mark, args, body, rfl, -, -⟩ := h
  rfl

theorem targets_not_casgn (h : Finished .targets t) : t.hasTag "casgn" = false := by
  obtain ⟨mark, children, rfl⟩ := targets_node h
  rfl

theorem hasTag_unique {tag tag' : String} (h : t.hasTag tag) (htag : tag ≠ tag') :
    t.hasTag tag' = false := by
  unfold Tree.hasTag at h ⊢
  split
  · rename_i name _ _
    refine beq_eq_false_iff_ne.2 ?_
    rintro rfl
    exact htag (eq_of_beq h).symm
  · rfl

theorem literal_not_casgn {kind : LiteralKind} {parts : List Tree} :
    (kind.node parts).hasTag "casgn" = false := by
  have hstring : (LiteralKind.stringNode parts).hasTag "casgn" = false := by
    unfold LiteralKind.stringNode
    -- A lone text stands for the string, and any other parts go into a node around them.
    split
    · rfl
    · split
      · rename_i htag
        exact hasTag_unique htag (by decide)
      · rfl
    · rfl
  cases kind with
  | string | word => exact hstring
  | command | regexp => rfl

end Forms

section Lists

/-- A list in a field of its own. -/
theorem thrifty_each (tag : String) {rs : List Raw} (h : ∀ r ∈ rs, Fresh (lower r)) :
    Fresh (lowerEach tag lower [.list rs]) := by
  refine fresh_lowerEach tag fun xs hxs => ?_
  have hxs : Returns (elementsOf (.list rs)) xs := hxs
  rw [elementsOf_list] at hxs
  rwa [← returns_pure hxs]

/-- A splat in a list of arguments or of values. -/
theorem thrifty_star {tag : String} {args splatted : Raw} {rs : List Raw} (htag : tag ≠ "casgn")
    (hsound : Yields (lower args) fun t => t = .null ∨ Holds tag .argument t)
    (hargs : Fresh (lower args)) (hsplatted : Fresh (lower splatted))
    (h : ∀ r ∈ rs, Thrifty .argument r) :
    Fresh (lowerArgsStar lower (args :: splatted :: rs)) := by
  refine fresh_lowerArgsStar hargs (fun t ht => ?_) hsplatted h
  rcases hsound.of_returns ht with rfl | ht
  · rfl
  · exact ht.not_casgn htag

end Lists

end LowerM

end RubyTree
