import RubyTree.Proofs.Lower.Accounts.Construct
import RubyTree.Proofs.Lower.Soundness
import RubyTree.Proofs.Lower.Spending.Thrifty

/-!
# What a Sort Has to Count For

Lowering keeps accounts for a raw tree if the tree that it gives counts for what the
raw tree is due. What is asked of a raw tree depends on its sort: some sorts are read
by a function of their own, and some stand for a list of trees.

A tree that is taken apart has to be a plain one, for a wrapper counts for something
of its own. Which trees are plain is told by the form that each sort gives to its
nodes.

## Main definitions

* `Settled`: What lowering a raw tree of a sort counts for.

## Theorems

* `counts_node`, `counts_idle`: A node is lowered by its production.
* `counts_elements`: A field whose elements are lowered one by one.
* `BlockBody.plain`, `ParamList.plain`, `plain_literal`: Forms that are no wrappers.
* `settles_literal`: A text in the place of a literal.
-/

namespace RubyTree

open RubyTree.Tree (isPlain)

namespace LowerM

open Raw (node token)

variable {L : Ledger}

/-- What lowering gives for a tidy raw tree of a sort is what it has to be counted
    for. Some sorts are read by a function of their own rather than lowered. -/
def Settled (L : Ledger) : Kind → Raw → Prop
  | .sequence, r => L.Tidy r → ∀ m, CountsAll L m (L.due r) (statementList lower r)
  | .optionalParam, r => L.Tidy r → (∀ head, r.item? 0 = some head → L.due head = 0) →
      ∀ m, Counts L m (L.due r) (LowerM.optional lower r)
  | .keywordParam, r => L.Tidy r → (∀ head, r.item? 0 = some head → L.due head = 0) →
      ∀ m, Counts L m (L.due r) (LowerM.keyword lower r)
  | .pattern, r => L.Tidy r → ∀ m, Counts L m (L.due r) (lowerPattern lower r)
  | .guarded, r => L.Tidy r → ∀ m,
      Accounts L m (L.due r) 0 (lowerGuarded lower r) (fun p => L.weigh m p.1 + L.weigh m p.2) ∧
      ((∀ guard ∈ r.guards, L.due guard = 0) →
        Accounts L m (L.due r) 0 (lowerGuarded lower r) fun p => L.weigh m p.1)
  | .keyPattern, r => L.Tidy r → ∀ m, Counts L m (L.due r) (pairPattern lower r)
  | .exceptions, r => L.Tidy r → ∀ m, Counts L m (L.due r) (exceptionList lower r)
  | .rescues, r => L.Tidy r → ∀ m, CountsAll L m (L.due r) (rescueClauses lower r)
  | .whens, r => L.Tidy r → ∀ m, CountsAll L m (L.due r) (whenClauses lower r)
  | .ins, r => L.Tidy r → ∀ m, CountsAll L m (L.due r) (inClauses lower r)
  | .optional k, r => r = .null ∨ Settled L k r
  | .listOf k, r => ∃ rs, r = .list rs ∧ ∀ x ∈ rs, Settled L k x
  | _, r => L.Tidy r → ∀ m, Counts L m (L.due r) (lower r)

section Nodes

variable {m : Bool} {due : Nat}

/-- A node that is no wrapper is counted for its fields. -/
theorem counts_node {tag : String} {fs : Fields} {p : Production}
    (hp : Production.ofTag? tag = some p) (htag : tag ≠ "comment")
    (h : Counts L m due (p.lower lower fs)) (hdue : due = L.dueAll fs) :
    Counts L m (L.due (node tag fs)) (lower (node tag fs)) := by
  rw [Ledger.due_node htag, ← hdue, lower_node, hp]
  exact h

/-- A node that holds no code. -/
theorem counts_idle {tag : String} {fs : Fields} {p : Production} (ht : L.Tidy (node tag fs))
    (hp : Production.ofTag? tag = some p) (htag : tag ≠ "comment")
    (hidle : Raw.idle tag fs = fs) (h : Counts L m 0 (p.lower lower fs)) :
    Counts L m (L.due (node tag fs)) (lower (node tag fs)) := by
  rw [ht.due_eq_zero htag hidle, lower_node, hp]
  exact h

theorem counts_atom (a : Atom) : Counts L m (L.due (.atom a)) (lower (.atom a)) := by
  rw [lower_eq_lowerWith, Ledger.due_atom]
  unfold lowerWith
  split
  · exact accounts_pure (by simp)
  · exact accounts_throw

/-- What an optional field is lowered to. -/
theorem counts_of_optional {k : Kind} {r : Raw} (h : Settled L (.optional k) r) (ht : L.Tidy r)
    (hk : Settled L k r → L.Tidy r → ∀ m, Counts L m (L.due r) (lower r)) :
    Counts L m (L.due r) (lower r) := by
  rcases h with rfl | h
  · exact counts_atom _
  · exact hk h ht m

/-- The only atom in the grammar is the absent one. -/
theorem eq_null_of_shaped {k : Kind} {a : Atom} (h : Shaped k (.atom a)) : a = .null := by
  generalize hr : Raw.atom a = r at h
  induction h with
  | literal => rename_i kind _ _ _ _ _; cases kind <;> cases hr
  | bound h => cases h <;> cases hr
  | _ => first
    | (cases hr; done)
    | (cases hr; rfl)
    | exact ‹Raw.atom a = _ → a = .null› hr

/-- A list that starts with a raw tree of the grammar is no node. -/
theorem tag?_of_shaped {k : Kind} {r : Raw} (h : Shaped k r) (rs : List Raw) :
    (Raw.list (r :: rs)).tag? = none := by
  cases r with
  | list items => rfl
  | atom a =>
    rw [eq_null_of_shaped h]
    rfl

/-- The elements of a list are all it is counted for. -/
theorem due_of_shaped_list {k : Kind} {rs : List Raw} (h : ∀ r ∈ rs, Shaped k r) :
    L.due (.list rs) = L.dueAll rs := by
  refine Ledger.due_of_tag?_eq_none ?_
  cases rs with
  | nil => rfl
  | cons r rs => exact tag?_of_shaped (h r List.mem_cons_self) rs

/-- The elements of a field that may be absent. -/
theorem dueAll_elements {k : Kind} {r : Raw} {rs : List Raw}
    (h : Shaped (.optional (.listOf k)) r) (hrs : Returns (elementsOf r) rs) :
    L.dueAll rs = L.due r := by
  cases h with
  | absent =>
    rw [← returns_pure hrs, Ledger.dueAll_nil]
    exact (Ledger.due_atom _).symm
  | present h =>
    cases h with
    | list h =>
      rw [elementsOf_list] at hrs
      rw [← returns_pure hrs, due_of_shaped_list h]

theorem tidy_elements {k : Kind} {r : Raw} {rs : List Raw}
    (h : Shaped (.optional (.listOf k)) r) (ht : L.Tidy r) (hrs : Returns (elementsOf r) rs) :
    ∀ x ∈ rs, L.Tidy x := by
  cases h with
  | absent =>
    rw [← returns_pure hrs]
    exact nofun
  | present h =>
    cases h with
    | list h =>
      rw [elementsOf_list] at hrs
      rw [← returns_pure hrs]
      exact fun x hx => ht.of_mem hx

theorem settled_elements {k : Kind} {r : Raw} {rs : List Raw}
    (h : Settled L (.optional (.listOf k)) r) (hrs : Returns (elementsOf r) rs) :
    ∀ x ∈ rs, Settled L k x := by
  rcases h with rfl | ⟨xs, rfl, hxs⟩
  · rw [← returns_pure hrs]
    exact nofun
  · rw [elementsOf_list] at hrs
    rwa [← returns_pure hrs]

/-- A field whose elements are lowered one by one. -/
theorem counts_elements {k : Kind} {f : Raw → LowerM Tree} {r : Raw}
    (hshaped : Shaped (.optional (.listOf k)) r) (h : Settled L (.optional (.listOf k)) r)
    (ht : L.Tidy r) (hf : ∀ x, Settled L k x → L.Tidy x → Counts L m (L.due x) (f x))
    (rs : List Raw) (hrs : Returns (elementsOf r) rs) : CountsAll L m (L.due r) (rs.mapM f) := by
  rw [← dueAll_elements hshaped hrs]
  exact counts_mapM fun x hx =>
    hf x (settled_elements h hrs x hx) (tidy_elements hshaped ht hrs x hx)

theorem mem_heads {k : Kind} {r x head : Raw} {rs : List Raw}
    (h : Shaped (.optional (.listOf k)) r) (hrs : Returns (elementsOf r) rs) (hx : x ∈ rs)
    (hhead : x.item? 0 = some head) : head ∈ r.heads := by
  cases h with
  | absent =>
    cases returns_pure hrs
    cases hx
  | present h =>
    cases h with
    | list h =>
      rw [elementsOf_list] at hrs
      cases returns_pure hrs
      exact List.mem_filterMap.2 ⟨x, hx, hhead⟩

end Nodes

section Forms

variable {t : Tree}

theorem Holds.plain {tag : String} {slot : Slot} (h : Holds tag slot t)
    (htag : isPlain (.str tag)) : t.plain := by
  obtain ⟨mark, children, rfl, -⟩ := h
  exact htag

theorem Callee.plain (h : Callee t) : t.plain := by
  obtain ⟨tag, mark, receiver, name, rfl, htag, -, -⟩ := h
  rcases htag with rfl | rfl
  · rfl
  · rfl

theorem ParamList.plain (h : ParamList t) : t.plain := by
  obtain ⟨mark, children, rfl, -⟩ := h
  rfl

theorem plain_of_params (h : Finished .params t) : t.plain := by
  obtain ⟨mark, children, rfl⟩ := params_node h
  rfl

theorem BlockBody.plain (h : BlockBody t) :
    t.plain ∧ ∀ args body, t.children? = some [args, body] → args.plain := by
  obtain ⟨mark, args, body, rfl, hargs, -⟩ := h
  refine ⟨rfl, fun args' body' heq => ?_⟩
  cases heq
  rcases hargs with rfl | hargs
  · rfl
  · exact plain_of_params hargs

theorem plain_of_targets (h : Finished .targets t) : t.plain := by
  obtain ⟨mark, children, rfl⟩ := targets_node h
  rfl

theorem plain_of_hasTag {tag : String} (h : t.hasTag tag) (htag : isPlain (.str tag)) :
    t.plain := by
  obtain ⟨mark, children, rfl⟩ := Tree.eq_of_hasTag h
  exact htag

theorem plain_literal {kind : LiteralKind} {parts : List Tree} : (kind.node parts).plain := by
  have hstring : (LiteralKind.stringNode parts).plain := by
    unfold LiteralKind.stringNode
    split
    · rfl
    · split
      · rename_i htag
        exact plain_of_hasTag htag rfl
      · rfl
    · rfl
  cases kind with
  | string | word => exact hstring
  | command | regexp => rfl

/-- A text has no parts that count for anything. -/
theorem settles_text {slot : Slot} {m : Bool} (h : Finished slot t) (htag : t.hasTag "str") :
    L.Settles (L.weigh m t) 0 := by
  obtain ⟨mark, children, rfl⟩ := Tree.eq_of_hasTag htag
  obtain ⟨child, rest, rfl, htext, hnil⟩ := (h.children rfl).of_one
  obtain ⟨text, rfl⟩ := htext.eq_text
  cases hnil
  exact (Ledger.settles_children rfl).trans (Ledger.settles_of_eq (by simp))

theorem settles_literal {kind : LiteralKind} {parts : List Tree} {m : Bool}
    (h : ∀ p ∈ parts, Finished .piece p) (htag : (kind.node parts).hasTag "str") :
    L.Settles (L.weigh m (kind.node parts)) 0 := by
  -- A string is a text only if it has no parts, or one that is a text.
  have hstring (htag : (LiteralKind.stringNode parts).hasTag "str") :
      L.Settles (L.weigh m (LiteralKind.stringNode parts)) 0 := by
    rcases parts with _ | ⟨part, _ | ⟨next, rest⟩⟩
    · exact Ledger.settles_of_eq (by simp [LiteralKind.stringNode])
    · by_cases htext : part.hasTag "str"
      · have hpart : LiteralKind.stringNode [part] = part := if_pos htext
        rw [hpart]
        exact settles_text (h part List.mem_cons_self) htext
      · have hpart : LiteralKind.stringNode [part] = .bare "dstr" [part] := if_neg htext
        rw [hpart] at htag
        cases htag
    · cases htag
  cases kind with
  | string | word => exact hstring htag
  | command | regexp => cases htag

end Forms

section Lists

variable {m : Bool}

/-- A list in a field of its own. -/
theorem counts_each {tag : String} {rs : List Raw} {k : Kind} (htag : isPlain (.str tag))
    (hshaped : ∀ r ∈ rs, Shaped k r) (h : ∀ r ∈ rs, Counts L m (L.due r) (lower r)) :
    Counts L m (L.due (.list rs)) (lowerEach tag lower [.list rs]) := by
  have hall : CountsAll L m (L.due (.list rs)) (visitAll lower (.list rs)) := by
    rw [visitAll, elementsOf_list, pure_bind, due_of_shaped_list hshaped]
    exact counts_mapM h
  exact counts_lowerEach htag hall

/-- A splat in a list of arguments or of values. -/
theorem counts_star {tag : String} {args splatted : Raw} {rs : List Raw}
    (htag : isPlain (.str tag))
    (hsound : Yields (lower args) fun t => t = .null ∨ Holds tag .argument t)
    (hargs : Counts L m (L.due args) (lower args))
    (hsplatted : Counts L m (L.due splatted) (lower splatted))
    (h : ∀ r ∈ rs, Counts L m (L.due r) (lower r)) :
    Counts L m (L.dueAll (args :: splatted :: rs))
      (lowerArgsStar lower (args :: splatted :: rs)) := by
  rw [Ledger.dueAll_cons, Ledger.dueAll_cons]
  refine counts_lowerArgsStar hargs (fun t ht => ?_) hsplatted h
  rcases hsound.of_returns ht with rfl | ht
  · rfl
  · exact ht.plain htag

end Lists

end LowerM

end RubyTree
