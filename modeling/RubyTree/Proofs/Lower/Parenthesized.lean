import RubyTree.Proofs.Lower.Depth
import RubyTree.Proofs.Lower.Shape

/-!
# Layers of Parentheses

Statements in parentheses become one `begin` node with the statements that are
not empty. A sequence of several statements is a `begin` node already and one
statement is not, so the parentheses have to know which `begin` they are given.
They look whether the first statement is in parentheses, empty ones included.

That is right for a single statement without empty ones before it, so parentheses
around parentheses add a layer each. With several statements of which the first
is in parentheses there is a layer too many, and after an empty statement the
layer of a single one in parentheses is lost.

## Main definitions

* `Tree.inParens`, `Tree.parenthesized`: What parentheses make of the statements
  in them.
* `Tree.Layered`: When that is one layer.
* `Raw.parens`, `Tree.layers`: Nested parentheses, and what they should become.

## Theorems

* `lower_paren`: Parentheses are lowered to that, or fail as a statement does.
* `parenthesized_eq_iff`: One layer is added in the cases that were said.
* `lower_parens`: Nested parentheses add a layer each.
* `parentheses_add_one_layer`: Both, for every run.
-/

namespace RubyTree

namespace Tree

/-- What parentheses make of the tree in them. -/
def inParens (firstParen : Bool) (t : Tree) : Tree :=
  if t.hasTag "args" || t.hasTag "arglist" then t
  else if t.hasTag "begin" && !firstParen then t
  else bare "begin" [t]

/-- What parentheses make of statements that are not empty. -/
def parenthesized (firstParen : Bool) (ps : List Tree) : Tree :=
  if ps.isEmpty then bare "nil" [] else inParens firstParen (ofStatements ps)

/-- The statements get one layer: several if the first one written is not in
    parentheses, and a single one unless it is a `begin` that no parentheses at
    the start account for, or a list of arguments. -/
inductive Layered (firstParen : Bool) : List Tree → Prop where
  | lone {p : Tree} (hargs : p.hasTag "args" = false) (harglist : p.hasTag "arglist" = false)
      (hbegin : p.hasTag "begin" → firstParen) : Layered firstParen [p]
  | several {p q : Tree} {ps : List Tree} (hfirst : firstParen = false) :
      Layered firstParen (p :: q :: ps)

/-- A tree in so many `begin` nodes. -/
def layers : Nat → Tree → Tree
  | 0, t => t
  | d + 1, t => bare "begin" [layers d t]

section Layers

variable {firstParen : Bool} {t : Tree}

/-- No tree is its own child. -/
theorem ne_bare_singleton (t : Tree) (tag : String) : t ≠ bare tag [t] := by
  intro h
  have hsize := congrArg sizeOf h
  simp only [bare, node.sizeOf_spec, List.cons.sizeOf_spec] at hsize
  omega

theorem inParens_eq_iff : inParens firstParen t = bare "begin" [t] ↔
    t.hasTag "args" = false ∧ t.hasTag "arglist" = false ∧ (t.hasTag "begin" → firstParen) := by
  have hself := t.ne_bare_singleton "begin"
  unfold inParens
  cases t.hasTag "args" <;> cases t.hasTag "arglist" <;> cases t.hasTag "begin" <;>
    cases firstParen <;> simp [hself]

theorem inParens_begin (ps : List Tree) : inParens firstParen (bare "begin" ps) =
    if firstParen then bare "begin" [bare "begin" ps] else bare "begin" ps := by
  cases firstParen <;> rfl

/-- One layer is added in these cases and in no others. -/
theorem parenthesized_eq_iff {ps : List Tree} (hne : ps ≠ []) :
    parenthesized firstParen ps = bare "begin" ps ↔ Layered firstParen ps := by
  match ps with
  | [] => exact absurd rfl hne
  | [p] =>
    show inParens firstParen p = bare "begin" [p] ↔ _
    rw [inParens_eq_iff]
    constructor
    · rintro ⟨hargs, harglist, hbegin⟩
      exact .lone hargs harglist hbegin
    · rintro ⟨hargs, harglist, hbegin⟩
      exact ⟨hargs, harglist, hbegin⟩
  | p :: q :: ps =>
    show inParens firstParen (bare "begin" (p :: q :: ps)) = bare "begin" (p :: q :: ps) ↔ _
    rw [inParens_begin]
    constructor
    · intro h
      refine .several ?_
      cases firstParen with
      | false => rfl
      | true =>
        -- A second layer has one child, which is fewer than there are statements.
        have hchildren : [bare "begin" (p :: q :: ps)] = p :: q :: ps := by injection h
        exact absurd (congrArg List.length hchildren) (by simp)
    · rintro (_ | hfirst)
      rw [hfirst]
      rfl

end Layers

end Tree

namespace Raw

/-- Parentheses around a single statement, so many times. -/
def parens : Nat → Raw → Raw
  | 0, e => e
  | d + 1, e => node "paren" [node "stmts" [parens d e]]

end Raw

namespace LowerM

open Raw (node token parens)

section Parentheses

variable {options : Options} {scope after : Scope}

/-- Parentheses are lowered statement by statement, in order. -/
theorem lower_paren (ss : List Raw) :
    lower (node "paren" [node "stmts" ss]) = do
      let ts ← ss.mapM lower
      return Tree.parenthesized (startsWithParen (node "stmts" ss)) (Tree.rejectVoid ts) := by
  have hparen : lower (node "paren" [node "stmts" ss]) = do
      let t ← lower (node "stmts" ss)
      if t.isVoid then return .bare "nil" []
      return Tree.inParens (startsWithParen (node "stmts" ss)) t := by
    rw [lower_node]
    show lowerParen lower [node "stmts" ss] = _
    have hbody : Fields.get [node "stmts" ss] 0 = node "stmts" ss := rfl
    unfold lowerParen Tree.inParens
    simp only [hbody]
    refine bind_congr fun t => ?_
    -- The conditions are the same; they are asked one after the other.
    split
    · rfl
    · split
      · rfl
      · split <;> rfl
  have hstatements : lower (node "stmts" ss) = lowerStatements lower ss :=
    lower_node "stmts" ss
  rw [hparen, hstatements, lowerStatements, bind_assoc]
  refine bind_congr fun ts => ?_
  -- What is left without void statements decides which layer there is.
  cases hps : Tree.rejectVoid ts with
  | nil => rfl
  | cons p ps =>
    cases ps with
    | nil =>
      have hvoid : p.isVoid = false := by
        have hmem : p ∈ Tree.rejectVoid ts := hps ▸ List.mem_singleton_self p
        simpa using (List.mem_filter.1 hmem).2
      rw [pure_bind, hvoid]
      rfl
    | cons q ps => rfl

/-- A tree that parentheses around its statement put into a `begin` node. -/
structure Wraps (e : Raw) (t : Tree) : Prop where
  notVoid : t.isVoid = false
  notArgs : t.hasTag "args" = false
  notArglist : t.hasTag "arglist" = false
  inParens : t.hasTag "begin" → e.hasTag "paren"

/-- Parentheses around parentheses add a layer again. -/
theorem wraps_paren (ss : List Raw) (t : Tree) :
    Wraps (node "paren" ss) (.bare "begin" [t]) :=
  ⟨rfl, rfl, rfl, fun _ => rfl⟩

theorem runIn_paren {e : Raw} {t : Tree} (h : Wraps e t)
    (hrun : (lower e).runIn options scope = (.ok t, after)) :
    (lower (node "paren" [node "stmts" [e]])).runIn options scope =
      (.ok (.bare "begin" [t]), after) := by
  have hmap : ([e].mapM lower).runIn options scope = (.ok [t], after) := by
    rw [List.mapM_cons, runIn_bind, hrun]
    rfl
  have hkept : Tree.rejectVoid [t] = [t] := by
    simp [Tree.rejectVoid, h.notVoid]
  -- What is put in parentheses is neither void nor an argument list, so it gets a layer.
  have hlayer : Tree.parenthesized (e.hasTag "paren") [t] = .bare "begin" [t] :=
    (Tree.parenthesized_eq_iff (List.cons_ne_nil _ _)).2
      (.lone h.notArgs h.notArglist h.inParens)
  rw [lower_paren, runIn_bind, hmap]
  dsimp only
  rw [hkept, runIn_pure]
  exact congrArg (fun t => (Except.ok t, after)) hlayer

/-- Nested parentheses add a layer each. -/
theorem lower_parens {e : Raw} {t : Tree} (h : Wraps e t)
    (hrun : (lower e).runIn options scope = (.ok t, after)) (d : Nat) :
    (lower (parens d e)).runIn options scope = (.ok (t.layers d), after) := by
  -- What the next pair of parentheses needs is kept beside the result.
  suffices hboth : (lower (parens d e)).runIn options scope = (.ok (t.layers d), after) ∧
      Wraps (parens d e) (t.layers d) from hboth.1
  induction d with
  | zero => exact ⟨hrun, h⟩
  | succ d ih => exact ⟨runIn_paren ih.2 ih.1, wraps_paren _ _⟩

/-- Parentheses put one `begin` around the statements that are not empty, unless
    the first of several statements is itself in parentheses, or the only one is a
    `begin` that no parentheses at the start account for, or a list of arguments.
    Nested ones around an expression add a layer each. -/
theorem parentheses_add_one_layer (options : Options) (scope : Scope) :
    (∀ ss ts after, (ss.mapM lower).runIn options scope = (.ok ts, after) →
      Tree.rejectVoid ts ≠ [] →
        let firstParen := startsWithParen (node "stmts" ss)
        let t := Tree.parenthesized firstParen (Tree.rejectVoid ts)
        (lower (node "paren" [node "stmts" ss])).runIn options scope = (.ok t, after) ∧
          (t = .bare "begin" (Tree.rejectVoid ts) ↔
            Tree.Layered firstParen (Tree.rejectVoid ts))) ∧
      ∀ e t after, (lower e).runIn options scope = (.ok t, after) → Wraps e t →
        ∀ d, (lower (parens d e)).runIn options scope = (.ok (t.layers d), after) := by
  refine ⟨fun ss ts after hrun hsome => ⟨?_, ?_⟩, ?_⟩
  · rw [lower_paren, runIn_bind, hrun]
    rfl
  · exact Tree.parenthesized_eq_iff hsome
  · exact fun e t after hrun h => lower_parens h hrun

end Parentheses

section Samples

/-- `(; 1; (2))`, without the parentheses around all of it. -/
def parenInSequence : List Raw :=
  [node "void_stmt" [.list [.int 1, .int 1]], token "@int" "1" (.list [.int 1, .int 3]),
    node "paren" [node "stmts" [token "@int" "2" (.list [.int 1, .int 7])]]]

/-- `((1); 2)`, without the parentheses around all of it. -/
def parenFirst : List Raw :=
  [node "paren" [node "stmts" [token "@int" "1" (.list [.int 1, .int 2])]],
    token "@int" "2" (.list [.int 1, .int 6])]

/-- `(; (1))`, without the parentheses around all of it. -/
def parenAfterEmpty : List Raw :=
  [node "void_stmt" [.list [.int 1, .int 1]],
    node "paren" [node "stmts" [token "@int" "1" (.list [.int 1, .int 3])]]]

/-- A number on the first line. -/
def numberTree (n : Int) : Tree :=
  .placed (some (.int 1)) "int" [.int n]

/-- The number in the middle stays beside the one in parentheses, and three pairs
    of parentheses add three layers. -/
theorem parentheses_add_one_layer_sequence :
    let ts : List Tree :=
      [.placed (some (.int 1)) "void_stmt" [], numberTree 1, .bare "begin" [numberTree 2]]
    (parenInSequence.mapM lower).runIn {} {} = (.ok ts, {}) ∧ Tree.rejectVoid ts ≠ [] ∧
      (lower (node "paren" [node "stmts" parenInSequence])).runIn {} {} =
        (.ok (.bare "begin" [numberTree 1, .bare "begin" [numberTree 2]]), {}) ∧
      Wraps (token "@int" "1" (.list [.int 1, .int 3])) (numberTree 1) ∧
      (lower (parens 3 (token "@int" "1" (.list [.int 1, .int 3])))).runIn {} {} =
        (.ok (.bare "begin" [.bare "begin" [.bare "begin" [numberTree 1]]]), {}) := by
  intro ts
  have hrun : (parenInSequence.mapM lower).runIn {} {} = (.ok ts, {}) := rfl
  have hsome : Tree.rejectVoid ts ≠ [] := List.cons_ne_nil _ _
  have hwraps : Wraps (token "@int" "1" (.list [.int 1, .int 3])) (numberTree 1) :=
    ⟨rfl, rfl, rfl, nofun⟩
  obtain ⟨hsequence, hnested⟩ := parentheses_add_one_layer {} {}
  obtain ⟨hlowered, hlayers⟩ := hsequence _ _ _ hrun hsome
  refine ⟨hrun, hsome, ?_, hwraps, hnested _ _ {} rfl hwraps 3⟩
  -- Two statements are left, so the list is one layer whatever its first statement is.
  rw [hlowered, hlayers.2 (.several rfl)]
  rfl

/-- `((1); 2)` has a layer too many, and `(; (1))` has lost one. -/
theorem parentheses_misjudge_layers :
    (lower (node "paren" [node "stmts" parenFirst])).runIn {} {} ≠
        (.ok (.bare "begin" [.bare "begin" [numberTree 1], numberTree 2]), {}) ∧
      (lower (node "paren" [node "stmts" parenAfterEmpty])).runIn {} {} ≠
        (.ok (.bare "begin" [.bare "begin" [numberTree 1]]), {}) := by
  have hfirst : (lower (node "paren" [node "stmts" parenFirst])).runIn {} {} =
      (.ok (.bare "begin" [.bare "begin" [.bare "begin" [numberTree 1], numberTree 2]]), {}) := rfl
  have hempty : (lower (node "paren" [node "stmts" parenAfterEmpty])).runIn {} {} =
      (.ok (.bare "begin" [numberTree 1]), {}) := rfl
  rw [hfirst, hempty]
  simp [Tree.bare, numberTree, Tree.placed]

end Samples

end LowerM

end RubyTree
