import RubyTree.Proofs.Lower.Spending.Grammar
import RubyTree.Proofs.Program

/-!
# Sharing Cannot Be Seen

A program may be lowered to a tree with nodes that stand in several places, and
such a node has one line. Still its lines are those it would have if every place
had a node of its own.

Numbers are given out one after the other and each is built into one tree, so in
the tree of a whole program no number counts more than once. That is all that the
passes over the lines need.

## Theorems

* `LowerM.uses_lowerProgram`: No number counts more than once in a program.
* `lowerProgram_unshared`: Sharing makes no difference to the lines of a program.
-/

namespace RubyTree

open RubyTree.Tree (inner own uses)

namespace LowerM

theorem spends_lowerProgram {r : Raw} (h : Shaped .program r) :
    Spends [] (lowerProgram r) Option.toList := by
  have hlower : Fresh (lower r) := thrifty_of_shaped h
  refine hlower.bind fun t _ => spends_pure fun k => ?_
  split <;> simp

/-- No number counts more than once in a program. -/
theorem uses_lowerProgram {r : Raw} (h : Shaped .program r) {options : Options}
    {scope scope' : Scope} {t : Tree}
    (hrun : (lowerProgram r).runIn options scope = (.ok (some t), scope')) (k : Nat) :
    uses k t ≤ 1 := by
  -- A program is handed no trees, so all it can spend is the credit of the number.
  have hspent := spends_lowerProgram h options scope (some t) scope' hrun k
  have hcredit : scope.credit k ≤ 1 := by
    unfold Scope.credit
    split <;> omega
  simp only [Option.toList_some, Tree.usesAll_cons, Tree.usesAll_nil] at hspent
  omega

end LowerM

open LowerM (Shaped lowerProgram)

/-- A program of the grammar is lowered, and what lines its tree gets does not
    depend on what is shared in it. -/
theorem lowerProgram_unshared {r : Raw} (h : Shaped .program r) (options : Options)
    (scope : Scope) :
    ∃ result scope', (lowerProgram r).runIn options scope = (.ok result, scope') ∧
      ∀ t ∈ result, t.fillShared.unshared = t.unshared.fillShared := by
  obtain ⟨result, scope', hrun, -⟩ := LowerM.lowerProgram_yields h options scope
  refine ⟨result, scope', hrun, ?_⟩
  rintro t rfl
  refine Tree.unshared_fillShared (Tree.agree_places_filled t (fun k => ?_) none)
  have huses := LowerM.uses_lowerProgram h hrun k
  rw [uses] at huses
  omega

open Raw (node token)

/-- An assignment of an operation's result to a constant in something else. -/
def sampleUpdate (scope : Raw) (name : String) (line : Int) (value : Raw) : Raw :=
  node "opassign"
    [node "const_path_field" [scope, token "@const" name (.list [.int line, .int 4])],
      token "@op" "+=" (.list [.int line, .int 9]), value]

/-- An update whose scope has no line of its own. -/
def sampleFirst : Raw :=
  sampleUpdate (node "array" [.null]) "First" 1 (token "@int" "1" (.list [.int 2, .int 0]))

/-- An update of a constant in another one. -/
def sampleSecond : Raw :=
  sampleUpdate (node "var_ref" [token "@const" "Outer" (.list [.int 4, .int 0])]) "Second" 4
    (token "@int" "2" (.list [.int 5, .int 0]))

/-- An update with one of the others in its scope and one in its value. -/
def sampleUpdates : Raw :=
  node "program" [node "stmts"
    [sampleUpdate (node "paren" [node "stmts" [sampleFirst]]) "Third" 3 sampleSecond]]

theorem shaped_sampleUpdate {scope value : Raw} {name : String} {line : Int}
    (hscope : Shaped .expr scope) (hvalue : Shaped .expr value) :
    Shaped .expr (sampleUpdate scope name line value) :=
  .operatorAssign (.constPathTarget hscope (.token _ _ _)) hvalue

theorem shaped_sampleUpdates : Shaped .program sampleUpdates := by
  have hfirst : Shaped .expr sampleFirst :=
    shaped_sampleUpdate (.emptyCollection (by decide)) (.ofLeaf (.integer (n := 1) rfl))
  have hsecond : Shaped .expr sampleSecond :=
    shaped_sampleUpdate (.reference (by decide) .constant) (.ofLeaf (.integer (n := 2) rfl))
  refine .program (.statements (List.forall_mem_singleton.2 (.ofBody (.ofValue ?_))))
  refine shaped_sampleUpdate (.paren (.statements (List.forall_mem_singleton.2 ?_))) hsecond
  exact .ofBody (.ofValue hfirst)

theorem lowerProgram_unshared_sampleUpdates :
    Shaped .program sampleUpdates ∧
      ∃ t scope', (lowerProgram sampleUpdates).runIn {} {} = (.ok (some t), scope') ∧
        t.places.map Prod.fst = [2, 0, 0, 2, 0, 0, 1, 1] ∧
        t.fillShared.unshared = t.unshared.fillShared := by
  have hnumbers : (((lowerProgram sampleUpdates).runIn {} {}).1.toOption.join.map
      fun t => t.places.map Prod.fst) = some [2, 0, 0, 2, 0, 0, 1, 1] := by decide +kernel
  obtain ⟨result, scope', hrun, hlines⟩ := lowerProgram_unshared shaped_sampleUpdates {} {}
  rw [hrun] at hnumbers
  cases result with
  | none => cases hnumbers
  | some t => exact ⟨shaped_sampleUpdates, t, scope', hrun, Option.some.inj hnumbers, hlines t rfl⟩

end RubyTree
