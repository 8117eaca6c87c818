import RubyTree.Proofs.Lower.Accounts.Grammar
import RubyTree.Proofs.Program

/-!
# What a Program Keeps Track Of

A class variable is assigned in a method and declared outside of one. Which of them it
is gets decided by a flag while the program is lowered, and the same can be read off
the syntax tree, where the scopes are the parameters and bodies of definitions.

Every comment that is written before a definition is on that definition in the syntax
tree, and there are no others. Where a definition ends up is another matter: bodies are
taken apart and built anew, and a definition may stand wherever an expression may. But
it is neither lost nor copied, and neither is its comment.

Both follow from the accounts of the grammar. The first is about the ledger of what is
out of order, and the second is about the other ledgers.

## Theorems

* `programOfRaw_settled`: Each ledger of a program is balanced.
* `class_variables_in_place`: Class variables are where they should be.
* `comments_kept`: The comments of a program are those of its definitions.
-/

namespace RubyTree

open LowerM (Shaped)
open Raw (node token)

namespace LowerM

variable {L : Ledger} {r : Raw} {m : Bool}

/-- A program without statements counts for nothing. -/
theorem accounts_lowerProgram (h : Shaped .program r) (ht : L.Tidy r) :
    Accounts L m (L.due r) 0 (lowerProgram r) fun result => result.elim 0 (L.weigh m) := by
  have hlower : Counts L m (L.due r) (lower r) := settled_of_shaped h ht m
  refine hlower.last fun t _ => ?_
  split
  · rename_i hvoid
    exact accounts_settled (Ledger.settles_of_isVoid hvoid)
  · exact accounts_pure rfl

end LowerM

/-- What is made of a program counts for what the program has to be counted for. -/
theorem programOfRaw_settled {r : Raw} (h : Shaped .program r) (options : Options) :
    ∃ result, programOfRaw options r = .ok result ∧ ∀ L : Ledger, L.Tidy r →
      L.Settles (L.due r) (result.elim 0 (L.weigh false)) := by
  obtain ⟨result, after, hrun, -, -⟩ := LowerM.lowerProgram_yields h options {}
  refine ⟨result.map Tree.fillShared, ?_, fun L ht => ?_⟩
  · rw [programOfRaw, hrun]
    rfl
  · obtain ⟨-, hsettles⟩ := LowerM.accounts_lowerProgram h ht options {} result after hrun rfl
    cases result with
    | none => exact hsettles
    | some t => exact hsettles.trans (Ledger.settles_of_eq (Ledger.weigh_fillShared L false t))

/-- Nothing is out of order in the tree of a program. -/
theorem order_of_settled {r : Raw} {result : Option Tree}
    (h : ∀ L : Ledger, L.Tidy r → L.Settles (L.due r) (result.elim 0 (L.weigh false))) :
    ∀ t ∈ result, Ledger.disorder.weigh false t = 0 := by
  rintro t rfl
  exact h .disorder trivial rfl

/-- A class variable as a target. -/
def sampleTotal (line : Int) : Raw :=
  node "var_field" [token "@cvar" "@@total" (.list [.int line, .int 4])]

/-- A method that counts on. -/
def sampleMethod : Raw :=
  node "def" [sampleName "count" 5, .null, node "bodystmt" [node "stmts"
    [node "opassign" [sampleTotal 6, token "@op" "+=" (.list [.int 6, .int 12]),
      token "@int" "1" (.list [.int 6, .int 15])]], .null, .null, .null]]

/-- A class with a counter, and the method, both with comments. -/
def sampleCounter : Raw :=
  node "program" [node "stmts" [node "comment" [.str "# Counts.", node "class"
    [node "const_ref" [token "@const" "Counter" (.list [.int 2, .int 6])], .null,
      node "bodystmt" [node "stmts"
        [node "assign" [sampleTotal 3, token "@int" "0" (.list [.int 3, .int 12])],
          node "comment" [.str "# Counts on.", sampleMethod]], .null, .null, .null]]]]]

theorem shaped_sampleMethod : Shaped .expr sampleMethod := by
  refine .method .absent (.body (.sequence (List.forall_mem_singleton.2 ?_)) .absent)
  refine .ofBody (.ofValue (.operatorAssign ?_ (.ofLeaf (.integer (n := 1) rfl))))
  exact .varField (.variableTarget (by decide))

theorem shaped_sampleCounter : Shaped .program sampleCounter := by
  have hdeclaration : Shaped .expr
      (node "assign" [sampleTotal 3, token "@int" "0" (.list [.int 3, .int 12])]) :=
    .assign (.varField (.variableTarget (by decide)))
      (.valueOfExpr (.ofLeaf (.integer (n := 0) rfl)))
  refine .program (.statements (List.forall_mem_singleton.2 (.ofBody (.ofValue (.documented ?_)))))
  refine .classDef (.reference (by decide) .constant) .absent (.ofBody (.body ?_ .absent))
  refine .sequence (List.forall_mem_cons.2 ⟨?_, List.forall_mem_singleton.2 ?_⟩)
  · exact .ofBody (.ofValue hdeclaration)
  · exact .ofBody (.ofValue (.documented shaped_sampleMethod))

/-- The assignment to a class variable is in a method, and its declaration is outside of
    one. -/
theorem class_variables_in_place {r : Raw} (h : Shaped .program r) (options : Options) :
    ∃ result, programOfRaw options r = .ok result ∧ ∀ t ∈ result, ∀ inMethod u,
      Tree.Stands false t inMethod u →
        (u.hasTag "cvasgn" → inMethod = true) ∧ (u.hasTag "cvdecl" → inMethod = false) := by
  obtain ⟨result, hrun, hsettled⟩ := programOfRaw_settled h options
  refine ⟨result, hrun, fun t ht inMethod u hstands => ?_⟩
  -- A ledger of the whole tree that is empty is empty at every place in it.
  have horder : Ledger.disorder.weigh inMethod u = 0 :=
    hstands.in_order (order_of_settled hsettled t ht)
  constructor
  · intro htag
    obtain ⟨mark, children, rfl⟩ := Tree.eq_of_hasTag htag
    have hplace : (!inMethod) = false := Tree.isMisplaced_of_order horder
    simpa using hplace
  · intro htag
    obtain ⟨mark, children, rfl⟩ := Tree.eq_of_hasTag htag
    exact Tree.isMisplaced_of_order horder

theorem class_variables_in_place_sampleCounter :
    Shaped .program sampleCounter ∧ ∃ t, programOfRaw {} sampleCounter = .ok (some t) ∧
      ∀ inMethod u, Tree.Stands false t inMethod u →
        (u.hasTag "cvasgn" → inMethod = true) ∧ (u.hasTag "cvdecl" → inMethod = false) := by
  have hsome : (programOfRaw {} sampleCounter).toOption.join.isSome := by decide +kernel
  obtain ⟨result, hrun, hplaces⟩ := class_variables_in_place shaped_sampleCounter {}
  rw [hrun] at hsome
  cases result with
  | none => cases hsome
  | some t => exact ⟨shaped_sampleCounter, t, hrun, hplaces t rfl⟩

/-- The comments in the tree of a program are those before its definitions, each as
    often as it is written. -/
theorem comments_kept {r : Raw} (h : Shaped .program r) (htidy : r.tidy) (options : Options) :
    ∃ result, programOfRaw options r = .ok result ∧
      (result.elim [] Tree.documents).Perm r.documents := by
  classical
  obtain ⟨result, hrun, hsettled⟩ := programOfRaw_settled h options
  refine ⟨result, hrun, List.perm_iff_count.2 fun entry => ?_⟩
  -- Each construct with a comment has a ledger of its own.
  have hledger : result.elim 0 ((Ledger.comment entry.1 entry.2).weigh false) =
      r.documents.count entry := hsettled (.comment entry.1 entry.2) htidy
  rw [← hledger]
  cases result with
  | none => rfl
  | some t => exact Tree.count_documents entry false t (order_of_settled hsettled t rfl)

theorem comments_kept_sampleCounter :
    (Shaped .program sampleCounter ∧ sampleCounter.tidy) ∧
      ∃ t, programOfRaw {} sampleCounter = .ok (some t) ∧
        t.documents.Perm [(.str "class", .str "# Counts."), (.str "def", .str "# Counts on.")] := by
  have htidy : sampleCounter.tidy := by decide +kernel
  have hsome : (programOfRaw {} sampleCounter).toOption.join.isSome := by decide +kernel
  obtain ⟨result, hrun, hcomments⟩ := comments_kept shaped_sampleCounter htidy {}
  rw [hrun] at hsome
  cases result with
  | none => cases hsome
  | some t => exact ⟨⟨shaped_sampleCounter, htidy⟩, t, hrun, hcomments⟩

end RubyTree
