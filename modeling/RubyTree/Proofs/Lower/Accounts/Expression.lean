import RubyTree.Proofs.Lower.Accounts.Literal
import RubyTree.Proofs.Lower.Sound.Expression

/-!
# Accounts of Expressions

Calls, arguments, collections, operators and assignments. Most of them put a new
node around what their fields give. Where a node gets more children or gives its
own away, the grammar says that it is no definition and no class variable.

A class variable that is assigned gets its tag from where the step runs, and that is
where the assignment is weighed. The target of an operator assignment may be used
twice, so it should not count for anything.

## Theorems

* `counts_argumentList`: Arguments as children.
* `counts_lowerCallWithArgs`, `counts_lowerArgsStar`: Nodes that get more children.
* `accounts_classVariable`: The assignment to a class variable.
* `accounts_assignTo`, `accounts_targetOf`: Targets with and without a value.
* `counts_lowerOperatorAssign`: Operator assignments.
-/

namespace RubyTree

open RubyTree.Tree (isPlain)

namespace LowerM

variable {L : Ledger} {m : Bool} {go : Visit} {fs : Fields} {due held d₀ d₁ d₂ d₃ : Nat}

section Nodes

theorem counts_lowerSingle {tag : String} (htag : isPlain (.str tag))
    (h : Counts L m due (go (fs.get 0))) : Counts L m due (lowerSingle tag go fs) :=
  h.last fun _ _ => accounts_bare htag rfl

theorem counts_lowerDouble {tag : String} (htag : isPlain (.str tag))
    (h₀ : Counts L m d₀ (go (fs.get 0))) (h₁ : Counts L m d₁ (go (fs.get 1))) :
    Counts L m (d₀ + d₁) (lowerDouble tag go fs) :=
  h₀.andThen fun _ _ => h₁.last fun _ _ => accounts_bare htag (by simp +arith)

/-- A node that holds all its fields is due what they are due. -/
theorem counts_lowerFields {tag : String} (htag : isPlain (.str tag))
    (h : ∀ r ∈ fs, Counts L m (L.due r) (go r)) :
    Counts L m (L.dueAll fs) (lowerFields tag go fs) :=
  (counts_mapM h).last fun _ _ => accounts_bare htag rfl

/-- Every element of a field that is a list or absent. -/
theorem counts_overElements {f : Raw → LowerM Tree} {r : Raw}
    (hdue : ∀ rs, Returns (elementsOf r) rs → L.dueAll rs = due)
    (h : ∀ rs, Returns (elementsOf r) rs → ∀ x ∈ rs, Counts L m (L.due x) (f x)) :
    CountsAll L m due (do (← elementsOf r).mapM f) :=
  Restores.andThen (congruence_restores.elementsOf r) fun rs hrs =>
    hdue rs hrs ▸ counts_mapM (h rs hrs)

/-- A node that holds the elements of its only field. -/
theorem counts_lowerEach {tag : String} (htag : isPlain (.str tag))
    (h : CountsAll L m due (visitAll go (fs.get 0))) : Counts L m due (lowerEach tag go fs) :=
  h.last fun _ _ => accounts_bare htag rfl

end Nodes

section Arguments

/-- Arguments are the children of their list, or one node alone. -/
theorem counts_argumentList {r : Raw} (h : Counts L m due (go r)) :
    CountsAll L m due (argumentList go r) := by
  unfold argumentList
  refine h.last fun t _ => ?_
  split
  · exact accounts_pure (by simp)
  · exact accounts_throw
  · rename_i tag mark children _
    refine Restores.andThen (congruence_restores.isAmong _ _) fun isList hlist => ?_
    split
    · rename_i htrue
      -- Only lists of two tags are opened, and neither carries comments.
      have htag : isPlain tag := by
        unfold isAmong at hlist
        split at hlist
        · rw [← returns_pure hlist] at htrue
          cases tag with
          | list items => rfl
          | atom a =>
            cases a with
            | str name =>
              have hmem : name ∈ ["arglist", "mrhs"] := List.contains_iff_mem.1 htrue
              simp only [List.mem_cons, List.not_mem_nil, or_false] at hmem
              rcases hmem with rfl | rfl <;> rfl
            | _ => rfl
        · exact absurd hlist not_returns_throw
      exact accounts_opened htag rfl
    · exact accounts_pure rfl

theorem counts_lowerWithArgs {tag : String} (htag : isPlain (.str tag))
    (h : Counts L m due (go (fs.get 0))) : Counts L m due (lowerWithArgs tag go fs) :=
  (counts_argumentList h).last fun _ _ => accounts_bare htag rfl

/-- Arguments in parentheses, or none. -/
theorem counts_lowerArgParen (h : Counts L m (L.due (fs.get 0)) (go (fs.get 0))) :
    Counts L m (L.due (fs.get 0)) (lowerArgParen go fs) := by
  unfold lowerArgParen
  dsimp only
  split
  · rename_i hnull
    rw [Ledger.due_of_isNull hnull]
    exact accounts_bare rfl rfl
  · exact (counts_argumentList h).last fun _ _ => accounts_bare rfl rfl

/-- A block that is passed on stands behind the arguments. -/
theorem counts_lowerArgsBlock {args block : Raw} (h : Counts L m due (go args))
    (hblock : Counts L m (L.due block) (go block)) :
    Counts L m (due + L.due block) (lowerArgsBlock go [args, block]) := by
  unfold lowerArgsBlock
  refine (counts_argumentList h).andThen fun args _ => ?_
  -- A block argument that is no node counts for nothing.
  split
  · rename_i heq
    cases heq
  · rename_i heq
    cases heq
    rw [Ledger.due_atom]
    exact accounts_bare rfl rfl
  · rename_i heq
    cases heq
    rw [Ledger.due_atom]
    exact accounts_bare rfl (by simp)
  · rename_i heq
    cases heq
    rw [Ledger.due_atom]
    exact accounts_bare rfl (by simp)
  · rename_i heq
    cases heq
    exact hblock.last fun t _ => accounts_bare rfl (by simp +arith)

/-- A splat opens the list before it, whose own tag must not count. -/
theorem counts_lowerArgsStar {args splatted : Raw} {rest : List Raw}
    (hargs : Counts L m d₀ (go args)) (hnode : ∀ t, Returns (go args) t → t.plain)
    (hsplatted : Counts L m d₁ (go splatted))
    (hrest : ∀ r ∈ rest, Counts L m (L.due r) (go r)) :
    Counts L m (d₀ + (d₁ + L.dueAll rest)) (lowerArgsStar go (args :: splatted :: rest)) := by
  -- The list that is added to may be absent.
  have hadd : ∀ items : Tree, items.plain →
      Accounts L m (d₁ + L.dueAll rest) (L.weigh m items) (do
        let children ← childrenOf items
        let splat := Tree.bare "splat" [← go splatted]
        return items.withChildren (children ++ splat :: (← rest.mapM go))) (L.weigh m) := by
    intro items hitems
    refine Restores.andThen (congruence_restores.childrenOf _) fun children hchildren => ?_
    refine hsplatted.andThen fun t _ => (counts_mapM hrest).last fun ts _ => ?_
    refine accounts_pure ?_
    have hsum := Ledger.weigh_withChildren (L := L) (m := m) hitems (returns_require hchildren)
      (children ++ Tree.bare "splat" [t] :: ts)
    simp only [Ledger.total_append, Ledger.total_cons, Ledger.total_nil,
      Ledger.weigh_bare (show isPlain (.str "splat") from rfl)] at hsum ⊢
    omega
  unfold lowerArgsStar
  refine hargs.andThen fun t ht => ?_
  split
  · simp only [pure_bind]
    exact (hadd (.bare "arglist" []) rfl).congr (by simp)
  · simp only [pure_bind]
    exact hadd t (hnode t ht)

end Arguments

section Calls

/-- A call has a tag that does not count. -/
theorem plain_callTag {op : Raw} {kind : String} (h : Returns (callTag op) kind) :
    isPlain (.str kind) := by
  unfold callTag at h
  dsimp only at h
  split at h
  -- Each way of writing the operator ends in one of three tags.
  all_goals
    obtain ⟨op', -, h⟩ := returns_bind h
    split at h
    · obtain ⟨_, hthrow, -⟩ := returns_bind h
      exact absurd hthrow not_returns_throw
    · split at h
      · rw [← returns_pure h]
        rfl
      · rw [← returns_pure h]
        rfl
      · rw [← returns_pure h]
        rfl
      · exact absurd h not_returns_throw

theorem counts_lowerCall (h : Counts L m due (go (fs.get 0))) :
    Counts L m due (lowerCall go fs) := by
  refine Restores.andThen (congruence_restores.callTag _) fun kind hkind => ?_
  refine h.last fun receiver _ => ?_
  refine Restores.andThen (congruence_restores.nameOf _) fun _ _ => ?_
  exact accounts_placed (plain_callTag hkind) (by simp)

theorem counts_lowerCommand (h : Counts L m due (go (fs.get 1))) :
    Counts L m due (lowerCommand go fs) := by
  refine Restores.andThen (congruence_restores.nameOf _) fun name _ => ?_
  exact (counts_argumentList h).last fun _ _ => accounts_placed rfl (by simp)

/-- The second and third field of a command call are a token and a name. -/
theorem counts_lowerCommandCall (h₀ : Counts L m d₀ (go (fs.get 0)))
    (h₃ : Counts L m d₃ (go (fs.get 3))) : Counts L m (d₀ + d₃) (lowerCommandCall go fs) := by
  refine Restores.andThen (congruence_restores.callTag _) fun kind hkind => ?_
  refine h₀.andThen fun receiver _ => ?_
  refine Restores.andThen (congruence_restores.nameOf _) fun name _ => ?_
  refine (counts_argumentList h₃).last fun _ _ => ?_
  exact accounts_placed (plain_callTag hkind) (by simp +arith)

/-- The call is opened and takes the arguments as its own. -/
theorem counts_lowerCallWithArgs (h₀ : Counts L m d₀ (go (fs.get 0)))
    (hnode : ∀ t, Returns (go (fs.get 0)) t → t.plain) (h₁ : Counts L m d₁ (go (fs.get 1))) :
    Counts L m (d₀ + d₁) (lowerCallWithArgs go fs) := by
  refine h₀.andThen fun call hcall => ?_
  refine Restores.andThen (congruence_restores.childrenOf _) fun children hchildren => ?_
  refine (counts_argumentList h₁).last fun args _ => accounts_pure ?_
  have hsum := Ledger.weigh_withChildren (L := L) (m := m) (hnode call hcall)
    (returns_require hchildren) (children ++ args)
  rw [Ledger.total_append] at hsum
  omega

theorem counts_lowerIndex (h₀ : Counts L m d₀ (go (fs.get 0)))
    (h₁ : Counts L m d₁ (go (fs.get 1))) : Counts L m (d₀ + d₁) (lowerIndex go fs) :=
  h₀.andThen fun _ _ => (counts_argumentList h₁).last fun _ _ =>
    accounts_bare rfl (by simp +arith)

end Calls

section Collections

/-- The list of elements is opened under another tag. -/
theorem counts_lowerCollection {tag : String} (htag : isPlain (.str tag))
    (h : Counts L m (L.due (fs.get 0)) (go (fs.get 0)))
    (hnode : ∀ t, Returns (go (fs.get 0)) t → t.plain) :
    Counts L m (L.due (fs.get 0)) (lowerCollection tag go fs) := by
  unfold lowerCollection
  dsimp only
  split
  · rename_i hempty
    rw [Ledger.due_of_isEmpty hempty]
    exact accounts_bare htag rfl
  · refine h.last fun t ht => ?_
    refine Restores.andThen (congruence_restores.childrenOf _) fun children hchildren => ?_
    exact accounts_of_children? (hnode t ht) (returns_require hchildren) (Ledger.weigh_bare htag)

/-- A key that is its own value is due nothing besides. -/
theorem counts_shorthandValue (key : Raw) (t : Tree) : Counts L m 0 (shorthandValue key t) := by
  unfold shorthandValue
  refine Restores.andThen (congruence_restores.firstChild t) fun name _ => ?_
  dsimp only
  split
  · refine Restores.andThen (congruence_restores.nameFrom name) fun _ _ => ?_
    exact accounts_placed rfl (by simp)
  · split
    · exact accounts_throw
    · refine Restores.andThen (restores_isLocal name) fun read _ => ?_
      refine Restores.andThen (congruence_restores.nameFrom name) fun symbol _ => ?_
      split
      · exact accounts_placed rfl (by simp)
      · exact accounts_placed rfl (by simp)

/-- A pair is due what its key is due, and its value if one is written. -/
theorem counts_lowerPair (h₀ : Counts L m due (go (fs.get 0)))
    (h₁ : (fs.get 1).isNull = false → Counts L m (L.due (fs.get 1)) (go (fs.get 1))) :
    Counts L m (due + L.due (fs.get 1)) (lowerPair go fs) := by
  unfold lowerPair
  refine h₀.andThen fun key _ => ?_
  split
  · rename_i hnull
    rw [Ledger.due_of_isNull hnull]
    exact (counts_shorthandValue _ _).last fun _ _ => accounts_bare rfl (by simp +arith)
  · rename_i hpresent
    refine (h₁ (Bool.eq_false_iff.2 hpresent)).last fun _ _ => ?_
    exact accounts_bare rfl (by simp +arith)

end Collections

section Operators

/-- A match counts its two sides, whatever names it binds. -/
theorem accounts_lowerMatch (left right : Tree) :
    Accounts L m 0 (L.weigh m right + L.weigh m left) (lowerMatch left right) (L.weigh m) := by
  unfold lowerMatch
  refine Restores.andThen (congruence_restores.staticSource? left) fun source _ => ?_
  split
  · exact accounts_bare rfl (by simp +arith)
  · refine Restores.andThen ?_ fun _ _ => accounts_bare rfl (by simp +arith)
    exact congruence_restores.forM (g := bindLocal) fun name _ => congruence_restores.bindLocal name

theorem counts_lowerUnary (h : Counts L m due (go (fs.get 1))) :
    Counts L m due (lowerUnary go fs) := by
  refine h.last fun value _ => ?_
  exact Restores.andThen (congruence_restores.operatorOf _) fun _ _ => accounts_bare rfl (by simp)

/-- An operator that assigns on a condition has a tag that does not count. -/
theorem plain_shortcutTag? {word tag : String} (h : shortcutTag? word = some tag) :
    isPlain (.str tag) := by
  unfold shortcutTag? at h
  split at h
  all_goals first
    | cases h; rfl
    | cases h

/-- An operator that is no call has a tag that does not count. -/
theorem plain_logicalTag? {word tag : String} (h : logicalTag? word = some tag) :
    isPlain (.str tag) := by
  unfold logicalTag? at h
  split at h
  all_goals first
    | cases h; rfl
    | cases h

/-- Operations. Only a capture has patterns for its operands. -/
theorem counts_lowerBinary (hop : (fs.get 1).text? ≠ some "=>")
    (h₀ : Counts L m d₀ (go (fs.get 0))) (h₂ : Counts L m d₂ (go (fs.get 2))) :
    Counts L m (d₀ + d₂) (lowerBinary go fs) := by
  unfold lowerBinary
  refine Restores.andThen (congruence_restores.operatorOf _) fun op hreturned => ?_
  obtain rfl := returns_operatorOf hreturned
  split
  · exact h₀.andThen fun left _ => h₂.last fun right _ => accounts_lowerMatch left right
  · split
    · rename_i tag hlogical
      obtain ⟨word, -, hword⟩ := Option.bind_eq_some_iff.1 hlogical
      exact h₀.andThen fun _ _ => h₂.last fun _ _ =>
        accounts_bare (plain_logicalTag? hword) (by simp +arith)
    · split
      · rename_i hcapture
        exact absurd (eq_of_beq hcapture) hop
      · exact h₀.andThen fun _ _ => h₂.last fun _ _ => accounts_bare rfl (by simp +arith)

end Operators

section Assignment

/-- The assignment to a class variable, which knows whether it is in a method. -/
theorem accounts_classVariable {children : List Tree} (h : L.total m children = held) :
    Accounts L m 0 held (do return Tree.node (← assignmentTag (.str "cvar")) {} children)
      (L.weigh m) := by
  intro options scope t scope' hrun hscope
  cases hrun
  refine ⟨hscope, Ledger.settles_of_eq ?_⟩
  rw [hscope, Ledger.weigh_classVariable rfl rfl, h, Nat.zero_add]

/-- An assignment whose tag does not count holds what its children hold. -/
theorem accounts_assigned {tag : Raw} {children : List Tree} (htag : isPlain tag)
    (h : L.Settles held (L.total m children)) :
    Accounts L m 0 held (pure (Tree.node tag {} children)) (L.weigh m) :=
  accounts_settled (h.trans (Ledger.settles_of_eq (Ledger.weigh_unmarked htag rfl)))

/-- What a target consists of is all it counts for. -/
theorem accounts_assignTo {t : Tree} (h : Target t) (value : Option Tree) :
    Accounts L m 0 (L.weigh m t + L.total m value.toList) (assignTo t value) (L.weigh m) := by
  -- Assigning gives the node new parts: those it had, and the value.
  have hparts : ∀ {tag : String} {mark : Mark} {children : List Tree}, isPlain (.str tag) →
      L.Settles (L.weigh m (.node (.str tag) mark children) + L.total m value.toList)
        (L.total m (children ++ value.toList)) := by
    intro tag mark children htag
    rw [Ledger.total_append]
    exact (Ledger.settles_children htag).add (Ledger.settles_of_eq rfl)
  cases h with
  | ofVariable h =>
    cases h with
    | simple htag =>
      simp only [pinnable, List.mem_cons, List.not_mem_nil, or_false] at htag
      rcases htag with rfl | rfl | rfl | rfl
      · exact accounts_assigned rfl (hparts rfl)
      · exact accounts_assigned rfl (hparts rfl)
      · exact accounts_assigned rfl (hparts rfl)
      · exact (accounts_classVariable rfl).mono ((hparts rfl).add_left 0)
    | constant hroot => exact accounts_assigned rfl (hparts rfl)
  | element hcollection hargs => exact accounts_assigned rfl (hparts rfl)
  | @field mark receiver kind name hreceiver hkind =>
    -- The name gets an equals sign, but a name counts for nothing.
    have hsetter := @hparts "field" mark [receiver, .str kind, .sym name] rfl
    have hsame : L.Settles (L.total m ([receiver, .str kind, .sym name] ++ value.toList))
        (L.total m (receiver :: .sym (name ++ "=") :: value.toList)) :=
      Ledger.settles_of_eq (by simp)
    rcases hkind with rfl | rfl
    · exact accounts_assigned rfl (hsetter.trans hsame)
    · exact accounts_assigned rfl (hsetter.trans hsame)

/-- A target without a value counts what it counted before. -/
theorem accounts_targetOf {t : Tree} (h : Assignable t) :
    Accounts L m 0 (L.weigh m t) (targetOf t) (L.weigh m) := by
  rcases h with h | h
  · exact ((accounts_assignTo h none).congr (by simp)).bind fun u _ => accounts_pure (by simp)
  · obtain ⟨mark, children, rfl⟩ := targets_node h
    have hsame : Accounts L m 0 (L.weigh m (.node (.str "mlhs") mark children))
        (pure ((Tree.node (.str "mlhs") mark children).withLine mark.line)) (L.weigh m) :=
      accounts_pure (by simp only [Ledger.weigh_withLine])
    exact hsame

/-- A row of values becomes an array with the same children. -/
@[simp] theorem weigh_arrayOfValues (t : Tree) :
    L.weigh m (arrayOfValues t) = L.weigh m t := by
  unfold arrayOfValues
  split
  · exact Ledger.weigh_retagged rfl rfl
  · rfl

/-- A value that is absent has nothing to count. -/
theorem total_present (t : Tree) : L.total m (present t).toList = L.weigh m t := by
  unfold present
  split
  · rename_i hnull
    unfold Tree.isNull at hnull
    split at hnull
    · simp
    · cases hnull
  · simp

/-- The left side has to be a target. -/
theorem counts_lowerAssign (h₀ : Counts L m d₀ (go (fs.get 0)))
    (htarget : ∀ t, Returns (go (fs.get 0)) t → Target t) (h₁ : Counts L m d₁ (go (fs.get 1))) :
    Counts L m (d₀ + d₁) (lowerAssign go fs) := by
  refine h₀.andThen fun t ht => h₁.last fun v _ => ?_
  have hassign := accounts_assignTo (L := L) (m := m) (htarget t ht) (present (arrayOfValues v))
  rw [total_present, weigh_arrayOfValues] at hassign
  exact (hassign.congr (by omega)).bind fun u _ => accounts_pure (by simp)

theorem counts_lowerMultiAssign (h₀ : Counts L m d₀ (go (fs.get 0)))
    (h₁ : Counts L m d₁ (go (fs.get 1))) : Counts L m (d₀ + d₁) (lowerMultiAssign go fs) :=
  h₀.andThen fun _ _ => h₁.last fun _ _ => accounts_bare rfl (by simp +arith)

/-- A target of another form keeps its children. -/
theorem accounts_accessTarget? {t : Tree} (h : Target t) :
    Accounts L m 0 (L.weigh m t) (accessTarget? t) fun o => L.weigh m (o.getD t) := by
  cases h with
  | ofVariable h =>
    cases h with
    | simple htag =>
      simp only [pinnable, List.mem_cons, List.not_mem_nil, or_false] at htag
      rcases htag with rfl | rfl | rfl | rfl
      all_goals exact accounts_pure rfl
    | constant hroot => exact accounts_pure rfl
  | element hcollection hargs =>
    exact accounts_opened rfl (Ledger.weigh_bare rfl)
  | @field mark receiver kind name hreceiver hkind =>
    have hparts : L.total m [receiver, .sym name] = L.total m [receiver, .str kind, .sym name] := by
      simp
    rcases hkind with rfl | rfl
    all_goals exact accounts_opened rfl ((Ledger.weigh_unmarked rfl rfl).trans hparts)

/-- A number is in no ledger. -/
theorem accounts_numbered (t : Tree) : Accounts L m 0 (L.weigh m t) (numbered t) (L.weigh m) := by
  unfold numbered
  split
  · exact accounts_pure rfl
  · split
    · exact accounts_pure rfl
    · exact Restores.andThen congruence_restores.freshNumber fun _ _ =>
        accounts_pure (Ledger.weigh_remark rfl)

/-- The target is read and assigned. That makes no difference if it counts for
    nothing. -/
theorem accounts_assignResult {t : Tree} (h : Variable t) (ht : L.weigh m t = 0) (op : String)
    (value : Tree) :
    Accounts L m 0 (L.weigh m value) (do
      let target ← withSharedChildren t
      let result := Tree.bare "send" [target, .sym op, value]
      return (← assignTo target (some result)).withLine target.line?) (L.weigh m) := by
  have hassign : ∀ target : Tree, Target target → L.weigh m target = 0 →
      Accounts L m 0 (L.weigh m value) (do
        let result := Tree.bare "send" [target, .sym op, value]
        return Tree.withLine target.line? (← assignTo target (some result))) (L.weigh m) := by
    intro target htarget hnone
    have hresult := accounts_assignTo (L := L) (m := m) htarget
      (some (.bare "send" [target, .sym op, value]))
    refine (hresult.congr ?_).bind fun u _ => accounts_pure (by simp)
    simp [hnone]
  cases h with
  | simple htag => exact hassign _ (.ofVariable (.simple htag)) ht
  | @constant mark root name hroot =>
    -- Of what the constant consists of only the scope may be a node.
    have hconst (scope : Tree) : L.weigh m (.node (.str "const") mark [scope, .sym name]) =
        L.own m (.str "const") mark.comments + L.weigh m scope := by
      rw [Ledger.weigh_plain rfl]
      simp
    rw [hconst] at ht
    obtain ⟨hown, hscope⟩ := Nat.add_eq_zero_iff.1 ht
    have hnumbered := accounts_numbered (L := L) (m := m) root
    rw [hscope] at hnumbered
    simp only [withSharedChildren, childrenOf, Tree.children?, require, pure_bind, List.mapM_cons,
      List.mapM_nil, bind_assoc]
    refine hnumbered.nothing fun scope hreturned hnone => ?_
    refine hassign _ (.ofVariable (.constant ((numbered_yields hroot).of_returns hreturned))) ?_
    rw [hconst, hown, hnone]

/-- An operator assignment. The target counts for nothing. -/
theorem counts_lowerOperatorAssign (h₀ : Counts L m 0 (go (fs.get 0)))
    (htarget : ∀ t, Returns (go (fs.get 0)) t → Target t)
    (h₂ : Counts L m due (go (fs.get 2))) : Counts L m due (lowerOperatorAssign go fs) := by
  unfold lowerOperatorAssign
  -- The target may come to stand in two places, so nothing may be due for it.
  refine h₀.nothing fun t ht hnone => h₂.last fun v _ => ?_
  have ht := htarget t ht
  refine Restores.andThen (congruence_restores.require _) fun text _ => ?_
  refine Restores.andThen (congruence_restores.clippedName _) fun op _ => ?_
  have haccess := accounts_accessTarget? (L := L) (m := m) ht
  rw [hnone] at haccess
  refine haccess.nothing fun access hreturned haccess => ?_
  split
  · rename_i tag hshortcut
    exact accounts_bare (plain_shortcutTag? hshortcut) (by simp_all)
  · exact accounts_bare rfl (by simp_all)
  · rename_i tag hshortcut
    have htargetOf := accounts_targetOf (L := L) (m := m) (.inl ht)
    rw [hnone] at htargetOf
    refine htargetOf.nothing fun u _ hu => ?_
    exact accounts_bare (plain_shortcutTag? hshortcut) (by simp [hu])
  · have hvariable := ((accessTarget?_yields ht).of_returns hreturned).1 rfl
    exact accounts_assignResult hvariable hnone op v

/-- Values that were read as arguments, and more of them. -/
theorem counts_lowerValuesFromArgs {inner : Raw} {rest : List Raw} (h : Counts L m due (go inner))
    (hrest : ∀ r ∈ rest, Counts L m (L.due r) (go r)) :
    Counts L m (due + L.dueAll rest) (lowerValuesFromArgs go (inner :: rest)) :=
  (counts_argumentList h).andThen fun _ _ => (counts_mapM hrest).last fun _ _ =>
    accounts_bare rfl (by simp +arith)

/-- Values with a splat among them are an argument list under another tag. -/
theorem counts_lowerValuesStar (h : Counts L m due (lowerArgsStar go fs))
    (hnode : ∀ t, Returns (lowerArgsStar go fs) t → t.plain) :
    Counts L m due (lowerValuesStar go fs) := by
  refine h.last fun t ht => accounts_pure ?_
  cases t with
  | leaf v => rfl
  | node tag mark children => exact Ledger.weigh_retagged (hnode _ ht) rfl

/-- The targets of a list. -/
theorem counts_lowerTargets (h : ∀ r ∈ fs, Counts L m (L.due r) (go r))
    (htarget : ∀ r ∈ fs, ∀ t, Returns (go r) t → Assignable t) :
    Counts L m (L.dueAll fs) (lowerTargets go fs) := by
  refine (counts_mapM h).last fun ts hts => ?_
  have htargets : ∀ t ∈ ts, Accounts L m 0 (L.weigh m t) (targetOf t) (L.weigh m) := by
    intro t ht
    obtain ⟨r, hr, hreturned⟩ := returns_mapM hts t ht
    exact accounts_targetOf (htarget r hr t hreturned)
  refine (accounts_mapM htargets).bind fun us _ => accounts_bare rfl ?_
  exact Ledger.total_eq_sum

/-- A splat opens the list of targets before it. -/
theorem counts_lowerTargetsStar (h₀ : Counts L m d₀ (go (fs.get 0)))
    (hnode : ∀ t, Returns (go (fs.get 0)) t → t.plain) (h₁ : Counts L m d₁ (go (fs.get 1)))
    (htarget : ∀ t, Returns (go (fs.get 1)) t → t = .null ∨ Target t) :
    Counts L m (d₀ + d₁) (lowerTargetsStar go fs) := by
  refine h₀.andThen fun targets htargets => h₁.last fun t ht => ?_
  have hadd (more : List Tree) :=
    accounts_addChildren (L := L) (m := m) (hnode targets htargets) more
  split
  · exact (hadd [.bare "splat" []]).congr (by simp)
  · rename_i hpresent
    rcases htarget t ht with rfl | ht
    · exact absurd rfl hpresent
    · refine (accounts_targetOf (.inl ht)).given (L.weigh m targets) (by omega) fun u _ => ?_
      exact (hadd [.bare "splat" [u]]).congr (by simp +arith)

/-- Targets after a splat, one or a list of them. -/
theorem counts_lowerTargetsPost (h₀ : Counts L m d₀ (go (fs.get 0)))
    (hnode : ∀ t, Returns (go (fs.get 0)) t → t.plain) (h₁ : Counts L m d₁ (go (fs.get 1)))
    (htarget : ∀ t, Returns (go (fs.get 1)) t → Assignable t) :
    Counts L m (d₀ + d₁) (lowerTargetsPost go fs) := by
  refine h₀.andThen fun targets htargets => h₁.last fun t ht => ?_
  have hadd (more : List Tree) :=
    accounts_addChildren (L := L) (m := m) (hnode targets htargets) more
  split
  · rename_i mark children
    have hlist : L.Settles (L.weigh m (.node (.str "mlhs") mark children)) (L.total m children) :=
      Ledger.settles_children rfl
    refine (hadd children).mono (Ledger.Settles.add_left ?_ 0)
    rw [Nat.add_zero, Nat.add_comm (L.weigh m targets)]
    exact hlist.add (Ledger.settles_of_eq rfl)
  · refine (accounts_targetOf (htarget t ht)).given (L.weigh m targets) (by omega) fun u _ => ?_
    exact (hadd [u]).congr (by simp +arith)

theorem counts_lowerIndexTarget (h₀ : Counts L m d₀ (go (fs.get 0)))
    (h₁ : Counts L m d₁ (go (fs.get 1))) : Counts L m (d₀ + d₁) (lowerIndexTarget go fs) :=
  h₀.andThen fun _ _ => (counts_argumentList h₁).last fun _ _ =>
    accounts_bare rfl (by simp +arith)

theorem counts_lowerAttributeTarget (h : Counts L m due (go (fs.get 0))) :
    Counts L m due (lowerAttributeTarget go fs) := by
  refine h.last fun receiver _ => Restores.andThen (congruence_restores.callTag _) fun kind _ => ?_
  exact Restores.andThen (congruence_restores.nameOf _) fun _ _ => accounts_bare rfl (by simp)

end Assignment

end LowerM

end RubyTree
