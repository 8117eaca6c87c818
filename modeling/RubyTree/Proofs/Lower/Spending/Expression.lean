import RubyTree.Proofs.Lower.Sound.Expression
import RubyTree.Proofs.Lower.Spending.Literal

/-!
# Spending in Expressions

Calls, arguments, collections, operators and assignments. Most of them put a new
node around what their fields give. Where a node gets more children or gives its
own away, the grammar says that it is no assignment to a constant.

Only the operation and assignment of a constant uses a tree twice, the scope that
it numbers. As the result is an update, the scope counts once.

## Theorems

* `freshAll_argumentList`: Arguments as children.
* `fresh_lowerCallWithArgs`, `fresh_lowerArgsStar`: Nodes that get more children.
* `spends_assignTo`, `spends_targetOf`: Targets with and without a value.
* `fresh_lowerOperatorAssign`: Operator assignments.
-/

namespace RubyTree

open RubyTree.Tree (uses usesAll own inner)

namespace LowerM

variable {go : Visit} {fs : Fields} {held : List Tree}

section Nodes

theorem fresh_lowerSingle (tag : String) (h : Fresh (go (fs.get 0))) :
    Fresh (lowerSingle tag go fs) :=
  h.andThen fun _ _ => spends_bare fun _ => Nat.le_refl _

theorem fresh_lowerDouble (tag : String) (h₀ : Fresh (go (fs.get 0)))
    (h₁ : Fresh (go (fs.get 1))) : Fresh (lowerDouble tag go fs) :=
  h₀.andThen fun _ _ => h₁.andThen fun _ _ => spends_bare fun _ => Nat.le_refl _

/-- A node that holds all its fields. -/
theorem fresh_lowerFields (tag : String) (h : ∀ r ∈ fs, Fresh (go r)) :
    Fresh (lowerFields tag go fs) :=
  (freshAll_mapM h).andThen fun _ _ => spends_bare fun _ => Nat.le_refl _

/-- Every element of a field that is a list or absent. -/
theorem freshAll_overElements {f : Raw → LowerM Tree} {r : Raw}
    (h : ∀ rs, Returns (elementsOf r) rs → ∀ x ∈ rs, Fresh (f x)) :
    FreshAll (do (← elementsOf r).mapM f) :=
  Quiet.andThen (congruence_quiet.elementsOf r) fun rs hrs => freshAll_mapM (h rs hrs)

/-- A node that holds the elements of its only field. -/
theorem fresh_lowerEach (tag : String)
    (h : ∀ rs, Returns (elementsOf (fs.get 0)) rs → ∀ x ∈ rs, Fresh (go x)) :
    Fresh (lowerEach tag go fs) :=
  (freshAll_overElements h).andThen fun _ _ => spends_bare fun _ => Nat.le_refl _

end Nodes

section Arguments

/-- Arguments are the children of their list, or one node alone. -/
theorem freshAll_argumentList {r : Raw} (h : Fresh (go r)) : FreshAll (argumentList go r) := by
  unfold argumentList
  refine h.andThen fun t _ => ?_
  split
  · exact spends_pure fun _ => by simp
  · exact spends_throw
  · rename_i tag mark children _
    refine Quiet.andThen (congruence_quiet.isAmong _ _) fun isList hlist => ?_
    split
    · rename_i htrue
      -- Only an assignment to a constant can count for less than its children.
      have htag : tag ≠ .str "casgn" := by
        rintro rfl
        rw [isAmong_str] at hlist
        rw [← returns_pure hlist] at htrue
        exact absurd htrue (by decide)
      exact spends_pure fun k => by simpa using Tree.usesAll_children_le htag
    · exact spends_pure fun _ => Nat.le_refl _

theorem fresh_lowerWithArgs (tag : String) (h : Fresh (go (fs.get 0))) :
    Fresh (lowerWithArgs tag go fs) :=
  (freshAll_argumentList h).andThen fun _ _ => spends_bare fun _ => Nat.le_refl _

/-- Arguments in parentheses, or none. -/
theorem fresh_lowerArgParen (h : Fresh (go (fs.get 0))) : Fresh (lowerArgParen go fs) := by
  unfold lowerArgParen
  dsimp only
  split
  · exact spends_bare fun _ => Nat.le_refl _
  · exact (freshAll_argumentList h).andThen fun _ _ => spends_bare fun _ => Nat.le_refl _

/-- A block that is passed on stands behind the arguments. -/
theorem fresh_lowerArgsBlock (h : Fresh (go (fs.get 0)))
    (hblock : ∀ block ∈ fs.tail.head?, Fresh (go block)) : Fresh (lowerArgsBlock go fs) := by
  unfold lowerArgsBlock
  refine (freshAll_argumentList h).andThen fun args _ => ?_
  split
  · exact spends_bare fun _ => Nat.le_refl _
  · exact spends_bare fun _ => Nat.le_refl _
  · exact spends_bare fun _ => by simp
  · exact spends_bare fun _ => by simp
  · rename_i block rest _ _ _ htail
    refine (hblock block (by rw [htail]; rfl)).andThen fun t _ => spends_bare fun _ => by simp

/-- A splat opens the list before it, which must be no constant assignment. -/
theorem fresh_lowerArgsStar {args splatted : Raw} {rest : List Raw} (hargs : Fresh (go args))
    (hnode : ∀ t, Returns (go args) t → t.hasTag "casgn" = false)
    (hsplatted : Fresh (go splatted)) (hrest : ∀ r ∈ rest, Fresh (go r)) :
    Fresh (lowerArgsStar go (args :: splatted :: rest)) := by
  -- The list that is added to may be absent.
  have hadd : ∀ items : Tree, items.hasTag "casgn" = false → Spends [items] (do
      let children ← childrenOf items
      let splat := Tree.bare "splat" [← go splatted]
      return items.withChildren (children ++ splat :: (← rest.mapM go))) fun t => [t] := by
    intro items hitems
    refine Quiet.andThen (congruence_quiet.childrenOf _) fun children hchildren => ?_
    refine hsplatted.andThen fun t _ => (freshAll_mapM hrest).andThen fun ts _ => ?_
    refine spends_pure fun k => ?_
    have hsum := Tree.uses_withChildren (k := k) hitems (returns_require hchildren)
      (children ++ Tree.bare "splat" [t] :: ts)
    simp only [Tree.usesAll_append, Tree.usesAll_cons, Tree.usesAll_nil,
      Tree.uses_bare (show "splat" ≠ "casgn" by decide)] at hsum ⊢
    omega
  unfold lowerArgsStar
  refine hargs.andThen fun t ht => ?_
  split
  · simp only [pure_bind]
    exact (hadd (.bare "arglist" []) rfl).mono fun _ => by simp
  · simp only [pure_bind]
    exact hadd t (hnode t ht)

end Arguments

section Calls

theorem fresh_lowerCall (h : Fresh (go (fs.get 0))) : Fresh (lowerCall go fs) := by
  refine Quiet.andThen (congruence_quiet.callTag _) fun kind _ => h.andThen fun receiver _ => ?_
  exact Quiet.andThen (congruence_quiet.nameOf _) fun _ _ => spends_placed fun _ => by simp

theorem fresh_lowerCommand (h : Fresh (go (fs.get 1))) : Fresh (lowerCommand go fs) := by
  refine Quiet.andThen (congruence_quiet.nameOf _) fun name _ => ?_
  exact (freshAll_argumentList h).andThen fun _ _ => spends_placed fun _ => by simp

/-- The second and third field of a command call are a token and a name. -/
theorem fresh_lowerCommandCall (h₀ : Fresh (go (fs.get 0))) (h₃ : Fresh (go (fs.get 3))) :
    Fresh (lowerCommandCall go fs) := by
  refine Quiet.andThen (congruence_quiet.callTag _) fun kind _ => h₀.andThen fun receiver _ => ?_
  refine Quiet.andThen (congruence_quiet.nameOf _) fun name _ => ?_
  exact (freshAll_argumentList h₃).andThen fun _ _ => spends_placed fun _ => by simp

/-- The call is opened and takes the arguments as its own. -/
theorem fresh_lowerCallWithArgs (h₀ : Fresh (go (fs.get 0)))
    (hnode : ∀ t, Returns (go (fs.get 0)) t → t.hasTag "casgn" = false)
    (h₁ : Fresh (go (fs.get 1))) : Fresh (lowerCallWithArgs go fs) := by
  refine h₀.andThen fun call hcall => ?_
  refine Quiet.andThen (congruence_quiet.childrenOf _) fun children hchildren => ?_
  refine (freshAll_argumentList h₁).andThen fun args _ => spends_pure fun k => ?_
  have hsum := Tree.uses_withChildren (k := k) (hnode call hcall) (returns_require hchildren)
    (children ++ args)
  simp only [Tree.usesAll_append, Tree.usesAll_cons, Tree.usesAll_nil] at hsum ⊢
  omega

/-- The arguments of an element access stand behind its receiver. -/
theorem fresh_lowerIndex (h₀ : Fresh (go (fs.get 0))) (h₁ : Fresh (go (fs.get 1))) :
    Fresh (lowerIndex go fs) :=
  h₀.andThen fun _ _ => (freshAll_argumentList h₁).andThen fun _ _ =>
    spends_bare fun _ => Nat.le_refl _

end Calls

section Collections

/-- The list of elements is opened under another tag. -/
theorem fresh_lowerCollection (tag : String) (h : Fresh (go (fs.get 0)))
    (hnode : ∀ t, Returns (go (fs.get 0)) t → t.hasTag "casgn" = false) :
    Fresh (lowerCollection tag go fs) := by
  unfold lowerCollection
  dsimp only
  split
  · exact spends_bare fun _ => Nat.le_refl _
  · refine h.andThen fun t ht => ?_
    refine Quiet.andThen (congruence_quiet.childrenOf _) fun children hchildren => ?_
    have hchildren := returns_require hchildren
    exact spends_bare fun k => by simpa using Tree.usesAll_of_children? (hnode t ht) hchildren

/-- A key that is its own value becomes a local or a call, with no children visited. -/
theorem fresh_shorthandValue (key : Raw) (t : Tree) : Fresh (shorthandValue key t) := by
  unfold shorthandValue
  refine Quiet.andThen (congruence_quiet.firstChild t) fun name _ => ?_
  dsimp only
  split
  · exact Quiet.andThen (congruence_quiet.nameFrom name) fun _ _ => spends_placed fun _ => by simp
  · split
    · exact spends_throw
    · refine Quiet.andThen (quiet_isLocal name) fun read _ => ?_
      refine Quiet.andThen (congruence_quiet.nameFrom name) fun symbol _ => ?_
      split
      · exact spends_placed fun _ => by simp
      · exact spends_placed fun _ => by simp

/-- A pair holds its key and the value, which is its own if none is written. -/
theorem fresh_lowerPair (h₀ : Fresh (go (fs.get 0)))
    (h₁ : (fs.get 1).isNull = false → Fresh (go (fs.get 1))) : Fresh (lowerPair go fs) := by
  unfold lowerPair
  refine h₀.andThen fun key _ => ?_
  split
  · exact (fresh_shorthandValue _ _).andThen fun _ _ => spends_bare fun _ => Nat.le_refl _
  · rename_i hpresent
    refine (h₁ (Bool.eq_false_iff.2 hpresent)).andThen fun _ _ => ?_
    exact spends_bare fun _ => Nat.le_refl _

end Collections

section Operators

/-- A match holds its two sides, whatever names it binds. -/
theorem spends_lowerMatch (left right : Tree) :
    Spends [left, right] (lowerMatch left right) fun t => [t] := by
  unfold lowerMatch
  refine Quiet.andThen (congruence_quiet.staticSource? left) fun source _ => ?_
  split
  · exact spends_bare fun _ => by simp
  · refine Quiet.andThen ?_ fun _ _ => spends_bare fun _ => Nat.le_refl _
    exact congruence_quiet.forM (g := bindLocal) fun name _ => congruence_quiet.bindLocal name

theorem fresh_lowerUnary (h : Fresh (go (fs.get 1))) : Fresh (lowerUnary go fs) := by
  refine h.andThen fun value _ => ?_
  exact Quiet.andThen (congruence_quiet.operatorOf _) fun _ _ => spends_bare fun _ => by simp

/-- Operations. Only a capture has patterns for its operands. -/
theorem fresh_lowerBinary (hop : (fs.get 1).text? ≠ some "=>") (h₀ : Fresh (go (fs.get 0)))
    (h₂ : Fresh (go (fs.get 2))) : Fresh (lowerBinary go fs) := by
  unfold lowerBinary
  refine Quiet.andThen (congruence_quiet.operatorOf _) fun op hreturned => ?_
  obtain rfl := returns_operatorOf hreturned
  split
  · exact h₀.andThen fun left _ => h₂.andThen fun right _ => spends_lowerMatch left right
  · split
    · exact h₀.andThen fun _ _ => h₂.andThen fun _ _ => spends_bare fun _ => Nat.le_refl _
    · split
      · rename_i hcapture
        exact absurd (eq_of_beq hcapture) hop
      · exact h₀.andThen fun _ _ => h₂.andThen fun _ _ => spends_bare fun _ => by simp

end Operators

section Assignment

/-- An assignment has no number of its own, whatever its line. -/
theorem uses_assigned_le {k : Nat} {tag : Raw} {children : List Tree} (line : Option Raw) :
    uses k ((Tree.node tag {} children).withLine line) ≤ usesAll k children := by
  cases line with
  | none => exact Tree.uses_node_le rfl
  | some line => exact Tree.uses_node_le rfl

/-- An assignment holds no more than what it is built from. -/
theorem spends_assigned {tag : Raw} {children : List Tree} (line : Option Raw)
    (h : ∀ k, usesAll k children ≤ usesAll k held) :
    Spends held (pure (Tree.node tag {} children)) fun u => [u.withLine line] := by
  refine spends_pure fun k => ?_
  have hassigned : uses k ((Tree.node tag {} children).withLine line) ≤ usesAll k children :=
    uses_assigned_le line
  have hchildren := h k
  simp only [Tree.usesAll_cons, Tree.usesAll_nil]
  omega

/-- A target keeps its children, and a value is put behind them. -/
theorem spends_assignTo {t : Tree} (h : Target t) (value : Option Tree) (line : Option Raw) :
    Spends (t :: value.toList) (assignTo t value) fun u => [u.withLine line] := by
  -- No target is an update yet, so everything in it counts.
  cases h with
  | ofVariable h =>
    cases h with
    | simple htag =>
      simp only [pinnable, List.mem_cons, List.not_mem_nil, or_false] at htag
      rcases htag with rfl | rfl | rfl | rfl
      all_goals
        refine Quiet.andThen (congruence_quiet.assignmentTag _) fun tag _ => ?_
        exact spends_assigned line fun k => by simp
    | constant hroot =>
      refine Quiet.andThen (congruence_quiet.assignmentTag _) fun tag _ => ?_
      refine spends_assigned line fun k => ?_
      simp only [List.cons_append, List.nil_append, Tree.usesAll_cons, Tree.uses_leaf,
        Tree.uses_node_of_ne (show Raw.str "const" ≠ .str "casgn" by simp), Tree.usesAll_nil]
      omega
  | element hcollection hargs =>
    refine spends_assigned line fun k => ?_
    simp only [List.cons_append, Tree.usesAll_cons, Tree.usesAll_append,
      Tree.uses_node_of_ne (show Raw.str "aref_field" ≠ .str "casgn" by simp)]
    omega
  | field hreceiver hkind =>
    refine Quiet.andThen (congruence_quiet.attributeTag _) fun tag _ => ?_
    refine spends_assigned line fun k => ?_
    simp only [Tree.usesAll_cons, Tree.uses_leaf, Tree.usesAll_nil,
      Tree.uses_node_of_ne (show Raw.str "field" ≠ .str "casgn" by simp)]
    omega

/-- A target without a value holds what it held before. -/
theorem spends_targetOf {t : Tree} (h : Assignable t) :
    Spends [t] (targetOf t) fun u => [u] := by
  rcases h with h | h
  · exact (spends_assignTo h none t.line?).bind fun u _ => spends_pure fun _ => Nat.le_refl _
  · obtain ⟨mark, children, rfl⟩ := targets_node h
    refine spends_pure fun k => ?_
    simp only [Tree.usesAll_cons, Tree.uses_withLine (show
      (Tree.node (.str "mlhs") mark children).hasTag "casgn" = false from rfl)]
    exact Nat.le_refl _

/-- A row of values becomes an array with the same children. -/
theorem uses_arrayOfValues (k : Nat) (t : Tree) : uses k (arrayOfValues t) = uses k t := by
  unfold arrayOfValues
  split
  · rw [Tree.uses_node_of_ne (by simp), Tree.uses_node_of_ne (by simp)]
    rfl
  · rfl

/-- A value that is absent holds nothing. -/
theorem usesAll_present_le (k : Nat) (t : Tree) : usesAll k (present t).toList ≤ uses k t := by
  unfold present
  split
  · simp
  · simp

/-- The left side has to be a target. -/
theorem fresh_lowerAssign (h₀ : Fresh (go (fs.get 0)))
    (htarget : ∀ t, Returns (go (fs.get 0)) t → Target t) (h₁ : Fresh (go (fs.get 1))) :
    Fresh (lowerAssign go fs) := by
  refine h₀.andThen fun t ht => h₁.andThen fun v _ => ?_
  have hassign := spends_assignTo (htarget t ht) (present (arrayOfValues v)) t.line?
  refine hassign.given [] (fun k => ?_) fun u _ => spends_pure fun _ => Nat.le_refl _
  have hvalue := usesAll_present_le k (arrayOfValues v)
  rw [uses_arrayOfValues] at hvalue
  simp only [List.nil_append, List.cons_append, Tree.usesAll_cons, Tree.usesAll_nil]
  omega

/-- The two sides of a multiple assignment. -/
theorem fresh_lowerMultiAssign (h₀ : Fresh (go (fs.get 0))) (h₁ : Fresh (go (fs.get 1))) :
    Fresh (lowerMultiAssign go fs) :=
  h₀.andThen fun _ _ => h₁.andThen fun _ _ => spends_bare fun _ => by simp [uses_arrayOfValues]

/-- A target of another form keeps its children. -/
theorem spends_accessTarget? {t : Tree} (h : Target t) :
    Spends [t] (accessTarget? t) fun o => [o.getD t] := by
  cases h with
  | ofVariable h =>
    cases h with
    | simple htag =>
      simp only [pinnable, List.mem_cons, List.not_mem_nil, or_false] at htag
      rcases htag with rfl | rfl | rfl | rfl
      all_goals exact spends_pure fun _ => Nat.le_refl _
    | constant hroot => exact spends_pure fun _ => Nat.le_refl _
  | element hcollection hargs =>
    -- An element keeps its children under another tag, and neither tag is used up.
    refine spends_pure fun k => ?_
    simp only [Option.getD_some, Tree.usesAll_cons, Tree.usesAll_nil,
      Tree.uses_bare (show "indexasgn" ≠ "casgn" by decide),
      Tree.uses_node_of_ne (show Raw.str "aref_field" ≠ .str "casgn" by simp)]
    omega
  | @field mark receiver kind name hreceiver hkind =>
    refine Quiet.andThen (congruence_quiet.attributeTag _) fun tag _ => spends_pure fun k => ?_
    have hassigned : uses k (.node tag {} [receiver, .sym name]) ≤
        usesAll k [receiver, .sym name] := Tree.uses_node_le rfl
    simp only [Option.getD_some, Tree.usesAll_cons, Tree.usesAll_nil, Tree.uses_leaf,
      Tree.uses_node_of_ne (show Raw.str "field" ≠ .str "casgn" by simp)] at hassigned ⊢
    omega

/-- The assignment of an operation's result to a constant. -/
def updateOf (mark : Mark) (scope : Tree) (name op : String) (value : Tree) : Tree :=
  (Tree.node (.str "casgn") {} [scope, .sym name, .bare "send"
    [.node (.str "const") mark [scope, .sym name], .sym op, value]]).withLine mark.line

/-- What the constant is in counts once, though it is in two places. -/
theorem uses_updateOf (k : Nat) (mark : Mark) (scope : Tree) (name op : String) (value : Tree) :
    uses k (updateOf mark scope name op value) =
      own k scope + inner k scope + 2 * own k (.node (.str "const") mark [scope, .sym name]) +
        uses k value := by
  -- The line is the mark's, whether there is one or not.
  have hmark : ∃ line, line = mark.line ∧ updateOf mark scope name op value =
      .node (.str "casgn") { line } [scope, .sym name, .bare "send"
        [.node (.str "const") mark [scope, .sym name], .sym op, value]] := by
    unfold updateOf
    cases hline : mark.line with
    | none => exact ⟨none, rfl, rfl⟩
    | some line => exact ⟨some line, rfl, rfl⟩
  obtain ⟨line, hline, heq⟩ := hmark
  have hown : own k (.node (.str "casgn") { line } [scope, .sym name, .bare "send"
      [.node (.str "const") mark [scope, .sym name], .sym op, value]]) = 0 := rfl
  rw [heq, Tree.uses, hown, Nat.mul_zero, Nat.zero_add]
  exact Tree.inner_update hline.symm

/-- A number that is given to a node counts there and nowhere below. -/
theorem spends_numberedScope (mark : Mark) (scope : Tree) (name op : String) (value : Tree) :
    Spends [.node (.str "const") mark [scope, .sym name], value] (numbered scope)
      fun scope' => [updateOf mark scope' name op value] := by
  have hheld (k : Nat) : usesAll k [.node (.str "const") mark [scope, .sym name], value] =
      2 * own k (.node (.str "const") mark [scope, .sym name]) + (2 * own k scope + inner k scope) +
        uses k value := by
    simp only [Tree.usesAll_cons, Tree.usesAll_nil, Tree.uses_leaf,
      Tree.uses_node_of_ne (show Raw.str "const" ≠ .str "casgn" by simp)]
    rw [show uses k scope = 2 * own k scope + inner k scope from rfl]
    omega
  -- A leaf and a node with a number are taken as they are.
  have hsame (k : Nat) : usesAll k [updateOf mark scope name op value] ≤
      usesAll k [.node (.str "const") mark [scope, .sym name], value] := by
    rw [hheld, Tree.usesAll_cons, Tree.usesAll_nil, uses_updateOf]
    omega
  unfold numbered
  split
  · exact spends_pure hsame
  · rename_i tag mark' children
    split
    · exact spends_pure hsame
    · rename_i hshared
      intro options s scope' s' hrun k
      have hcredit := runIn_freshNumber_credit (runIn_freshNumber options s) k
      cases hrun
      have hown : own k (.node tag { mark' with shared := some s.numbered } children) =
          if s.numbered = k then 1 else 0 := by
        simp only [own, Tree.number?, Option.some.injEq]
      have hinner : inner k (.node tag { mark' with shared := some s.numbered } children) =
          inner k (.node tag mark' children) := Tree.inner_remark rfl
      have hconst (scope : Tree) : own k (.node (.str "const") mark [scope, .sym name]) =
          own k (.node (.str "const") mark []) := rfl
      rw [hheld, Tree.usesAll_cons, Tree.usesAll_nil, uses_updateOf, hown, hinner, hconst, hconst]
      omega

/-- The target is read and assigned. Of what it consists of only the scope of a
    constant can have a number. -/
theorem spends_assignResult {t : Tree} (h : Variable t) (op : String) (value : Tree) :
    Spends [t, value] (do
      let target ← withSharedChildren t
      let result := Tree.bare "send" [target, .sym op, value]
      return (← assignTo target (some result)).withLine target.line?) fun u => [u] := by
  cases h with
  | @simple tag mark name htag =>
    -- A name has no number, so only the target in the operation counts.
    have hassign : Spends [.node (.str tag) mark [.sym name], value]
        (assignTo (.node (.str tag) mark [.sym name])
          (some (.bare "send" [.node (.str tag) mark [.sym name], .sym op, value])))
        fun u => [u.withLine mark.line] := by
      simp only [pinnable, List.mem_cons, List.not_mem_nil, or_false] at htag
      rcases htag with rfl | rfl | rfl | rfl
      all_goals
        refine Quiet.andThen (congruence_quiet.assignmentTag _) fun tag _ => ?_
        exact spends_assigned mark.line fun k => by simp
    exact hassign.bind fun u _ => spends_pure fun _ => Nat.le_refl _
  | @constant mark root name hroot =>
    simp only [withSharedChildren, childrenOf, Tree.children?, require, pure_bind, List.mapM_cons,
      List.mapM_nil, bind_assoc]
    exact (spends_numberedScope mark root name op value).bind fun scope _ =>
      spends_pure fun _ => Nat.le_refl _

/-- An operator assignment. -/
theorem fresh_lowerOperatorAssign (h₀ : Fresh (go (fs.get 0)))
    (htarget : ∀ t, Returns (go (fs.get 0)) t → Target t) (h₂ : Fresh (go (fs.get 2))) :
    Fresh (lowerOperatorAssign go fs) := by
  unfold lowerOperatorAssign
  refine h₀.andThen fun t ht => h₂.andThen fun v _ => ?_
  have ht := htarget t ht
  refine Quiet.andThen (congruence_quiet.require _) fun text _ => ?_
  refine Quiet.andThen (congruence_quiet.clippedName _) fun op _ => ?_
  refine (spends_accessTarget? ht).given [v] (fun k => ?_) fun access haccess => ?_
  · simp only [List.nil_append, List.cons_append, Tree.usesAll_cons, Tree.usesAll_nil]
    omega
  split
  · exact spends_bare fun k => by simp [Nat.add_comm]
  · exact spends_bare fun k => by simp [Nat.add_comm]
  · refine (spends_targetOf (.inl ht)).given [v] (fun k => Nat.le_refl _) fun u _ => ?_
    exact spends_bare fun k => by simp [Nat.add_comm]
  · -- A target that is not read before it is set is a variable.
    have hvariable := ((accessTarget?_yields ht).of_returns haccess).1 rfl
    exact (spends_assignResult hvariable op v).mono fun k => by simp [Nat.add_comm]

/-- Values that were read as arguments, and more of them. -/
theorem fresh_lowerValuesFromArgs {inner : Raw} {rest : List Raw} (h : Fresh (go inner))
    (hrest : ∀ r ∈ rest, Fresh (go r)) : Fresh (lowerValuesFromArgs go (inner :: rest)) :=
  (freshAll_argumentList h).andThen fun _ _ => (freshAll_mapM hrest).andThen fun _ _ =>
    spends_bare fun _ => Nat.le_refl _

/-- Values with a splat among them are an argument list under another tag. -/
theorem fresh_lowerValuesStar (h : Fresh (lowerArgsStar go fs))
    (hnode : ∀ t, Returns (lowerArgsStar go fs) t → t.hasTag "casgn" = false) :
    Fresh (lowerValuesStar go fs) := by
  refine h.andThen fun t ht => spends_pure fun k => ?_
  cases t with
  | leaf v => exact Nat.le_refl _
  | node tag mark children =>
    have htag : tag ≠ .str "casgn" := by
      rintro rfl
      cases hnode _ ht
    -- The new tag is not that of an assignment to a constant either.
    have hown : own k (.node (.str "mrhs") mark children) = own k (.node tag mark children) := rfl
    rw [Tree.withTag, Tree.usesAll_cons, Tree.uses_node_of_ne (by simp), hown,
      ← Tree.uses_node_of_ne htag]
    exact Nat.le_refl _

/-- The targets of a list. -/
theorem fresh_lowerTargets (h : ∀ r ∈ fs, Fresh (go r))
    (htarget : ∀ r ∈ fs, ∀ t, Returns (go r) t → Assignable t) : Fresh (lowerTargets go fs) := by
  refine (freshAll_mapM h).andThen fun ts hts => ?_
  have htargets : ∀ t ∈ ts, Spends [t] (targetOf t) fun u => [u] := by
    intro t ht
    obtain ⟨r, hr, hreturned⟩ := returns_mapM hts t ht
    exact spends_targetOf (htarget r hr t hreturned)
  exact (spends_mapM htargets).bind fun us _ => spends_bare fun _ => Nat.le_refl _

/-- A splat opens the list of targets before it. -/
theorem fresh_lowerTargetsStar (h₀ : Fresh (go (fs.get 0)))
    (hnode : ∀ t, Returns (go (fs.get 0)) t → t.hasTag "casgn" = false) (h₁ : Fresh (go (fs.get 1)))
    (htarget : ∀ t, Returns (go (fs.get 1)) t → t = .null ∨ Target t) :
    Fresh (lowerTargetsStar go fs) := by
  refine h₀.andThen fun targets htargets => h₁.andThen fun t ht => ?_
  have hadd := spends_addChildren (hnode targets htargets)
  split
  · exact (hadd [.bare "splat" []]).mono fun k => by simp
  · rename_i hpresent
    rcases htarget t ht with rfl | ht
    · exact absurd rfl hpresent
    · refine (spends_targetOf (.inl ht)).given [targets] (fun k => Nat.le_refl _)
        fun u _ => ?_
      exact (hadd [.bare "splat" [u]]).mono fun k => by simp

/-- Targets after a splat, one or a list of them. -/
theorem fresh_lowerTargetsPost (h₀ : Fresh (go (fs.get 0)))
    (hnode : ∀ t, Returns (go (fs.get 0)) t → t.hasTag "casgn" = false) (h₁ : Fresh (go (fs.get 1)))
    (htarget : ∀ t, Returns (go (fs.get 1)) t → Assignable t) :
    Fresh (lowerTargetsPost go fs) := by
  refine h₀.andThen fun targets htargets => h₁.andThen fun t ht => ?_
  have hadd := spends_addChildren (hnode targets htargets)
  split
  · rename_i mark children
    refine (hadd children).mono fun k => ?_
    have hchildren : usesAll k children ≤ uses k (.node (.str "mlhs") mark children) :=
      Tree.usesAll_children_le (by simp)
    simpa using hchildren
  · refine (spends_targetOf (htarget t ht)).given [targets] (fun k => Nat.le_refl _)
      fun u _ => hadd [u]

/-- An element that is assigned to. -/
theorem fresh_lowerIndexTarget (h₀ : Fresh (go (fs.get 0))) (h₁ : Fresh (go (fs.get 1))) :
    Fresh (lowerIndexTarget go fs) :=
  h₀.andThen fun _ _ => (freshAll_argumentList h₁).andThen fun _ _ =>
    spends_bare fun _ => Nat.le_refl _

theorem fresh_lowerAttributeTarget (h : Fresh (go (fs.get 0))) :
    Fresh (lowerAttributeTarget go fs) := by
  refine h.andThen fun receiver _ => Quiet.andThen (congruence_quiet.callTag _) fun kind _ => ?_
  exact Quiet.andThen (congruence_quiet.nameOf _) fun _ _ => spends_bare fun _ => by simp

end Assignment

end LowerM

end RubyTree
