import RubyTree.Tree.Walk

/-!
# The Order of a Walk

A walk lists the nodes of a tree in the order they are written: a node, then those of
its first child, and so on, where a node with a skipped tag stands for all that is in
it, unless it is the root. The walk itself goes by a stack and a number of steps; here
it is given by the tree alone.

The stack holds what is left to visit, the next tree first. So what the walk still has
to list is what the trees on the stack have, one after the other, and this stays so when
the children of a node take its place.

Proofs about trees go by `Tree.induct`, where the children are at hand as members of
a list, so that a fact about all trees is not to be proved a second time for lists of
trees.

## Main definitions

* `Tree.nodes`: The nodes of a tree, a node before its children.
* `Tree.openNodes`: The same without what is inside nodes with a skipped tag.
* `Tree.preorder`: The same where the root is open in any case.

## Theorems

* `Tree.induct`: Induction on a tree.
* `Tree.visit_eq`: What is listed from a stack.
* `Tree.walk_preorder`: A walk lists the open nodes in their order.
* `Tree.walk_nil`: A walk that skips nothing lists all nodes.
-/

namespace RubyTree

namespace Tree

mutual

/-- What holds of leaves, and of a node if it holds of its children, holds of all trees. -/
theorem induct {motive : Tree → Prop} (leaf : ∀ v, motive (leaf v))
    (node : ∀ tag mark children, (∀ c ∈ children, motive c) → motive (node tag mark children)) :
    (t : Tree) → motive t
  | .leaf v => leaf v
  | .node tag mark children => node tag mark children (inductAll leaf node children)

theorem inductAll {motive : Tree → Prop} (leaf : ∀ v, motive (.leaf v))
    (node : ∀ tag mark children, (∀ c ∈ children, motive c) → motive (.node tag mark children)) :
    (ts : List Tree) → ∀ t ∈ ts, motive t
  | [] => nofun
  | t :: ts => List.forall_mem_cons.2 ⟨induct leaf node t, inductAll leaf node ts⟩

end

theorem size_pos (t : Tree) : 0 < t.size := by
  cases t with
  | leaf v => exact Nat.zero_lt_one
  | node tag mark children => exact Nat.succ_pos _

theorem sizeAll_append (ts us : List Tree) : sizeAll (ts ++ us) = sizeAll ts + sizeAll us := by
  induction ts with
  | nil => simp [sizeAll]
  | cons t ts ih => simp [sizeAll, ih, Nat.add_assoc]

theorem size_lt_of_mem {tag : Raw} {mark : Mark} {children : List Tree} {c : Tree}
    (h : c ∈ children) : c.size < (node tag mark children).size := by
  obtain ⟨before, after, rfl⟩ := List.append_of_mem h
  rw [size, sizeAll_append, sizeAll]
  omega

mutual

/-- The nodes of a tree, a node before its children. -/
def nodes : Tree → List Tree
  | leaf _ => []
  | node tag mark children => node tag mark children :: nodesAll children

/-- The nodes of the trees, those of the first one first. -/
def nodesAll : List Tree → List Tree
  | [] => []
  | t :: ts => t.nodes ++ nodesAll ts

end

mutual

/-- The nodes of a tree, a node before its children, which are left out if its tag is
    to be skipped. -/
def openNodes (skip : List String) : Tree → List Tree
  | leaf _ => []
  | node tag mark children =>
    node tag mark children ::
      if tag.text?.any skip.contains then [] else openNodesAll skip children

/-- The nodes of the trees, those of the first one first. -/
def openNodesAll (skip : List String) : List Tree → List Tree
  | [] => []
  | t :: ts => t.openNodes skip ++ openNodesAll skip ts

end

/-- The nodes of a tree in which the root's tag does not matter. -/
def preorder (skip : List String) : Tree → List Tree
  | leaf _ => []
  | node tag mark children => node tag mark children :: openNodesAll skip children

section Skipping

variable {skip : List String}

theorem openNodesAll_append (ts us : List Tree) :
    openNodesAll skip (ts ++ us) = openNodesAll skip ts ++ openNodesAll skip us := by
  induction ts with
  | nil => rfl
  | cons t ts ih => rw [List.cons_append, openNodesAll, openNodesAll, ih, List.append_assoc]

theorem mem_openNodesAll {u : Tree} {ts : List Tree} :
    u ∈ openNodesAll skip ts ↔ ∃ t ∈ ts, u ∈ t.openNodes skip := by
  induction ts with
  | nil => simp [openNodesAll]
  | cons t ts ih => simp [openNodesAll, ih]

/-- With steps enough, all open nodes on the stack are visited in their order. -/
theorem visit_eq {steps : Nat} {stack : List Tree} (hsteps : sizeAll stack ≤ steps) :
    visit skip steps stack = openNodesAll skip stack := by
  induction steps generalizing stack with
  | zero =>
    cases stack with
    | nil => rfl
    | cons t ts =>
      have hpos := t.size_pos
      rw [sizeAll] at hsteps
      omega
  | succ steps ih =>
    cases stack with
    | nil => rfl
    | cons t stack =>
      cases t with
      | leaf v =>
        rw [sizeAll, size] at hsteps
        rw [visit, ih (by omega), openNodesAll, openNodes, List.nil_append]
      | node tag mark children =>
        rw [sizeAll, size] at hsteps
        rw [visit, openNodesAll, openNodes, List.cons_append]
        -- A node is replaced by its children, unless it is skipped.
        by_cases hskip : tag.text?.any skip.contains = true
        · rw [if_pos hskip, if_pos hskip, ih (by omega), List.nil_append]
        · rw [if_neg hskip, if_neg hskip, ih (by rw [sizeAll_append]; omega),
            openNodesAll_append]

theorem walk_eq_preorder (t : Tree) : t.walk skip = t.preorder skip := by
  cases t with
  | leaf v => rfl
  | node tag mark children => rw [walk, preorder, visit_eq (Nat.le_refl _)]

end Skipping

mutual

/-- Nothing is left out if nothing is to be skipped. -/
theorem openNodes_nil : (t : Tree) → t.openNodes [] = t.nodes
  | leaf v => rfl
  | node tag mark children => by
    have hopen : tag.text?.any ([] : List String).contains = false := by
      cases tag.text? <;> rfl
    rw [openNodes, nodes, hopen, if_neg Bool.false_ne_true, openNodesAll_nil children]

theorem openNodesAll_nil : (ts : List Tree) → openNodesAll [] ts = nodesAll ts
  | [] => rfl
  | t :: ts => by rw [openNodesAll, nodesAll, openNodes_nil t, openNodesAll_nil ts]

end

/-- A walk that skips nothing lists the nodes in their order. -/
theorem walk_nil (t : Tree) : t.walk [] = t.nodes := by
  rw [walk_eq_preorder]
  cases t with
  | leaf v => rfl
  | node tag mark children => rw [preorder, openNodesAll_nil, nodes]

/-- A walk lists the open nodes of a tree in their order, whatever the tag of the root,
    as long as the tags below the root can be looked up. -/
theorem walk_preorder (skip : List String) (t : Tree) :
    t.walk skip = t.preorder skip ∧
      t.walk? skip =
        if (t.preorder skip).tail.all (fun u => u.tag?.all Raw.isKey) then some (t.preorder skip)
        else none := by
  refine ⟨walk_eq_preorder t, ?_⟩
  unfold walk?
  rw [walk_eq_preorder]

/-- The block at the root is entered, and the one inside it is not. -/
example : (bare "block" [bare "block" [bare "int" [int 1]], sym "a", bare "nil" []]).walk
      ["block"] =
    [bare "block" [bare "block" [bare "int" [int 1]], sym "a", bare "nil" []],
      bare "block" [bare "int" [int 1]], bare "nil" []] :=
  rfl

end Tree

end RubyTree
