import Mathlib.Algebra.GroupWithZero.Nat
import RubyTree.Lower.Sequence
import RubyTree.Proofs.Tree.Unlined
import RubyTree.Proofs.Tree.Walk

/-!
# Ledgers of a Tree

Two things are said of all nodes of a tree: a class variable is assigned in a
method and declared outside of one, and comments are on the constructs that carry
them. Both are counts over the whole tree, so they are kept in ledgers of one kind.

One ledger lists what is out of order and should be empty. The others list the
constructs of one sort with one comment, and should come out as the program has it.
What such a ledger lists depends on the place of a node as well: the parameters
and the statements of a method are in it, the body of a class or module is not, and
every other child is where its parent is.

## Main definitions

* `Tree.childScope`: Whether a child is in a method.
* `Tree.Stands`: A tree in another one, and whether its place is in a method.
* `Tree.documents`: The tags and comments of all nodes that have comments.
* `Ledger`: What is counted.
* `Ledger.weigh`, `Ledger.total`: What a tree and several trees are counted for.
* `Ledger.Settles`: Nothing gets out of order, and no comment is lost or added.

## Theorems

* `Ledger.weigh_plain`: Most nodes count for their children.
* `Ledger.settles_children`, `Ledger.weigh_withChildren`: A node taken apart.
* `Ledger.weigh_fillShared`: Lines make no difference.
* `Tree.Stands.in_order`: Nothing is out of order if that ledger is empty.
* `Tree.count_documents`: Then the other ledgers list all comments.
-/

namespace RubyTree

open LowerM (documentable)

namespace Tree

/-- Whether a child is in a method, given the tag of its parent and whether that is
    in one. -/
def childScope (tag : Raw) (i : Nat) (inMethod : Bool) : Bool :=
  match tag with
  | .str "def" => inMethod || i != 0
  | .str "defs" => inMethod || 1 < i
  | .str "class" => inMethod && i != 2
  | .str "module" => inMethod && i != 1
  | .str "sclass" => inMethod && i != 1
  | _ => inMethod

/-- A tree that stands in another one, at a place that is in a method or not. -/
inductive Stands : Bool → Tree → Bool → Tree → Prop where
  | here {inMethod : Bool} {t : Tree} : Stands inMethod t inMethod t
  | inside {inMethod flag : Bool} {tag : Raw} {mark : Mark} {children : List Tree} {i : Nat}
      {c u : Tree} (hc : children[i]? = some c)
      (h : Stands (childScope tag i inMethod) c flag u) :
      Stands inMethod (.node tag mark children) flag u

mutual

/-- The tags and comments of all nodes that have comments. -/
def documents : Tree → List (Raw × Raw)
  | leaf _ => []
  | node tag mark children => (mark.comments.map (tag, ·)).toList ++ documentsAll children

/-- The tags and comments in each tree. -/
def documentsAll : List Tree → List (Raw × Raw)
  | [] => []
  | t :: ts => t.documents ++ documentsAll ts

end

/-- Whether a node with this tag carries the comments before it. -/
def isDocumentable (tag : Raw) : Bool :=
  match tag with
  | .str name => documentable.contains name
  | _ => false

/-- Whether this is the tag of a class variable that is out of place. -/
def isMisplaced (inMethod : Bool) (tag : Raw) : Bool :=
  match tag with
  | .str "cvasgn" => !inMethod
  | .str "cvdecl" => inMethod
  | _ => false

/-- The tags of nodes that are more than their children: empty statements, class
    variables, and constructs that carry comments. -/
@[simp] def notableTags : List String :=
  ["void_stmt", "cvasgn", "cvdecl", "class", "module", "sclass", "def", "defs", "preexe", "postexe"]

/-- Whether this is the tag of another node. -/
@[simp] def isPlain (tag : Raw) : Bool :=
  match tag with
  | .str name => !notableTags.contains name
  | _ => true

theorem eq_of_hasTag {t : Tree} {name : String} (h : t.hasTag name) :
    ∃ mark children, t = node (.str name) mark children := by
  unfold hasTag at h
  split at h
  · rename_i tag mark children
    rw [eq_of_beq h]
    exact ⟨mark, children, rfl⟩
  · cases h

/-- Whether a tree is a leaf or such a node. -/
def plain : Tree → Bool
  | leaf _ => true
  | node tag _ _ => isPlain tag

end Tree

open RubyTree.Tree (childScope isDocumentable isMisplaced isPlain)

/-- What is counted in a tree. -/
inductive Ledger where
  /-- Class variables out of place, comments on a node that carries none, and empty
      statements that have parts. -/
  | disorder
  /-- Constructs with this tag and this comment. -/
  | comment (tag text : Raw)

namespace Ledger

open scoped Classical in
/-- What a node counts for without its children. -/
noncomputable def own (L : Ledger) (inMethod : Bool) (tag : Raw) (comments : Option Raw) : Nat :=
  match L, comments with
  | disorder, none => if isMisplaced inMethod tag then 1 else 0
  | disorder, some _ => if isMisplaced inMethod tag || !isDocumentable tag then 1 else 0
  | comment _ _, none => 0
  | comment name text, some text' =>
    if isDocumentable tag ∧ tag = name ∧ text' = text then 1 else 0

/-- What the parts of an empty statement count for. It has none. -/
def remains (L : Ledger) (children : List Tree) : Nat :=
  match L, children with
  | disorder, _ :: _ => 1
  | _, _ => 0

mutual

/-- What a tree counts for at a place that is in a method or not. -/
noncomputable def weigh (L : Ledger) (inMethod : Bool) : Tree → Nat
  | .leaf _ => 0
  | .node tag mark children =>
    L.own inMethod tag mark.comments + match tag with
      | .str "void_stmt" => L.remains children
      | tag => weighFrom L inMethod tag 0 children

/-- What the children of a node count for, from one on. -/
noncomputable def weighFrom (L : Ledger) (inMethod : Bool) (tag : Raw) (i : Nat) :
    List Tree → Nat
  | [] => 0
  | c :: cs => weigh L (childScope tag i inMethod) c + weighFrom L inMethod tag (i + 1) cs

end

/-- What several trees count for that are in the same place. -/
noncomputable def total (L : Ledger) (inMethod : Bool) : List Tree → Nat
  | [] => 0
  | t :: ts => L.weigh inMethod t + L.total inMethod ts

/-- What is in order stays in order, and the comments are the same. -/
def Settles (L : Ledger) (before after : Nat) : Prop :=
  match L with
  | disorder => before = 0 → after = 0
  | comment _ _ => after = before

section Settling

variable {L : Ledger} {a b c a' b' : Nat}

theorem settles_of_eq (h : b = a) : L.Settles a b := by
  subst h
  cases L with
  | disorder => exact id
  | comment tag text => rfl

/-- Settling in two steps. -/
theorem Settles.trans (h : L.Settles a b) (h' : L.Settles b c) : L.Settles a c := by
  cases L with
  | disorder => exact fun ha => h' (h ha)
  | comment tag text => exact Eq.trans h' h

/-- Two accounts settled side by side. -/
theorem Settles.add (h : L.Settles a b) (h' : L.Settles a' b') : L.Settles (a + a') (b + b') := by
  cases L with
  | disorder =>
    intro hsum
    obtain ⟨ha, ha'⟩ := Nat.add_eq_zero_iff.1 hsum
    rw [h ha, h' ha']
  | comment tag text => exact congrArg₂ (· + ·) h h'

theorem Settles.add_left (h : L.Settles a b) (c : Nat) : L.Settles (c + a) (c + b) :=
  (settles_of_eq rfl).add h

theorem Settles.eq_zero (h : L.Settles 0 a) : a = 0 := by
  cases L with
  | disorder => exact h rfl
  | comment tag text => exact h

end Settling

section Weights

variable {L : Ledger} {m : Bool} {tag : Raw} {mark : Mark} {t : Tree} {ts us children : List Tree}

/-- A leaf has nothing to count. -/
@[simp] theorem weigh_leaf (v : Raw) : L.weigh m (.leaf v) = 0 := by
  rw [weigh]

@[simp] theorem total_nil : L.total m [] = 0 := rfl

@[simp] theorem total_cons : L.total m (t :: ts) = L.weigh m t + L.total m ts := rfl

/-- The total is the sum over the trees. -/
theorem total_eq_sum : L.total m ts = (ts.map (L.weigh m)).sum := by
  induction ts with
  | nil => rfl
  | cons t ts ih => rw [total_cons, ih, List.map_cons, List.sum_cons]

@[simp] theorem total_append : L.total m (ts ++ us) = L.total m ts + L.total m us := by
  induction ts with
  | nil => simp
  | cons t ts ih =>
    rw [List.cons_append, total_cons, total_cons, ih]
    omega

/-- The total of lists put together is the sum of their totals. -/
theorem total_flatten (tss : List (List Tree)) :
    L.total m tss.flatten = (tss.map (L.total m)).sum := by
  induction tss with
  | nil => rfl
  | cons ts tss ih => rw [List.flatten_cons, total_append, ih, List.map_cons, List.sum_cons]

theorem total_symbols (names : List String) : L.total m (names.map Tree.sym) = 0 := by
  induction names with
  | nil => rfl
  | cons name names ih => rw [List.map_cons, total_cons, weigh_leaf, ih]

theorem isMisplaced_of_plain (h : isPlain tag) : isMisplaced m tag = false := by
  unfold isMisplaced
  split
  · exact absurd h (by decide)
  · exact absurd h (by decide)
  · rfl

theorem isDocumentable_of_plain (h : isPlain tag) : isDocumentable tag = false := by
  unfold isDocumentable
  split
  · rename_i name
    refine Bool.eq_false_iff.2 fun hmem => ?_
    have hnotable : name ∈ Tree.notableTags :=
      List.mem_append_right ["void_stmt", "cvasgn", "cvdecl"] (List.contains_iff_mem.1 hmem)
    simp only [isPlain, List.contains_iff_mem.2 hnotable] at h
    cases h
  · rfl

/-- A plain node is no scope. -/
theorem childScope_of_plain (h : isPlain tag) (i : Nat) : childScope tag i m = m := by
  unfold childScope
  split
  all_goals first
    | exact absurd h (by decide)
    | rfl

/-- Nothing is out of order about a node without comments, but for the place of a
    class variable. -/
theorem own_none (h : isMisplaced m tag = false) : L.own m tag none = 0 := by
  cases L with
  | disorder => simp [own, h]
  | comment name text => rfl

/-- The tag of a plain node does not count. -/
theorem own_of_plain (h : isPlain tag) (comments : Option Raw) :
    L.own m tag comments = L.own m .null comments := by
  have hplace : isMisplaced m tag = isMisplaced m .null := isMisplaced_of_plain h
  have hnone : isDocumentable tag = isDocumentable .null := isDocumentable_of_plain h
  unfold own
  rw [hplace, hnone]
  cases L with
  | disorder => rfl
  | comment name text => cases comments <;> simp [isDocumentable]

/-- The places of children do not matter in a plain node. -/
theorem weighFrom_of_plain (h : isPlain tag) (i : Nat) :
    L.weighFrom m tag i children = L.total m children := by
  induction children generalizing i with
  | nil => rw [weighFrom, total_nil]
  | cons c cs ih => rw [weighFrom, childScope_of_plain h, ih, total_cons]

/-- What is void has its own comments, and what it still holds. -/
theorem weigh_voidNode : L.weigh m (.node (.str "void_stmt") mark children) =
    L.own m (.str "void_stmt") mark.comments + L.remains children := by
  rw [weigh]

theorem weigh_of_ne (h : tag ≠ .str "void_stmt") :
    L.weigh m (.node tag mark children) =
      L.own m tag mark.comments + L.weighFrom m tag 0 children := by
  rw [weigh]
  exact fun hvoid => h hvoid

/-- Most nodes count for their children. -/
theorem weigh_plain (h : isPlain tag) :
    L.weigh m (.node tag mark children) = L.own m tag mark.comments + L.total m children := by
  have hvoid : tag ≠ .str "void_stmt" := by
    rintro rfl
    exact absurd h (by decide)
  rw [weigh_of_ne hvoid, weighFrom_of_plain h]

/-- A plain node without comments counts what its children count. -/
theorem weigh_unmarked (h : isPlain tag) (hmark : mark.comments = none) :
    L.weigh m (.node tag mark children) = L.total m children := by
  rw [weigh_plain h, hmark, own_none (isMisplaced_of_plain h), Nat.zero_add]

@[simp] theorem weigh_bare {name : String} (h : isPlain (.str name)) :
    L.weigh m (.bare name children) = L.total m children :=
  weigh_unmarked h rfl

@[simp] theorem weigh_placed {name : String} {line : Option Raw} (h : isPlain (.str name)) :
    L.weigh m (.placed line name children) = L.total m children :=
  weigh_unmarked h rfl

/-- The tag of a node makes no difference, but for some. -/
theorem weigh_retagged {tag' : Raw} (h : isPlain tag) (h' : isPlain tag') :
    L.weigh m (.node tag' mark children) = L.weigh m (.node tag mark children) := by
  rw [weigh_plain h, weigh_plain h', own_of_plain h, own_of_plain h']

/-- A class variable that is in place. -/
theorem weigh_classVariable (htag : tag = .str (if m then "cvasgn" else "cvdecl"))
    (hmark : mark.comments = none) :
    L.weigh m (.node tag mark children) = L.total m children := by
  -- The variable opens no scope, so what is below it is weighed as it stands.
  have hscope : ∀ i, childScope tag i m = m := by
    intro i
    subst htag
    cases m <;> rfl
  have hfrom : ∀ i, L.weighFrom m tag i children = L.total m children := by
    induction children with
    | nil => exact fun i => by rw [weighFrom, total_nil]
    | cons c cs ih => exact fun i => by rw [weighFrom, hscope, ih, total_cons]
  have hplace : isMisplaced m tag = false := by
    subst htag
    cases m <;> rfl
  have hvoid : tag ≠ .str "void_stmt" := by
    subst htag
    cases m <;> simp
  rw [weigh_of_ne hvoid, hmark, own_none hplace, hfrom, Nat.zero_add]

/-- A construct that may have comments is no class variable. -/
theorem isMisplaced_of_documentable (h : isDocumentable tag) : isMisplaced m tag = false := by
  unfold isMisplaced
  split
  · exact absurd h (by decide)
  · exact absurd h (by decide)
  · rfl

/-- A construct that may have comments counts for its children. -/
theorem weigh_construct {name : String} {line : Option Raw} (h : isDocumentable (.str name)) :
    L.weigh m (.placed line name children) = L.weighFrom m (.str name) 0 children := by
  have hvoid : Raw.str name ≠ .str "void_stmt" := by
    rintro heq
    cases heq
    exact absurd h (by decide)
  rw [Tree.placed, weigh_of_ne hvoid, own_none (isMisplaced_of_documentable h), Nat.zero_add]

/-- The children of a node from one on that are all in the same place. -/
theorem weighFrom_of_scope {flag : Bool} {i : Nat} (h : ∀ k, childScope tag (i + k) m = flag) :
    L.weighFrom m tag i children = L.total flag children := by
  induction children generalizing i with
  | nil => rw [weighFrom, total_nil]
  | cons c cs ih =>
    have hnext : ∀ k, childScope tag (i + 1 + k) m = flag := fun k => by
      rw [Nat.add_assoc]
      exact h (1 + k)
    have hhere : childScope tag i m = flag := h 0
    rw [weighFrom, ih hnext, hhere, total_cons]

/-- Code to run at the start or the end is where it is written. -/
theorem weigh_hook {name : String} {line : Option Raw} (h : name ∈ ["preexe", "postexe"]) :
    L.weigh m (.placed line name children) = L.total m children := by
  simp only [List.mem_cons, List.not_mem_nil, or_false] at h
  rcases h with rfl | rfl
  · exact (weigh_construct (by decide)).trans (weighFrom_of_scope fun _ => rfl)
  · exact (weigh_construct (by decide)).trans (weighFrom_of_scope fun _ => rfl)

/-- The parameters and statements of a method are in it. -/
theorem weigh_method {line : Option Raw} {name : Tree} {parts : List Tree} :
    L.weigh m (.placed line "def" (name :: parts)) = L.weigh m name + L.total true parts := by
  have hinside : ∀ k, childScope (.str "def") (0 + 1 + k) m = true := fun k => by
    simp [childScope]
  rw [weigh_construct (by decide), weighFrom, weighFrom_of_scope hinside]
  simp [childScope]

/-- The receiver of a singleton method is outside of it. -/
theorem weigh_singletonMethod {line : Option Raw} {receiver name : Tree} {parts : List Tree} :
    L.weigh m (.placed line "defs" (receiver :: name :: parts)) =
      L.weigh m receiver + (L.weigh m name + L.total true parts) := by
  have hinside : ∀ k, childScope (.str "defs") (0 + 1 + 1 + k) m = true := fun k => by
    simp only [childScope, Bool.or_eq_true, decide_eq_true_eq]
    exact .inr (by omega)
  rw [weigh_construct (by decide), weighFrom, weighFrom, weighFrom_of_scope hinside]
  simp [childScope]

/-- The body of a class is in no method, but its superclass may be. -/
theorem weigh_class {line : Option Raw} {const parent body : Tree} :
    L.weigh m (.placed line "class" [const, parent, body]) =
      L.weigh m const + (L.weigh m parent + L.weigh false body) := by
  rw [weigh_construct (by decide)]
  simp [weighFrom, childScope]

/-- The body of a module or singleton class is in no method. -/
theorem weigh_namespace {name : String} {line : Option Raw} {target body : Tree}
    (h : name ∈ ["module", "sclass"]) :
    L.weigh m (.placed line name [target, body]) = L.weigh m target + L.weigh false body := by
  simp only [List.mem_cons, List.not_mem_nil, or_false] at h
  rcases h with rfl | rfl
  all_goals
    rw [weigh_construct (by decide)]
    simp [weighFrom, childScope]

/-- The empty statement. -/
theorem weigh_void (line : Option Raw) : L.weigh m (.placed line "void_stmt" []) = 0 := by
  have hempty : L.remains [] = 0 := by cases L <;> rfl
  unfold Tree.placed
  rw [weigh_voidNode, own_none rfl, hempty]

/-- The line and the number of a node are in no ledger. -/
theorem weigh_remark {mark' : Mark} (h : mark'.comments = mark.comments) :
    L.weigh m (.node tag mark' children) = L.weigh m (.node tag mark children) := by
  by_cases htag : tag = .str "void_stmt"
  · subst htag
    rw [weigh_voidNode, weigh_voidNode, h]
  · rw [weigh_of_ne htag, weigh_of_ne htag, h]

/-- Lines do not count. -/
@[simp] theorem weigh_withLine (line : Option Raw) : L.weigh m (t.withLine line) = L.weigh m t := by
  cases line with
  | none => rfl
  | some line =>
    cases t with
    | leaf v => rfl
    | node tag mark children => exact weigh_remark rfl

/-- Comments on a node that carries none are out of order, and in no other ledger. -/
theorem settles_own (h : isDocumentable tag = false) (comments : Option Raw) :
    L.Settles (L.own m tag comments) 0 := by
  cases L with
  | disorder => exact fun _ => rfl
  | comment name text =>
    cases comments with
    | none => rfl
    | some text' => simp [own, Settles, h]

/-- What is left of a node when it is taken apart. -/
theorem settles_children (h : isPlain tag) :
    L.Settles (L.weigh m (.node tag mark children)) (L.total m children) := by
  rw [weigh_plain h, Nat.add_comm]
  exact (settles_own (isDocumentable_of_plain h) _).add_left _

/-- A plain node may be taken apart into its children. -/
theorem settles_of_children? (ht : t.plain) (h : t.children? = some children) :
    L.Settles (L.weigh m t) (L.total m children) := by
  cases t with
  | leaf v => cases h
  | node tag mark cs =>
    cases h
    exact settles_children ht

/-- A node with other children. -/
theorem weigh_withChildren (ht : t.plain) (h : t.children? = some children) (more : List Tree) :
    L.weigh m (t.withChildren more) + L.total m children = L.weigh m t + L.total m more := by
  cases t with
  | leaf v => cases h
  | node tag mark cs =>
    cases h
    have hplain : isPlain tag := ht
    rw [Tree.withChildren, weigh_plain hplain, weigh_plain hplain]
    omega

/-- What is void is told by its tag. -/
theorem isVoid_node (h : (Tree.node tag mark children).isVoid) : tag = .str "void_stmt" := by
  unfold Tree.isVoid Tree.isNull Tree.hasTag at h
  simp only [Bool.false_or] at h
  split at h
  · rename_i heq
    cases heq
    rw [eq_of_beq h]
  · cases h

/-- Nothing is lost with an empty statement. -/
theorem settles_of_isVoid (h : t.isVoid) : L.Settles (L.weigh m t) 0 := by
  cases t with
  | leaf v => exact settles_of_eq (weigh_leaf v).symm
  | node tag mark children =>
    rw [isVoid_node h, weigh_voidNode]
    cases L with
    | disorder => exact fun _ => rfl
    | comment name text => exact settles_own rfl mark.comments

/-- No comment is lost with what is dropped. -/
theorem settles_dropVoid : L.Settles (L.weigh m t) (L.weigh m t.dropVoid) := by
  unfold Tree.dropVoid
  split
  · rename_i hvoid
    rw [weigh_leaf]
    exact settles_of_isVoid hvoid
  · exact settles_of_eq rfl

/-- No comment is lost with statements that are left out. -/
theorem settles_rejectVoid : L.Settles (L.total m ts) (L.total m (Tree.rejectVoid ts)) := by
  unfold Tree.rejectVoid
  induction ts with
  | nil => exact settles_of_eq rfl
  | cons t ts ih =>
    rw [List.filter_cons, total_cons]
    split
    · exact ih.add_left _
    · rename_i hvoid
      have ht := (settles_of_isVoid (L := L) (m := m) (t := t) (by simpa using hvoid)).add ih
      rwa [Nat.zero_add] at ht

/-- Statements together count what they count apart. -/
theorem weigh_ofStatements : L.weigh m (Tree.ofStatements ts) = L.total m ts := by
  rcases ts with _ | ⟨t, _ | ⟨u, us⟩⟩
  · exact weigh_leaf _
  · exact (Nat.add_zero _).symm
  · exact weigh_bare rfl

theorem settles_begin : L.Settles (L.weigh m (.node (.str "begin") mark children))
    (L.total m children) :=
  settles_children rfl

/-- No comment is lost with a layer that is taken off. -/
theorem settles_unwrapBegin : L.Settles (L.weigh m t) (L.weigh m t.unwrapBegin) := by
  unfold Tree.unwrapBegin
  split
  · exact settles_begin.trans (settles_of_eq (Nat.add_zero _).symm)
  · exact settles_of_eq rfl

end Weights

section Lines

variable (L : Ledger)

mutual

/-- Lines are in no ledger. -/
theorem weigh_unlined (m : Bool) : (t : Tree) → L.weigh m t.unlined = L.weigh m t
  | .leaf v => rfl
  | .node tag mark children => by
    have hfrom := weighFrom_unlinedAll m tag 0 children
    have hremains : L.remains (Tree.unlinedAll children) = L.remains children := by
      cases children with
      | nil => rfl
      | cons c cs => cases L <;> rfl
    rw [Tree.unlined]
    by_cases htag : tag = .str "void_stmt"
    · subst htag
      rw [weigh_voidNode, weigh_voidNode, hremains]
    · rw [weigh_of_ne htag, weigh_of_ne htag, hfrom]

theorem weighFrom_unlinedAll (m : Bool) (tag : Raw) (i : Nat) :
    (ts : List Tree) → L.weighFrom m tag i (Tree.unlinedAll ts) = L.weighFrom m tag i ts
  | [] => rfl
  | t :: ts => by
    rw [Tree.unlinedAll, weighFrom, weighFrom, weigh_unlined _ t, weighFrom_unlinedAll m tag _ ts]

end

/-- Filling in lines changes no count. -/
theorem weigh_fillShared (m : Bool) (t : Tree) : L.weigh m t.fillShared = L.weigh m t := by
  rw [← weigh_unlined, Tree.unlined_fillShared, weigh_unlined]

end Lines

end Ledger

namespace Tree

open Ledger (weigh weighFrom)

section Order

variable {m flag : Bool} {tag : Raw} {mark : Mark} {children : List Tree}

/-- If nothing is out of order in a node, nothing is in its children. -/
theorem order_of_child {c : Tree} {i : Nat} (hc : children[i]? = some c)
    (hzero : weigh .disorder m (.node tag mark children) = 0) :
    weigh .disorder (childScope tag i m) c = 0 := by
  by_cases htag : tag = .str "void_stmt"
  · -- An empty statement that is in order has no parts.
    subst htag
    rw [Ledger.weigh_voidNode] at hzero
    have hremains := (Nat.add_eq_zero_iff.1 hzero).2
    cases children with
    | nil => cases hc
    | cons d ds => cases hremains
  · rw [Ledger.weigh_of_ne htag] at hzero
    -- The places of the children are counted from the first on.
    have hfrom : ∀ k, weighFrom .disorder m tag k children = 0 →
        weigh .disorder (childScope tag (k + i) m) c = 0 := by
      clear hzero
      induction children generalizing i with
      | nil => cases hc
      | cons d ds ih =>
        intro k hsum
        rw [weighFrom] at hsum
        cases i with
        | zero =>
          cases hc
          exact (Nat.add_eq_zero_iff.1 hsum).1
        | succ i =>
          have hnext := ih hc (k + 1) (Nat.add_eq_zero_iff.1 hsum).2
          rwa [Nat.add_right_comm] at hnext
    have hchild := hfrom 0 (Nat.add_eq_zero_iff.1 hzero).2
    rwa [Nat.zero_add] at hchild

/-- What stands in a tree that is in order is in order. -/
theorem Stands.in_order {t u : Tree} (h : Stands m t flag u) (hzero : weigh .disorder m t = 0) :
    weigh .disorder flag u = 0 := by
  induction h with
  | here => exact hzero
  | inside hc _ ih => exact ih (order_of_child hc hzero)

/-- A tree in order has nothing misplaced at its root. -/
theorem own_eq_zero (hzero : weigh .disorder m (.node tag mark children) = 0) :
    Ledger.disorder.own m tag mark.comments = 0 := by
  unfold weigh at hzero
  exact (Nat.add_eq_zero_iff.1 hzero).1

/-- A class variable that is in order is where it should be. -/
theorem isMisplaced_of_order (hzero : weigh .disorder m (.node tag mark children) = 0) :
    isMisplaced m tag = false := by
  have hown := own_eq_zero hzero
  unfold Ledger.own at hown
  cases hplace : isMisplaced m tag with
  | false => rfl
  | true => cases hmark : mark.comments <;> simp [hplace, hmark] at hown

open scoped Classical in
/-- A node that is in order is in one of the other ledgers, if it has comments. -/
theorem count_own (entry : Raw × Raw)
    (hzero : weigh .disorder m (.node tag mark children) = 0) :
    ((mark.comments.map (tag, ·)).toList).count entry =
      (Ledger.comment entry.1 entry.2).own m tag mark.comments := by
  have hown := own_eq_zero hzero
  obtain ⟨name, text⟩ := entry
  unfold Ledger.own at hown ⊢
  cases hmark : mark.comments with
  | none => rfl
  -- On a node that may not have any, the comment itself would be out of order.
  | some text' =>
    have hcarries : isDocumentable tag = true := by
      cases htag : isDocumentable tag with
      | true => rfl
      | false => simp [hmark, htag] at hown
    simp [List.count_singleton, hcarries]

open scoped Classical in
mutual

/-- If nothing is out of order, the other ledgers list all comments. -/
theorem count_documents (entry : Raw × Raw) (m : Bool) : (t : Tree) →
    weigh .disorder m t = 0 → t.documents.count entry = weigh (.comment entry.1 entry.2) m t
  | leaf v, _ => by rw [documents, List.count_nil, Ledger.weigh_leaf]
  | node tag mark children, hzero => by
    rw [documents, List.count_append, count_own entry hzero]
    by_cases htag : tag = .str "void_stmt"
    · subst htag
      rw [Ledger.weigh_voidNode] at hzero ⊢
      -- An empty statement that is in order has nothing below it.
      have hremains := (Nat.add_eq_zero_iff.1 hzero).2
      cases children with
      | nil => rfl
      | cons c cs => cases hremains
    · rw [Ledger.weigh_of_ne htag] at hzero ⊢
      rw [count_documentsAll entry m tag 0 children (Nat.add_eq_zero_iff.1 hzero).2]

theorem count_documentsAll (entry : Raw × Raw) (m : Bool) (tag : Raw) (i : Nat) :
    (ts : List Tree) → weighFrom .disorder m tag i ts = 0 →
      (documentsAll ts).count entry = weighFrom (.comment entry.1 entry.2) m tag i ts
  | [], _ => by rw [documentsAll, List.count_nil, weighFrom]
  | t :: ts, hzero => by
    rw [weighFrom] at hzero ⊢
    obtain ⟨ht, hts⟩ := Nat.add_eq_zero_iff.1 hzero
    rw [documentsAll, List.count_append, count_documents entry _ t ht,
      count_documentsAll entry m tag _ ts hts]

end

end Order

end Tree

end RubyTree
