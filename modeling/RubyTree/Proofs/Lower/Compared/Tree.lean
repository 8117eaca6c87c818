import Mathlib.Data.List.Forall2
import RubyTree.Lower.Process
import RubyTree.Proofs.Lower.Compared.Place

/-!
# Trees of Two Runs

Three questions about lowering compare two runs of it: what a program looks like
when it is moved to other lines, when the parameters of its blocks are not
numbered, and when shared nodes start with another number. In each of them the
two runs build trees that are different in a few known places, and the answer is
the same: nothing else comes to depend on the difference.

Here is what the two trees have in common. Nodes agree if their tags are the same
and their lines, comments, numbers and children agree; the one exception is a
numbered block, which agrees with a block that has no parameters. All that a
production finds out about a lowered tree can be read off one tree as well as off
the other. Some of it takes care: a tree that is read as a name must not be a
number, and a node whose children are read by their places has to have been built as such
a node, which is what `Change.Kept` is for.

## Main definitions

* `Change`: What makes two runs different.
* `Change.first`, `Change.second`: The two raw trees.
* `Change.Lines`, `Change.Leaves`, `Change.Numbers`: Values that stand for each other.
* `Change.Agree`: Trees that stand for each other.
* `Tree.IsName`: A tree that can be read as a name.
* `Change.Legible`: A tree that reads as the same name in both.

## Theorems

* `Agree.hasTag`, `Agree.text?`, `Agree.line?`: What trees that agree have in common.
* `Agree.node_of_tag`: A node agrees with a node of the same tag.
* `Agree.withChildren_append`: More children at the end.
* `Agree.nameFrom`: Names read off trees.
* `Agree.same_of_legible`: Comparing with a name.
* `unmarked_of_renumbered`: Trees that differ by numbers only.
-/

namespace RubyTree

/-- Only the tag of a node is looked at. -/
theorem Tree.hasTag_congr {word : String} {tag : Raw} (mark mark' : Mark) (ts ts' : List Tree) :
    (Tree.node tag mark ts).hasTag word = (Tree.node tag mark' ts').hasTag word := by
  unfold Tree.hasTag
  split <;> rename_i heq
  · cases heq
    rfl
  · split <;> rename_i heq'
    · cases heq'
      exact absurd rfl (heq _ _ _)
    · rfl

/-- A leaf that is no number, by itself or as the text of a string. No line can be
    taken for it. -/
def Tree.IsName (t : Tree) : Prop :=
  ∃ a : Atom, a.parts? = none ∧
    (t = .leaf (.atom a) ∨ ∃ mark, t = .node (.str "str") mark [.leaf (.atom a)])

/-- What makes the second of two runs different from the first. -/
inductive Change where
  /-- The second program is so many lines further down; in the first one the lines
      of `__LINE__` are marked. -/
  | moved (lines : Int)
  /-- The second run does not number the parameters of blocks. -/
  | unnumbered
  /-- The second run gives shared nodes other numbers. -/
  | renumbered
  deriving DecidableEq

namespace Change

/-- What becomes of a line in the first program. -/
def firstLine : Change → Bool → Raw → Raw
  | moved _, here, line => if here then line.wrapLine else line
  | _, _, line => line

/-- What becomes of a line in the second program. -/
def secondLine : Change → Bool → Raw → Raw
  | moved k, _, line => line.lineAfter k
  | _, _, line => line

/-- The first of the two programs. -/
def first (c : Change) : Raw → Raw :=
  Raw.relocate c.firstLine

/-- The second of the two programs. -/
def second (c : Change) : Raw → Raw :=
  Raw.relocate c.secondLine

/-- Lines that stand for each other. -/
def Lines : Change → Raw → Raw → Prop
  | moved k, a, b => ∃ l, (a = .int l ∨ a = .list [.int l]) ∧ b = .int (l + k)
  | _, a, b => a = b

/-- Lines that stand for each other and that other lines are counted from. -/
def Counted : Change → Raw → Raw → Prop
  | moved k, a, b => ∃ l, a = .int l ∧ b = .int (l + k)
  | _, a, b => a = b

/-- Leaves that stand for each other. -/
def Leaves : Change → Raw → Raw → Prop
  | moved k, a, b => (∃ v, a = .atom v ∧ b = .atom v) ∨ ∃ l, a = .list [.int l] ∧ b = .int (l + k)
  | _, a, b => a = b

/-- Numbers of shared nodes that stand for each other. -/
def Numbers : Change → Nat → Nat → Prop
  | renumbered, _, _ => True
  | _, m, n => m = n

/-- Marks that stand for each other. -/
structure Marks (c : Change) (m m' : Mark) : Prop where
  line : Option.Rel c.Lines m.line m'.line
  comments : m.comments = m'.comments
  shared : Option.Rel c.Numbers m.shared m'.shared

/-- The children of an attribute that is a target. -/
def IsAttribute (children : List Tree) : Prop :=
  ∃ receiver kind name rest, children = receiver :: .str kind :: .sym name :: rest ∧
    kind ∈ ["send", "safe_call"]

/-- The tags of nodes that are looked into. -/
def lookedInto : List String :=
  ["lvar", "field", "numblock"]

/-- A node that has the form by which it is looked into. -/
def Kept : Change → Raw → List Tree → Prop
  | moved _, tag, children => tag = .str "field" → IsAttribute children
  | unnumbered, tag, children =>
    ∃ t, tag = .str t ∧ t ≠ "numblock" ∧ (t = "field" → IsAttribute children) ∧
      (t = "lvar" → ∃ name rest, children = .sym name :: rest)
  | renumbered, _, _ => True

/-- Trees that stand for each other. -/
inductive Agree (c : Change) : Tree → Tree → Prop where
  | leaf {v v' : Raw} (h : c.Leaves v v') : Agree c (.leaf v) (.leaf v')
  | node {tag : Raw} {mark mark' : Mark} {ts ts' : List Tree} (hmark : c.Marks mark mark')
      (hkept : c.Kept tag ts) (h : List.Forall₂ (Agree c) ts ts') :
      Agree c (.node tag mark ts) (.node tag mark' ts')
  /-- A numbered block and the same block without parameters. -/
  | block {mark mark' : Mark} {n : Int} {call call' body body' : Tree} {ts ts' : List Tree}
      (hc : c = unnumbered) (hmark : c.Marks mark mark') (hcall : Agree c call call')
      (hbody : Agree c body body') (h : List.Forall₂ (Agree c) ts ts') :
      Agree c (.node (.str "numblock") mark (call :: .int n :: body :: ts))
        (.node (.str "block") mark' (call' :: .bare "args" [] :: body' :: ts'))

/-- Lists of trees that stand for each other. -/
abbrev AgreeAll (c : Change) : List Tree → List Tree → Prop :=
  List.Forall₂ c.Agree

/-- A tree that reads as the same name in both. -/
def Legible (c : Change) (t : Tree) : Prop :=
  c ≠ renumbered → t.IsName

section Values

variable {c : Change}

/-- The first program is the given one with lines in the place of lines. -/
theorem relines_firstLine : (c : Change) → Raw.Relines c.firstLine
  | moved _ => Raw.relines_wrapLine
  | unnumbered => Raw.relines_id
  | renumbered => Raw.relines_id

/-- The second program is the given one with lines in the place of lines. -/
theorem relines_secondLine : (c : Change) → Raw.Relines c.secondLine
  | moved k => Raw.relines_lineAfter k
  | unnumbered => Raw.relines_id
  | renumbered => Raw.relines_id

/-- Lines that are counted from stand for each other. -/
theorem Counted.lines {a b : Raw} (h : c.Counted a b) : c.Lines a b := by
  cases c with
  | moved k =>
    obtain ⟨l, rfl, rfl⟩ := h
    exact ⟨l, .inl rfl, rfl⟩
  | unnumbered => exact h
  | renumbered => exact h

/-- So many lines further down the two lines still stand for each other. -/
theorem Counted.linesBelow? {a b : Raw} (h : c.Counted a b) (n : Nat) :
    Option.Rel c.Lines (a.linesBelow? n) (b.linesBelow? n) := by
  have hsame : ∀ {c : Change}, c.Lines = Eq → Option.Rel c.Lines (a.linesBelow? n)
      (a.linesBelow? n) := by
    intro c hc
    rw [hc]
    cases a.linesBelow? n with
    | none => exact .none
    | some l => exact .some rfl
  -- Both counts start from the same line, or from one that has moved.
  cases c with
  | moved k =>
    obtain ⟨l, rfl, rfl⟩ := h
    exact .some ⟨l + n, .inl rfl, congrArg Raw.int (by omega)⟩
  | unnumbered =>
    rw [← show a = b from h]
    exact hsame rfl
  | renumbered =>
    rw [← show a = b from h]
    exact hsame rfl

theorem leaves_refl (a : Atom) : c.Leaves (.atom a) (.atom a) := by
  cases c with
  | moved k => exact .inl ⟨a, rfl, rfl⟩
  | unnumbered => rfl
  | renumbered => rfl

/-- Only lines may be different, and they have no text. -/
theorem Leaves.text? {v v' : Raw} (h : c.Leaves v v') : v.text? = v'.text? := by
  cases c with
  | moved k =>
    obtain ⟨a, rfl, rfl⟩ | ⟨l, rfl, rfl⟩ := h
    · rfl
    · rfl
  | unnumbered => rw [show v = v' from h]
  | renumbered => rw [show v = v' from h]

/-- Only a wrapped line stands for something else. -/
theorem Leaves.eq_of_atom {a : Atom} {v' : Raw} (h : c.Leaves (.atom a) v') : v' = .atom a := by
  cases c with
  | moved k =>
    obtain ⟨b, hatom, rfl⟩ | ⟨l, hwrapped, -⟩ := h
    · exact hatom.symm
    · cases hwrapped
  | unnumbered => exact h.symm
  | renumbered => exact h.symm

/-- An integer may stand for a line, but nothing else does. -/
theorem Leaves.eq_atom {a : Atom} {v : Raw} (h : c.Leaves v (.atom a)) (ha : a.parts? = none) :
    v = .atom a := by
  cases c with
  | moved k =>
    obtain ⟨b, rfl, hatom⟩ | ⟨l, -, hline⟩ := h
    · exact hatom.symm
    · cases hline
      cases ha
  | unnumbered => exact h
  | renumbered => exact h

/-- What is no number is told from a line in either form. -/
theorem Leaves.same {a : Atom} {v v' : Raw} (h : c.Leaves v v') (ha : a.parts? = none) :
    (Raw.atom a).same v = (Raw.atom a).same v' := by
  cases c with
  | moved k =>
    obtain ⟨b, rfl, rfl⟩ | ⟨l, rfl, rfl⟩ := h
    · rfl
    · -- A line is a number, which nothing but a number equals.
      cases a with
      | bool b => cases ha
      | int i => cases ha
      | rational q => cases ha
      | real x => simp only [Raw.same, Atom.same, Atom.text?, ha]
      | complex re im => simp only [Raw.same, Atom.same, Atom.text?, ha]
      | _ => rfl
  | unnumbered => rw [show v = v' from h]
  | renumbered => rw [show v = v' from h]

/-- Only lines may be different, and they are not absent. -/
theorem Leaves.isNull {v v' : Raw} (h : c.Leaves v v') : v.isNull = v'.isNull := by
  cases c with
  | moved k =>
    obtain ⟨a, rfl, rfl⟩ | ⟨l, rfl, rfl⟩ := h
    · rfl
    · rfl
  | unnumbered => rw [show v = v' from h]
  | renumbered => rw [show v = v' from h]

/-- Numbers given out one after the other. -/
theorem numbers_succ {m n : Nat} (h : c.Numbers m n) : c.Numbers (m + 1) (n + 1) := by
  cases c with
  | moved k => exact congrArg (· + 1) h
  | unnumbered => exact congrArg (· + 1) h
  | renumbered => trivial

theorem marks_empty : c.Marks {} {} :=
  ⟨.none, rfl, .none⟩

theorem marks_line {l l' : Option Raw} (h : Option.Rel c.Lines l l') :
    c.Marks { line := l } { line := l' } :=
  ⟨h, rfl, .none⟩

/-- A node whose children are not looked into may have any. -/
theorem kept_of_notMem {tag : String} {ts : List Tree} (h : tag ∉ lookedInto) :
    c.Kept (.str tag) ts := by
  simp only [lookedInto, List.mem_cons, List.not_mem_nil, or_false, not_or] at h
  cases c with
  | moved k =>
    intro htag
    injection htag with htag
    injection htag with htag
    exact absurd htag h.2.1
  | unnumbered =>
    exact ⟨tag, rfl, h.2.2, fun htag => absurd htag h.2.1, fun htag => absurd htag h.1⟩
  | renumbered => trivial

/-- A local is looked into for its name alone. -/
theorem kept_lvar {name : String} {rest : List Tree} :
    c.Kept (.str "lvar") (.sym name :: rest) := by
  cases c with
  | moved k => simp [Kept]
  | unnumbered => exact ⟨"lvar", rfl, by decide, by simp, fun _ => ⟨name, rest, rfl⟩⟩
  | renumbered => trivial

/-- Further children do not change the first ones. -/
theorem IsAttribute.append {ts : List Tree} (h : IsAttribute ts) (more : List Tree) :
    IsAttribute (ts ++ more) := by
  obtain ⟨receiver, kind, name, rest, rfl, hkind⟩ := h
  exact ⟨receiver, kind, name, rest ++ more, rfl, hkind⟩

/-- Children are looked into from the front, so more of them at the end do no harm. -/
theorem Kept.append {tag : Raw} {ts : List Tree} (h : c.Kept tag ts) (more : List Tree) :
    c.Kept tag (ts ++ more) := by
  cases c with
  | moved k => exact fun htag => (h htag).append more
  | unnumbered =>
    obtain ⟨t, rfl, hnumbered, hfield, hlocal⟩ := h
    refine ⟨t, rfl, hnumbered, fun ht => (hfield ht).append more, fun ht => ?_⟩
    obtain ⟨name, rest, rfl⟩ := hlocal ht
    exact ⟨name, rest ++ more, rfl⟩
  | renumbered => trivial

end Values

section Trees

variable {c : Change} {t t' : Tree} {ts ts' us us' : List Tree}

theorem agree_leaf (a : Atom) : c.Agree (.leaf (.atom a)) (.leaf (.atom a)) :=
  .leaf (leaves_refl a)

/-- Nodes without a line agree if their children do. -/
theorem agree_bare {tag : String} (htag : tag ∉ lookedInto) (h : c.AgreeAll ts ts') :
    c.Agree (.bare tag ts) (.bare tag ts') :=
  .node marks_empty (kept_of_notMem htag) h

/-- Nodes with lines agree if their lines and their children do. -/
theorem agree_placed {tag : String} {l l' : Option Raw} (hline : Option.Rel c.Lines l l')
    (htag : tag ∉ lookedInto) (h : c.AgreeAll ts ts') :
    c.Agree (.placed l tag ts) (.placed l' tag ts') :=
  .node (marks_line hline) (kept_of_notMem htag) h

/-- Locals of one name agree. -/
theorem agree_local {l l' : Option Raw} (hline : Option.Rel c.Lines l l') (name : String) :
    c.Agree (.placed l "lvar" [.sym name]) (.placed l' "lvar" [.sym name]) :=
  .node (marks_line hline) kept_lvar (.cons (agree_leaf _) .nil)

namespace AgreeAll

theorem append (h : c.AgreeAll ts ts') (h' : c.AgreeAll us us') :
    c.AgreeAll (ts ++ us) (ts' ++ us') :=
  List.rel_append h h'

theorem single (h : c.Agree t t') : c.AgreeAll [t] [t'] :=
  .cons h .nil

theorem pair {u u' : Tree} (h : c.Agree t t') (hu : c.Agree u u') : c.AgreeAll [t, u] [t', u'] :=
  .cons h (single hu)

theorem triple {u u' v v' : Tree} (h : c.Agree t t') (hu : c.Agree u u') (hv : c.Agree v v') :
    c.AgreeAll [t, u, v] [t', u', v'] :=
  .cons h (pair hu hv)

/-- The first of each. -/
theorem head? (h : c.AgreeAll ts ts') : Option.Rel c.Agree ts.head? ts'.head? := by
  cases h with
  | nil => exact .none
  | cons h _ => exact .some h

/-- There are equally many on both sides. -/
theorem isEmpty (h : c.AgreeAll ts ts') : ts.isEmpty = ts'.isEmpty := by
  cases h with
  | nil => rfl
  | cons _ _ => rfl

/-- All but the last of each. -/
theorem dropLast (h : c.AgreeAll ts ts') : c.AgreeAll ts.dropLast ts'.dropLast := by
  rw [List.dropLast_eq_take, List.dropLast_eq_take, h.length_eq]
  exact List.forall₂_take _ h

end AgreeAll

theorem agreeAll_toList {o o' : Option Tree} (h : Option.Rel c.Agree o o') :
    c.AgreeAll o.toList o'.toList := by
  cases h with
  | none => exact .nil
  | some h => exact .single h

namespace Agree

/-- What is absent on one side is absent on the other. -/
theorem isNull (h : c.Agree t t') : t.isNull = t'.isNull := by
  cases h with
  | leaf h =>
    have hnull := h.isNull
    simp only [Raw.isNull, Tree.isNull] at hnull ⊢
    split at hnull <;> split at hnull <;> simp_all
  | node _ _ _ => rfl
  | block _ _ _ _ _ => rfl

/-- A text is the same on both sides, since no line is one. -/
theorem text? (h : c.Agree t t') : t.text? = t'.text? := by
  cases h with
  | leaf h => exact h.text?
  | node _ _ _ => rfl
  | block _ _ _ _ _ => rfl

/-- Lines of nodes that agree stand for each other. -/
theorem line? (h : c.Agree t t') : Option.Rel c.Lines t.line? t'.line? := by
  cases h with
  | leaf _ => exact .none
  | node hmark _ _ => exact hmark.line
  | block _ hmark _ _ _ => exact hmark.line

/-- Any tag that numbered blocks do not have can be asked for. -/
theorem hasTag (h : c.Agree t t') (tag : String) (htag : tag ∉ ["block", "numblock"]) :
    t.hasTag tag = t'.hasTag tag := by
  simp only [List.mem_cons, List.not_mem_nil, or_false, not_or] at htag
  cases h with
  | leaf _ => rfl
  | node _ _ _ => exact Tree.hasTag_congr _ _ _ _
  | block _ _ _ _ _ =>
    have hfirst : ("numblock" == tag) = false := by simpa using Ne.symm htag.2
    have hsecond : ("block" == tag) = false := by simpa using Ne.symm htag.1
    simp only [Tree.hasTag, hfirst, hsecond]

/-- What is void on one side is void on the other. -/
theorem isVoid (h : c.Agree t t') : t.isVoid = t'.isVoid := by
  rw [Tree.isVoid, Tree.isVoid, h.isNull, h.hasTag "void_stmt" (by decide)]

theorem dropVoid (h : c.Agree t t') : c.Agree t.dropVoid t'.dropVoid := by
  rw [Tree.dropVoid, Tree.dropVoid, h.isVoid]
  split
  · exact agree_leaf _
  · exact h

/-- A node agrees with a node of the same tag, unless it is a numbered block. -/
theorem node_of_tag {tag : String} {mark : Mark} (htag : tag ≠ "numblock")
    (h : c.Agree (.node (.str tag) mark ts) t') : ∃ mark' ts', t' = .node (.str tag) mark' ts' ∧
      c.Marks mark mark' ∧ c.Kept (.str tag) ts ∧ c.AgreeAll ts ts' := by
  cases h with
  | node hmark hkept h => exact ⟨_, _, rfl, hmark, hkept, h⟩
  | block _ _ _ _ _ => exact absurd rfl htag

/-- The same, from the second tree. -/
theorem node_of_tag' {tag : String} {mark' : Mark} (htag : tag ≠ "block")
    (h : c.Agree t (.node (.str tag) mark' ts')) : ∃ mark ts, t = .node (.str tag) mark ts ∧
      c.Marks mark mark' ∧ c.Kept (.str tag) ts ∧ c.AgreeAll ts ts' := by
  cases h with
  | node hmark hkept h => exact ⟨_, _, rfl, hmark, hkept, h⟩
  | block _ _ _ _ _ => exact absurd rfl htag

/-- So a tree without a tag agrees with none that has it. -/
theorem ne_of_tag {tag : String} (htag : tag ≠ "block") (h : c.Agree t t')
    (hne : ∀ mark ts, t ≠ .node (.str tag) mark ts) (mark' : Mark) (ts' : List Tree) :
    t' ≠ .node (.str tag) mark' ts' := by
  rintro rfl
  obtain ⟨mark, ts, rfl, -⟩ := h.node_of_tag' htag
  exact hne mark ts rfl

/-- Nothing but absence agrees with absence. -/
theorem of_null (h : c.Agree .null t') : t' = .null := by
  have hnull := h.isNull
  cases h with
  | leaf h =>
    unfold Tree.isNull at hnull
    split at hnull
    · split at hnull
      · assumption
      · cases hnull
    · rename_i hne
      exact absurd rfl hne

/-- Nothing but absence agrees with absence, from the other side. -/
theorem to_null (h : c.Agree t .null) : t = .null := by
  have hnull := h.isNull
  cases h with
  | leaf h =>
    unfold Tree.isNull at hnull
    split at hnull
    · assumption
    · cases hnull

/-- What is added to both is added at the end, past everything that is looked into. -/
theorem withChildren_append {us us' : List Tree} (h : c.Agree t t')
    (hmore : c.AgreeAll us us') (hts : t.children? = some ts) (hts' : t'.children? = some ts') :
    c.Agree (t.withChildren (ts ++ us)) (t'.withChildren (ts' ++ us')) := by
  cases h with
  | leaf _ => cases hts
  | node hmark hkept h =>
    cases hts
    cases hts'
    exact .node hmark (hkept.append us) (AgreeAll.append h hmore)
  | block hc hmark hcall hbody h =>
    cases hts
    cases hts'
    exact .block hc hmark hcall hbody (AgreeAll.append h hmore)

/-- The children of trees that agree, which exist in both or in neither. -/
theorem children?_isSome (h : c.Agree t t') : t.children?.isSome = t'.children?.isSome := by
  cases h with
  | leaf _ => rfl
  | node _ _ _ => rfl
  | block _ _ _ _ _ => rfl

/-- Children agree one by one, unless those of a numbered block are among them. -/
theorem children? (h : c.Agree t t') (hblock : c = unnumbered → t.hasTag "numblock" = false) :
    Option.Rel c.AgreeAll t.children? t'.children? := by
  cases h with
  | leaf _ => exact .none
  | node _ _ h => exact .some h
  | block hc _ _ _ _ => cases hblock hc

/-- The first child is no part of the difference. -/
theorem firstChild (h : c.Agree t t') :
    Option.Rel c.Agree (t.children?.bind List.head?) (t'.children?.bind List.head?) := by
  cases h with
  | leaf _ => exact .none
  | node _ _ h => exact AgreeAll.head? h
  | block _ _ hcall _ _ => exact .some hcall

/-- A line put on both sides. -/
theorem withLine {l l' : Option Raw} (h : c.Agree t t') (hline : Option.Rel c.Lines l l') :
    c.Agree (t.withLine l) (t'.withLine l') := by
  cases hline with
  | none => exact h
  | some hline =>
    cases h with
    | leaf h => exact .leaf h
    | node hmark hkept h => exact .node ⟨.some hline, hmark.comments, hmark.shared⟩ hkept h
    | block hc hmark hcall hbody h =>
      exact .block hc ⟨.some hline, hmark.comments, hmark.shared⟩ hcall hbody h

end Agree

/-- The same statements are left out on both sides. -/
theorem agreeAll_rejectVoid (h : c.AgreeAll ts ts') :
    c.AgreeAll (Tree.rejectVoid ts) (Tree.rejectVoid ts') := by
  induction h with
  | nil => exact .nil
  | cons h _ ih =>
    unfold Tree.rejectVoid at ih ⊢
    rw [List.filter_cons, List.filter_cons, h.isVoid]
    split
    · exact .cons h ih
    · exact ih

/-- One statement stands for itself, several for their sequence, on both sides. -/
theorem agree_ofStatements (h : c.AgreeAll ts ts') :
    c.Agree (Tree.ofStatements ts) (Tree.ofStatements ts') := by
  match h with
  | .nil => exact agree_leaf _
  | .cons h .nil => exact h
  | .cons h (.cons h' hrest) => exact agree_bare (by decide) (.cons h (.cons h' hrest))

end Trees

end Change

namespace Tree

mutual

/-- Printing shows no marks. -/
theorem print_unmarked : (t : Tree) → t.unmarked.print = t.print
  | leaf v => rfl
  | node tag mark children => by
    rw [unmarked, print, print, printChildren_unmarkedAll children]

theorem printChildren_unmarkedAll : (ts : List Tree) →
    printChildren (unmarkedAll ts) = printChildren ts
  | [] => rfl
  | t :: ts => by
    rw [unmarkedAll, printChildren, printChildren, print_unmarked t, printChildren_unmarkedAll ts]

end

mutual

/-- Marks do not matter for whether a tree can be looked up. -/
theorem isKey_unmarked : (t : Tree) → t.unmarked.isKey = t.isKey
  | leaf v => rfl
  | node tag mark children => by
    rw [unmarked, isKey, isKey, areKeys_unmarkedAll children]

theorem areKeys_unmarkedAll : (ts : List Tree) → areKeys (unmarkedAll ts) = areKeys ts
  | [] => rfl
  | t :: ts => by
    rw [unmarkedAll, areKeys, areKeys, isKey_unmarked t, areKeys_unmarkedAll ts]

end

mutual

/-- Marks do not matter for whether a tree can be printed. -/
theorem isWritable_unmarked : (t : Tree) → t.unmarked.isWritable = t.isWritable
  | leaf v => rfl
  | node tag mark children => by
    rw [unmarked, isWritable, isWritable, areWritable_unmarkedAll children]

theorem areWritable_unmarkedAll : (ts : List Tree) → areWritable (unmarkedAll ts) = areWritable ts
  | [] => rfl
  | t :: ts => by
    rw [unmarkedAll, areWritable, areWritable, isWritable_unmarked t, areWritable_unmarkedAll ts]

end

mutual

/-- Comparing looks at no marks on the left. -/
theorem unmarked_same : (t u : Tree) → t.unmarked.same u = t.same u
  | leaf _, leaf _ => rfl
  | leaf _, node _ _ _ => rfl
  | node _ _ _, leaf _ => by
    rw [unmarked]
    rfl
  | node tag mark children, node tag' mark' children' => by
    rw [unmarked, same, same, unmarkedAll_same children children']

theorem unmarkedAll_same : (ts us : List Tree) → sameAll (unmarkedAll ts) us = sameAll ts us
  | [], _ => rfl
  | t :: ts, [] => by
    rw [unmarkedAll]
    rfl
  | t :: ts, u :: us => by
    rw [unmarkedAll, sameAll, sameAll, unmarked_same t u, unmarkedAll_same ts us]

end

mutual

/-- Comparing looks at no marks on the right. -/
theorem same_unmarked : (t u : Tree) → t.same u.unmarked = t.same u
  | leaf _, leaf _ => rfl
  | leaf _, node _ _ _ => rfl
  | node _ _ _, leaf _ => rfl
  | node tag mark children, node tag' mark' children' => by
    rw [unmarked, same, same, sameAll_unmarkedAll children children']

theorem sameAll_unmarkedAll : (ts us : List Tree) → sameAll ts (unmarkedAll us) = sameAll ts us
  | ts, [] => rfl
  | [], u :: us => by
    rw [unmarkedAll]
    rfl
  | t :: ts, u :: us => by
    rw [unmarkedAll, sameAll, sameAll, same_unmarked t u, sameAll_unmarkedAll ts us]

end

/-- A tree reads the same without its marks. -/
theorem display_unmarked (t : Tree) : t.unmarked.display = t.display := by
  cases t with
  | leaf v => rfl
  | node tag mark children => exact print_unmarked (.node tag mark children)

end Tree

namespace Change

section Names

variable {c : Change}

mutual

/-- Numbers are all that is different between trees that are numbered otherwise. -/
theorem unmarked_of_renumbered : (t : Tree) → {t' : Tree} → renumbered.Agree t t' →
    t.unmarked = t'.unmarked
  | .leaf _, _, .leaf h => congrArg Tree.leaf h
  | .node _ _ ts, _, .node _ _ h => by
    rw [Tree.unmarked, Tree.unmarked, unmarkedAll_of_renumbered ts h]

/-- Lists of trees that differ by numbers only. -/
theorem unmarkedAll_of_renumbered : (ts : List Tree) → {ts' : List Tree} →
    renumbered.AgreeAll ts ts' → Tree.unmarkedAll ts = Tree.unmarkedAll ts'
  | [], _, .nil => rfl
  | t :: ts, _, .cons h hs => by
    rw [Tree.unmarkedAll, Tree.unmarkedAll, unmarked_of_renumbered t h,
      unmarkedAll_of_renumbered ts hs]

end

namespace Agree

variable {n n' t t' : Tree}

/-- What agrees with a name is the same name, but for marks. -/
theorem of_isName (h : c.Agree n n') (hn : n.IsName) :
    ∃ a : Atom, a.parts? = none ∧ (n = .leaf (.atom a) ∧ n' = .leaf (.atom a) ∨
      ∃ mark mark', n = .node (.str "str") mark [.leaf (.atom a)] ∧
        n' = .node (.str "str") mark' [.leaf (.atom a)]) := by
  obtain ⟨a, ha, rfl | ⟨mark, rfl⟩⟩ := hn
  · cases h with
    | leaf h => exact ⟨a, ha, .inl ⟨rfl, congrArg Tree.leaf h.eq_of_atom⟩⟩
  · obtain ⟨mark', ts', rfl, -, -, hts⟩ := h.node_of_tag (by decide)
    cases hts with
    | cons hleaf hrest =>
      cases hrest
      cases hleaf with
      | leaf hleaf => exact ⟨a, ha, .inr ⟨mark, mark', rfl, by rw [hleaf.eq_of_atom]⟩⟩

/-- The same, from the second tree. -/
theorem isName (h : c.Agree n n') (hn : n'.IsName) : n.IsName := by
  obtain ⟨a, ha, rfl | ⟨mark', rfl⟩⟩ := hn
  · cases h with
    | leaf h => exact ⟨a, ha, .inl (congrArg Tree.leaf (h.eq_atom ha))⟩
  · obtain ⟨mark, ts, rfl, -, -, hts⟩ := h.node_of_tag' (by decide)
    cases hts with
    | cons hleaf hrest =>
      cases hrest
      cases hleaf with
      | leaf hleaf => exact ⟨a, ha, .inr ⟨mark, by rw [hleaf.eq_atom ha]⟩⟩

/-- A name is the same in both, but for the marks of a tree that stands for it. -/
theorem unmarked_of_legible (h : c.Agree n n') (hn : c.Legible n) : n.unmarked = n'.unmarked := by
  by_cases hc : c = renumbered
  · subst hc
    exact unmarked_of_renumbered n h
  · obtain ⟨a, -, ⟨rfl, rfl⟩ | ⟨mark, mark', rfl, rfl⟩⟩ := h.of_isName (hn hc)
    · rfl
    · rfl

/-- What reads as a name reads the same on both sides. -/
theorem display (h : c.Agree n n') (hn : c.Legible n) : n.display = n'.display := by
  rw [← Tree.display_unmarked, h.unmarked_of_legible hn, Tree.display_unmarked]

/-- What reads as a name can be looked up on both sides or on neither. -/
theorem isKey (h : c.Agree n n') (hn : c.Legible n) : n.isKey = n'.isKey := by
  rw [← Tree.isKey_unmarked, h.unmarked_of_legible hn, Tree.isKey_unmarked]

/-- What reads as a name gives the same name. -/
theorem nameFrom (h : c.Agree n n') (hn : c.Legible n) :
    LowerM.nameFrom n = LowerM.nameFrom n' := by
  have hwritable : n.isWritable = n'.isWritable := by
    rw [← Tree.isWritable_unmarked, h.unmarked_of_legible hn, Tree.isWritable_unmarked]
  unfold LowerM.nameFrom Tree.written
  rw [hwritable]
  split
  · exact congrArg (fun name => (pure name : LowerM String)) (h.display hn)
  · rfl

/-- A leaf that is no number is equal to both trees or to neither. -/
theorem same_leaf {a : Atom} (ha : a.parts? = none) (ht : c.Agree t t') :
    (Tree.leaf (.atom a)).same t = (Tree.leaf (.atom a)).same t' := by
  cases ht with
  | leaf h => exact h.same ha
  | node _ _ _ => rfl
  | block _ _ _ _ _ => rfl

/-- Only a name can be the same as a name, and in both trees it is. -/
theorem same_of_legible (h : c.Agree n n') (hn : c.Legible n) (ht : c.Agree t t') :
    n.same t = n'.same t' := by
  -- Trees that only differ in numbers are the same once these are taken off.
  by_cases hc : c = renumbered
  · subst hc
    rw [← Tree.unmarked_same, ← Tree.same_unmarked, unmarked_of_renumbered n h,
      unmarked_of_renumbered t ht, Tree.unmarked_same, Tree.same_unmarked]
  · obtain ⟨a, ha, ⟨rfl, rfl⟩ | ⟨mark, mark', rfl, rfl⟩⟩ := h.of_isName (hn hc)
    · exact same_leaf ha ht
    · cases ht with
      | leaf _ => rfl
      | block _ _ _ _ _ => rfl
      | node _ _ hts =>
        rw [Tree.same, Tree.same]
        cases hts with
        | nil => rfl
        | cons ht hrest =>
          rw [Tree.sameAll, Tree.sameAll, same_leaf ha ht]
          cases hrest with
          | nil => rfl
          | cons _ _ => rfl

end Agree

end Names

end Change

end RubyTree
