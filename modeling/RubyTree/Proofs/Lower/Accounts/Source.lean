import Mathlib.Data.List.Count
import RubyTree.Lower.Branch
import RubyTree.Proofs.Tree.Ledger

/-!
# Comments in a Raw Tree

A comment is wrapped around the construct that it is found before. The constructs
that carry comments have another tag in the syntax tree, some of them, and a
wrapper around anything else is of no account.

Not every field of a raw node is code. Names, operators and positions are read as
they are, and a wrapper in such a field would be lost; so would one in the guard of
a match on one line, which no program has. A `tidy` raw tree has wrappers where code
is and directly around the constructs that may have comments. Nor does it have any
in the target of an operator assignment, which is lowered once and built into the
result twice.

## Main definitions

* `Raw.documents`: The tags and comments of all constructs that have comments.
* `Raw.idle`: The fields of a node that hold no code.
* `Raw.tidy`: Whether wrappers are where code is.
* `Ledger.due`: What a raw tree has to be counted for.

## Theorems

* `Ledger.due_node`: A node is counted for its fields.
* `Ledger.Tidy.get`, `Ledger.Tidy.due_idle`: The fields of a node.
-/

namespace RubyTree

namespace Raw

/-- The tags of constructs that carry comments, with their tags in a syntax tree. -/
def constructs : List (String × String) :=
  [("class", "class"), ("module", "module"), ("sclass", "sclass"), ("def", "def"),
    ("defs", "defs"), ("BEGIN", "preexe"), ("END", "postexe")]

/-- The construct and the comment of a wrapper. An empty comment is none. -/
def wrapped : List Raw → List (Raw × Raw)
  | .str "comment" :: text :: inner :: _ =>
    if text.isEmpty then []
    else ((inner.tag?.bind (List.lookup · constructs)).map fun tag => (str tag, text)).toList
  | _ => []

mutual

/-- The tags and comments of all constructs that have comments. -/
def documents : Raw → List (Raw × Raw)
  | atom _ => []
  | list items => wrapped items ++ documentsAll items

/-- The tags and comments in each raw tree. -/
def documentsAll : List Raw → List (Raw × Raw)
  | [] => []
  | r :: rs => r.documents ++ documentsAll rs

end

/-- The guard of a pattern, if it has one. -/
def guards : Raw → List Raw
  | .list (.str "if_mod" :: cond :: _) => [cond]
  | .list (.str "unless_mod" :: cond :: _) => [cond]
  | _ => []

/-- The guard of a match on one line. -/
def loneGuards : Raw → List Raw
  | .list (.str "right_assign" :: pattern :: _) => pattern.guards
  | .list (.str "in" :: pattern :: .null :: .null :: _) => pattern.guards
  | _ => []

/-- What the pairs in a field start with. -/
def heads : Raw → List Raw
  | .list pairs => pairs.filterMap (·.item? 0)
  | .atom _ => []

/-- The fields of a node that hold no code. -/
def idle (tag : String) (fs : Fields) : List Raw :=
  if tag.toList.head? = some '@' then fs
  else match tag with
    | "vcall" => fs
    | "fcall" => fs
    | "void_stmt" => fs
    | "var_field" => fs
    | "var_alias" => fs
    | "symbol_literal" => fs
    | "top_const_ref" => fs
    | "top_const_field" => fs
    | "const_path_ref" => fs.drop 1
    | "const_path_field" => fs.drop 1
    | "call" => fs.drop 1
    | "field" => fs.drop 1
    | "command" => fs.take 1
    | "command_call" => (fs.drop 1).take 2
    | "opassign" => fs.take 2
    | "begin" => fs.drop 1
    | "regexp_literal" => fs.drop 1
    | "block_var" => fs.drop 1
    | "params" => fs.get 2 :: fs.get 5 :: fs.get 6 :: ((fs.get 1).heads ++ (fs.get 4).heads)
    | "def" => fs.get 0 :: fs.drop 3
    | "defs" => fs.get 1 :: fs.get 2 :: fs.drop 5
    | "class" => fs.drop 3
    | "module" => fs.drop 2
    | "sclass" => fs.drop 2
    | "BEGIN" => fs.drop 1
    | "END" => fs.drop 1
    | "right_assign" => fs.drop 1
    | "case" => (fs.get 1).loneGuards
    | "aryptn" => [fs.get 2]
    | "fndptn" => [fs.get 1, fs.get 3]
    | "hshptn" => [fs.get 2]
    | "comment" => fs.take 1
    | _ => []

/-- Whether the wrappers in a list are where code is, and a wrapper is around what
    may have comments. -/
def neat : List Raw → Bool
  | .str tag :: fs =>
    (idle tag fs).all (·.documents.isEmpty) &&
      (tag != "comment" || (fs.getD 1 null).tag?.any ("begin" :: constructs.map Prod.fst).contains)
  | _ => true

mutual

/-- Whether the wrappers in a raw tree are where code is. -/
def tidy : Raw → Bool
  | atom _ => true
  | list items => neat items && tidyAll items

/-- Whether each raw tree is tidy. -/
def tidyAll : List Raw → Bool
  | [] => true
  | r :: rs => r.tidy && tidyAll rs

end

theorem tidy_of_mem {rs : List Raw} (h : tidyAll rs) {r : Raw} (hr : r ∈ rs) : r.tidy := by
  induction rs with
  | nil => cases hr
  | cons x xs ih =>
    rw [tidyAll, Bool.and_eq_true] at h
    rcases List.mem_cons.1 hr with rfl | hr
    · exact h.1
    · exact ih h.2 hr

theorem wrapped_of_present {text : Raw} (h : text.isEmpty = false) (tag : String) (fs : Fields) :
    wrapped [str "comment", text, list (str tag :: fs)] =
      ((constructs.lookup tag).map fun tag' => (str tag', text)).toList :=
  if_neg (Bool.eq_false_iff.1 h)

/-- A construct that may have comments, and its comment. -/
theorem wrapped_construct {tag tag' : String} {text : Raw} (h : text.isEmpty = false)
    (htag : (tag, tag') ∈ constructs) (fs : Fields) :
    wrapped [str "comment", text, list (str tag :: fs)] = [(str tag', text)] := by
  rw [wrapped_of_present h]
  simp only [constructs, List.mem_cons, Prod.mk.injEq, List.not_mem_nil, or_false] at htag
  rcases htag with ⟨rfl, rfl⟩ | ⟨rfl, rfl⟩ | ⟨rfl, rfl⟩ | ⟨rfl, rfl⟩ | ⟨rfl, rfl⟩ | ⟨rfl, rfl⟩ |
    ⟨rfl, rfl⟩
  all_goals rfl

theorem wrapped_of_isEmpty {text inner : Raw} (h : text.isEmpty) :
    wrapped [str "comment", text, inner] = [] :=
  if_pos h

end Raw

open Raw (str)
open RubyTree.Tree (isDocumentable isMisplaced)

namespace Ledger

open scoped Classical in
/-- How often a ledger lists one of these. Nothing should be out of order. -/
noncomputable def expects (L : Ledger) (entries : List (Raw × Raw)) : Nat :=
  match L with
  | disorder => 0
  | comment tag text => entries.count (tag, text)

/-- What a raw tree has to be counted for. -/
noncomputable def due (L : Ledger) (r : Raw) : Nat :=
  L.expects r.documents

/-- What several raw trees have to be counted for. -/
noncomputable def dueAll (L : Ledger) (rs : List Raw) : Nat :=
  L.expects (Raw.documentsAll rs)

/-- A raw tree that is tidy, as far as comments are counted. -/
def Tidy (L : Ledger) (r : Raw) : Prop :=
  match L with
  | disorder => True
  | comment _ _ => r.tidy

variable {L : Ledger} {r : Raw} {rs : List Raw}

theorem expects_nil : L.expects [] = 0 := by
  cases L <;> rfl

open scoped Classical in
theorem expects_append (es es' : List (Raw × Raw)) :
    L.expects (es ++ es') = L.expects es + L.expects es' := by
  cases L with
  | disorder => rfl
  | comment tag text => exact List.count_append

@[simp] theorem due_atom (a : Atom) : L.due (.atom a) = 0 :=
  expects_nil

@[simp] theorem dueAll_nil : L.dueAll [] = 0 :=
  expects_nil

@[simp] theorem dueAll_cons : L.dueAll (r :: rs) = L.due r + L.dueAll rs :=
  expects_append _ _

theorem dueAll_eq_sum : L.dueAll rs = (rs.map L.due).sum := by
  induction rs with
  | nil => exact dueAll_nil
  | cons r rs ih => rw [dueAll_cons, ih, List.map_cons, List.sum_cons]

theorem due_list (items : List Raw) :
    L.due (.list items) = L.expects (Raw.wrapped items) + L.dueAll items := by
  unfold due
  rw [Raw.documents]
  exact expects_append _ _

/-- A list that is no node is counted for its elements. -/
theorem due_of_tag?_eq_none (h : (Raw.list rs).tag? = none) : L.due (.list rs) = L.dueAll rs := by
  have hnone : Raw.wrapped rs = [] := by
    unfold Raw.wrapped
    split
    · cases h
    · rfl
  rw [due_list, hnone, expects_nil, Nat.zero_add]

/-- A node is counted for its fields, unless it is a wrapper. -/
theorem due_node {tag : String} (h : tag ≠ "comment") (fs : Fields) :
    L.due (.list (str tag :: fs)) = L.dueAll fs := by
  have hnone : Raw.wrapped (str tag :: fs) = [] := by
    unfold Raw.wrapped
    split
    · rename_i heq
      cases heq
      exact absurd rfl h
    · rfl
  rw [due_list, hnone, expects_nil, dueAll_cons, due_atom, Nat.zero_add, Nat.zero_add]

theorem due_of_documents (h : r.documents.isEmpty) : L.due r = 0 := by
  unfold due
  rw [List.isEmpty_iff.1 h]
  exact expects_nil

theorem due_of_isEmpty (h : r.isEmpty) : L.due r = 0 := by
  cases r with
  | atom a => exact due_atom a
  | list items =>
    rw [List.isEmpty_iff.1 h]
    exact due_of_documents rfl

theorem due_of_isNull (h : r.isNull) : L.due r = 0 := by
  unfold Raw.isNull at h
  split at h
  · exact due_atom _
  · cases h

theorem dueAll_of_forall (h : ∀ r ∈ rs, L.due r = 0) : L.dueAll rs = 0 := by
  induction rs with
  | nil => exact dueAll_nil
  | cons r rs ih =>
    rw [List.forall_mem_cons] at h
    rw [dueAll_cons, h.1, ih h.2]

theorem isDocumentable_construct {tag tag' : String} (h : (tag, tag') ∈ Raw.constructs) :
    isDocumentable (.str tag') := by
  have hall : ∀ entry ∈ Raw.constructs, isDocumentable (.str entry.2) := by decide
  exact hall (tag, tag') h

open scoped Classical in
/-- A comment is listed where it is carried. -/
theorem expects_carried {m : Bool} {tag text : Raw} (h : isDocumentable tag) :
    L.expects [(tag, text)] = L.own m tag (some text) := by
  cases L with
  | disorder =>
    have hplace : isMisplaced m tag = false := isMisplaced_of_documentable h
    simp [expects, own, h, hplace]
  | comment name text' =>
    unfold expects own
    simp only [List.count_singleton, h, true_and, beq_iff_eq, Prod.mk.injEq]

/-- A construct that has a comment counts for it. -/
theorem weigh_commented {m : Bool} {tag text : Raw} {mark : Mark} {children : List Tree}
    (h : isDocumentable tag) :
    L.weigh m (.node tag { mark with comments := some text } children) =
      L.expects [(tag, text)] + L.weighFrom m tag 0 children := by
  have hvoid : tag ≠ .str "void_stmt" := by
    rintro rfl
    exact absurd h (by decide)
  rw [weigh_of_ne hvoid, expects_carried h]

namespace Tidy

theorem of_mem {items : List Raw} (h : L.Tidy (.list items)) (hr : r ∈ items) : L.Tidy r := by
  cases L with
  | disorder => trivial
  | comment tag text =>
    have htidy : (Raw.list items).tidy := h
    rw [Raw.tidy, Bool.and_eq_true] at htidy
    exact Raw.tidy_of_mem htidy.2 hr

theorem atom (a : Atom) : L.Tidy (.atom a) := by
  cases L with
  | disorder => trivial
  | comment tag text => rfl

/-- A field of a tidy node. -/
theorem get {tag : String} {fs : Fields} (h : L.Tidy (.list (str tag :: fs))) (i : Nat) :
    L.Tidy (fs.get i) := by
  unfold Fields.get
  rw [List.getD_eq_getElem?_getD]
  cases hi : fs[i]? with
  | none => exact atom _
  | some r => exact h.of_mem (List.mem_cons_of_mem _ (List.mem_of_getElem? hi))

theorem neat {tag text : Raw} {items : List Raw} (h : (comment tag text).Tidy (.list items)) :
    Raw.neat items := by
  have htidy : (Raw.list items).tidy := h
  rw [Raw.tidy, Bool.and_eq_true] at htidy
  exact htidy.1

/-- A field that holds no code holds no comments. -/
theorem due_idle {tag : String} {fs : Fields} (h : L.Tidy (.list (str tag :: fs)))
    (hr : r ∈ Raw.idle tag fs) : L.due r = 0 := by
  cases L with
  | disorder => rfl
  | comment name text =>
    have hneat := h.neat
    rw [Raw.neat, Bool.and_eq_true, List.all_eq_true] at hneat
    exact due_of_documents (hneat.1 r hr)

theorem dueAll_idle {tag : String} {fs : Fields} (h : L.Tidy (.list (str tag :: fs))) :
    L.dueAll (Raw.idle tag fs) = 0 :=
  dueAll_of_forall fun _ hr => h.due_idle hr

/-- A wrapper is around a construct that may have comments, or around a `begin` block. -/
theorem wrapped {tag text text' : Raw} (h : (comment tag text).Tidy
    (.list [str "comment", text', r])) :
    ∃ name fs, r = .list (str name :: fs) ∧
      (name = "begin" ∨ ∃ name', (name, name') ∈ Raw.constructs) := by
  -- The tags that a wrapper may be around are listed in what neat means.
  have hneat := h.neat
  rw [Raw.neat, Bool.and_eq_true] at hneat
  have hinner : r.tag?.any ("begin" :: Raw.constructs.map Prod.fst).contains := hneat.2
  unfold Raw.tag? at hinner
  split at hinner
  · rename_i name fs
    refine ⟨name, fs, rfl, ?_⟩
    have hmem : name ∈ "begin" :: Raw.constructs.map Prod.fst := List.contains_iff_mem.1 hinner
    rcases List.mem_cons.1 hmem with rfl | hmem
    · exact .inl rfl
    · obtain ⟨entry, hentry, rfl⟩ := List.mem_map.1 hmem
      exact .inr ⟨entry.2, hentry⟩
  · cases hinner

/-- A node that holds no code. -/
theorem due_eq_zero {tag : String} {fs : Fields} (h : L.Tidy (.list (str tag :: fs)))
    (htag : tag ≠ "comment") (hfs : Raw.idle tag fs = fs) : L.due (.list (str tag :: fs)) = 0 := by
  rw [due_node htag]
  exact dueAll_of_forall fun r hr => h.due_idle (hfs.symm ▸ hr)

end Tidy

end Ledger

end RubyTree
