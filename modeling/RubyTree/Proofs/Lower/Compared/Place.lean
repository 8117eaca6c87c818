import RubyTree.Proofs.Lower.Depth

/-!
# Positions in Raw Trees

A scanned token has its position in its third item, an empty statement in its
second, and definitions, `begin` blocks and hooks have one in their last field.
Nowhere else is an integer the line of something. So a program can be moved to
other lines by visiting these places alone, and everything that is read from a
raw tree without looking at a line is the same before and after.

Two ways of changing lines matter here. Moving adds a number to every line.
Marking wraps the line of each `__LINE__`, and of nothing else, so that the line
can be recognised wherever it ends up as a value.

## Main definitions

* `Raw.positionField?`: The field of a node that is its position.
* `Raw.relocate`: A raw tree with other lines.
* `Raw.shift`: A raw tree with a number added to every line.
* `Raw.marked`: A raw tree with the lines of `__LINE__` wrapped.
* `Raw.Relines`: What such changes leave alone.

## Theorems

* `relocate_node`: A node keeps its tag, and its fields change one by one.
* `get_relocateItems`: A field of a changed node.
* `relocate_eq_self`: A change that leaves all lines alone.
-/

namespace RubyTree

namespace Raw

/-- The field of a node that is its position. -/
def positionField? (tag : String) : Option Nat :=
  if tag.toList.head? = some '@' then some 1
  else match tag with
    | "void_stmt" => some 0
    | "begin" => some 1
    | "BEGIN" => some 1
    | "END" => some 1
    | "module" => some 2
    | "sclass" => some 2
    | "class" => some 3
    | "def" => some 3
    | "defs" => some 5
    | _ => none

/-- The item of a list that is its position. -/
def positionItem? : List Raw → Option Nat
  | str tag :: _ => (positionField? tag).map (· + 1)
  | _ => none

/-- Whether a list is a token whose value is its own line. -/
def isLineWord : List Raw → Bool
  | str "@kw" :: word :: _ => word.isText "__LINE__"
  | _ => false

/-- A position with another line. -/
def reline (line : Raw → Raw) : Raw → Raw
  | list (l :: rest) => list (line l :: rest)
  | r => r

mutual

/-- A raw tree with other lines; the flag says whether the line is that of a
    `__LINE__`. -/
def relocate (line : Bool → Raw → Raw) : Raw → Raw
  | atom a => atom a
  | list items => list (relocateItems line (isLineWord items) (positionItem? items) items)

/-- Items with other lines, of which one may be a position. -/
def relocateItems (line : Bool → Raw → Raw) (here : Bool) : Option Nat → List Raw → List Raw
  | _, [] => []
  | none, r :: rs => r.relocate line :: relocateItems line here none rs
  | some 0, r :: rs => (r.relocate line).reline (line here) :: relocateItems line here none rs
  | some (i + 1), r :: rs => r.relocate line :: relocateItems line here (some i) rs

end

/-- A line so many lines further down. -/
def lineAfter (k : Int) : Raw → Raw
  | int l => int (l + k)
  | r => r

/-- A line that can be told from an integer. -/
def wrapLine : Raw → Raw
  | int l => list [int l]
  | r => r

/-- A raw tree with a number added to every line. -/
def shift (k : Int) : Raw → Raw :=
  relocate fun _ => lineAfter k

/-- A raw tree with the lines of `__LINE__` wrapped. -/
def marked : Raw → Raw :=
  relocate fun here line => if here then wrapLine line else line

/-- A change of lines that are integers, to integers or wrapped ones. -/
structure Relines (line : Bool → Raw → Raw) : Prop where
  other {r : Raw} (here : Bool) : (∀ l, r ≠ int l) → line here r = r
  integer (here : Bool) (l : Int) :
    ∃ l', line here (int l) = int l' ∨ line here (int l) = list [int l']

theorem relines_lineAfter (k : Int) : Relines fun _ => lineAfter k where
  other _ h := by
    unfold lineAfter
    split
    · exact absurd rfl (h _)
    · rfl
  integer _ l := ⟨l + k, .inl rfl⟩

theorem relines_wrapLine : Relines fun here line => if here then wrapLine line else line where
  other here h := by
    split
    · unfold wrapLine
      split
      · exact absurd rfl (h _)
      · rfl
    · rfl
  integer here l := by
    cases here with
    | false => exact ⟨l, .inl rfl⟩
    | true => exact ⟨l, .inr rfl⟩

theorem relines_id : Relines fun _ line => line where
  other _ _ := rfl
  integer _ l := ⟨l, .inl rfl⟩

theorem Relines.text? {line : Bool → Raw → Raw} (h : Relines line) (here : Bool) (r : Raw) :
    (line here r).text? = r.text? := by
  by_cases hr : ∃ l, r = int l
  · obtain ⟨l, rfl⟩ := hr
    obtain ⟨l', hl' | hl'⟩ := h.integer here l
    · rw [hl']
      rfl
    · rw [hl']
      rfl
  · rw [h.other here fun l hl => hr ⟨l, hl⟩]

theorem text?_reline (f : Raw → Raw) : (r : Raw) → (r.reline f).text? = r.text?
  | atom _ => rfl
  | list [] => rfl
  | list (_ :: _) => rfl

section Relocated

variable {line : Bool → Raw → Raw}

theorem relocate_atom (a : Atom) : relocate line (atom a) = atom a := by
  rw [relocate]

theorem relocateItems_none (here : Bool) :
    ∀ items : List Raw, relocateItems line here none items = items.map (relocate line)
  | [] => rfl
  | r :: rs => by rw [relocateItems, relocateItems_none here rs, List.map_cons]

theorem length_relocateItems (here : Bool) : ∀ (place : Option Nat) (items : List Raw),
    (relocateItems line here place items).length = items.length
  | none, items => by rw [relocateItems_none, List.length_map]
  | some _, [] => by rw [relocateItems]
  | some 0, r :: rs => by
    rw [relocateItems, List.length_cons, length_relocateItems here none rs, List.length_cons]
  | some (i + 1), r :: rs => by
    rw [relocateItems, List.length_cons, length_relocateItems here (some i) rs, List.length_cons]

/-- A node keeps its tag, and its fields change one by one. -/
theorem relocate_node (tag : String) (fs : List Raw) :
    relocate line (list (str tag :: fs)) = list (str tag ::
      relocateItems line (isLineWord (str tag :: fs)) (positionField? tag) fs) := by
  rw [relocate]
  cases h : positionField? tag with
  | none => simp only [positionItem?, h, Option.map_none, relocateItems, relocate_atom]
  | some i => simp only [positionItem?, h, Option.map_some, relocateItems, relocate_atom]

/-- A list that is no node has no position. -/
theorem relocate_untagged {items : List Raw} (h : (list items).tag? = none) :
    relocate line (list items) = list (items.map (relocate line)) := by
  have hplace : positionItem? items = none := by
    unfold positionItem?
    split
    · simp only [tag?, reduceCtorEq] at h
    · rfl
  rw [relocate, hplace, relocateItems_none]

theorem exists_fields {items : List Raw} {tag : String} (h : (list items).tag? = some tag) :
    ∃ fs, items = str tag :: fs := by
  unfold tag? at h
  split at h
  · rename_i heq
    cases heq
    cases h
    exact ⟨_, rfl⟩
  · cases h

@[simp] theorem tag?_relocate (r : Raw) : (relocate line r).tag? = r.tag? := by
  cases r with
  | atom a => rw [relocate_atom]
  | list items =>
    cases h : (list items).tag? with
    | some tag =>
      obtain ⟨fs, rfl⟩ := exists_fields h
      rw [relocate_node, tag?]
    | none =>
      rw [relocate_untagged h]
      cases items with
      | nil => rfl
      | cons x rs =>
        -- The first item is no tag: a list stays a list, and an atom stays as it is.
        cases x with
        | list l =>
          rw [List.map_cons, relocate]
          rfl
        | atom a =>
          rw [List.map_cons, relocate_atom]
          cases a with
          | str t => rw [tag?] at h; cases h
          | _ => rfl

@[simp] theorem hasTag_relocate (t : String) (r : Raw) :
    (relocate line r).hasTag t = r.hasTag t := by
  rw [hasTag, hasTag, tag?_relocate]

@[simp] theorem isEmpty_relocate (r : Raw) : (relocate line r).isEmpty = r.isEmpty := by
  cases r with
  | atom a => rw [relocate_atom]
  | list items =>
    rw [relocate]
    cases items with
    | nil => rw [relocateItems]
    | cons x xs =>
      exact List.isEmpty_eq_false_iff.2
        (List.ne_nil_of_length_eq_add_one (length_relocateItems _ _ (x :: xs)))

@[simp] theorem text?_relocate (r : Raw) : (relocate line r).text? = r.text? := by
  cases r with
  | atom a => rw [relocate_atom]
  | list items =>
    rw [relocate]
    rfl

@[simp] theorem isText_relocate (t : String) (r : Raw) :
    (relocate line r).isText t = r.isText t := by
  rw [isText, isText, text?_relocate]

@[simp] theorem isNull_relocate (r : Raw) : (relocate line r).isNull = r.isNull := by
  cases r with
  | atom a => rw [relocate_atom]
  | list items =>
    rw [relocate]
    rfl

@[simp] theorem isKey_relocate (r : Raw) : (relocate line r).isKey = r.isKey := by
  cases r with
  | atom a => rw [relocate_atom]
  | list items =>
    rw [relocate]
    rfl

/-- What is no position keeps its place. -/
theorem getElem?_relocateItems (here : Bool) :
    ∀ (place : Option Nat) (items : List Raw) (i : Nat),
      (relocateItems line here place items)[i]? = (items[i]?).map fun r =>
        if place = some i then (relocate line r).reline (line here) else relocate line r
  | none, items, i => by simp only [relocateItems_none, List.getElem?_map, reduceCtorEq, if_false]
  | some p, [], i => by simp only [relocateItems, List.getElem?_nil, Option.map_none]
  | some 0, r :: rs, 0 => by
    simp only [relocateItems, List.getElem?_cons_zero, Option.map_some, if_true]
  | some 0, r :: rs, i + 1 => by
    simp only [relocateItems, List.getElem?_cons_succ, relocateItems_none, List.getElem?_map,
      Option.some.injEq, Nat.right_eq_add, Nat.add_eq_zero_iff, Nat.one_ne_zero, and_false,
      if_false]
  | some (p + 1), r :: rs, 0 => by
    simp only [relocateItems, List.getElem?_cons_zero, Option.map_some, Option.some.injEq,
      Nat.add_eq_zero_iff, Nat.one_ne_zero, and_false, if_false]
  | some (p + 1), r :: rs, i + 1 => by
    simp only [relocateItems, List.getElem?_cons_succ, getElem?_relocateItems here (some p) rs i,
      Option.some.injEq, Nat.add_right_cancel_iff]

theorem reline_null (f : Raw → Raw) : reline f null = null :=
  rfl

/-- A field of a changed node. -/
theorem get_relocateItems (here : Bool) (place : Option Nat) (fs : Fields) (i : Nat) :
    Fields.get (relocateItems line here place fs) i =
      if place = some i then (relocate line (fs.get i)).reline (line here)
      else relocate line (fs.get i) := by
  simp only [Fields.get, List.getD_eq_getElem?_getD, getElem?_relocateItems]
  cases fs[i]? with
  | some r => rfl
  | none =>
    simp only [Option.map_none, Option.getD_none, relocate_atom, reline_null, ite_self]

/-- Only an integer in front of a position is a line to be changed. -/
theorem reline_relocate (hline : Relines line) (here : Bool) {r : Raw}
    (hr : ∀ l rest, r ≠ list (int l :: rest)) :
    (relocate line r).reline (line here) = relocate line r := by
  match r with
  | atom a =>
    rw [relocate_atom]
    rfl
  | list [] =>
    rw [relocate, relocateItems]
    rfl
  | list (x :: rest) =>
    -- What stands in front is no integer, and so neither is what it becomes.
    have hhead : ∀ l, relocate line x ≠ int l := by
      intro l hl
      cases x with
      | atom a =>
        rw [relocate_atom] at hl
        exact hr l rest (by rw [hl])
      | list items =>
        rw [relocate] at hl
        cases hl
    rw [relocate]
    match hp : positionItem? (x :: rest) with
    | none => rw [relocateItems, reline, hline.other here hhead]
    | some (i + 1) => rw [relocateItems, reline, hline.other here hhead]
    | some 0 =>
      unfold positionItem? at hp
      split at hp
      · obtain ⟨i, -, hi⟩ := Option.map_eq_some_iff.1 hp
        cases hi
      · cases hp

theorem exists_atom_of_mem {a : Atom} {items : List Raw} (h : (atom a).elements? = some items)
    {x : Raw} (hx : x ∈ items) : ∃ b, x = atom b := by
  cases a <;> simp only [elements?, Atom.text?, Option.map_some, Option.map_none,
    Option.some.injEq, reduceCtorEq] at h <;> subst h <;>
    obtain ⟨_, _, rfl⟩ := List.mem_map.1 hx <;> exact ⟨_, rfl⟩

theorem reline_eq_self {f : Raw → Raw} (h : ∀ r, f r = r) : ∀ r, reline f r = r
  | atom _ => rfl
  | list [] => rfl
  | list (l :: rest) => by rw [reline, h]

mutual

/-- A change that leaves all lines alone. -/
theorem relocate_eq_self (h : ∀ here r, line here r = r) : ∀ r : Raw, relocate line r = r
  | atom a => relocate_atom a
  | list items => by rw [relocate, relocateItems_eq_self h]

theorem relocateItems_eq_self (h : ∀ here r, line here r = r) {here : Bool} :
    ∀ {place : Option Nat} (items : List Raw), relocateItems line here place items = items
  | place, [] => by rw [relocateItems]
  | none, r :: rs => by rw [relocateItems, relocate_eq_self h r, relocateItems_eq_self h rs]
  | some 0, r :: rs => by
    rw [relocateItems, relocate_eq_self h r, reline_eq_self (h here), relocateItems_eq_self h rs]
  | some (i + 1), r :: rs => by
    rw [relocateItems, relocate_eq_self h r, relocateItems_eq_self h rs]

end

end Relocated

end Raw

end RubyTree
