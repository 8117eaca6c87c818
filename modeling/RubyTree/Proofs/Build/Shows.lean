import Mathlib.Data.List.Forall2
import Mathlib.Logic.Relation
import RubyTree.Build.Builder

/-!
# What a Value Shows

A value of the builder shows a raw tree if following its lists gives that tree.
The lists it is made of matter as much as the tree: a list that changes takes
every value with it that is made of it, and leaves all others as they are. So
the relation says which lists may occur.

A tree is finite, which makes the relation stronger than it looks. A value shows
one tree at most, so a list that showed a tree with itself inside would show a
smaller tree than the one it shows. Lists of the tree that a value shows are
therefore never among their own parts, and the tree is found by following lists
no deeper than there are lists.

## Main definitions

* `Arena.Shows`: A value shows a tree, made of certain lists.
* `Arena.Stands`: The same, with any list at the top.
* `Arena.Inside`: A list is an item of another one.

## Theorems

* `Shows.unique`: A value shows one tree.
* `Stands.parts_avoid`: No list is among its own parts.
* `freeze?_of_shows`: What a value shows is its raw tree.
* `acyclic_of_shows`: No list of a value leads back to itself.
* `Stands.item?_rel`, `Stands.isLabel?_eq`: What can be read off a value.
-/

namespace RubyTree

theorem Raw.induct {motive : Raw → Prop} (atom : ∀ x, motive (.atom x))
    (list : ∀ items, (∀ r ∈ items, motive r) → motive (.list items)) (r : Raw) : motive r := by
  induction hdepth : r.depth using Nat.strongRecOn generalizing r with
  | ind n ih =>
    cases r with
    | atom x => exact atom x
    | list items => exact list items fun r hr => ih r.depth (hdepth ▸ depth_lt_of_mem hr) r rfl

/-- A relation between the members of two lists may be replaced by another one. -/
theorem forall₂_imp_of_mem {α β : Type} {R S : α → β → Prop} {xs : List α} {ys : List β}
    (h : List.Forall₂ R xs ys) (himp : ∀ x ∈ xs, ∀ y ∈ ys, R x y → S x y) :
    List.Forall₂ S xs ys := by
  induction h with
  | nil => exact .nil
  | cons hxy _ ih =>
    refine .cons (himp _ List.mem_cons_self _ List.mem_cons_self hxy) (ih fun x hx y hy => ?_)
    exact himp x (List.mem_cons_of_mem _ hx) y (List.mem_cons_of_mem _ hy)

/-- Two lists that relate to a third one are equal if their members are. -/
theorem eq_of_forall₂ {α β : Type} {R S : α → β → Prop} {xs xs' : List α} {ys : List β}
    (h : List.Forall₂ R xs ys) (h' : List.Forall₂ S xs' ys)
    (heq : ∀ x ∈ xs, ∀ x' y, R x y → S x' y → x = x') : xs = xs' := by
  induction h generalizing xs' with
  | nil =>
    cases h'
    rfl
  | cons hxy _ ih =>
    cases h' with
    | cons hxy' hrest' =>
      rw [heq _ List.mem_cons_self _ _ hxy hxy',
        ih hrest' fun x hx => heq x (List.mem_cons_of_mem _ hx)]

theorem forall₂_getElem? {α β : Type} {R : α → β → Prop} {xs : List α} {ys : List β}
    (h : List.Forall₂ R xs ys) (i : Nat) : Option.Rel R xs[i]? ys[i]? := by
  induction h generalizing i with
  | nil => exact .none
  | cons hxy _ ih =>
    cases i with
    | zero => exact .some hxy
    | succ i => exact ih i

/-- The first member with a property, if the property holds of both or of neither. -/
theorem find?_rel {α β : Type} {R : α → β → Prop} {xs : List α} {ys : List β} {p : α → Bool}
    {q : β → Bool} (h : List.Forall₂ R xs ys) (hpq : ∀ x y, R x y → p x = q y) :
    Option.Rel R (xs.find? p) (ys.find? q) := by
  induction h with
  | nil => exact .none
  | @cons x y _ _ hxy _ ih =>
    rw [List.find?_cons, List.find?_cons, hpq x y hxy]
    cases q y with
    | true => exact .some hxy
    | false => exact ih

namespace Arena

variable {a a' : Arena} {P Q : Nat → Prop} {r r' : Raw} {v : Item} {id : Nat} {rs : List Raw}
  {items : List Item}

/-- The value is this raw tree, and every list in it is one of `P`. -/
inductive Shows (a : Arena) (P : Nat → Prop) : Raw → Item → Prop where
  | atom (x : Atom) : Shows a P (.atom x) (.atom x)
  | list {id : Nat} {items : List Item} {rs : List Raw} (mem : P id)
      (stored : a.lists[id]? = some items) (parts : List.Forall₂ (Shows a P) rs items) :
      Shows a P (.list rs) (.list id)

/-- The value is this raw tree, and every list below the top is one of `P`. -/
inductive Stands (a : Arena) (P : Nat → Prop) : Raw → Item → Prop where
  | atom (x : Atom) : Stands a P (.atom x) (.atom x)
  | list {id : Nat} {items : List Item} {rs : List Raw} (stored : a.lists[id]? = some items)
      (parts : List.Forall₂ (Shows a P) rs items) : Stands a P (.list rs) (.list id)

theorem Shows.stands (h : a.Shows P r v) : a.Stands P r v := by
  cases h with
  | atom x => exact .atom x
  | list mem stored parts => exact .list stored parts

theorem Stands.shows (h : a.Stands P r v) (hroot : ∀ id, v = .list id → P id) :
    a.Shows P r v := by
  cases h with
  | atom x => exact .atom x
  | list stored parts => exact .list (hroot _ rfl) stored parts

/-- What a value shows depends on its lists only. -/
theorem Shows.transfer (h : a.Shows P r v)
    (hlists : ∀ id items, P id → a.lists[id]? = some items → Q id ∧ a'.lists[id]? = some items) :
    a'.Shows Q r v := by
  -- By the tree: the parts of a list are shown by the same items in the other arena.
  induction r using Raw.induct generalizing v with
  | atom x =>
    cases h
    exact .atom x
  | list rs ih =>
    cases h with
    | list mem stored parts =>
      obtain ⟨hid, hstored⟩ := hlists _ _ mem stored
      exact .list hid hstored (forall₂_imp_of_mem parts fun x hx _ _ hxy => ih x hx hxy)

theorem Shows.mono (h : a.Shows P r v) (himp : ∀ id, P id → Q id) : a.Shows Q r v :=
  h.transfer fun id _ hid hstored => ⟨himp id hid, hstored⟩

theorem Stands.mono (h : a.Stands P r v) (himp : ∀ id, P id → Q id) : a.Stands Q r v := by
  cases h with
  | atom x => exact .atom x
  | list stored parts => exact .list stored (parts.imp fun _ _ hxy => hxy.mono himp)

theorem Stands.unique (h : a.Stands P r v) (h' : a.Stands Q r' v) : r = r' := by
  induction r using Raw.induct generalizing r' v with
  | atom x =>
    cases h
    cases h'
    rfl
  | list rs ih =>
    cases h with
    | list stored parts =>
      cases h' with
      | list stored' parts' =>
        obtain rfl := Option.some.inj (stored.symm.trans stored')
        -- The items agree one by one.
        refine congrArg Raw.list ?_
        exact eq_of_forall₂ parts parts' fun x hx _ _ hxy hxy' => ih x hx hxy.stands hxy'.stands

/-- A value shows one tree. -/
theorem Shows.unique (h : a.Shows P r v) (h' : a.Shows Q r' v) : r = r' :=
  h.stands.unique h'.stands

/-- A tree that is less deep than what a list shows is made of other lists. -/
theorem Shows.avoids (h : a.Shows P r v) (hlist : a.Stands Q (.list rs) (.list id))
    (hdepth : r.depth < (Raw.list rs).depth) : a.Shows (fun i => P i ∧ i ≠ id) r v := by
  induction r using Raw.induct generalizing v with
  | atom x =>
    cases h
    exact .atom x
  | list items ih =>
    have hstands := h.stands
    cases h with
    | @list id' _ _ mem stored parts =>
      -- If they were the same list, both trees would be the same and equally deep.
      have hne : id' ≠ id := by
        rintro rfl
        rw [hstands.unique hlist] at hdepth
        exact Nat.lt_irrefl _ hdepth
      refine .list ⟨mem, hne⟩ stored (forall₂_imp_of_mem parts fun x hx _ _ hxy => ?_)
      exact ih x hx hxy (Nat.lt_trans (Raw.depth_lt_of_mem hx) hdepth)

/-- No list is among its own parts. -/
theorem Stands.parts_avoid (h : a.Stands P (.list rs) (.list id)) :
    ∃ items, a.lists[id]? = some items ∧
      List.Forall₂ (a.Shows fun i => P i ∧ i ≠ id) rs items := by
  have hlist := h
  cases h with
  | list stored parts =>
    refine ⟨_, stored, forall₂_imp_of_mem parts fun x hx _ _ hxy => ?_⟩
    exact hxy.avoids hlist (Raw.depth_lt_of_mem hx)

section Freezing

theorem mapM_of_forall₂ {α β : Type} {f : α → Option β} {ys : List β} {xs : List α}
    (h : List.Forall₂ (fun y x => f x = some y) ys xs) : xs.mapM f = some ys := by
  induction h with
  | nil => rfl
  | cons hyx _ ih =>
    rw [List.mapM_cons, hyx, ih]
    rfl

theorem forall₂_of_mapM {α β : Type} {f : α → Option β} {xs : List α} {ys : List β}
    (h : xs.mapM f = some ys) : List.Forall₂ (fun y x => f x = some y) ys xs := by
  induction xs generalizing ys with
  | nil =>
    cases h
    exact .nil
  | cons x xs ih =>
    rw [List.mapM_cons] at h
    obtain ⟨y, hy, h⟩ := Option.bind_eq_some_iff.1 h
    obtain ⟨ys, hys, h⟩ := Option.bind_eq_some_iff.1 h
    cases h
    exact .cons hy (ih hys)

/-- What is found by following lists is shown. -/
theorem shows_of_freezeAt {depth : Nat} (h : a.freezeAt depth v = some r) :
    a.Shows (fun _ => True) r v := by
  -- On the depth: lists are frozen one layer below the list that holds them.
  induction depth generalizing r v with
  | zero =>
    cases v with
    | atom x =>
      cases h
      exact .atom x
    | list id => cases h
  | succ depth ih =>
    cases v with
    | atom x =>
      cases h
      exact .atom x
    | list id =>
      rw [freezeAt] at h
      obtain ⟨items, hitems, h⟩ := Option.bind_eq_some_iff.1 h
      obtain ⟨rs, hrs, h⟩ := Option.bind_eq_some_iff.1 h
      cases h
      exact .list trivial hitems ((forall₂_of_mapM hrs).imp fun _ _ hr => ih hr)

/-- Following lists as deep as there are lists to follow is enough. -/
theorem freezeAt_of_shows {ids : List Nat} {depth : Nat} (h : a.Shows (· ∈ ids) r v)
    (hdepth : ids.length ≤ depth) : a.freezeAt depth v = some r := by
  -- Each step leaves out the list that it follows, which occurs no more below.
  induction depth generalizing ids r v with
  | zero =>
    obtain rfl := List.length_eq_zero_iff.1 (Nat.le_zero.1 hdepth)
    cases h with
    | atom x => rfl
    | list mem _ _ => cases mem
  | succ depth ih =>
    have hstands := h.stands
    cases h with
    | atom x => rfl
    | @list id _ rs mem _ _ =>
      obtain ⟨items, hstored, hparts⟩ := hstands.parts_avoid
      have hitems : items.mapM (a.freezeAt depth) = some rs := by
        refine mapM_of_forall₂ (hparts.imp fun x y hxy => ?_)
        have hfewer : a.Shows (· ∈ ids.erase id) x y :=
          hxy.mono fun i hi => (List.mem_erase_of_ne hi.2).2 hi.1
        refine ih hfewer ?_
        rw [List.length_erase_of_mem mem]
        omega
      rw [freezeAt, hstored, Option.bind_eq_bind, Option.bind_some, hitems]
      rfl

theorem Shows.lt_size (h : a.Shows P r v) : a.Shows (· < a.lists.size) r v :=
  h.transfer fun _ _ _ hstored => ⟨(Array.getElem?_eq_some_iff.1 hstored).1, hstored⟩

/-- What a value shows is its raw tree. -/
theorem freeze?_of_shows (h : a.Shows P r v) : a.freeze? v = some r := by
  have hrange : a.Shows (· ∈ List.range a.lists.size) r v :=
    h.lt_size.mono fun _ hid => List.mem_range.2 hid
  exact freezeAt_of_shows hrange (Nat.le_of_eq List.length_range)

theorem freeze?_of_stands (h : a.Stands P r v) : a.freeze? v = some r := by
  cases h with
  | atom x => exact freezeAt_atom' x
  | list stored parts =>
    refine freeze?_of_shows (P := fun _ => True) (.list trivial stored ?_)
    exact parts.imp fun _ _ hxy => hxy.mono fun _ _ => trivial
where
  freezeAt_atom' (x : Atom) : a.freeze? (.atom x) = some (.atom x) := by
    unfold freeze?
    cases a.lists.size <;> rfl

/-- A tree has as many items as the list that it was read off. -/
theorem length_of_freeze? {items : List Item} {rs : List Raw} (hitems : a.items? v = some items)
    (h : a.freeze? v = some (.list rs)) : rs.length = items.length := by
  cases shows_of_freezeAt h with
  | list _ stored parts =>
    obtain rfl := Option.some.inj (stored.symm.trans hitems)
    exact parts.length_eq

end Freezing

section Cycles

/-- The second list is an item of the first one. -/
def Inside (a : Arena) (outer inner : Nat) : Prop :=
  ∃ items, a.lists[outer]? = some items ∧ .list inner ∈ items

/-- What is inside of a list shows less deep a tree. -/
theorem depth_of_inside {outer inner : Nat} (hinside : Relation.TransGen a.Inside outer inner)
    (h : a.Shows P r (.list outer)) : ∃ r', a.Shows P r' (.list inner) ∧ r'.depth < r.depth := by
  -- An item of a list shows a member of what the list shows.
  have hstep : ∀ {i j : Nat} {r : Raw}, a.Inside i j → a.Shows P r (.list i) →
      ∃ r', a.Shows P r' (.list j) ∧ r'.depth < r.depth := by
    intro i j r hij hi
    obtain ⟨items, hitems, hmem⟩ := hij
    cases hi with
    | list mem stored parts =>
      obtain rfl := Option.some.inj (stored.symm.trans hitems)
      obtain ⟨n, hn, hget⟩ := List.mem_iff_getElem.1 hmem
      obtain ⟨hlength, hall⟩ := List.forall₂_iff_get.1 parts
      refine ⟨_, ?_, Raw.depth_lt_of_mem (List.getElem_mem (hlength ▸ hn))⟩
      rw [← hget]
      exact hall n (hlength ▸ hn) hn
  induction hinside with
  | single hij => exact hstep hij h
  | tail _ hij ih =>
    obtain ⟨r', hr', hlt⟩ := ih
    obtain ⟨r'', hr'', hlt'⟩ := hstep hij hr'
    exact ⟨r'', hr'', Nat.lt_trans hlt' hlt⟩

/-- No list that a value leads to leads back to itself. -/
theorem acyclic_of_shows (h : a.Shows P r (.list id)) {i : Nat}
    (hi : Relation.ReflTransGen a.Inside id i) : ¬ Relation.TransGen a.Inside i i := by
  intro hcycle
  obtain ⟨r', hr'⟩ : ∃ r', a.Shows P r' (.list i) := by
    rcases Relation.reflTransGen_iff_eq_or_transGen.1 hi with rfl | htrans
    · exact ⟨r, h⟩
    · obtain ⟨r', hr', -⟩ := depth_of_inside htrans h
      exact ⟨r', hr'⟩
  obtain ⟨r'', hr'', hlt⟩ := depth_of_inside hcycle hr'
  rw [hr''.unique hr'] at hlt
  exact Nat.lt_irrefl _ hlt

end Cycles

section Reading

theorem Stands.atom?_eq (h : a.Stands P r v) : v.atom? = r.atom? := by
  cases h <;> rfl

theorem Stands.text?_eq (h : a.Stands P r v) : v.text? = r.text? := by
  cases h <;> rfl

theorem Stands.isText_eq (h : a.Stands P r v) (text : String) : v.isText text = r.isText text := by
  rw [Item.isText, Raw.isText, h.text?_eq]

theorem Stands.isEmpty_eq (h : a.Stands P r v) : a.isEmpty v = r.isEmpty := by
  cases h with
  | atom x => rfl
  | list stored parts =>
    show (a.lists[_]?).all List.isEmpty = _
    rw [stored]
    cases parts <;> rfl

theorem Stands.tag?_eq (h : a.Stands P r v) : a.tag? v = r.tag? := by
  cases h with
  | atom x => rfl
  | @list id items _ stored parts =>
    have hitems : a.items? (.list id) = some items := stored
    rw [tag?, hitems]
    cases parts with
    | nil => rfl
    | cons hxy _ =>
      cases hxy with
      | atom x => cases x <;> rfl
      | list _ _ _ => rfl

/-- The element at a place shows the element at that place. -/
theorem Stands.item?_rel (h : a.Stands P r v) (i : Nat) :
    Option.Rel (a.Shows P) (r.item? i) (a.item? v i) := by
  cases h with
  | @list id items _ stored parts =>
    have hitems : a.item? (.list id) i = items[i]? := by
      show (a.lists[id]?).bind (·[i]?) = items[i]?
      rw [stored]
      rfl
    rw [hitems]
    exact forall₂_getElem? parts i
  | atom x =>
    -- The elements of a text are texts, and those of a binary text numbers.
    have hatoms : ∀ {α : Type} (f : α → Atom) (xs : List α), Option.Rel (a.Shows P)
        (xs.map fun y => Raw.atom (f y))[i]? (xs[i]?.map fun y => Item.atom (f y)) := by
      intro α f xs
      rw [List.getElem?_map]
      cases xs[i]? with
      | none => exact .none
      | some y => exact .some (.atom _)
    have htexts : ∀ y : Atom, Option.Rel (a.Shows P)
        ((y.text?.map fun t => t.toList.map fun c => Raw.str c.toString).bind (·[i]?))
        (y.text?.bind fun t => t.toList[i]?.map fun c => Item.str c.toString) := by
      intro y
      cases y.text? with
      | none => exact .none
      | some t => exact hatoms (fun c : Char => Atom.str c.toString) t.toList
    cases x with
    | octets bs => exact hatoms (fun b : UInt8 => Atom.int b.toNat) bs
    | null => exact htexts .null
    | bool b => exact htexts (.bool b)
    | int n => exact htexts (.int n)
    | str t => exact htexts (.str t)
    | sym n => exact htexts (.sym n)
    | torn points => exact htexts (.torn points)
    | real y => exact htexts (.real y)
    | complex re im => exact htexts (.complex re im)
    | rational q => exact htexts (.rational q)
    | foreign y => exact htexts (.foreign y)

/-- What stands behind the tag shows what stands there in the tree. -/
theorem Stands.pieces_rel (h : a.Stands P r v) :
    List.Forall₂ (a.Shows P) r.pieces (a.pieces v) := by
  cases h with
  | atom x => exact .nil
  | @list id items _ stored parts =>
    have hitems : a.items? (.list id) = some items := stored
    rw [pieces, hitems]
    cases parts with
    | nil => exact .nil
    | cons hxy hrest =>
      -- The pieces are the items behind a tag, and the tag is the same text on both sides.
      cases hxy with
      | list _ _ _ => exact .nil
      | atom x =>
        cases x with
        | str tag =>
          show List.Forall₂ _ (if tag == "" then [] else _) (if tag == "" then [] else _)
          split
          · exact .nil
          · exact hrest
        | _ => exact .nil

/-- Whether a key is written as a label can be told from its tree. -/
theorem Stands.isLabel?_eq (h : a.Stands P r v) : a.isLabel? v = r.isLabel? := by
  unfold isLabel? Raw.isLabel? Raw.hasTag
  rw [h.tag?_eq]
  split
  · rfl
  split
  · rfl
  -- The items are read in the same order on both sides, and each shows the other.
  have hparts := h.item?_rel 1
  generalize a.item? v 1 = x at hparts ⊢
  generalize r.item? 1 = y at hparts ⊢
  cases hparts with
  | none => rfl
  | @some y x hxy =>
    have hfind := find?_rel hxy.stands.pieces_rel (p := (·.tag? == some "@tstring_content"))
      (q := (a.tag? · == some "@tstring_content"))
      fun _ _ hpart => by rw [hpart.stands.tag?_eq]
    simp only [Option.bind_eq_bind, Option.bind_some]
    generalize (a.pieces x).find? (a.tag? · == some "@tstring_content") = piece at hfind ⊢
    generalize y.pieces.find? (·.tag? == some "@tstring_content") = piece' at hfind ⊢
    cases hfind with
    | none => rfl
    | some hcontent =>
      have hdelimiter := hcontent.stands.item?_rel 3
      dsimp only
      generalize a.item? _ 3 = d at hdelimiter ⊢
      generalize Raw.item? _ 3 = d' at hdelimiter ⊢
      cases hdelimiter with
      | none => rfl
      | some hd => simp only [Option.bind_some, hd.stands.isEmpty_eq, hd.stands.text?_eq]

/-- Whether a key is written as a label can be told from what is found by
    following its lists. -/
theorem isLabel?_of_freeze (h : a.freeze? v = some r) : a.isLabel? v = r.isLabel? :=
  (shows_of_freezeAt h).stands.isLabel?_eq

end Reading

end Arena

end RubyTree
