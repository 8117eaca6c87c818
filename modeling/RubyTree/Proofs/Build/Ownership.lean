import Mathlib.Data.List.Perm.Subperm
import RubyTree.Proofs.Build.Immutable
import RubyTree.Proofs.Build.Shows
import RubyTree.Proofs.Build.Step

/-!
# Who May Change a List

Two builders are given the same events. One changes lists, the other makes new
ones, and they agree as long as no change is seen by anyone but the one who asked
for it. A list can only be changed by an event that gets it as the value of an
argument. So the lists that matter are the ones at the top of values which are
still to be used: these are open, and all others are closed for good.

The condition is that open lists are hidden. A value which is still to be used
is made of closed lists below its top, no two of them have their top in common,
and whatever else is remembered is made of closed lists alone. When a value is
used, its top is closed or changed; in either case nobody else has seen it.

There is one exception. The keyword that opened a construct is remembered by its
token, and the token is open as long as no event has used it. An event that adds
to the token adds to the remembered one. Nothing is lost by that, because what is
looked up is the position of the keyword, which stays where it is: items are
added at the end, and those that are replaced are content.

## Main definitions

* `Immutable.Opener`: A remembered keyword, with what was added to it.
* `Immutable.View`: The side tables of both builders agree.
* `Immutable.Agree`: Both builders agree, and open lists are hidden.

## Theorems

* `Agree.subperm`, `Agree.close`: Values that are not used any more.
* `Agree.push`: A new list is open.
* `Agree.update`: An open list is changed.
-/

namespace RubyTree

/-- The list at the top of a value. -/
def Item.root? : Item → Option Nat
  | .list id => some id
  | .atom _ => none

namespace Immutable

open Arena (Shows Stands)

/-- The lists at the top of values. -/
def roots (opens : List (Item × Value)) : List Nat :=
  opens.filterMap (·.1.root?)

/-- Not among the lists at the top of values. -/
def Closed (opens : List (Item × Value)) (id : Nat) : Prop :=
  id ∉ roots opens

/-- A remembered keyword and its comments. Items may have been added to the
    token, and content among them dedented, but in front there are still its tag,
    its word and its position. -/
def Opener (a : Arena) (P : Nat → Prop) (entry : Raw × String) (entry' : Item × String) : Prop :=
  entry.2 = entry'.2 ∧ ∃ front more, entry.1 = .list front ∧
    (∃ tag word place, front = [.str tag, word, place]) ∧
    (∀ r ∈ front, r.hasTag "@tstring_content" = false) ∧
    a.Stands P (.list (front ++ more)) entry'.1

/-- A remembered token. -/
def SameToken (a : Arena) (P : Nat → Prop) (token : String × Raw) (token' : Token) : Prop :=
  token.1 = token'.1 ∧ a.Shows P token.2 token'.2

/-- The side tables agree. -/
structure View (P : Nat → Prop) (b : Builder) (s : State) : Prop where
  filename : s.filename = b.filename
  line : s.line = b.line
  column : s.column = b.column
  buffer : s.comments.buffer = b.comments.buffer
  stack : List.Forall₂ (Opener b.arena P) s.comments.stack b.comments.stack
  delimiters : List.Forall₂ (b.arena.Shows P) s.delimiters b.delimiters
  operators : s.operators = b.operators
  inSymbol : s.inSymbol = b.inSymbol
  lastToken : Option.Rel (SameToken b.arena P) s.lastToken b.lastToken
  lastSignificant : Option.Rel (SameToken b.arena P) s.lastSignificant b.lastSignificant

/-- The builders agree. What is open is still to be used, and what is closed is
    at hand and is not changed any more. -/
structure Agree (opens : List (Item × Value)) (closed : List (Item × Raw)) (b : Builder)
    (s : State) : Prop where
  distinct : (roots opens).Nodup
  stands : ∀ x ∈ opens, b.arena.Stands (Closed opens) x.2.tree x.1
  marks : ∀ x ∈ opens, x.2.signed = b.signed.contains x.1
  signed : ∀ v ∈ b.signed, ∃ id < b.arena.lists.size, v = .list id
  shows : ∀ x ∈ closed, b.arena.Shows (Closed opens) x.2 x.1
  view : View (Closed opens) b s

section View

variable {P Q : Nat → Prop} {b : Builder} {s : State} {a : Arena}

theorem Opener.mono {e : Raw × String} {e' : Item × String} (h : Opener a P e e')
    (himp : ∀ id, P id → Q id) : Opener a Q e e' := by
  obtain ⟨htext, front, more, htree, hscanned, huntagged, hstands⟩ := h
  exact ⟨htext, front, more, htree, hscanned, huntagged, hstands.mono himp⟩

theorem SameToken.imp {a' : Arena} {t : String × Raw} {t' : Token} (h : SameToken a P t t')
    (himp : ∀ r v, a.Shows P r v → a'.Shows Q r v) : SameToken a' Q t t' :=
  ⟨h.1, himp _ _ h.2⟩

theorem rel_imp {α β : Type} {R S : α → β → Prop} {o : Option α} {o' : Option β}
    (h : Option.Rel R o o') (himp : ∀ x y, R x y → S x y) : Option.Rel S o o' := by
  cases h with
  | some hxy => exact .some (himp _ _ hxy)
  | none => exact .none

/-- The side tables agree after a change to lists that none of them sees. -/
theorem View.withArena (h : View P b s) (hshows : ∀ r v, b.arena.Shows P r v → a.Shows Q r v)
    (hopener : ∀ e e', Opener b.arena P e e' → Opener a Q e e') :
    View Q { b with arena := a } s where
  filename := h.filename
  line := h.line
  column := h.column
  buffer := h.buffer
  stack := h.stack.imp hopener
  delimiters := h.delimiters.imp hshows
  operators := h.operators
  inSymbol := h.inSymbol
  lastToken := rel_imp h.lastToken fun _ _ ht => ht.imp hshows
  lastSignificant := rel_imp h.lastSignificant fun _ _ ht => ht.imp hshows

theorem View.mono (h : View P b s) (himp : ∀ id, P id → Q id) : View Q b s :=
  h.withArena (fun _ _ hr => hr.mono himp) fun _ _ he => he.mono himp

end View

namespace Agree

variable {opens opens' : List (Item × Value)} {closed : List (Item × Raw)} {b : Builder}
  {s : State} {v : Item} {t : Value} {r : Raw} {rs : List Raw} {items : List Item}

theorem roots_list (id : Nat) (t : Value) (xs : List (Item × Value)) :
    roots ((.list id, t) :: xs) = id :: roots xs :=
  rfl

/-- Values that are not used any more may be left out, and the order of the
    others does not matter. -/
theorem subperm (h : Agree opens closed b s) (hopens : opens'.Subperm opens) :
    Agree opens' closed b s := by
  obtain ⟨xs, hperm, hsub⟩ := hopens
  have hroots : (roots xs).Perm (roots opens') := hperm.filterMap _
  have hclosed : ∀ id, Closed opens id → Closed opens' id := fun _ hid hmem =>
    hid ((hsub.filterMap _).subset (hroots.mem_iff.2 hmem))
  have hmem : ∀ x ∈ opens', x ∈ opens := fun x hx => hsub.subset (hperm.mem_iff.2 hx)
  exact ⟨hroots.nodup_iff.1 (h.distinct.sublist (hsub.filterMap _)),
    fun x hx => (h.stands x (hmem x hx)).mono hclosed, fun x hx => h.marks x (hmem x hx), h.signed,
    fun x hx => (h.shows x hx).mono hclosed, h.view.mono hclosed⟩

theorem perm (h : Agree opens closed b s) (hopens : opens'.Perm opens) : Agree opens' closed b s :=
  h.subperm hopens.subperm

theorem drop {xs : List (Item × Value)} (h : Agree (xs ++ opens) closed b s) :
    Agree opens closed b s :=
  h.subperm (List.sublist_append_right xs opens).subperm

theorem forget {closed' : List (Item × Raw)} (h : Agree opens closed b s)
    (hclosed : closed' ⊆ closed) : Agree opens closed' b s :=
  { h with shows := fun x hx => h.shows x (hclosed hx) }

theorem head_stands (h : Agree ((v, t) :: opens) closed b s) :
    b.arena.Stands (Closed ((v, t) :: opens)) t.tree v :=
  h.stands (v, t) List.mem_cons_self

/-- A value that is used is not changed any more. -/
theorem close (h : Agree ((v, t) :: opens) closed b s) :
    Agree opens ((v, t.tree) :: closed) b s := by
  have hsub := List.sublist_cons_self (v, t) opens
  have hrest := h.subperm hsub.subperm
  have hclosed : ∀ id, Closed ((v, t) :: opens) id → Closed opens id := fun _ hid hmem =>
    hid ((hsub.filterMap _).subset hmem)
  refine { hrest with shows := fun x hx => ?_ }
  rcases List.mem_cons.1 hx with rfl | hx
  · -- The top of the value is none of the others.
    refine (h.head_stands.mono hclosed).shows fun id hid => ?_
    have hdistinct := h.distinct
    subst hid
    exact (List.nodup_cons.1 hdistinct).1
  · exact hrest.shows x hx

/-- Values that are used are not changed any more. -/
theorem closeAll {xs : List (Item × Value)} (h : Agree (xs ++ opens) closed b s) :
    Agree opens closed b s ∧
      List.Forall₂ (b.arena.Shows (Closed opens)) (trees (xs.map Prod.snd)) (xs.map Prod.fst) := by
  refine ⟨h.drop, ?_⟩
  induction xs generalizing closed with
  | nil => exact .nil
  | cons x xs ih =>
    have hx : Agree (x :: opens) closed b s :=
      h.subperm ((List.sublist_append_right xs opens).cons_cons x).subperm
    refine .cons (hx.close.shows _ List.mem_cons_self) (@ih closed ?_)
    exact h.subperm (List.sublist_cons_self _ _).subperm

theorem closed_cons {id i : Nat} : Closed ((.list id, t) :: opens) i ↔ i ≠ id ∧ Closed opens i := by
  simp [Closed, roots_list]

/-- What is closed has no part in a new list. -/
theorem shows_push (items : List Item) (t : Value) (h : b.arena.Shows (Closed opens) r v) :
    (b.push items).arena.Shows (Closed ((.list b.arena.lists.size, t) :: opens)) r v := by
  refine h.transfer fun id xs hid hstored => ?_
  have hlt : id < b.arena.lists.size := (Array.getElem?_eq_some_iff.1 hstored).1
  exact ⟨closed_cons.2 ⟨Nat.ne_of_lt hlt, hid⟩, Builder.items?_push (v := .list id) hstored items⟩

theorem stands_push (items : List Item) (t : Value) (h : b.arena.Stands (Closed opens) r v) :
    (b.push items).arena.Stands (Closed ((.list b.arena.lists.size, t) :: opens)) r v := by
  cases h with
  | atom x => exact .atom x
  | @list id _ _ stored parts =>
    exact .list (Builder.items?_push (v := .list id) stored items)
      (parts.imp fun _ _ hxy => shows_push items t hxy)

theorem opener_push (items : List Item) (t : Value) {e : Raw × String} {e' : Item × String}
    (h : Opener b.arena (Closed opens) e e') :
    Opener (b.push items).arena (Closed ((.list b.arena.lists.size, t) :: opens)) e e' := by
  obtain ⟨htext, front, more, htree, hscanned, huntagged, hstands⟩ := h
  exact ⟨htext, front, more, htree, hscanned, huntagged, stands_push items t hstands⟩

/-- A new list is open. -/
theorem push (h : Agree opens closed b s)
    (hitems : List.Forall₂ (b.arena.Shows (Closed opens)) rs items) :
    Agree ((.list b.arena.lists.size, { tree := .list rs }) :: opens) closed (b.push items) s := by
  -- The new list has an id larger than those of all lists in use and all signed numbers.
  have hbound : ∀ id ∈ roots opens, id < b.arena.lists.size := by
    intro id hid
    obtain ⟨⟨v, t⟩, hx, hroot⟩ := List.mem_filterMap.1 hid
    have hstands : b.arena.Stands (Closed opens) t.tree v := h.stands _ hx
    generalize t.tree = r at hstands
    cases hstands with
    | atom x => cases hroot
    | list stored _ =>
      cases hroot
      exact (Array.getElem?_eq_some_iff.1 stored).1
  have hunsigned : b.signed.contains (.list b.arena.lists.size) = false := by
    rw [List.contains_eq_mem, decide_eq_false_iff_not]
    intro hmem
    obtain ⟨id, hid, heq⟩ := h.signed _ hmem
    cases heq
    exact Nat.lt_irrefl _ hid
  refine ⟨?_, fun x hx => ?_, fun x hx => ?_, fun v hv => ?_, fun x hx => ?_, ?_⟩
  · rw [roots_list]
    exact List.nodup_cons.2 ⟨fun hmem => Nat.lt_irrefl _ (hbound _ hmem), h.distinct⟩
  · rcases List.mem_cons.1 hx with rfl | hx
    · exact .list (Builder.items?_push_self b items)
        (hitems.imp fun _ _ hxy => shows_push items _ hxy)
    · exact stands_push items _ (h.stands x hx)
  · rcases List.mem_cons.1 hx with rfl | hx
    · exact hunsigned.symm
    · exact h.marks x hx
  · obtain ⟨id, hid, rfl⟩ := h.signed v hv
    exact ⟨id, by rw [Builder.size_push]; omega, rfl⟩
  · exact shows_push items _ (h.shows x hx)
  · exact h.view.withArena (fun _ _ hr => shows_push items _ hr)
      fun _ _ he => opener_push items _ he

theorem signed_atom (h : Agree opens closed b s) (x : Atom) :
    b.signed.contains (.atom x) = false := by
  rw [List.contains_eq_mem, decide_eq_false_iff_not]
  intro hmem
  obtain ⟨id, -, heq⟩ := h.signed _ hmem
  cases heq

/-- An atom has no list that could be changed. -/
theorem atom (h : Agree opens closed b s) (x : Atom) :
    Agree ((.atom x, { tree := .atom x }) :: opens) closed b s where
  distinct := h.distinct
  stands y hy := by
    rcases List.mem_cons.1 hy with rfl | hy
    · exact .atom x
    · exact h.stands y hy
  marks y hy := by
    rcases List.mem_cons.1 hy with rfl | hy
    · exact (h.signed_atom x).symm
    · exact h.marks y hy
  signed := h.signed
  shows := h.shows
  view := h.view

/-- Items that keep what a keyword token starts with. -/
def Keeps (rs rs' : List Raw) : Prop :=
  ∀ front, (∀ r ∈ front, r.hasTag "@tstring_content" = false) → front <+: rs → front <+: rs'

theorem keeps_append (rs more : List Raw) : Keeps rs (rs ++ more) :=
  fun _ _ hfront => hfront.trans (List.prefix_append rs more)

theorem keeps_set {i : Nat} (hi : rs[i]? = some r) (htag : r.hasTag "@tstring_content") (r' : Raw) :
    Keeps rs (rs.set i r') := by
  rintro front huntagged ⟨more, rfl⟩
  -- The item that is replaced is not in front.
  have hlt : front.length ≤ i := by
    by_contra hlt
    rw [List.getElem?_append_left (by omega)] at hi
    rw [huntagged r (List.mem_of_getElem? hi)] at htag
    exact absurd htag (by decide)
  rw [List.set_append_right _ _ hlt]
  exact List.prefix_append front _

section Update

variable {id : Nat} {items' : List Item}

/-- What is closed has no part in an open list. -/
theorem shows_setItems (h : b.arena.Shows (Closed ((.list id, t) :: opens)) r v) :
    (b.setItems (.list id) items').arena.Shows (Closed ((.list id, t) :: opens)) r v := by
  refine h.transfer fun i xs hi hstored => ⟨hi, ?_⟩
  have hne : i ≠ id := (closed_cons.1 hi).1
  exact (Builder.items?_setItems_ne (v := .list id) (w := .list i)
    (fun heq => hne (Item.list.inj heq).symm) items').trans hstored

theorem stands_setItems (h : b.arena.Stands (Closed ((.list id, t) :: opens)) r v)
    (hv : v ≠ .list id) :
    (b.setItems (.list id) items').arena.Stands (Closed ((.list id, t) :: opens)) r v := by
  cases h with
  | atom x => exact .atom x
  | @list i _ _ stored parts =>
    exact .list ((Builder.items?_setItems_ne hv.symm items').trans stored)
      (parts.imp fun _ _ hxy => shows_setItems hxy)

/-- An open list is changed, and nobody sees that. -/
theorem update (h : Agree ((.list id, t) :: opens) closed b s) {rs' : List Raw}
    (htree : t.tree = .list rs)
    (hitems : List.Forall₂ (b.arena.Shows (Closed ((.list id, t) :: opens))) rs' items')
    (hkeeps : Keeps rs rs') :
    Agree ((.list id, { t with tree := .list rs' }) :: opens) closed
      (b.setItems (.list id) items') s := by
  have hhead := h.head_stands
  rw [htree] at hhead
  have hself : (b.setItems (.list id) items').arena.Stands (Closed ((.list id, t) :: opens))
      (.list rs') (.list id) := by
    cases hhead with
    | list stored _ =>
      exact .list (Builder.items?_setItems_self (v := .list id) stored items')
        (hitems.imp fun _ _ hxy => shows_setItems hxy)
  refine ⟨h.distinct, fun x hx => ?_, fun x hx => ?_, fun v hv => ?_,
    fun x hx => shows_setItems (h.shows x hx), ?_⟩
  · rcases List.mem_cons.1 hx with rfl | hx
    · exact hself
    · refine stands_setItems (h.stands x (List.mem_cons_of_mem _ hx)) fun heq => ?_
      -- No two values have their top in common.
      have hdistinct := h.distinct
      exact (List.nodup_cons.1 hdistinct).1
        (List.mem_filterMap.2 ⟨x, hx, by rw [heq]; rfl⟩)
  · rcases List.mem_cons.1 hx with rfl | hx
    · exact h.marks (.list id, t) List.mem_cons_self
    · exact h.marks x (List.mem_cons_of_mem _ hx)
  · obtain ⟨i, hi, rfl⟩ := h.signed v hv
    exact ⟨i, by rw [Builder.size_setItems]; exact hi, rfl⟩
  · refine h.view.withArena (fun _ _ hr => shows_setItems hr) fun e e' he => ?_
    obtain ⟨htext, front, more, hentry, hscanned, huntagged, hstands⟩ := he
    by_cases hid : e'.1 = .list id
    · -- The keyword has been added to; its token is still in front.
      rw [hid] at hstands
      obtain rfl := Raw.list.inj (hstands.unique hhead)
      obtain ⟨more', rfl⟩ := hkeeps front huntagged (List.prefix_append front more)
      exact ⟨htext, front, more', hentry, hscanned, huntagged, hid ▸ hself⟩
    · exact ⟨htext, front, more, hentry, hscanned, huntagged, stands_setItems hstands hid⟩

end Update

end Agree

end Immutable

end RubyTree
