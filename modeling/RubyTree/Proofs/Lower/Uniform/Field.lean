import RubyTree.Proofs.Lower.Step

/-!
# Uniformity in the Visitor

Productions never look at how a part is lowered: all they do with the visitor
is call it and go on with the result. So whatever relates the calls of two
visitors relates what is built from them, as long as the relation is respected
by the few operations that steps are put together with. `Congruence` lists these
operations, and `Related` adds two visitors that are related on everything within
reach.

Looking a name up is not among the operations, since two steps may know different
names. The two productions that do so are related where the look-ups are.

Stated this way the walk over all productions is made once. Taking equality for
the relation shows that the depth a tree is lowered up to does not matter once
it is enough; taking a property of the first step alone shows that everything
built has this property.

What is within reach is a property that the parts of a raw tree share with it,
like not being too deep. The lemmas here are about the fields of a node.

## Main definitions

* `Raw.Hereditary`: A property that raw trees share with their parts.
* `Congruence`: A relation that the operations on steps respect.
* `Related`: Visitors that are related on everything within reach.
* `Fields.Within`: Fields within reach.

## Theorems

* `Hereditary.element`, `Hereditary.item?`: The elements of a value are within reach.
* `hereditary_depth`: Trees that are at most so deep.
* `Related.get`: A field that may be missing is within reach.
* `Congruence.mapM`: Steps over a list.
* `Related.argumentList`: The arguments in a field.
-/

namespace RubyTree

namespace Raw

/-- A property that raw trees share with their parts, and with the token that comes
    from joining a run of tokens to the first of them. -/
structure Hereditary (Q : Raw → Prop) : Prop where
  atom (a : Atom) : Q (atom a)
  item {items : List Raw} {x : Raw} : Q (list items) → x ∈ items → Q x
  joined {items : List Raw} (a : Atom) :
    Q (list items) → Q (list (str "@tstring_content" :: .atom a :: items.drop 2))

namespace Hereditary

variable {Q : Raw → Prop} {r x a b : Raw}

/-- An element of a list is an item of it, and one of a text is an atom. -/
theorem element (h : Hereditary Q) {items : List Raw} (hr : Q r) (hitems : r.elements? = some items)
    (hx : x ∈ items) : Q x := by
  cases r with
  | list l =>
    simp only [elements?, Option.some.injEq] at hitems
    subst hitems
    exact h.item hr hx
  | atom a =>
    -- The elements of a text are its characters, and these are atoms.
    have hatom : ∃ b, x = .atom b := by
      cases a <;> simp only [elements?, Atom.text?, Option.map_some, Option.map_none,
        Option.some.injEq, reduceCtorEq] at hitems <;> subst hitems <;>
        obtain ⟨_, _, rfl⟩ := List.mem_map.1 hx <;> exact ⟨_, rfl⟩
    obtain ⟨b, rfl⟩ := hatom
    exact h.atom b

theorem item? (h : Hereditary Q) {i : Nat} (hr : Q r) (hx : r.item? i = some x) : Q x := by
  obtain ⟨items, hitems, hx⟩ := Option.bind_eq_some_iff.1 hx
  exact h.element hr hitems (List.mem_of_getElem? hx)

theorem item_getD (h : Hereditary Q) (hr : Q r) (i : Nat) : Q ((r.item? i).getD null) := by
  cases hx : r.item? i with
  | none => exact h.atom _
  | some x => exact h.item? hr hx

theorem pair (h : Hereditary Q) (hr : Q r) (hpair : r.pair? = some (a, b)) : Q a ∧ Q b := by
  simp only [pair?] at hpair
  split at hpair
  · rename_i x y hxy
    obtain ⟨rfl, rfl⟩ : x = a ∧ y = b := by
      simpa only [Option.some.injEq, Prod.mk.injEq] using hpair
    exact ⟨h.element hr hxy (.head _), h.element hr hxy (.tail _ (.head _))⟩
  · cases hpair

theorem and {Q' : Raw → Prop} (h : Hereditary Q) (h' : Hereditary Q') :
    Hereditary fun r => Q r ∧ Q' r where
  atom a := ⟨h.atom a, h'.atom a⟩
  item hr hx := ⟨h.item hr.1 hx, h'.item hr.2 hx⟩
  joined a hr := ⟨h.joined a hr.1, h'.joined a hr.2⟩

end Hereditary

theorem depthItems_drop_le (k : Nat) (items : List Raw) :
    depthItems (items.drop k) ≤ depthItems items := by
  induction items generalizing k with
  | nil => simp only [List.drop_nil, Nat.le_refl]
  | cons r rs ih =>
    cases k with
    | zero => exact Nat.le_refl _
    | succ k =>
      rw [List.drop_succ_cons, depthItems]
      exact Nat.le_trans (ih k) (Nat.le_max_right _ _)

theorem hereditary_depth (n : Nat) : Hereditary (·.depth ≤ n) where
  atom _ := Nat.zero_le n
  item hr hx := Nat.le_of_lt (Nat.lt_of_lt_of_le (depth_lt_of_mem hx) hr)
  joined {items} _ hr := by
    have htail := depthItems_drop_le 2 items
    simp only [depth, depthItems] at hr ⊢
    omega

end Raw

/-- Fields that are within reach. -/
def Fields.Within (Q : Raw → Prop) (fs : Fields) : Prop :=
  ∀ r ∈ fs, Q r

namespace Fields

theorem Within.of_subset {Q : Raw → Prop} {fs gs : Fields} (h : Within Q fs) (hs : gs ⊆ fs) :
    Within Q gs :=
  fun r hr => h r (hs hr)

/-- The fields of a node are less deep than the node. -/
theorem within_of_depth_le {n : Nat} {r : Raw} (h : r.depth ≤ n + 1) (tag : Raw) (fs : Fields)
    (hr : r = .list (tag :: fs)) : Within (·.depth ≤ n) fs := by
  intro x hx
  have hlt := Raw.depth_lt_of_mem (List.mem_cons_of_mem tag hx)
  rw [← hr] at hlt
  omega

end Fields

namespace LowerM

/-- A relation between steps that holds of larger steps if it holds of what
    they are put together from. The second of two steps need only be related
    on what the first one returns. -/
structure Congruence (R : ∀ {α : Type}, LowerM α → LowerM α → Prop) : Prop where
  pure {α : Type} (a : α) : R (pure a) (pure a)
  throw {α : Type} (e : Error) : R (throw e : LowerM α) (throw e)
  bindReturned {α β : Type} {x y : LowerM α} {f g : α → LowerM β} :
    R x y → (∀ a, Returns x a → R (f a) (g a)) → R (x >>= f) (y >>= g)
  read : R (read : LowerM Options) read
  inMethod {α : Type} (f : Bool → α) :
    R (do return f (← get).inMethod) (do return f (← get).inMethod)
  bindLocal (name : String) : R (bindLocal name) (bindLocal name)
  freshNumber : R freshNumber freshNumber
  inBody {α : Type} (method : Bool) {x y : LowerM α} :
    R x y → R (inBody method x) (inBody method y)
  withRest {α : Type} (name : Tree) {x y : LowerM α} :
    R x y → R (withRest name x) (withRest name y)

/-- Visitors that are related on everything within reach. -/
structure Related (R : ∀ {α : Type}, LowerM α → LowerM α → Prop) (Q : Raw → Prop)
    (go go' : Visit) : Prop extends Congruence R where
  hereditary : Raw.Hereditary Q
  visit (r : Raw) : Q r → R (go r) (go' r)

/-- The elements of a field are within reach if the field is. -/
theorem elementsOf_within {Q : Raw → Prop} (hQ : Raw.Hereditary Q) {r : Raw} {items : List Raw}
    (hr : Q r) (h : Returns (elementsOf r) items) : Fields.Within Q items := by
  intro x hx
  unfold elementsOf at h
  split at h
  · rw [← returns_pure h] at hx
    cases hx
  · exact hQ.element hr (returns_require h) hx

section Fields

variable {R : ∀ {α : Type}, LowerM α → LowerM α → Prop} {Q : Raw → Prop} {go go' : Visit}

namespace Congruence

theorem bind (h : Congruence R) {α β : Type} {x y : LowerM α} {f g : α → LowerM β}
    (hxy : R x y) (hfg : ∀ a, R (f a) (g a)) : R (x >>= f) (y >>= g) :=
  h.bindReturned hxy fun a _ => hfg a

theorem mapM (h : Congruence R) {α β : Type} {f g : α → LowerM β} :
    ∀ {l : List α}, (∀ a ∈ l, R (f a) (g a)) → R (l.mapM f) (l.mapM g)
  | [], _ => by
    simp only [List.mapM_nil]
    exact h.pure _
  | a :: l, hl => by
    simp only [List.mapM_cons]
    refine h.bind (hl a List.mem_cons_self) fun b => ?_
    refine h.bind (h.mapM fun x hx => hl x (List.mem_cons_of_mem a hx)) fun bs => ?_
    exact h.pure _

theorem forM (h : Congruence R) {α : Type} {f g : α → LowerM PUnit} :
    ∀ {l : List α}, (∀ a ∈ l, R (f a) (g a)) → R (l.forM f) (l.forM g)
  | [], _ => h.pure _
  | a :: _, hl =>
    h.bind (hl a List.mem_cons_self) fun _ =>
      h.forM fun x hx => hl x (List.mem_cons_of_mem a hx)

theorem require (h : Congruence R) {α : Type} (o : Option α) :
    R (LowerM.require o) (LowerM.require o) := by
  cases o with
  | none => exact h.throw _
  | some a => exact h.pure a

theorem ofExcept (h : Congruence R) {α : Type} (x : Except Error α) :
    R (LowerM.ofExcept x) (LowerM.ofExcept x) := by
  cases x with
  | error e => exact h.throw e
  | ok a => exact h.pure a

theorem nameIn (h : Congruence R) (token : Raw) : R (LowerM.nameIn token) (LowerM.nameIn token) :=
  h.bind (h.require _) fun _ => h.pure _

theorem nameOf (h : Congruence R) (token : Raw) :
    R (LowerM.nameOf token) (LowerM.nameOf token) := by
  unfold LowerM.nameOf
  split
  · exact h.pure _
  · exact h.nameIn token

theorem nameFrom (h : Congruence R) (t : Tree) : R (LowerM.nameFrom t) (LowerM.nameFrom t) :=
  h.bind (h.ofExcept _) fun _ => h.pure _

theorem clippedName (h : Congruence R) (text : Raw) :
    R (LowerM.clippedName text) (LowerM.clippedName text) :=
  h.bind (h.require _) fun _ => h.pure _

theorem literalText (h : Congruence R) (fs : Fields) :
    R (LowerM.literalText fs) (LowerM.literalText fs) :=
  h.bind (h.require _) fun _ => h.pure _

theorem isTagged (h : Congruence R) (tag : String) (t : Tree) :
    R (LowerM.isTagged tag t) (LowerM.isTagged tag t) := by
  cases t with
  | leaf v => exact h.throw _
  | node tag' mark children => exact h.pure _

theorem isAmong (h : Congruence R) (tags : List String) (tag : Raw) :
    R (LowerM.isAmong tags tag) (LowerM.isAmong tags tag) := by
  unfold LowerM.isAmong
  split
  · exact h.pure _
  · exact h.throw _

theorem childrenOf (h : Congruence R) (t : Tree) :
    R (LowerM.childrenOf t) (LowerM.childrenOf t) :=
  h.require _

theorem firstChild (h : Congruence R) (t : Tree) : R (LowerM.firstChild t) (LowerM.firstChild t) :=
  h.bind (h.childrenOf t) fun _ => h.require _

theorem addChildren (h : Congruence R) (t : Tree) (more : List Tree) :
    R (LowerM.addChildren t more) (LowerM.addChildren t more) :=
  h.bind (h.childrenOf t) fun _ => h.pure _

theorem elementsOf (h : Congruence R) (r : Raw) :
    R (LowerM.elementsOf r) (LowerM.elementsOf r) := by
  unfold LowerM.elementsOf
  split
  · exact h.pure _
  · exact h.require _

end Congruence

namespace Related

theorem get (h : Related R Q go go') {fs : Fields} (hfs : fs.Within Q) (i : Nat) :
    Q (fs.get i) := by
  unfold Fields.get
  rw [List.getD_eq_getElem?_getD]
  cases hi : fs[i]? with
  | none => exact h.hereditary.atom _
  | some r => exact hfs r (List.mem_of_getElem? hi)

theorem field (h : Related R Q go go') {fs : Fields} (hfs : fs.Within Q) (i : Nat) :
    R (go (fs.get i)) (go' (fs.get i)) :=
  h.visit _ (h.get hfs i)

theorem mapM_fields (h : Related R Q go go') {fs : Fields} (hfs : fs.Within Q) :
    R (fs.mapM go) (fs.mapM go') :=
  h.mapM fun r hr => h.visit r (hfs r hr)

/-- Steps over the elements of a field. -/
theorem overElements (h : Related R Q go go') {α : Type} {f g : Raw → LowerM α} {r : Raw}
    (hr : Q r) (hfg : ∀ x : Raw, Q x → R (f x) (g x)) :
    R (do (← LowerM.elementsOf r).mapM f) (do (← LowerM.elementsOf r).mapM g) :=
  h.bindReturned (h.elementsOf r) fun _ hitems =>
    h.mapM fun x hx => hfg x (elementsOf_within h.hereditary hr hitems x hx)

theorem visitAll (h : Related R Q go go') {r : Raw} (hr : Q r) :
    R (LowerM.visitAll go r) (LowerM.visitAll go' r) :=
  h.overElements hr h.visit

theorem argumentList (h : Related R Q go go') {r : Raw} (hr : Q r) :
    R (LowerM.argumentList go r) (LowerM.argumentList go' r) := by
  unfold LowerM.argumentList
  refine h.bind (h.visit r hr) fun t => ?_
  split
  · exact h.pure _
  · exact h.throw _
  · refine h.bind (h.isAmong _ _) fun b => ?_
    split
    · exact h.pure _
    · exact h.pure _

end Related

end Fields

end LowerM

end RubyTree
