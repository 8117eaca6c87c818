import RubyTree.Proofs.Lower.Compared.Fit

/-!
# Fields in Two Runs

How the fields of a node are read in the two programs, and how the trees they are
lowered to are looked at. What is known of the raw trees below a node is given by
`Change.Visited`: they are as they should be, and lowering them runs in parallel.

A list that starts with a text is a node, and so is never read as a list of
things to lower: the text in front cannot be lowered. That is why a position is
found where a position is expected and nowhere else.

## Main definitions

* `Change.firstAt`, `Change.secondAt`: The fields of nodes with a position.
* `Change.Apt`: Raw trees that are as they should be.
* `Change.Visited`: Raw trees that are lowered in parallel.

## Theorems

* `lower_str`, `lower_untagged`: What cannot be lowered.
* `Visited.field`, `Visited.mapM_fields`: Fields that are lowered.
* `Visited.place`: A position that is lowered like something else.
* `Visited.overElements`: Steps over the elements of a field.
* `Visited.argumentList`: The arguments in a field.
-/

namespace RubyTree

/-- A node has one tag. -/
theorem Tree.hasTag_of_ne {t : Tree} {tag tag' : String} (h : t.hasTag tag) (hne : tag ≠ tag') :
    t.hasTag tag' = false := by
  match t, h with
  | .node (.str word) _ _, h =>
    obtain rfl : word = tag := by simpa [Tree.hasTag] using h
    simpa [Tree.hasTag] using hne

/-- The fields of a node after a change to each of them. -/
theorem Raw.item?_map (tag : String) (f : Raw → Raw) (fs : Fields) (i : Nat) :
    (Raw.list (.str tag :: fs.map f)).item? (i + 1) = (fs[i]?).map f := by
  simp only [Raw.item?, Raw.elements?, Option.bind_some, List.getElem?_cons_succ, List.getElem?_map]

namespace LowerM

/-- Nothing but a node is lowered. -/
theorem lower_eq_throw {r : Raw} (hempty : r.isEmpty = false) (htag : r.tag? = none) :
    lower r = throw .notANode := by
  rw [lower_eq_lowerWith]
  unfold lowerWith
  rw [if_neg (by simp [hempty])]
  split
  · cases htag
  · rfl

theorem lower_str {t : String} (h : t ≠ "") : lower (.str t) = throw .notANode :=
  lower_eq_throw (by simpa [Raw.isEmpty, Atom.isEmpty] using h) rfl

/-- A list that is no node is not lowered. -/
theorem lower_untagged {x : Raw} {items : List Raw} (h : (Raw.list (x :: items)).tag? = none) :
    lower (.list (x :: items)) = throw .notANode :=
  lower_eq_throw rfl h

/-- Arguments by what can be asked of a lowered tree. -/
theorem argumentList_eq (go : Visit) (r : Raw) : argumentList go r = do
    let t ← go r
    if t.isNull then return []
    else if ← (do isAmong ["arglist", "mrhs"] (← require t.tag?)) then childrenOf t
    else return [t] := by
  unfold argumentList
  refine bind_congr fun t => ?_
  cases t with
  | leaf v =>
    split
    · rename_i hnull
      rw [hnull]
      rfl
    · -- A leaf that is not null is refused by both.
      rename_i hnull hv
      cases hv
      have hfalse : (Tree.leaf v).isNull = false := by
        unfold Tree.isNull
        split
        · rename_i hv
          exact absurd (Tree.leaf.inj hv) hnull
        · rfl
      rw [hfalse]
      rfl
    · cases ‹Tree.leaf v = _›
  | node tag mark children => rfl

/-- A tag that was found is there. -/
theorem returns_isTagged {tag : String} {t : Tree} (h : Returns (isTagged tag t) true) :
    t.hasTag tag = true := by
  cases t with
  | leaf v => exact absurd h not_returns_throw
  | node tag' mark children => exact returns_pure h

/-- The first child, if there is one. -/
theorem firstChild_eq (t : Tree) : firstChild t = require (t.children?.bind List.head?) := by
  cases t with
  | leaf v => rfl
  | node tag mark children => rfl

end LowerM

open LowerM

namespace Change

section Trees

variable {c : Change} {t t' : Tree} {ts ts' : List Tree}

/-- Children agree, unless one side has numbered the block. -/
theorem parallel_childrenOf (h : c.Agree t t')
    (hblock : c = unnumbered → t.hasTag "numblock" = false) :
    c.TreeLists (childrenOf t) (childrenOf t') :=
  parallel_require (h.children? hblock)

/-- The first child of a numbered block is the same call. -/
theorem parallel_firstChild (h : c.Agree t t') : c.Trees (firstChild t) (firstChild t') := by
  rw [firstChild_eq, firstChild_eq]
  exact parallel_require h.firstChild

/-- Any tag but those of blocks may be asked for. -/
theorem parallel_isTagged {tag : String} (htag : tag ∉ ["block", "numblock"]) (h : c.Agree t t') :
    c.Parallel Eq (isTagged tag t) (isTagged tag t') := by
  have hsame := h.hasTag tag htag
  cases h with
  | leaf _ => exact parallel_throw _
  | node _ _ _ => exact parallel_pure hsame
  | block _ _ _ _ _ => exact parallel_pure hsame

/-- Children that are read only to have more added to them. -/
theorem parallel_moreChildren (h : c.Agree t t') {x y : LowerM (List Tree)}
    (hxy : c.TreeLists x y) :
    c.Trees (do let ts ← childrenOf t; return t.withChildren (ts ++ (← x)))
      (do let ts ← childrenOf t'; return t'.withChildren (ts ++ (← y))) := by
  have hsome := h.children?_isSome
  unfold childrenOf
  -- One tree has children if the other has.
  cases hts : t.children? with
  | none =>
    cases hts' : t'.children? with
    | none => exact parallel_throw _
    | some ts' =>
      rw [hts, hts'] at hsome
      cases hsome
  | some ts =>
    cases hts' : t'.children? with
    | none =>
      rw [hts, hts'] at hsome
      cases hsome
    | some ts' => exact hxy.map fun us us' hus => h.withChildren_append hus hts hts'

/-- More children at the end of both. -/
theorem parallel_addChildren (h : c.Agree t t') (hmore : c.AgreeAll ts ts') :
    c.Trees (addChildren t ts) (addChildren t' ts') :=
  parallel_moreChildren h (parallel_pure hmore)

theorem parallel_isAmong {tags : List String} (htags : ["block", "numblock"].all (!tags.contains ·))
    (h : c.Agree t t') :
    c.Parallel Eq (do isAmong tags (← require t.tag?)) (do isAmong tags (← require t'.tag?)) := by
  cases h with
  | leaf _ => exact parallel_throw _
  | node _ _ _ => exact (steady_isAmong tags _).parallel
  | block _ _ _ _ _ =>
    simp only [List.all_cons, List.all_nil, Bool.and_true, Bool.and_eq_true,
      Bool.not_eq_true'] at htags
    refine parallel_pure ?_
    simp only [Raw.text?, Atom.text?, Option.any_some, htags]

end Trees

/-- Raw trees all of whose nodes are as they should be. -/
structure Apt (c : Change) (Q : Raw → Prop) : Prop where
  atom (a : Atom) : Q (.atom a)
  item {items : List Raw} {x : Raw} : Q (.list items) → x ∈ items → Q x
  /-- The token that comes from joining a run of tokens to the first of them. -/
  joined {items : List Raw} (a : Atom) : Q (.list (.str "@tstring_content" :: items)) →
    Q (.list (.str "@tstring_content" :: .atom a :: items.drop 1))
  fits {tag : String} {fs : Fields} : Q (.list (.str tag :: fs)) → c.Fits tag fs

/-- Such raw trees that are also lowered in parallel. -/
structure Visited (c : Change) (Q : Raw → Prop) : Prop extends Apt c Q where
  visit {r : Raw} : Q r → c.Trees (lower (c.first r)) (lower (c.second r))

section Fields

variable {c : Change} {Q : Raw → Prop} {fs : Fields} {r : Raw} {α β : Type} {P : α → β → Prop}

/-- The fields of the first of two nodes with a position. -/
def firstAt (c : Change) (here : Bool) (place : Nat) (fs : Fields) : Fields :=
  Raw.relocateItems c.firstLine here (some place) fs

/-- The fields of the second of two nodes with a position. -/
def secondAt (c : Change) (here : Bool) (place : Nat) (fs : Fields) : Fields :=
  Raw.relocateItems c.secondLine here (some place) fs

theorem first_atom (a : Atom) : c.first (.atom a) = .atom a :=
  Raw.relocate_atom a

theorem second_atom (a : Atom) : c.second (.atom a) = .atom a :=
  Raw.relocate_atom a

/-- What counts as empty does so in both programs. -/
theorem isEmpty_image (r : Raw) : (c.second r).isEmpty = (c.first r).isEmpty := by
  rw [first, second, Raw.isEmpty_relocate, Raw.isEmpty_relocate]

theorem isNull_image (r : Raw) : (c.second r).isNull = (c.first r).isNull := by
  rw [first, second, Raw.isNull_relocate, Raw.isNull_relocate]

/-- A node has the same tag in both programs. -/
theorem hasTag_image (tag : String) (r : Raw) :
    (c.second r).hasTag tag = (c.first r).hasTag tag := by
  rw [first, second, Raw.hasTag_relocate, Raw.hasTag_relocate]

/-- A list without a tag has no position. -/
theorem first_untagged {items : List Raw} (h : (Raw.list items).tag? = none) :
    c.first (.list items) = .list (items.map c.first) :=
  Raw.relocate_untagged h

/-- A list without a tag has no position. -/
theorem second_untagged {items : List Raw} (h : (Raw.list items).tag? = none) :
    c.second (.list items) = .list (items.map c.second) :=
  Raw.relocate_untagged h

/-- A node of which no field is a position. -/
theorem first_node {tag : String} (h : Raw.positionField? tag = none) (fs : Fields) :
    c.first (.list (.str tag :: fs)) = .list (.str tag :: fs.map c.first) := by
  rw [first, Raw.relocate_node, h, Raw.relocateItems_none]

/-- A node whose position is of no use. -/
theorem second_node {tag : String} (h : Raw.positionField? tag = none) (fs : Fields) :
    c.second (.list (.str tag :: fs)) = .list (.str tag :: fs.map c.second) := by
  rw [second, Raw.relocate_node, h, Raw.relocateItems_none]

theorem get_first (fs : Fields) (i : Nat) : Fields.get (fs.map c.first) i = c.first (fs.get i) := by
  rw [show fs.map c.first = Raw.relocateItems c.firstLine false none fs from
    (Raw.relocateItems_none false fs).symm, Raw.get_relocateItems, if_neg (by simp)]
  rfl

theorem get_second (fs : Fields) (i : Nat) :
    Fields.get (fs.map c.second) i = c.second (fs.get i) := by
  rw [show fs.map c.second = Raw.relocateItems c.secondLine false none fs from
    (Raw.relocateItems_none false fs).symm, Raw.get_relocateItems, if_neg (by simp)]
  rfl

/-- A field that is not the position. -/
theorem get_firstAt (here : Bool) {place i : Nat} (hi : place ≠ i) (fs : Fields) :
    (c.firstAt here place fs).get i = c.first (fs.get i) := by
  rw [firstAt, Raw.get_relocateItems, if_neg (by simpa using hi)]
  rfl

/-- A field that is not the position. -/
theorem get_secondAt (here : Bool) {place i : Nat} (hi : place ≠ i) (fs : Fields) :
    (c.secondAt here place fs).get i = c.second (fs.get i) := by
  rw [secondAt, Raw.get_relocateItems, if_neg (by simpa using hi)]
  rfl

/-- The position itself. -/
theorem place_firstAt (here : Bool) (place : Nat) (fs : Fields) :
    (c.firstAt here place fs).get place = (c.first (fs.get place)).reline (c.firstLine here) := by
  rw [firstAt, Raw.get_relocateItems, if_pos rfl]
  rfl

/-- The position itself. -/
theorem place_secondAt (here : Bool) (place : Nat) (fs : Fields) :
    (c.secondAt here place fs).get place =
      (c.second (fs.get place)).reline (c.secondLine here) := by
  rw [secondAt, Raw.get_relocateItems, if_pos rfl]
  rfl

/-- The line of a node with a position. -/
theorem Sited.get {here : Bool} {i : Nat} (h : c.Sited (fs.get i)) :
    Option.Rel c.Lines ((c.firstAt here i fs).get i).positionLine?
      ((c.secondAt here i fs).get i).positionLine? := by
  rw [place_firstAt, place_secondAt]
  exact h.line? here

namespace Visited

theorem get (h : c.Visited Q) (hfs : fs.Within Q) (i : Nat) : Q (fs.get i) := by
  unfold Fields.get
  rw [List.getD_eq_getElem?_getD]
  cases hi : fs[i]? with
  | none => exact h.atom _
  | some r => exact hfs r (List.mem_of_getElem? hi)

/-- A field is visited in both programs. -/
theorem field (h : c.Visited Q) (hfs : fs.Within Q) (i : Nat) :
    c.Trees (lower (Fields.get (fs.map c.first) i)) (lower (Fields.get (fs.map c.second) i)) := by
  rw [get_first, get_second]
  exact h.visit (h.get hfs i)

/-- A field beside a position. -/
theorem beside (h : c.Visited Q) (hfs : fs.Within Q) {here : Bool} {place i : Nat}
    (hi : place ≠ i) :
    c.Trees (lower ((c.firstAt here place fs).get i))
      (lower ((c.secondAt here place fs).get i)) := by
  rw [get_firstAt here hi, get_secondAt here hi]
  exact h.visit (h.get hfs i)

theorem mapM_fields (h : c.Visited Q) (hfs : fs.Within Q) :
    c.TreeLists ((fs.map c.first).mapM lower) ((fs.map c.second).mapM lower) :=
  Parallel.mapM_map fun r hr => h.visit (hfs r hr)

/-- The fields of a node are within reach. -/
theorem within (h : c.Visited Q) {x : Raw} (hr : Q (.list (x :: fs))) : fs.Within Q :=
  fun _ hx => h.item hr (List.mem_cons_of_mem _ hx)

/-- A position is not lowered, and what is none is not changed. -/
theorem place (h : c.Visited Q) (hr : Q r) (here : Bool) :
    c.Trees (lower ((c.first r).reline (c.firstLine here)))
      (lower ((c.second r).reline (c.secondLine here))) := by
  -- A position starts with a line, and a list that starts with a number is not lowered.
  by_cases hint : ∃ l rest, r = .list (.int l :: rest)
  · obtain ⟨l, rest, rfl⟩ := hint
    have hthrow : ∀ {line : Bool → Raw → Raw} (rest : List Raw), Raw.Relines line →
        lower (.list (line here (.int l) :: rest)) = throw .notANode := by
      intro line rest hline
      refine lower_untagged ?_
      obtain ⟨l', hl' | hl'⟩ := hline.integer here l
      · rw [hl']
        rfl
      · rw [hl']
        rfl
    rw [first_untagged rfl, second_untagged rfl, List.map_cons, List.map_cons, first_atom,
      second_atom, Raw.reline, Raw.reline, hthrow _ c.relines_firstLine,
      hthrow _ c.relines_secondLine]
    exact parallel_throw _
  · have hsame : ∀ {line : Bool → Raw → Raw}, Raw.Relines line →
        (Raw.relocate line r).reline (line here) = Raw.relocate line r := by
      intro line hline
      exact Raw.reline_relocate hline here fun l rest hr => hint ⟨l, rest, hr⟩
    rw [first, second, hsame c.relines_firstLine, hsame c.relines_secondLine]
    exact h.visit hr

/-- Steps over the elements of a field. A node is no list of elements, since the
    step fails on its tag. -/
theorem overElements (h : c.Visited Q) (hr : Q r) {f : Raw → LowerM α} {g : Raw → LowerM β}
    (hfg : ∀ x ∈ r.elements?.getD [], Q x → c.Parallel P (f (c.first x)) (g (c.second x)))
    (hfail : ∀ t a, t ≠ "" → ¬ Returns (f (.str t)) a) :
    c.Parallel (List.Forall₂ P) (do (← elementsOf (c.first r)).mapM f)
      (do (← elementsOf (c.second r)).mapM g) := by
  unfold elementsOf
  rw [first, second, Raw.isEmpty_relocate, Raw.isEmpty_relocate]
  by_cases hempty : r.isEmpty
  · simp only [hempty, if_true, pure_bind, List.mapM_nil]
    exact parallel_pure .nil
  · simp only [hempty, Bool.false_eq_true, if_false]
    cases r with
    | atom a =>
      rw [Raw.relocate_atom, Raw.relocate_atom]
      cases helements : (Raw.atom a).elements? with
      | none => exact parallel_throw _
      | some items =>
        rw [helements] at hfg
        refine Parallel.mapM (List.forall₂_same.2 fun x hx => ?_) fun _ _ hxy => hxy
        obtain ⟨a, rfl⟩ := Raw.exists_atom_of_mem helements hx
        have hatom := hfg (.atom a) hx (h.atom a)
        rwa [first_atom, second_atom] at hatom
    | list items =>
      have hmap : c.Parallel (List.Forall₂ P) ((items.map c.first).mapM f)
          ((items.map c.second).mapM g) :=
        Parallel.mapM_map fun x hx => hfg x hx (h.item hr hx)
      -- A list with a tag fails at its first element, unless the tag is empty.
      cases htag : (Raw.list items).tag? with
      | none =>
        rw [Raw.relocate_untagged htag, Raw.relocate_untagged htag]
        exact hmap
      | some t =>
        obtain ⟨fs, rfl⟩ := Raw.exists_fields htag
        rw [Raw.relocate_node, Raw.relocate_node]
        by_cases hnil : t = ""
        · subst hnil
          rw [show Raw.positionField? "" = none from rfl, Raw.relocateItems_none,
            Raw.relocateItems_none]
          simp only [List.map_cons, first_atom, second_atom] at hmap
          exact hmap
        · have htext := hfg (.str t) List.mem_cons_self (h.atom _)
          rw [first_atom, second_atom] at htext
          simp only [Raw.elements?, require, pure_bind, List.mapM_cons]
          exact htext.bind fun a _ _ ha _ => absurd ha (hfail t a hnil)

/-- The elements of a field are visited in both programs. -/
theorem visitAll (h : c.Visited Q) (hr : Q r) :
    c.TreeLists (LowerM.visitAll lower (c.first r)) (LowerM.visitAll lower (c.second r)) := by
  refine h.overElements hr (fun x _ hx => h.visit hx) fun t a ht ha => ?_
  rw [lower_str ht] at ha
  exact not_returns_throw ha

theorem visitBody (h : c.Visited Q) (hr : Q r) :
    c.Trees (LowerM.visitBody lower (c.first r)) (LowerM.visitBody lower (c.second r)) :=
  (h.visit hr).map fun _ _ ht => ht.dropVoid

/-- Arguments are the children of a list in both programs or in neither. -/
theorem argumentList (h : c.Visited Q) (hr : Q r) :
    c.TreeLists (LowerM.argumentList lower (c.first r))
      (LowerM.argumentList lower (c.second r)) := by
  rw [argumentList_eq, argumentList_eq]
  refine (h.visit hr).andThen fun t t' ht => ?_
  rw [ht.isNull]
  split
  · exact parallel_pure .nil
  · cases ht with
    | leaf _ => exact parallel_throw _
    | node hmark hkept hts =>
      refine (steady_isAmong _ _).parallel.andThen fun b _ hb => ?_
      subst hb
      split
      · exact parallel_pure hts
      · exact parallel_pure (.single (.node hmark hkept hts))
    | block hc hmark hcall hbody hts =>
      exact parallel_pure (.single (.block hc hmark hcall hbody hts))

end Visited

end Fields

end Change

end RubyTree
