import RubyTree.Proofs.Lower.Compared.Block

/-!
# Lowering in Two Runs

Lowering runs in parallel on raw trees all of whose nodes are as they should be.
A node is lowered by its production, and each production runs in parallel if its
fields do; so the proof is by induction on the depth of the raw tree.

Some productions say with which tag they build. None of these tags is looked into
later, apart from that of a local variable, which a production builds in the form
that is expected of it.

## Main definitions

* `Production.built?`: The tag that a production says it builds with.
* `Change.Everywhere`: Raw trees all of whose nodes fit.

## Theorems

* `Visited.production`: Productions run in parallel.
* `Apt.lower`: Raw trees are lowered in parallel.
* `Everywhere.lower`: The same, if every node fits.
* `everywhere_renumbered`: Nothing is asked of raw trees that are numbered otherwise.
-/

namespace RubyTree

open LowerM

namespace Production

/-- The tag that a production says it builds with. -/
def built? : Production → Option String
  | single tag => some tag
  | double tag => some tag
  | bare tag => some tag
  | withArgs tag => some tag
  | fields tag => some tag
  | each tag => some tag
  | hook tag => some tag
  | parts tag => some tag
  | collection tag => some tag
  | namedParam tag => some tag
  | _ => none

/-- Whether a production names what a token holds. -/
def isToken : Production → Bool
  | name _ => true
  | constant => true
  | label => true
  | keyword => true
  | backReference => true
  | character => true
  | content => true
  | _ => false

/-- The one tag that a production is for. -/
def only? : Production → Option String
  | keyword => some "@kw"
  | content => some "@tstring_content"
  | body => some "bodystmt"
  | documented => some "comment"
  | _ => none

/-- The word of a loop. -/
def word? : Production → Option String
  | loop word => some word
  | loopModifier word => some word
  | _ => none

section Table

variable {tag : String} {p : Production}

theorem built_notMem {t : String} (h : ofTag? tag = some p) (ht : p.built? = some t) :
    t ∉ Change.lookedInto := by
  have htable : ∀ e ∈ table, e.2.built?.all (!Change.lookedInto.contains ·) := by decide +kernel
  have hall := htable (tag, p) (mem_table_of_ofTag? h)
  rw [ht] at hall
  simpa using hall

theorem name_notMem {t : String} (h : ofTag? tag = some (name t)) :
    t = "lvar" ∨ t ∉ Change.lookedInto := by
  have htable : ∀ e ∈ table, ∀ t ∈ ["lvar", "field", "numblock"], e.2 = name t → t = "lvar" := by
    decide +kernel
  by_cases ht : t ∈ Change.lookedInto
  · exact .inl (htable _ (mem_table_of_ofTag? h) t ht rfl)
  · exact .inr ht

theorem word_of_loop {w : String}
    (h : ofTag? tag = some (loop w) ∨ ofTag? tag = some (loopModifier w)) :
    w ∈ ["while", "until"] := by
  have htable : ∀ e ∈ table, e.2.word?.all (["while", "until"].contains ·) := by decide +kernel
  have hall : ["while", "until"].contains w := by
    rcases h with h | h
    · exact htable _ (mem_table_of_ofTag? h)
    · exact htable _ (mem_table_of_ofTag? h)
  simpa using hall

theorem isScanner_of_isToken (h : ofTag? tag = some p) (hp : p.isToken) : Raw.isScanner tag := by
  have htable : ∀ e ∈ table, e.2.isToken → Raw.isScanner e.1 := by decide +kernel
  exact htable _ (mem_table_of_ofTag? h) hp

theorem tag_eq {t : String} (h : ofTag? tag = some p) (ht : p.only? = some t) : tag = t := by
  have htable : ∀ e ∈ table, e.2.only?.all (e.1 == ·) := by decide +kernel
  have hall := htable _ (mem_table_of_ofTag? h)
  rw [ht] at hall
  simpa using hall

end Table

end Production

namespace Change

variable {c : Change} {Q : Raw → Prop} {fs : Fields} {tag : String} {p : Production} {here : Bool}

namespace Visited

/-- Nodes of which no field is a position. -/
theorem production_plain (h : c.Visited Q) (hfs : fs.Within Q) (hp : Production.ofTag? tag = some p)
    (hfits : c.Fits tag fs) (hplace : p.position? = none) :
    c.Trees (p.lower lower (fs.map c.first)) (p.lower lower (fs.map c.second)) := by
  have hnames := hfits.names p hp
  have hopened := hfits.opened p hp
  -- By the production; those with a position are excluded.
  cases p with
  | within => exact h.field hfs 0
  | part =>
    simp only [Production.lower, get_first, get_second]
    exact h.visitBody (h.get hfs 0)
  | single tag => exact h.lowerSingle hfs (Production.built_notMem hp rfl)
  | double tag => exact h.lowerDouble hfs (Production.built_notMem hp rfl)
  | bare tag => exact parallel_pure (agree_bare (Production.built_notMem hp rfl) .nil)
  | withArgs tag => exact h.lowerWithArgs hfs (Production.built_notMem hp rfl)
  | fields tag => exact h.lowerFields hfs (Production.built_notMem hp rfl)
  | each tag => exact h.lowerEach hfs (Production.built_notMem hp rfl)
  | statements => exact h.lowerStatements hfs
  | empty => cases hplace
  | documented => exact h.lowerDocumented hfs (hfits.comment (Production.tag_eq hp rfl))
  | paren => exact h.lowerParen hfs
  | hook tag => cases hplace
  | moduleDef => cases hplace
  | classDef => cases hplace
  | singletonClass => cases hplace
  | method => cases hplace
  | singletonMethod => cases hplace
  | globalAlias =>
    exact parallel_lowerGlobalAlias (hnames _ (.head _)) (hnames _ (.tail _ (.head _)))
  | name tag => cases hplace
  | constant => cases hplace
  | scopedConstant => exact h.lowerScopedConstant hfs (hnames _ (.head _))
  | topConstant => exact parallel_lowerTopConstant (hnames _ (.head _))
  | label => cases hplace
  | keyword => cases hplace
  | backReference => cases hplace
  | integer => cases hplace
  | float => cases hplace
  | rational => cases hplace
  | imaginary => cases hplace
  | character => cases hplace
  | content => cases hplace
  | string => exact h.lowerString hfs
  | parts tag => exact h.lowerParts hfs (Production.built_notMem hp rfl)
  | embedded => exact h.lowerEmbedded hfs
  | embeddedVariable => exact h.lowerEmbeddedVariable hfs
  | regexp => exact h.lowerRegexp hfs
  | symbolLiteral =>
    refine h.lowerSymbolLiteral hfs fun htag => hnames _ ?_
    simp [Production.names, htag]
  | symbol =>
    simp only [Production.lower, get_first, get_second]
    exact h.symbolContent (h.get hfs 0) (hnames _ (.head _))
  | quotedSymbol =>
    simp only [Production.lower, get_first, get_second]
    exact h.quotedSymbolContent (h.get hfs 0)
      (hfits.quoted _ hp _ (.head _)) (hopened _ (.head _))
  | symbolWords =>
    refine (Parallel.mapM_map fun r hr => ?_).map fun _ _ hts => agree_bare (by decide) hts
    exact h.symbolContent (hfs r hr) (hnames r hr)
  | quotedSymbolWords =>
    refine (Parallel.mapM_map fun r hr => ?_).map fun _ _ hts => agree_bare (by decide) hts
    exact h.quotedSymbolContent (hfs r hr) (hfits.quoted _ hp r hr) (hopened r hr)
  | collection tag =>
    exact h.lowerCollection hfs (hopened _ (.head _)) (Production.built_notMem hp rfl)
  | pair =>
    refine h.lowerPair hfs fun hnull => hfits.spelled _ hp _ ?_
    simp [Production.spelled, hnull]
  | assign => exact h.lowerAssign hfs
  | multiAssign => exact h.lowerMultiAssign hfs
  | operatorAssign =>
    exact h.lowerOperatorAssign hfs (hnames _ (.head _)) (hopened _ (.head _))
  | targets => exact h.lowerTargets hfs
  | targetsStar => exact h.lowerTargetsStar hfs
  | targetsPost => exact h.lowerTargetsPost hfs
  | valuesFromArgs => exact h.lowerValuesFromArgs hfs
  | valuesStar => exact h.lowerValuesStar hfs (hopened _ (.head _))
  | indexTarget => exact h.lowerIndexTarget hfs
  | attributeTarget =>
    exact h.lowerAttributeTarget hfs (hnames _ (.head _)) (hnames _ (.tail _ (.head _)))
  | call => exact h.lowerCall hfs (hnames _ (.head _)) (hnames _ (.tail _ (.head _)))
  | command => exact h.lowerCommand hfs (hnames _ (.head _))
  | commandCall => exact h.lowerCommandCall hfs (hnames _ (.head _)) (hnames _ (.tail _ (.head _)))
  | bareName => exact parallel_lowerBareName (hnames _ (.head _))
  | function => exact parallel_lowerFunction (hnames _ (.head _))
  | callWithArgs => exact h.lowerCallWithArgs hfs
  | argParen => exact h.lowerArgParen hfs
  | argsBlock => exact h.lowerArgsBlock hfs
  | argsStar => exact h.lowerArgsStar hfs
  | index => exact h.lowerIndex hfs
  | blockCall => exact h.lowerBlockCall hfs (hfits.params _ hp)
  | blockBody => exact h.lowerBlockBody hfs
  | lambda => exact h.lowerLambda hfs (hfits.params _ hp)
  | blockParams => exact h.lowerBlockParams hfs hnames
  | params => exact h.lowerParams hfs hnames
  | namedParam tag =>
    exact parallel_lowerNamedParam (hnames _ (.head _)) (Production.built_notMem hp rfl)
  | begin => cases hplace
  | body => exact h.lowerBody hfs (hfits.chain (Production.tag_eq hp rfl))
  | rescueModifier => exact h.lowerRescueModifier hfs
  | conditional => exact h.lowerIf hfs
  | unlessConditional => exact h.lowerUnless hfs
  | ifModifier => exact h.lowerIfModifier hfs
  | unlessModifier => exact h.lowerUnlessModifier hfs
  | ternary => exact h.lowerTernary hfs
  | choice => exact h.lowerCase hfs
  | loop word => exact h.lowerLoop hfs (Production.word_of_loop (.inl hp))
  | loopModifier word => exact h.lowerLoopModifier hfs (Production.word_of_loop (.inr hp))
  | forLoop => exact h.lowerFor hfs
  | arrayPattern => exact h.lowerArrayPattern hfs
  | findPattern => exact h.lowerFindPattern hfs
  | hashPattern => exact h.lowerHashPattern hfs (hfits.spelled _ hp)
  | binary => exact h.lowerBinary hfs
  | unary => exact h.lowerUnary hfs

/-- Nodes with a position. -/
theorem production_placed (h : c.Visited Q) (hfs : fs.Within Q)
    (hp : Production.ofTag? tag = some p) (hfits : c.Fits tag fs) {i : Nat}
    (hplace : p.position? = some i) :
    c.Trees (p.lower lower (c.firstAt (Raw.isLineWord (.str tag :: fs)) i fs))
      (p.lower lower (c.secondAt (Raw.isLineWord (.str tag :: fs)) i fs)) := by
  have hnames := hfits.names p hp
  have hsited : c.Sited (fs.get i) :=
    hfits.place i ((Production.positionField?_eq hp).trans hplace)
  have htext : p.isToken → c.Plain (fs.get 0) := fun htoken =>
    hfits.text (Production.isScanner_of_isToken hp htoken)
  -- By the production; only those with a position are left.
  cases p with
  | empty =>
    cases hplace
    exact parallel_lowerEmpty hsited
  | hook tag =>
    cases hplace
    exact h.lowerHook hfs hsited (Production.built_notMem hp rfl)
  | moduleDef =>
    cases hplace
    exact h.lowerModule hfs hsited
  | classDef =>
    cases hplace
    exact h.lowerClass hfs hsited
  | singletonClass =>
    cases hplace
    exact h.lowerSingletonClass hfs hsited
  | method =>
    cases hplace
    exact h.lowerMethod hfs hsited (hnames _ (.head _))
  | singletonMethod =>
    cases hplace
    exact h.lowerSingletonMethod hfs hsited (hnames _ (.head _))
  | name tag =>
    cases hplace
    exact parallel_lowerName (Production.name_notMem hp) (htext rfl) hsited
  | constant =>
    cases hplace
    exact parallel_lowerConstant (htext rfl) hsited
  | label =>
    cases hplace
    exact parallel_lowerLabel (htext rfl) hsited
  | keyword =>
    cases hplace
    obtain rfl : tag = "@kw" := Production.tag_eq hp rfl
    refine parallel_lowerKeyword (htext rfl) hsited (hfits.word rfl) fun hhere => ?_
    cases fs with
    | nil => cases hhere
    | cons word rest => exact hhere
  | backReference =>
    cases hplace
    exact parallel_lowerBackReference (htext rfl) hsited
  | integer =>
    cases hplace
    exact parallel_lowerInteger hsited
  | float =>
    cases hplace
    exact parallel_lowerFloat hsited
  | rational =>
    cases hplace
    exact parallel_lowerRational hsited
  | imaginary =>
    cases hplace
    exact parallel_lowerImaginary hsited
  | character =>
    cases hplace
    exact parallel_lowerCharacter (htext rfl) hsited
  | content =>
    cases hplace
    obtain rfl : tag = "@tstring_content" := Production.tag_eq hp rfl
    exact (parallel_lowerContent (htext rfl) hsited).mono fun _ _ ht => ht.agree
  | begin =>
    cases hplace
    exact h.lowerBegin hfs hsited
  | _ => cases hplace

theorem production (h : c.Visited Q) (hfs : fs.Within Q) (hp : Production.ofTag? tag = some p)
    (hfits : c.Fits tag fs) :
    c.Trees (p.lower lower (Raw.relocateItems c.firstLine (Raw.isLineWord (.str tag :: fs))
        (Raw.positionField? tag) fs))
      (p.lower lower (Raw.relocateItems c.secondLine (Raw.isLineWord (.str tag :: fs))
        (Raw.positionField? tag) fs)) := by
  rw [Production.positionField?_eq hp]
  cases hplace : p.position? with
  | none =>
    rw [Raw.relocateItems_none, Raw.relocateItems_none]
    exact h.production_plain hfs hp hfits hplace
  | some i => exact h.production_placed hfs hp hfits hplace

/-- A raw tree whose items are lowered in parallel. -/
theorem lower_list (h : c.Visited Q) {items : List Raw} (hitems : Fields.Within Q items)
    (hfits : ∀ tag fs, items = .str tag :: fs → c.Fits tag fs) :
    c.Trees (lower (c.first (.list items))) (lower (c.second (.list items))) := by
  cases htag : (Raw.list items).tag? with
  | none =>
    cases items with
    | nil =>
      rw [first_untagged htag, second_untagged htag, List.map_nil, List.map_nil]
      exact parallel_pure (agree_leaf _)
    | cons x rest =>
      have hthrow : ∀ line : Bool → Raw → Raw,
          lower (Raw.relocate line (.list (x :: rest))) = throw .notANode := by
        intro line
        exact lower_eq_throw (Raw.isEmpty_relocate _) ((Raw.tag?_relocate _).trans htag)
      rw [first, second, hthrow, hthrow]
      exact parallel_throw _
  | some word =>
    obtain ⟨fs, rfl⟩ := Raw.exists_fields htag
    have hfs : Fields.Within Q fs := fun x hx => hitems x (List.mem_cons_of_mem _ hx)
    rw [first, second, Raw.relocate_node, Raw.relocate_node, lower_node, lower_node]
    -- The tag and with it the production are the same in both programs.
    cases hp : Production.ofTag? word with
    | none => exact parallel_throw _
    | some p => exact h.production hfs hp (hfits word fs rfl)

end Visited

/-- Raw trees are lowered in parallel if all of their nodes are as they should be. -/
theorem Apt.lower (h : c.Apt Q) (r : Raw) (hr : Q r) :
    c.Trees (lower (c.first r)) (lower (c.second r)) := by
  induction hdepth : r.depth using Nat.strongRecOn generalizing r with
  | ind depth ih =>
    cases r with
    | atom a =>
      rw [first_atom, second_atom]
      by_cases hempty : a.isEmpty
      · rw [lower_of_isEmpty (show (Raw.atom a).isEmpty from hempty)]
        exact parallel_pure (agree_leaf _)
      · rw [lower_eq_throw (by simpa [Raw.isEmpty] using hempty) rfl]
        exact parallel_throw _
    | list items =>
      -- The items are less deep than the list, so they are lowered in parallel.
      have hbelow := Raw.hereditary_depth (Raw.depthItems items)
      rw [Raw.depth] at hdepth
      have hvisited : c.Visited fun r => Q r ∧ r.depth ≤ Raw.depthItems items :=
        { atom := fun a => ⟨h.atom a, hbelow.atom a⟩
          item := fun hr hx => ⟨h.item hr.1 hx, hbelow.item hr.2 hx⟩
          joined := fun a hr => ⟨h.joined a hr.1, hbelow.joined a hr.2⟩
          fits := fun hr => h.fits hr.1
          visit := fun {r} hr => ih r.depth (by have := hr.2; omega) r hr.1 rfl }
      exact hvisited.lower_list (fun x hx => ⟨h.item hr hx, Raw.depth_le_depthItems hx⟩)
        fun tag fs hitems => h.fits (hitems ▸ hr)

/-- Raw trees all of whose nodes fit. -/
inductive Everywhere (c : Change) : Raw → Prop where
  | atom (a : Atom) : Everywhere c (.atom a)
  | list {items : List Raw} (hfits : ∀ tag fs, items = .str tag :: fs → c.Fits tag fs)
      (hitems : ∀ x ∈ items, Everywhere c x) : Everywhere c (.list items)

/-- A token that was joined is like the first of its run but for its text. -/
theorem Fits.joined (h : c.Fits "@tstring_content" fs) (a : Atom) :
    c.Fits "@tstring_content" (.atom a :: fs.drop 1) := by
  have hproduction : ∀ {p : Production}, Production.ofTag? "@tstring_content" = some p →
      p = .content := fun hp => (Option.some.inj hp).symm
  have hplain : c.Plain (.atom a) := by
    cases c with
    | moved k => exact ⟨a, rfl⟩
    | unnumbered => trivial
    | renumbered => trivial
  -- The joined token has another text and the same position; it has no other fields.
  refine
    { text := fun _ => hplain
      place := fun i hi => ?_
      variableName := fun htag => absurd htag (by decide)
      names := fun p hp x hx => ?_
      comment := fun htag => absurd htag (by decide)
      word := fun htag => absurd htag (by decide)
      chain := fun htag => absurd htag (by decide)
      spelled := fun p hp x hx => ?_
      quoted := fun p hp x hx => ?_
      opened := fun p hp x hx => ?_
      params := fun p hp => ?_ }
  · -- The position of the token is the only field that is asked for anything.
    cases hi
    have hsited := h.place 1 rfl
    cases fs with
    | nil => exact hsited
    | cons x rest => exact hsited
  all_goals cases hproduction hp
  · cases hx
  · cases hx
  · cases hx
  · cases hx
  · cases c with
    | moved k => trivial
    | unnumbered => trivial
    | renumbered => trivial

theorem apt_everywhere : c.Apt c.Everywhere where
  atom := .atom
  item hr hx := by
    cases hr with
    | list _ hitems => exact hitems _ hx
  fits hr := by
    cases hr with
    | list hfits _ => exact hfits _ _ rfl
  joined {items} a hr := by
    cases hr with
    | list hfits hitems =>
      have hfits := hfits _ _ rfl
      refine .list (fun tag fs heq => ?_) fun x hx => ?_
      · -- The items are the tag, the joined text, and what stood behind the text.
        cases heq
        exact hfits.joined a
      · simp only [List.mem_cons] at hx
        rcases hx with rfl | rfl | hx
        · exact .atom _
        · exact .atom _
        · exact hitems x (List.mem_cons_of_mem _ (List.mem_of_mem_drop hx))

theorem Everywhere.lower {r : Raw} (h : c.Everywhere r) :
    c.Trees (LowerM.lower (c.first r)) (LowerM.lower (c.second r)) :=
  apt_everywhere.lower r h

mutual

theorem everywhere_renumbered : (r : Raw) → renumbered.Everywhere r
  | .atom a => .atom a
  | .list items =>
    .list (fun tag fs _ => fits_renumbered tag fs) (everywhere_renumbered_items items)

theorem everywhere_renumbered_items : (items : List Raw) → ∀ x ∈ items, renumbered.Everywhere x
  | [], _, hx => absurd hx List.not_mem_nil
  | r :: rs, x, hx => by
    rcases List.mem_cons.1 hx with heq | hx
    · exact heq ▸ everywhere_renumbered r
    · exact everywhere_renumbered_items rs x hx

end

end Change

end RubyTree
