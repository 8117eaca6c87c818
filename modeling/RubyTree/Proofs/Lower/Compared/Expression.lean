import RubyTree.Proofs.Lower.Compared.Literal

/-!
# Expressions in Two Runs

Statements, calls, collections and unary operators run in parallel. Each lemma
follows its production step by step. A production asks of a lowered tree what its
tag is, whether it is absent, and what its children are, and trees that agree give
the same answers. Two things take more than that: the children of an array are
taken out of their node, and a pair without a value reads the name of its key.

## Theorems

* `Visited.lowerStatements`, `Visited.lowerDocumented`: Statements.
* `Visited.lowerCall`, `Visited.lowerArgsBlock`, `Visited.lowerArgsStar`: Calls.
* `Visited.lowerPair`: Pairs, with and without a value.
* `Visited.lowerUnary`: Unary operators.
-/

namespace RubyTree

open LowerM

namespace Change

variable {c : Change} {Q : Raw → Prop} {fs : Fields} {r : Raw} {here : Bool} {t t' : Tree}
  {ts ts' : List Tree}

section Statements

theorem parallel_lowerEmpty (hplace : c.Sited (fs.get 0)) :
    c.Trees (lowerEmpty (c.firstAt here 0 fs)) (lowerEmpty (c.secondAt here 0 fs)) :=
  parallel_pure (agree_placed hplace.get (by decide) .nil)

/-- Lines do not matter for whether statements start with a parenthesis. -/
theorem startsWithParen_relocate {line : Bool → Raw → Raw} (r : Raw) :
    startsWithParen (Raw.relocate line r) = startsWithParen r := by
  by_cases htag : r.hasTag "stmts"
  · obtain ⟨fs, rfl⟩ := Raw.eq_of_hasTag htag
    rw [Raw.relocate_node, show Raw.positionField? "stmts" = none from rfl, Raw.relocateItems_none]
    -- The tag of the first statement is all that is asked for.
    cases fs with
    | nil => rfl
    | cons x rest => exact Raw.hasTag_relocate "paren" x
  · have hfalse : ∀ {r : Raw}, r.hasTag "stmts" = false → startsWithParen r = false := by
      intro r hr
      unfold startsWithParen
      split
      · cases hr
      · rfl
    rw [hfalse (by rw [Raw.hasTag_relocate]; simpa using htag), hfalse (by simpa using htag)]

/-- What is no list of statements is one statement. -/
theorem statementList_of_hasTag {go : Visit} {r : Raw} (h : r.hasTag "stmts" = false) :
    statementList go r = do return Tree.rejectVoid [← go r] := by
  unfold statementList
  split
  · cases h
  · rfl

namespace Visited

/-- The same statements are void on both sides. -/
theorem lowerStatements (h : c.Visited Q) (hfs : fs.Within Q) :
    c.Trees (lowerStatements lower (fs.map c.first)) (lowerStatements lower (fs.map c.second)) := by
  unfold LowerM.lowerStatements
  refine (h.mapM_fields hfs).andThen fun ts ts' hts => ?_
  have hline : Option.Rel c.Lines (ts.head?.bind Tree.line?) (ts'.head?.bind Tree.line?) := by
    cases hts with
    | nil => exact .none
    | cons ht _ => exact ht.line?
  match Tree.rejectVoid ts, Tree.rejectVoid ts', agreeAll_rejectVoid hts with
  | _, _, .nil => exact parallel_pure (agree_placed hline (by decide) .nil)
  | _, _, .cons ht .nil => exact parallel_pure ht
  | _, _, .cons ht (.cons ht' hrest) =>
    exact parallel_pure (agree_bare (by decide) (.cons ht (.cons ht' hrest)))

/-- Statements in a place for a list of them. -/
theorem statementList (h : c.Visited Q) (hr : Q r) :
    c.TreeLists (statementList lower (c.first r)) (statementList lower (c.second r)) := by
  by_cases htag : r.hasTag "stmts"
  · obtain ⟨fs, rfl⟩ := Raw.eq_of_hasTag htag
    rw [first_node rfl, second_node rfl]
    exact (h.mapM_fields (h.within hr)).map fun _ _ hts => agreeAll_rejectVoid hts
  · rw [statementList_of_hasTag (by rw [first, Raw.hasTag_relocate]; simpa using htag),
      statementList_of_hasTag (by rw [second, Raw.hasTag_relocate]; simpa using htag)]
    exact (h.visit hr).map fun _ _ ht => agreeAll_rejectVoid (.single ht)

/-- What is in the parentheses has the same tag on both sides. -/
theorem lowerParen (h : c.Visited Q) (hfs : fs.Within Q) :
    c.Trees (lowerParen lower (fs.map c.first)) (lowerParen lower (fs.map c.second)) := by
  have hnil : c.Agree (.bare "nil" []) (.bare "nil" []) := agree_bare (by decide) .nil
  unfold LowerM.lowerParen
  dsimp only
  have hparen : startsWithParen (c.second (fs.get 0)) = startsWithParen (c.first (fs.get 0)) := by
    rw [first, second, startsWithParen_relocate, startsWithParen_relocate]
  rw [get_first, get_second, isEmpty_image, hparen]
  split
  · exact parallel_pure hnil
  · refine (h.visit (h.get hfs 0)).andThen fun t t' ht => ?_
    -- All four questions have the same answer for trees that agree.
    rw [ht.isVoid, ht.hasTag "args" (by decide), ht.hasTag "arglist" (by decide),
      ht.hasTag "begin" (by decide)]
    split
    · exact parallel_pure hnil
    · split
      · exact parallel_pure ht
      · split
        · exact parallel_pure ht
        · exact parallel_pure (agree_bare (by decide) (.single ht))

/-- A comment is no line. -/
theorem lowerDocumented (h : c.Visited Q) (hfs : fs.Within Q) (hcomment : c.Plain (fs.get 0)) :
    c.Trees (lowerDocumented lower (fs.map c.first)) (lowerDocumented lower (fs.map c.second)) := by
  unfold LowerM.lowerDocumented
  dsimp only
  rw [get_first, get_second, get_first, get_second, hcomment.first, hcomment.second]
  refine (h.visit (h.get hfs 1)).andThen fun t t' ht => ?_
  split
  · exact parallel_pure ht
  · cases ht with
    | leaf _ => exact parallel_throw _
    | node hmark hkept hts =>
      refine (steady_isAmong _ _).parallel.andThen fun b _ hb => ?_
      -- The same tags take a comment, and the comment is the same text on both sides.
      subst hb
      split
      · exact parallel_pure (.node ⟨hmark.line, rfl, hmark.shared⟩ hkept hts)
      · exact parallel_pure (.node hmark hkept hts)
    | block hc hmark hcall hbody hts => exact parallel_pure (.block hc hmark hcall hbody hts)

end Visited

end Statements

section Names

/-- A constant takes its name from a token. -/
theorem parallel_lowerTopConstant (hname : c.Scanned (fs.get 0)) :
    c.Trees (lowerTopConstant (fs.map c.first)) (lowerTopConstant (fs.map c.second)) := by
  unfold lowerTopConstant
  dsimp only
  rw [get_first, get_second, hname.nameOf]
  refine (steady_nameOf _).parallel.map fun name _ hn => ?_
  subst hn
  exact agree_placed hname.line? (by decide)
    (.pair (agree_bare (by decide) .nil) (agree_leaf _))

theorem parallel_lowerGlobalAlias (hleft : c.Scanned (fs.get 0)) (hright : c.Scanned (fs.get 1)) :
    c.Trees (lowerGlobalAlias (fs.map c.first)) (lowerGlobalAlias (fs.map c.second)) := by
  unfold lowerGlobalAlias
  rw [get_first, get_second, get_first, get_second, hleft.nameOf, hright.nameOf]
  refine (steady_nameOf _).parallel.andThen fun left _ hl => ?_
  refine (steady_nameOf _).parallel.map fun right _ hr => ?_
  subst hl hr
  exact agree_bare (by decide) (.pair (agree_leaf _) (agree_leaf _))

/-- A name that is read off a token is a local on both sides or on neither. -/
theorem parallel_lowerBareName (hname : c.Scanned (fs.get 0)) :
    c.Trees (lowerBareName (fs.map c.first)) (lowerBareName (fs.map c.second)) := by
  unfold lowerBareName
  dsimp only
  rw [get_first, get_second, hname.nameOf]
  refine (steady_nameOf _).parallel.andThen fun name _ hn => ?_
  subst hn
  refine (parallel_isLocal (agree_leaf _)
    fun _ => ⟨.sym _, rfl, .inl rfl⟩).andThen fun known _ hk => ?_
  subst hk
  split
  · exact parallel_pure (agree_local hname.line? name)
  · exact parallel_pure (agree_placed hname.line? (by decide)
      (.pair (agree_leaf _) (agree_leaf _)))

theorem parallel_lowerFunction (hname : c.Scanned (fs.get 0)) :
    c.Trees (lowerFunction (fs.map c.first)) (lowerFunction (fs.map c.second)) := by
  unfold lowerFunction
  dsimp only
  rw [get_first, get_second, hname.nameOf]
  refine (steady_nameOf _).parallel.map fun name _ hn => ?_
  subst hn
  exact agree_placed hname.line? (by decide) (.pair (agree_leaf _) (agree_leaf _))

/-- The scope of a constant, and its name from a token. -/
theorem Visited.lowerScopedConstant (h : c.Visited Q) (hfs : fs.Within Q)
    (hname : c.Scanned (fs.get 1)) :
    c.Trees (lowerScopedConstant lower (fs.map c.first))
      (lowerScopedConstant lower (fs.map c.second)) := by
  unfold LowerM.lowerScopedConstant
  rw [get_first fs 1, get_second fs 1, hname.nameOf]
  refine (h.field hfs 0).andThen fun t t' ht => ?_
  refine (steady_nameOf _).parallel.map fun name _ hn => ?_
  subst hn
  exact agree_bare (by decide) (.pair ht (agree_leaf _))

end Names

section Calls

/-- The kinds of call. -/
theorem returns_callTag {r : Raw} {kind : String} (h : Returns (callTag r) kind) :
    kind ∈ ["send", "safe_call"] := by
  unfold callTag at h
  dsimp only at h
  split at h
  all_goals
    obtain ⟨op, -, h⟩ := returns_bind h
    split at h
    · exact absurd h not_returns_throw
    · split at h
      · rw [← returns_pure h]
        decide
      · rw [← returns_pure h]
        decide
      · rw [← returns_pure h]
        decide
      · exact absurd h not_returns_throw

/-- A call is not looked into. -/
theorem notMem_of_callTag {r : Raw} {kind : String} (h : Returns (callTag r) kind) :
    kind ∉ lookedInto := by
  have hkind := returns_callTag h
  simp only [List.mem_cons, List.not_mem_nil, or_false] at hkind
  rcases hkind with rfl | rfl
  · decide
  · decide

namespace Visited

/-- The operator and the name of a call are tokens. -/
theorem lowerCall (h : c.Visited Q) (hfs : fs.Within Q) (hop : c.Scanned (fs.get 1))
    (hname : c.Scanned (fs.get 2)) :
    c.Trees (lowerCall lower (fs.map c.first)) (lowerCall lower (fs.map c.second)) := by
  unfold LowerM.lowerCall
  dsimp only
  rw [get_first fs 1, get_second fs 1, get_first fs 2, get_second fs 2, hop.callTag, hname.nameOf]
  refine (steady_callTag _).parallel.bind fun kind _ hk hkind _ => ?_
  subst hk
  refine (h.field hfs 0).andThen fun t t' ht => ?_
  refine (steady_nameOf _).parallel.map fun name _ hn => ?_
  subst hn
  exact agree_placed hname.line? (notMem_of_callTag hkind) (.pair ht (agree_leaf _))

theorem lowerCommand (h : c.Visited Q) (hfs : fs.Within Q) (hname : c.Scanned (fs.get 0)) :
    c.Trees (lowerCommand lower (fs.map c.first)) (lowerCommand lower (fs.map c.second)) := by
  unfold LowerM.lowerCommand
  dsimp only
  rw [get_first, get_second, get_first, get_second, hname.nameOf]
  refine (steady_nameOf _).parallel.andThen fun name _ hn => ?_
  subst hn
  refine (h.argumentList (h.get hfs 1)).map fun ts ts' hts => ?_
  exact agree_placed hname.line? (by decide) (.cons (agree_leaf _) (.cons (agree_leaf _) hts))

/-- Receiver, operator, name, and arguments. -/
theorem lowerCommandCall (h : c.Visited Q) (hfs : fs.Within Q) (hop : c.Scanned (fs.get 1))
    (hname : c.Scanned (fs.get 2)) :
    c.Trees (lowerCommandCall lower (fs.map c.first))
      (lowerCommandCall lower (fs.map c.second)) := by
  unfold LowerM.lowerCommandCall
  dsimp only
  rw [get_first, get_second, get_first, get_second, get_first, get_second, get_first, get_second,
    hop.callTag, hname.nameOf]
  refine (steady_callTag _).parallel.bind fun kind _ hk hkind _ => ?_
  subst hk
  refine (h.visit (h.get hfs 0)).andThen fun t t' ht => ?_
  refine (steady_nameOf _).parallel.andThen fun name _ hn => ?_
  subst hn
  refine (h.argumentList (h.get hfs 3)).map fun ts ts' hts => ?_
  exact agree_placed hname.line? (notMem_of_callTag hkind) (.cons ht (.cons (agree_leaf _) hts))

/-- More arguments at the end of a call. -/
theorem lowerCallWithArgs (h : c.Visited Q) (hfs : fs.Within Q) :
    c.Trees (lowerCallWithArgs lower (fs.map c.first))
      (lowerCallWithArgs lower (fs.map c.second)) := by
  unfold LowerM.lowerCallWithArgs
  rw [get_first, get_second, get_first, get_second]
  refine (h.visit (h.get hfs 0)).andThen fun t t' ht => ?_
  exact parallel_moreChildren ht (h.argumentList (h.get hfs 1))

/-- Arguments in parentheses, or none on both sides. -/
theorem lowerArgParen (h : c.Visited Q) (hfs : fs.Within Q) :
    c.Trees (lowerArgParen lower (fs.map c.first)) (lowerArgParen lower (fs.map c.second)) := by
  unfold LowerM.lowerArgParen
  dsimp only
  rw [get_first, get_second, isNull_image]
  split
  · exact parallel_pure (agree_bare (by decide) .nil)
  · exact (h.argumentList (h.get hfs 0)).map fun _ _ hts => agree_bare (by decide) hts

theorem lowerFields (h : c.Visited Q) (hfs : fs.Within Q) {tag : String} (htag : tag ∉ lookedInto) :
    c.Trees (lowerFields tag lower (fs.map c.first)) (lowerFields tag lower (fs.map c.second)) :=
  (h.mapM_fields hfs).map fun _ _ hts => agree_bare htag hts

/-- The block that is passed on is there on both sides or on neither. -/
theorem lowerArgsBlock (h : c.Visited Q) (hfs : fs.Within Q) :
    c.Trees (lowerArgsBlock lower (fs.map c.first)) (lowerArgsBlock lower (fs.map c.second)) := by
  have hpass : ∀ {ts ts' : List Tree} {t t' : Tree}, c.AgreeAll ts ts' → c.Agree t t' →
      c.Agree (.bare "arglist" (ts ++ [.bare "block_pass" [t]]))
        (.bare "arglist" (ts' ++ [.bare "block_pass" [t']])) := fun hts ht =>
    agree_bare (by decide) (hts.append (.single (agree_bare (by decide) (.single ht))))
  unfold LowerM.lowerArgsBlock
  rw [get_first, get_second]
  refine (h.argumentList (h.get hfs 0)).andThen fun ts ts' hts => ?_
  match fs, hfs with
  | [], _ => exact parallel_pure (agree_bare (by decide) hts)
  | [_], _ => exact parallel_pure (agree_bare (by decide) hts)
  | _ :: block :: rest, hfs =>
    have hblock : Q block := hfs block (List.mem_cons_of_mem _ List.mem_cons_self)
    have hvisit := (h.visit hblock).map fun _ _ ht => hpass hts ht
    simp only [List.map_cons, List.tail_cons]
    -- A block is an argument unless it is the atom false.
    cases block with
    | list items =>
      rw [first, Raw.relocate] at hvisit ⊢
      rw [second, Raw.relocate] at hvisit ⊢
      exact hvisit
    | atom a =>
      rw [first_atom, second_atom] at hvisit ⊢
      cases a with
      | null => exact parallel_pure (hpass hts (agree_leaf _))
      | bool b =>
        cases b with
        | false => exact parallel_pure (agree_bare (by decide) hts)
        | true => exact parallel_pure (hpass hts (agree_leaf _))
      | _ => exact hvisit

/-- A splat behind arguments that agree, and more arguments. -/
theorem lowerArgsStar (h : c.Visited Q) (hfs : fs.Within Q) :
    c.Trees (lowerArgsStar lower (fs.map c.first)) (lowerArgsStar lower (fs.map c.second)) := by
  unfold LowerM.lowerArgsStar
  match fs, hfs with
  | [], _ => exact parallel_throw _
  | [_], _ => exact parallel_throw _
  | args :: splatted :: rest, hfs =>
    have hrest : Fields.Within Q rest := fun x hx =>
      hfs x (List.mem_cons_of_mem _ (List.mem_cons_of_mem _ hx))
    have hsplat := h.visit (hfs splatted (List.mem_cons_of_mem _ List.mem_cons_self))
    -- Both ways of starting the list end in the same steps.
    have hmore : ∀ {t t' : Tree}, c.Agree t t' →
        c.Trees (do
          let children ← childrenOf t
          let splat := Tree.bare "splat" [← lower (c.first splatted)]
          return t.withChildren (children ++ splat :: (← (rest.map c.first).mapM lower)))
        (do
          let children ← childrenOf t'
          let splat := Tree.bare "splat" [← lower (c.second splatted)]
          return t'.withChildren (children ++ splat :: (← (rest.map c.second).mapM lower))) := by
      intro t t' ht
      have hone : ∀ {u u' : Tree}, c.Agree u u' →
          c.Agree (.bare "splat" [u]) (.bare "splat" [u']) := fun hu =>
        agree_bare (by decide) (.single hu)
      have hitems := hsplat.andThen fun u u' hu =>
        (h.mapM_fields hrest).map fun us us' hus => List.Forall₂.cons (hone hu) hus
      have hboth := parallel_moreChildren ht hitems
      simpa only [bind_assoc, pure_bind] using hboth
    simp only [List.map_cons]
    refine (h.visit (hfs args List.mem_cons_self)).andThen fun t t' ht => ?_
    split
    · cases ht.of_null
      exact hmore (agree_bare (by decide) .nil)
    · rename_i hnull
      split
      · exact absurd ht.to_null hnull
      · exact hmore ht

theorem lowerWithArgs (h : c.Visited Q) (hfs : fs.Within Q) {tag : String}
    (htag : tag ∉ lookedInto) :
    c.Trees (lowerWithArgs tag lower (fs.map c.first))
      (lowerWithArgs tag lower (fs.map c.second)) := by
  unfold LowerM.lowerWithArgs
  rw [get_first, get_second]
  exact (h.argumentList (h.get hfs 0)).map fun _ _ hts => agree_bare htag hts

theorem lowerIndex (h : c.Visited Q) (hfs : fs.Within Q) :
    c.Trees (lowerIndex lower (fs.map c.first)) (lowerIndex lower (fs.map c.second)) := by
  unfold LowerM.lowerIndex
  rw [get_first, get_second, get_first, get_second]
  refine (h.visit (h.get hfs 0)).andThen fun t t' ht => ?_
  exact (h.argumentList (h.get hfs 1)).map fun _ _ hts => agree_bare (by decide) (.cons ht hts)

end Visited

end Calls

section Collections

/-- A list that is no block has not become a numbered one. -/
theorem Whole.block (h : c.Whole r) {t : Tree} (ht : Returns (lower (c.first r)) t) :
    c = unnumbered → t.hasTag "numblock" = false := by
  rintro rfl
  rw [first_eq_self (by intro k hk; cases hk)] at ht
  exact h t ht

/-- A name without a value. -/
theorem parallel_shorthandValue (ht : c.Agree t t')
    (hlegible : ∀ n n', t.children?.bind List.head? = some n →
      t'.children?.bind List.head? = some n' → c.Agree n n' → c.Legible n) :
    c.Trees (shorthandValue (c.first r) t) (shorthandValue (c.second r) t') := by
  unfold shorthandValue
  rw [firstChild_eq, firstChild_eq]
  refine (parallel_require ht.firstChild).bind fun n n' hname hn hn' => ?_
  -- The key has been lowered on both sides, so its first child is there to be read.
  have hlegible := hlegible n n' (returns_require hn) (returns_require hn') hname
  dsimp only
  rw [hasTag_image, hname.text?, hname.isKey hlegible, hname.nameFrom hlegible]
  split
  · refine (steady_nameFrom _).parallel.map fun name _ hsame => ?_
    subst hsame
    exact agree_placed ht.line? (by decide) (.pair (agree_leaf _) (agree_leaf _))
  · split
    · exact parallel_throw _
    · -- Whether the name is local may be known, since the name is legible in both.
      refine (parallel_isLocal hname hlegible).andThen fun known _ hknown => ?_
      refine (steady_nameFrom _).parallel.andThen fun name _ hsame => ?_
      subst hknown hsame
      split
      · exact parallel_pure (agree_local ht.line? name)
      · exact parallel_pure (agree_placed ht.line? (by decide)
          (.pair (agree_leaf _) (agree_leaf _)))

namespace Visited

/-- The list of elements is opened, so it must be no block. -/
theorem lowerCollection (h : c.Visited Q) (hfs : fs.Within Q) (hwhole : c.Whole (fs.get 0))
    {tag : String} (htag : tag ∉ lookedInto) :
    c.Trees (lowerCollection tag lower (fs.map c.first))
      (lowerCollection tag lower (fs.map c.second)) := by
  unfold LowerM.lowerCollection
  dsimp only
  rw [get_first, get_second, isEmpty_image]
  split
  · exact parallel_pure (agree_bare htag .nil)
  · refine (h.visit (h.get hfs 0)).bind fun t t' ht hret _ => ?_
    exact (parallel_childrenOf ht (hwhole.block hret)).map fun _ _ hts => agree_bare htag hts

theorem lowerEach (h : c.Visited Q) (hfs : fs.Within Q) {tag : String} (htag : tag ∉ lookedInto) :
    c.Trees (lowerEach tag lower (fs.map c.first)) (lowerEach tag lower (fs.map c.second)) := by
  unfold LowerM.lowerEach
  rw [get_first, get_second]
  exact (h.visitAll (h.get hfs 0)).map fun _ _ hts => agree_bare htag hts

/-- Without a value the key is looked up, so it must read as a name. -/
theorem lowerPair (h : c.Visited Q) (hfs : fs.Within Q)
    (hspells : (fs.get 1).isNull → c.Spells (fun _ => True) (fs.get 0)) :
    c.Trees (lowerPair lower (fs.map c.first)) (lowerPair lower (fs.map c.second)) := by
  unfold LowerM.lowerPair
  rw [get_first, get_second, get_first, get_second]
  refine (h.visit (h.get hfs 0)).bind fun key key' hkey hret hret' => ?_
  rw [isNull_image]
  split
  · rename_i hvalue
    rw [first, Raw.isNull_relocate] at hvalue
    have hpair : c.Trees (shorthandValue (c.first (fs.get 0)) key)
        (shorthandValue (c.second (fs.get 0)) key') :=
      -- The key is read for the value it stands for.
      parallel_shorthandValue hkey fun n n' hn hn' hname =>
        (hspells hvalue).legible trivial trivial hret hret' hn hn' hname
    exact hpair.map fun _ _ hv => agree_bare (by decide) (.pair hkey hv)
  · exact (h.visit (h.get hfs 1)).map fun _ _ hv => agree_bare (by decide) (.pair hkey hv)

theorem lowerSingle (h : c.Visited Q) (hfs : fs.Within Q) {tag : String} (htag : tag ∉ lookedInto) :
    c.Trees (lowerSingle tag lower (fs.map c.first)) (lowerSingle tag lower (fs.map c.second)) :=
  (h.field hfs 0).map fun _ _ ht => agree_bare htag (.single ht)

theorem lowerDouble (h : c.Visited Q) (hfs : fs.Within Q) {tag : String} (htag : tag ∉ lookedInto) :
    c.Trees (lowerDouble tag lower (fs.map c.first)) (lowerDouble tag lower (fs.map c.second)) :=
  (h.field hfs 0).andThen fun _ _ ht =>
    (h.field hfs 1).map fun _ _ hu => agree_bare htag (.pair ht hu)

end Visited

/-- An operator is an atom, if it can be looked up. -/
theorem parallel_operatorOf (r : Raw) :
    c.Parallel Eq (operatorOf (c.first r)) (operatorOf (c.second r)) := by
  unfold operatorOf
  cases r with
  | atom a =>
    rw [first_atom, second_atom]
    split
    · exact parallel_pure rfl
    · exact parallel_throw _
  | list items =>
    rw [first, second, Raw.isKey_relocate, Raw.isKey_relocate]
    exact parallel_throw _

theorem Visited.lowerUnary (h : c.Visited Q) (hfs : fs.Within Q) :
    c.Trees (lowerUnary lower (fs.map c.first)) (lowerUnary lower (fs.map c.second)) := by
  unfold LowerM.lowerUnary
  rw [get_first fs 0, get_second fs 0]
  refine (h.field hfs 1).andThen fun t t' ht => ?_
  refine (parallel_operatorOf _).map fun op _ hop => ?_
  subst hop
  exact agree_bare (by decide) (.pair ht (agree_leaf _))

end Collections

end Change

end RubyTree
