import RubyTree.Proofs.Lower.Compared.Expression

/-!
# Assignments in Two Runs

A target is lowered like a value and then rebuilt: its children become those of
the assignment, and an attribute is taken apart into its receiver, the kind of
the call and its name. Both runs rebuild it in the same way, since no target that
is taken apart can be a numbered block. What the parts of an attribute are is
known from `Change.Kept`.

An operator assignment gives numbers to the children of its target. A number is
set on a node and leaves the names in it alone.

## Theorems

* `parallel_assignTo`, `parallel_targetOf`: A target and its value.
* `parallel_withSharedChildren`: A target that is read and assigned.
* `Visited.lowerAssign`, `Visited.lowerOperatorAssign`: Assignments.
* `Visited.lowerTargetsStar`, `Visited.lowerTargetsPost`: Lists of targets.
-/

namespace RubyTree

open LowerM

namespace Change

variable {c : Change} {Q : Raw → Prop} {fs : Fields} {r : Raw} {t t' : Tree} {ts ts' : List Tree}

section Targets

/-- The tags of the same assignment: one of its own, or that of its target. -/
def Assigned (tag a b : Raw) : Prop :=
  a = b ∧ (a = tag ∨ ∃ word, a = .str word ∧ word ∉ lookedInto)

theorem parallel_assignmentTag (tag : Raw) :
    c.Parallel (Assigned tag) (assignmentTag tag) (assignmentTag tag) := by
  have hword : ∀ {tag : Raw} (word : String), word ∉ lookedInto →
      Assigned tag (.str word) (.str word) := fun word h => ⟨rfl, .inr ⟨word, rfl, h⟩⟩
  unfold assignmentTag
  dsimp only
  split
  · exact parallel_throw _
  · split
    · intro o o' s s' _ hs
      change Ends _ (.ok (Raw.str (if s.inMethod then "cvasgn" else "cvdecl")))
        (.ok (Raw.str (if s'.inMethod then "cvasgn" else "cvdecl"))) ∧ c.Scopes s s'
      rw [← hs.inMethod]
      exact ⟨.ok (hword _ (by split <;> decide)), hs⟩
    · exact parallel_pure (hword "ivasgn" (by decide))
    · exact parallel_pure (hword "casgn" (by decide))
    · exact parallel_pure (hword "lvasgn" (by decide))
    · exact parallel_pure (hword "gasgn" (by decide))
    · exact parallel_pure ⟨rfl, .inl rfl⟩

theorem Kept.attribute {tag : Raw} (h : c.Kept tag ts) (htag : tag = .str "field")
    (hc : c ≠ renumbered) : IsAttribute ts := by
  cases c with
  | moved k => exact h htag
  | unnumbered =>
    obtain ⟨word, rfl, -, hfield, -⟩ := h
    injection htag with htag
    injection htag with htag
    exact hfield htag
  | renumbered => exact absurd rfl hc

theorem kept_attribute {receiver : Tree} {kind name : String} (h : kind ∈ ["send", "safe_call"]) :
    c.Kept (.str "field") [receiver, .str kind, .sym name] := by
  have hattribute : IsAttribute [receiver, .str kind, .sym name] :=
    ⟨receiver, kind, name, [], rfl, h⟩
  cases c with
  | moved k => exact fun _ => hattribute
  | unnumbered => exact ⟨"field", rfl, by decide, fun _ => hattribute, by simp⟩
  | renumbered => trivial

/-- The parts of an attribute: its kind is that of a call and its name is a name. -/
theorem parallel_attributeTag {receiver kind name kind' : Tree}
    (hkept : c.Kept (.str "field") [receiver, kind, name]) (h : c.Agree kind kind') :
    c.Parallel (fun a b => a = b ∧ ∀ us, c.Kept a us) (attributeTag kind) (attributeTag kind') := by
  by_cases hc : c = renumbered
  · subst hc
    cases h with
    | leaf h =>
      rw [show _ = _ from h]
      exact parallel_pure ⟨rfl, fun _ => trivial⟩
    | node _ _ _ => exact parallel_throw _
    | block hc _ _ _ _ => cases hc
  · -- The kind is one of two words, and nodes with these tags are not looked into.
    obtain ⟨receiver', word, name', rest, heq, hword⟩ := hkept.attribute rfl hc
    cases heq
    cases h with
    | leaf h =>
      cases h.eq_of_atom
      refine parallel_pure ⟨rfl, fun us => kept_of_notMem ?_⟩
      simp only [List.mem_cons, List.not_mem_nil, or_false] at hword
      rcases hword with rfl | rfl
      · decide
      · decide

theorem Kept.legible {receiver kind name : Tree}
    (hkept : c.Kept (.str "field") [receiver, kind, name]) : c.Legible name := by
  intro hc
  obtain ⟨receiver', word, name', rest, heq, -⟩ := hkept.attribute rfl hc
  cases heq
  exact ⟨.sym name', rfl, .inl rfl⟩

/-- The children of a target become those of the assignment. -/
theorem parallel_assignment {tag : Raw} (hkept : c.Kept tag ts) (h : c.AgreeAll ts ts') :
    c.Trees (do return .node (← assignmentTag tag) {} ts)
      (do return .node (← assignmentTag tag) {} ts') := by
  refine (parallel_assignmentTag tag).map fun a b hab => ?_
  obtain ⟨rfl, rfl | ⟨word, rfl, hword⟩⟩ := hab
  · exact .node marks_empty hkept h
  · exact .node marks_empty (kept_of_notMem hword) h

/-- Most targets are variables and constants. -/
theorem assignTo_of_ne {tag : Raw} {mark : Mark} (hindex : tag ≠ .str "aref_field")
    (hfield : tag ≠ .str "field") (hlist : tag ≠ .str "mlhs") (v : Option Tree) :
    assignTo (.node tag mark ts) v =
      (do return .node (← assignmentTag tag) {} (ts ++ v.toList)) := by
  unfold assignTo
  split
  · cases ‹Tree.node _ _ _ = _›
  · cases ‹Tree.node _ _ _ = _›
    exact absurd rfl hindex
  · cases ‹Tree.node _ _ _ = _›
    exact absurd rfl hfield
  · cases ‹Tree.node _ _ _ = _›
    exact absurd rfl hfield
  · cases ‹Tree.node _ _ _ = _›
    exact absurd rfl hlist
  · cases ‹Tree.node _ _ _ = _›
    rfl

theorem parallel_assignTo {v v' : Option Tree} (h : c.Agree t t') (hv : Option.Rel c.Agree v v') :
    c.Trees (assignTo t v) (assignTo t' v') := by
  have hvalue := agreeAll_toList hv
  cases h with
  | leaf _ => exact parallel_throw _
  | block hc hmark hcall hbody hts =>
    exact parallel_pure (.block hc marks_empty hcall hbody (AgreeAll.append hts hvalue))
  | @node tag mark mark' ts ts' hmark hkept hts =>
    by_cases hindex : tag = .str "aref_field"
    · subst hindex
      -- Children that are missing or too many are refused in both programs.
      match hts with
      | .nil => exact parallel_throw _
      | .cons ht hts =>
        exact parallel_pure (agree_bare (by decide) (.cons ht (AgreeAll.append hts hvalue)))
    by_cases hfield : tag = .str "field"
    · subst hfield
      match hts with
      | .nil => exact parallel_throw _
      | .cons _ .nil => exact parallel_throw _
      | .cons _ (.cons _ .nil) => exact parallel_throw _
      | .cons _ (.cons _ (.cons _ (.cons _ _))) => exact parallel_throw _
      | .cons hreceiver (.cons hkind (.cons hname .nil)) =>
        refine (parallel_attributeTag hkept hkind).map fun a b hab => ?_
        obtain ⟨rfl, hkept'⟩ := hab
        rw [hname.display hkept.legible]
        exact .node marks_empty (hkept' _) (.cons hreceiver (.cons (agree_leaf _) hvalue))
    by_cases hlist : tag = .str "mlhs"
    · subst hlist
      exact parallel_pure (.node hmark hkept hts)
    · rw [assignTo_of_ne hindex hfield hlist, assignTo_of_ne hindex hfield hlist]
      exact parallel_assignment (hkept.append _) (AgreeAll.append hts hvalue)

theorem parallel_targetOf (h : c.Agree t t') : c.Trees (targetOf t) (targetOf t') :=
  (parallel_assignTo h .none).map fun _ _ ht => ht.withLine h.line?

theorem Agree.arrayOfValues (h : c.Agree t t') : c.Agree (arrayOfValues t) (arrayOfValues t') := by
  unfold LowerM.arrayOfValues
  split
  · obtain ⟨mark', ts', rfl, hmark, -, hts⟩ := h.node_of_tag (by decide)
    exact .node hmark (kept_of_notMem (by decide)) hts
  · rename_i hvalues
    split
    · exact absurd rfl (h.ne_of_tag (by decide) hvalues _ _)
    · exact h

theorem Agree.present (h : c.Agree t t') : Option.Rel c.Agree (present t) (present t') := by
  unfold LowerM.present
  rw [h.isNull]
  split
  · exact .none
  · exact .some h

/-- Only elements and attributes are read before they are set. -/
theorem accessTarget?_of_ne {tag : Raw} (hindex : tag ≠ .str "aref_field")
    (hfield : tag ≠ .str "field") (mark : Mark) (ts : List Tree) :
    accessTarget? (.node tag mark ts) = pure none := by
  unfold accessTarget?
  split
  · cases ‹Tree.node _ _ _ = _›
    exact absurd rfl hindex
  · cases ‹Tree.node _ _ _ = _›
    exact absurd rfl hfield
  · cases ‹Tree.node _ _ _ = _›
    exact absurd rfl hfield
  · rfl
  · cases ‹Tree.node _ _ _ = _›

theorem parallel_accessTarget (h : c.Agree t t') :
    c.Parallel (Option.Rel c.Agree) (accessTarget? t) (accessTarget? t') := by
  cases h with
  | leaf _ => exact parallel_throw _
  | block hc hmark hcall hbody hts => exact parallel_pure .none
  | @node tag mark mark' ts ts' hmark hkept hts =>
    by_cases hindex : tag = .str "aref_field"
    · subst hindex
      -- An attribute has three children; with any other number both sides fail.
      match hts with
      | .nil => exact parallel_throw _
      | .cons ht hts =>
        exact parallel_pure (.some (agree_bare (by decide) (.cons ht hts)))
    by_cases hfield : tag = .str "field"
    · subst hfield
      match hts with
      | .nil => exact parallel_throw _
      | .cons _ .nil => exact parallel_throw _
      | .cons _ (.cons _ .nil) => exact parallel_throw _
      | .cons _ (.cons _ (.cons _ (.cons _ _))) => exact parallel_throw _
      | .cons hreceiver (.cons hkind (.cons hname .nil)) =>
        refine (parallel_attributeTag hkept hkind).map fun a b hab => ?_
        obtain ⟨rfl, hkept'⟩ := hab
        exact .some (.node marks_empty (hkept' _) (AgreeAll.pair hreceiver hname))
    · rw [accessTarget?_of_ne hindex hfield, accessTarget?_of_ne hindex hfield]
      exact parallel_pure .none

end Targets

section Sharing

theorem parallel_numbered (h : c.Agree t t') : c.Trees (numbered t) (numbered t') := by
  cases h with
  | leaf h => exact parallel_pure (.leaf h)
  | @node tag mark mark' ts ts' hmark hkept hts =>
    obtain ⟨line, comments, shared⟩ := mark
    obtain ⟨line', comments', shared'⟩ := mark'
    have hshared : Option.Rel c.Numbers shared shared' := hmark.shared
    -- A number that is there is kept, and a new one is drawn in both programs.
    cases hshared with
    | some _ => exact parallel_pure (.node hmark hkept hts)
    | none =>
      exact parallel_freshNumber.map fun n n' hn =>
        .node ⟨hmark.line, hmark.comments, .some hn⟩ hkept hts
  | @block mark mark' n call call' body body' ts ts' hc hmark hcall hbody hts =>
    obtain ⟨line, comments, shared⟩ := mark
    obtain ⟨line', comments', shared'⟩ := mark'
    have hshared : Option.Rel c.Numbers shared shared' := hmark.shared
    cases hshared with
    | some _ => exact parallel_pure (.block hc hmark hcall hbody hts)
    | none =>
      exact parallel_freshNumber.map fun n n' hn =>
        .block hc ⟨hmark.line, hmark.comments, .some hn⟩ hcall hbody hts

/-- A leaf is not numbered. -/
theorem returns_numbered {v : Raw} (h : Returns (numbered (.leaf v)) t) : t = .leaf v :=
  (returns_pure h).symm

/-- What is looked into are leaves. -/
theorem Kept.numbered {tag : Raw} {us : List Tree} (h : c.Kept tag ts)
    (hus : Returns (ts.mapM numbered) us) : c.Kept tag us := by
  have hattribute : IsAttribute ts → IsAttribute us := by
    rintro ⟨receiver, kind, name, rest, rfl, hkind⟩
    simp only [List.mapM_cons, bind_assoc, pure_bind] at hus
    obtain ⟨receiver', -, hus⟩ := returns_bind hus
    obtain ⟨kind', hkind', hus⟩ := returns_bind hus
    obtain ⟨name', hname', hus⟩ := returns_bind hus
    obtain ⟨rest', -, hus⟩ := returns_bind hus
    -- The kind and the name are leaves, and these get no number.
    cases returns_numbered hkind'
    cases returns_numbered hname'
    exact ⟨receiver', kind, name, rest', (returns_pure hus).symm, hkind⟩
  cases c with
  | moved k => exact fun htag => hattribute (h htag)
  | unnumbered =>
    obtain ⟨word, rfl, hword, hfield, hlocal⟩ := h
    refine ⟨word, rfl, hword, fun htag => hattribute (hfield htag), fun htag => ?_⟩
    obtain ⟨name, rest, rfl⟩ := hlocal htag
    simp only [List.mapM_cons] at hus
    obtain ⟨name', hname', hus⟩ := returns_bind hus
    obtain ⟨rest', -, hus⟩ := returns_bind hus
    cases returns_numbered hname'
    exact ⟨name, rest', (returns_pure hus).symm⟩
  | renumbered => trivial

theorem parallel_withSharedChildren (h : c.Agree t t')
    (hblock : c = unnumbered → t.hasTag "numblock" = false) :
    c.Trees (withSharedChildren t) (withSharedChildren t') := by
  unfold withSharedChildren
  cases h with
  | leaf _ => exact parallel_throw _
  | block hc _ _ _ _ => cases hblock hc
  | node hmark hkept hts =>
    refine (Parallel.mapM hts fun _ _ h => parallel_numbered h).bind fun us us' hus hret _ => ?_
    exact parallel_pure (.node hmark (hkept.numbered hret) hus)

end Sharing

/-- Arguments with a splat are tagged like the arguments before it. -/
theorem returns_lowerArgsStar (h : Returns (lowerArgsStar lower fs) t) {tag : String}
    (htag : tag ≠ "arglist") (ht : t.hasTag tag) :
    ∃ u, Returns (lower (fs.get 0)) u ∧ u.hasTag tag := by
  -- Adding children leaves the tag, so it is that of the arguments before the splat.
  have hkeeps : ∀ (u : Tree) (us : List Tree), (u.withChildren us).hasTag tag = u.hasTag tag := by
    intro u us
    cases u with
    | leaf v => rfl
    | node _ _ _ => exact Tree.hasTag_congr _ _ _ _
  unfold LowerM.lowerArgsStar at h
  match fs, h with
  | [], h => exact absurd h not_returns_throw
  | [_], h => exact absurd h not_returns_throw
  | args :: splatted :: rest, h =>
    obtain ⟨u, hu, h⟩ := returns_bind h
    refine ⟨u, hu, ?_⟩
    have hitems : ∀ {items : Tree}, Returns (do
        let children ← childrenOf items
        let splat := Tree.bare "splat" [← lower splatted]
        return items.withChildren (children ++ splat :: (← rest.mapM lower))) t →
        items.hasTag tag := by
      intro items h
      obtain ⟨children, -, h⟩ := returns_bind h
      obtain ⟨splat, -, h⟩ := returns_bind h
      obtain ⟨more, -, h⟩ := returns_bind h
      rwa [← returns_pure h, hkeeps] at ht
    dsimp only at h
    simp only [pure_bind] at h
    split at h
    · -- Arguments that are absent become a list of their own, with another tag.
      have hlist := hitems h
      exact absurd (by simpa [Tree.hasTag, Tree.bare] using hlist) (Ne.symm htag)
    · exact hitems h

namespace Visited

theorem lowerAssign (h : c.Visited Q) (hfs : fs.Within Q) :
    c.Trees (lowerAssign lower (fs.map c.first)) (lowerAssign lower (fs.map c.second)) := by
  unfold LowerM.lowerAssign
  refine (h.field hfs 0).andThen fun t t' ht => ?_
  refine (h.field hfs 1).andThen fun v v' hv => ?_
  exact (parallel_assignTo ht hv.arrayOfValues.present).map fun _ _ hu => hu.withLine ht.line?

theorem lowerMultiAssign (h : c.Visited Q) (hfs : fs.Within Q) :
    c.Trees (lowerMultiAssign lower (fs.map c.first))
      (lowerMultiAssign lower (fs.map c.second)) := by
  unfold LowerM.lowerMultiAssign
  refine (h.field hfs 0).andThen fun t t' ht => ?_
  exact (h.field hfs 1).map fun _ _ hv => agree_bare (by decide) (.pair ht hv.arrayOfValues)

theorem lowerOperatorAssign (h : c.Visited Q) (hfs : fs.Within Q) (hop : c.Scanned (fs.get 1))
    (hwhole : c.Whole (fs.get 0)) :
    c.Trees (lowerOperatorAssign lower (fs.map c.first))
      (lowerOperatorAssign lower (fs.map c.second)) := by
  have hshortcut : ∀ {op tag : String}, shortcutTag? op = some tag → tag ∉ lookedInto := by
    intro op tag htag
    unfold shortcutTag? at htag
    split at htag
    · cases htag
      decide
    · cases htag
      decide
    · cases htag
  unfold LowerM.lowerOperatorAssign
  rw [get_first fs 0, get_second fs 0, get_first fs 1, get_second fs 1, hop.item?]
  refine (h.visit (h.get hfs 0)).bind fun t t' ht hret _ => ?_
  refine (h.field hfs 2).andThen fun v v' hv => ?_
  refine (steady_require _).parallel.andThen fun token _ htoken => ?_
  subst htoken
  refine (steady_clippedName _).parallel.andThen fun op _ hname => ?_
  subst hname
  refine (parallel_accessTarget ht).andThen fun access access' haccess => ?_
  -- A target that is read first is an access in both programs.
  cases haccess with
  | some haccess =>
    cases htag : shortcutTag? op with
    | some tag => exact parallel_pure (agree_bare (hshortcut htag) (.pair haccess hv))
    | none => exact parallel_pure (agree_bare (by decide) (.triple haccess (agree_leaf _) hv))
  | none =>
    cases htag : shortcutTag? op with
    | some tag =>
      exact (parallel_targetOf ht).map fun _ _ hu => agree_bare (hshortcut htag) (.pair hu hv)
    | none =>
      refine (parallel_withSharedChildren ht (hwhole.block hret)).andThen fun u u' hu => ?_
      have hresult : c.Agree (.bare "send" [u, .sym op, v]) (.bare "send" [u', .sym op, v']) :=
        agree_bare (by decide) (.triple hu (agree_leaf _) hv)
      exact (parallel_assignTo hu (.some hresult)).map fun _ _ hw => hw.withLine hu.line?

theorem lowerValuesFromArgs (h : c.Visited Q) (hfs : fs.Within Q) :
    c.Trees (lowerValuesFromArgs lower (fs.map c.first))
      (lowerValuesFromArgs lower (fs.map c.second)) := by
  unfold LowerM.lowerValuesFromArgs
  cases fs with
  | nil => exact parallel_throw _
  | cons inner rest =>
    have hrest : Fields.Within Q rest := fun x hx => hfs x (List.mem_cons_of_mem _ hx)
    refine (h.argumentList (hfs inner List.mem_cons_self)).andThen fun ts ts' hts => ?_
    exact (h.mapM_fields hrest).map fun us us' hus => agree_bare (by decide) (hts.append hus)

theorem lowerValuesStar (h : c.Visited Q) (hfs : fs.Within Q) (hwhole : c.Whole (fs.get 0)) :
    c.Trees (lowerValuesStar lower (fs.map c.first)) (lowerValuesStar lower (fs.map c.second)) := by
  unfold LowerM.lowerValuesStar
  refine (h.lowerArgsStar hfs).bind fun t t' ht hret _ => ?_
  cases ht with
  | leaf h => exact parallel_pure (.leaf h)
  | node hmark hkept hts => exact parallel_pure (.node hmark (kept_of_notMem (by decide)) hts)
  | block hc _ _ _ _ =>
    have hnumblock : "numblock" ≠ "arglist" := by decide
    obtain ⟨u, hu, hnumbered⟩ := returns_lowerArgsStar hret hnumblock rfl
    rw [get_first] at hu
    rw [hwhole.block hu hc] at hnumbered
    cases hnumbered

theorem lowerTargets (h : c.Visited Q) (hfs : fs.Within Q) :
    c.Trees (lowerTargets lower (fs.map c.first)) (lowerTargets lower (fs.map c.second)) := by
  unfold LowerM.lowerTargets
  refine (h.mapM_fields hfs).andThen fun ts ts' hts => ?_
  exact (Parallel.mapM hts fun _ _ ht => parallel_targetOf ht).map fun _ _ hus =>
    agree_bare (by decide) hus

theorem lowerTargetsStar (h : c.Visited Q) (hfs : fs.Within Q) :
    c.Trees (lowerTargetsStar lower (fs.map c.first))
      (lowerTargetsStar lower (fs.map c.second)) := by
  unfold LowerM.lowerTargetsStar
  refine (h.field hfs 0).andThen fun targets targets' htargets => ?_
  refine (h.field hfs 1).andThen fun t t' ht => ?_
  split
  · cases ht.of_null
    exact parallel_addChildren htargets (.single (agree_bare (by decide) .nil))
  · rename_i hnull
    split
    · exact absurd ht.to_null hnull
    · refine (parallel_targetOf ht).andThen fun u u' hu => ?_
      exact parallel_addChildren htargets (.single (agree_bare (by decide) (.single hu)))

theorem lowerTargetsPost (h : c.Visited Q) (hfs : fs.Within Q) :
    c.Trees (lowerTargetsPost lower (fs.map c.first))
      (lowerTargetsPost lower (fs.map c.second)) := by
  unfold LowerM.lowerTargetsPost
  refine (h.field hfs 0).andThen fun targets targets' htargets => ?_
  refine (h.field hfs 1).andThen fun t t' ht => ?_
  split
  · obtain ⟨mark', ts', rfl, -, -, hts⟩ := ht.node_of_tag (by decide)
    exact parallel_addChildren htargets hts
  · -- What is no list in one tree is none in the other.
    rename_i hlist
    split
    · exact absurd rfl (ht.ne_of_tag (by decide) hlist _ _)
    · refine (parallel_targetOf ht).andThen fun u u' hu => ?_
      exact parallel_addChildren htargets (.single hu)

theorem lowerIndexTarget (h : c.Visited Q) (hfs : fs.Within Q) :
    c.Trees (lowerIndexTarget lower (fs.map c.first))
      (lowerIndexTarget lower (fs.map c.second)) := by
  unfold LowerM.lowerIndexTarget
  rw [get_first fs 1, get_second fs 1]
  refine (h.field hfs 0).andThen fun t t' ht => ?_
  exact (h.argumentList (h.get hfs 1)).map fun _ _ hts => agree_bare (by decide) (.cons ht hts)

theorem lowerAttributeTarget (h : c.Visited Q) (hfs : fs.Within Q) (hop : c.Scanned (fs.get 1))
    (hname : c.Scanned (fs.get 2)) :
    c.Trees (lowerAttributeTarget lower (fs.map c.first))
      (lowerAttributeTarget lower (fs.map c.second)) := by
  unfold LowerM.lowerAttributeTarget
  rw [get_first fs 1, get_second fs 1, get_first fs 2, get_second fs 2, hop.callTag, hname.nameOf]
  refine (h.field hfs 0).andThen fun t t' ht => ?_
  refine (steady_callTag _).parallel.bind fun kind _ hk hkind _ => ?_
  subst hk
  refine (steady_nameOf _).parallel.map fun name _ hn => ?_
  subst hn
  exact .node marks_empty (kept_attribute (returns_callTag hkind))
    (AgreeAll.triple ht (agree_leaf _) (agree_leaf _))

end Visited

end Change

end RubyTree
