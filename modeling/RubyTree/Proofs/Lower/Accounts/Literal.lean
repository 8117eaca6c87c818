import Mathlib.Algebra.BigOperators.Group.List.Basic
import RubyTree.Proofs.Lower.Accounts.Basic
import RubyTree.Proofs.Lower.Shape
import RubyTree.Proofs.Lower.Spending.Literal

/-!
# Accounts of Tokens and Literals

Tokens count for nothing, and neither does the content of a literal, whether content
tokens are joined or not. What a literal counts for is in its interpolations.

A node that is taken apart counts for its children. Only class variables and
definitions are different, since where they are makes a difference, and none of these
is ever taken apart.

## Theorems

* `counts_lowerContent`: Content tokens.
* `counts_literalParts`: The parts of a literal.
* `counts_visitBody`: An empty statement counts for nothing.
* `accounts_addChildren`: More children for a node.
-/

namespace RubyTree

open RubyTree.Tree (isPlain)

namespace LowerM

variable {L : Ledger} {m : Bool} {go : Visit} {fs : Fields} {due held d₀ d₁ : Nat}

section Tokens

/-- A variable holds its name alone. -/
theorem counts_lowerName {tag : String} (htag : isPlain (.str tag)) (fs : Fields) :
    Counts L m 0 (lowerName tag fs) :=
  Restores.andThen (congruence_restores.tokenName fs) fun _ _ => accounts_placed htag (by simp)

theorem counts_lowerConstant (fs : Fields) : Counts L m 0 (lowerConstant fs) :=
  Restores.andThen (congruence_restores.tokenName fs) fun _ _ => accounts_placed rfl (by simp)

theorem counts_lowerTopConstant (fs : Fields) : Counts L m 0 (lowerTopConstant fs) :=
  Restores.andThen (congruence_restores.nameOf _) fun _ _ => accounts_placed rfl (by simp)

theorem counts_lowerLabel (fs : Fields) : Counts L m 0 (lowerLabel fs) :=
  Restores.andThen (congruence_restores.clippedName _) fun _ _ => accounts_placed rfl (by simp)

/-- A keyword that is a value has a tag that does not count. -/
theorem counts_lowerKeyword {word : String} {line : Int} {rest : List Raw}
    (h : word ∈ valueKeywords) :
    Counts L m 0 (lowerKeyword [.str word, .list (.int line :: rest)]) := by
  have hplain : isPlain (.str word) := by
    simp only [valueKeywords, List.mem_cons, List.not_mem_nil, or_false] at h
    rcases h with rfl | rfl | rfl | rfl | rfl | rfl | rfl
    all_goals rfl
  unfold lowerKeyword
  dsimp only
  -- Two keywords become literals of their own; the others keep their word as the tag.
  split
  · exact Restores.andThen congruence_restores.read fun _ _ => accounts_placed rfl (by simp)
  · exact accounts_placed rfl (by simp)
  · rename_i heq
    cases heq
    exact accounts_placed hplain rfl
  · exact accounts_node hplain rfl rfl

/-- A number or a name behind the sign. -/
theorem counts_reference (line : Option Raw) (isFigure : Char → Bool) (cs : List Char)
    (name : String) : Counts L m 0 (reference line isFigure cs name) := by
  unfold reference
  split
  · split
    · exact accounts_placed rfl (by simp)
    · exact accounts_throw
  · exact accounts_placed rfl (by simp)

theorem counts_lowerBackReference (fs : Fields) :
    Counts L m 0 (lowerBackReference fs) := by
  unfold lowerBackReference
  split
  · exact counts_reference _ _ _ _
  · refine Restores.andThen (congruence_restores.literalText fs) fun _ _ => ?_
    exact counts_reference _ _ _ _

theorem counts_lowerInteger (fs : Fields) : Counts L m 0 (lowerInteger fs) := by
  refine Restores.andThen (congruence_restores.literalText fs) fun _ _ => ?_
  refine Restores.andThen (congruence_restores.ofExcept _) fun _ _ => ?_
  exact accounts_placed rfl (by simp)

theorem counts_lowerFloat (fs : Fields) : Counts L m 0 (lowerFloat fs) := by
  refine Restores.andThen (congruence_restores.literalText fs) fun _ _ => ?_
  refine Restores.andThen (congruence_restores.ofExcept _) fun _ _ => ?_
  exact accounts_placed rfl (by simp)

theorem counts_lowerRational (fs : Fields) : Counts L m 0 (lowerRational fs) := by
  refine Restores.andThen (congruence_restores.literalText fs) fun _ _ => ?_
  refine Restores.andThen (congruence_restores.ofExcept _) fun _ _ => ?_
  exact accounts_placed rfl (by simp)

theorem counts_lowerImaginary (fs : Fields) : Counts L m 0 (lowerImaginary fs) := by
  refine Restores.andThen (congruence_restores.literalText fs) fun _ _ => ?_
  refine Restores.andThen (congruence_restores.ofExcept _) fun _ _ => ?_
  refine Restores.andThen (congruence_restores.ofExcept _) fun _ _ => ?_
  exact accounts_placed rfl (by simp)

/-- A refusal changes nothing about what is held. -/
theorem accounts_refuseHalf {parts : Tree → Nat} (before : List Char) :
    Accounts L m due held (ofExcept (refuseHalf before)) parts := by
  unfold refuseHalf
  cases unescapeOctets before with
  | error e => exact accounts_throw
  | ok bs => exact accounts_throw

/-- A character literal is a text or octets. -/
theorem counts_lowerCharacter (fs : Fields) : Counts L m 0 (lowerCharacter fs) := by
  -- The leaf differs between text and octets, but counts for nothing in either case.
  have hplain {leafOf : List Char ⊕ List UInt8 → Tree}
      (hleaf : ∀ value, L.weigh m (leafOf value) = 0) : Counts L m 0 do
        let value ← ofExcept (unescapeChar (← literalText fs).tail)
        return .placed (tokenLine fs) "str" [leafOf value] := by
    refine Restores.andThen (congruence_restores.literalText fs) fun _ _ => ?_
    refine Restores.andThen (congruence_restores.ofExcept _) fun value _ => ?_
    exact accounts_placed rfl (by simp [hleaf value])
  unfold lowerCharacter
  dsimp only
  split
  · split
    · refine Restores.andThen (congruence_restores.ofExcept _) fun _ _ => hplain fun value => ?_
      cases value <;> simp
    · exact hplain fun value => by cases value <;> simp
  · exact hplain fun value => by cases value <;> simp

/-- The pieces of content are texts. -/
theorem counts_lowerPieces (delimiter : Option String) (line : Option Raw) (index : Nat)
    (pieces : List (List Char)) :
    CountsAll L m 0 (lowerPieces delimiter line index pieces) := by
  induction pieces generalizing index with
  | nil => exact accounts_pure rfl
  | cons piece pieces ih =>
    unfold lowerPieces
    refine Restores.andThen (congruence_restores.ofExcept _) fun text _ => ?_
    refine Restores.andThen (congruence_restores.lineBelow _ _) fun place _ => ?_
    refine (ih (index + 1)).last fun ts _ => accounts_pure ?_
    rw [Ledger.total_cons, Ledger.weigh_placed rfl]
    simp

/-- The pieces of a content token are texts. -/
theorem counts_lowerContent (fs : Fields) : Counts L m 0 (lowerContent fs) := by
  unfold lowerContent
  refine Restores.andThen (congruence_restores.delimiterOf _) fun delimiter _ => ?_
  -- However the pieces are put together, they hold texts and no comment.
  have hpieces {finish : List Tree → LowerM Tree}
      (hfinish : ∀ ts, Accounts L m 0 (L.total m ts) (finish ts) (L.weigh m)) :
      Counts L m 0 (do
        let text ← require (fs.get 0).text?
        let pieces := contentPieces delimiter text.toList
        finish (← lowerPieces delimiter (tokenLine fs) 0 pieces)) := by
    refine Restores.andThen (congruence_restores.require _) fun text _ => ?_
    exact (counts_lowerPieces _ _ _ _).last fun ts _ => hfinish ts
  have hlist (ts : List Tree) :
      Accounts L m 0 (L.total m ts) (pure (.placed (tokenLine fs) "dstr" ts)) (L.weigh m) :=
    accounts_placed rfl rfl
  dsimp only
  split
  · refine Restores.andThen (congruence_restores.lineBelow _ _) fun _ _ => ?_
    exact accounts_placed rfl (by simp)
  · split
    · split
      · unfold refuseTorn
        refine Restores.andThen (congruence_restores.lowerPieces _ _ _ _) fun _ _ => ?_
        exact accounts_refuseHalf _
      · refine hpieces fun ts => ?_
        split
        · exact accounts_pure rfl
        · exact hlist ts
    · refine hpieces fun ts => ?_
      split
      · exact accounts_pure rfl
      · exact hlist ts

theorem counts_lowerEmpty (fs : Fields) : Counts L m 0 (lowerEmpty fs) :=
  accounts_pure (Ledger.weigh_void _)

theorem counts_lowerGlobalAlias (fs : Fields) : Counts L m 0 (lowerGlobalAlias fs) := by
  refine Restores.andThen (congruence_restores.nameOf _) fun _ _ => ?_
  exact Restores.andThen (congruence_restores.nameOf _) fun _ _ => accounts_bare rfl (by simp)

/-- A name alone is due nothing, whether it is a local or a call. -/
theorem counts_lowerBareName (fs : Fields) : Counts L m 0 (lowerBareName fs) := by
  refine Restores.andThen (congruence_restores.nameOf _) fun _ _ => ?_
  refine Restores.andThen (restores_isLocal _) fun _ _ => ?_
  split
  · exact accounts_placed rfl (by simp)
  · exact accounts_placed rfl (by simp)

theorem counts_lowerFunction (fs : Fields) : Counts L m 0 (lowerFunction fs) :=
  Restores.andThen (congruence_restores.nameOf _) fun _ _ => accounts_placed rfl (by simp)

theorem counts_lowerNamedParam {tag : String} (htag : isPlain (.str tag)) (fs : Fields) :
    Counts L m 0 (lowerNamedParam tag fs) := by
  unfold lowerNamedParam
  dsimp only
  split
  · exact accounts_bare htag rfl
  · exact Restores.andThen (congruence_restores.nameOf _) fun _ _ => accounts_placed htag (by simp)

end Tokens

section Literals

/-- Only the scope of a constant is due anything. -/
theorem counts_lowerScopedConstant (h : Counts L m due (go (fs.get 0))) :
    Counts L m due (lowerScopedConstant go fs) :=
  h.last fun _ _ => Restores.andThen (congruence_restores.nameOf _) fun _ _ =>
    accounts_bare rfl (by simp)

/-- Content tokens are lowered to one text, or to a list of texts. -/
theorem tagged_lowerContent {t : Tree} (h : Returns (lowerContent fs) t) :
    t.hasTag "dstr" ∨ t.hasTag "str" := by
  -- Pieces become texts, and only what is done with the texts differs between the branches.
  have hpieces : ∀ (delimiter : Option String) (pieces : List (List Char)) (i : Nat)
      (ts : List Tree), Returns (lowerPieces delimiter (tokenLine fs) i pieces) ts →
        ∀ u ∈ ts, u.hasTag "str" := by
    intro delimiter pieces
    induction pieces with
    | nil =>
      intro i ts hts
      rw [← returns_pure hts]
      exact fun u hu => absurd hu List.not_mem_nil
    | cons piece pieces ih =>
      intro i ts hts
      obtain ⟨text, -, hts⟩ := returns_bind hts
      obtain ⟨place, -, hts⟩ := returns_bind hts
      obtain ⟨us, hus, hts⟩ := returns_bind hts
      rw [← returns_pure hts]
      exact List.forall_mem_cons.2 ⟨rfl, ih (i + 1) us hus⟩
  have hfinish {delimiter : Option String} {finish : List Tree → LowerM Tree}
      (hfinish : ∀ ts, (∀ u ∈ ts, u.hasTag "str") → Returns (finish ts) t →
        t.hasTag "dstr" ∨ t.hasTag "str")
      (hreturned : Returns (do
        let text ← require (fs.get 0).text?
        let pieces := contentPieces delimiter text.toList
        finish (← lowerPieces delimiter (tokenLine fs) 0 pieces)) t) :
      t.hasTag "dstr" ∨ t.hasTag "str" := by
    obtain ⟨text, -, hreturned⟩ := returns_bind hreturned
    obtain ⟨ts, hts, hreturned⟩ := returns_bind hreturned
    exact hfinish ts (hpieces _ _ _ ts hts) hreturned
  have htorn : ∀ (delimiter : Option String) (before : List Char),
      ¬ Returns (refuseTorn delimiter (tokenLine fs) before) t := by
    intro delimiter before hreturned
    obtain ⟨ts, -, hreturned⟩ := returns_bind hreturned
    unfold refuseHalf at hreturned
    generalize unescapeOctets _ = octets at hreturned
    cases octets with
    | error e => exact not_returns_throw hreturned
    | ok bs => exact not_returns_throw hreturned
  unfold lowerContent at h
  obtain ⟨delimiter, -, h⟩ := returns_bind h
  dsimp only at h
  split at h
  · obtain ⟨place, -, h⟩ := returns_bind h
    rw [← returns_pure h]
    exact .inr rfl
  · split at h
    · split at h
      · exact absurd h (htorn delimiter _)
      · refine hfinish (fun ts hts hreturned => ?_) h
        split at hreturned
        · exact .inr (returns_pure hreturned ▸ hts _ List.mem_cons_self)
        · exact .inl (returns_pure hreturned ▸ rfl)
    · refine hfinish (fun ts hts hreturned => ?_) h
      split at hreturned
      · exact .inr (returns_pure hreturned ▸ hts _ List.mem_cons_self)
      · exact .inl (returns_pure hreturned ▸ rfl)

/-- The parts of a literal are its children, or the literal itself. -/
theorem accounts_partsOf {t : Tree} (ht : t.hasTag "dstr" ∨ t.hasTag "str") :
    Accounts L m 0 (L.weigh m t) (partsOf t) (L.total m) := by
  rcases ht with ht | ht
  · obtain ⟨mark, children, rfl⟩ := Tree.eq_of_hasTag ht
    have hchildren : Accounts L m 0 (L.weigh m (.node (.str "dstr") mark children)) (pure children)
        (L.total m) := accounts_opened rfl rfl
    exact hchildren
  · obtain ⟨mark, children, rfl⟩ := Tree.eq_of_hasTag ht
    have htext : Accounts L m 0 (L.weigh m (.node (.str "str") mark children))
        (pure [.node (.str "str") mark children]) (L.total m) := accounts_pure rfl
    exact htext

/-- Joining content tokens leaves everything else as it is. -/
theorem sum_mergeFrom {w : Raw → Nat} (hw : ∀ r, r.hasTag "@tstring_content" → w r = 0)
    {run items ms : List Raw} (hrun : ∀ r ∈ run, r.hasTag "@tstring_content")
    (h : Returns (mergeFrom run items) ms) : (ms.map w).sum = (items.map w).sum := by
  have hjoined : ∀ {run ms : List Raw}, (∀ r ∈ run, r.hasTag "@tstring_content") →
      Returns (joinRun run) ms → (ms.map w).sum = 0 := by
    intro run ms hrun h
    refine List.sum_eq_zero fun n hn => ?_
    obtain ⟨r, hr, rfl⟩ := List.mem_map.1 hn
    exact hw r (mem_joinRun hrun h r hr)
  -- The run grows until an item is no content, and then it counts for nothing.
  induction items generalizing run ms with
  | nil => exact hjoined (fun r hr => hrun r (List.mem_reverse.1 hr)) h
  | cons item items ih =>
    unfold mergeFrom at h
    split at h
    · rename_i htag
      rw [List.map_cons, List.sum_cons, hw item htag, Nat.zero_add]
      exact ih (List.forall_mem_cons.2 ⟨htag, hrun⟩) h
    · obtain ⟨joined, hreturned, h⟩ := returns_bind h
      obtain ⟨rest, hrest, h⟩ := returns_bind h
      rw [← returns_pure h, List.map_append, List.sum_append,
        hjoined (fun r hr => hrun r (List.mem_reverse.1 hr)) hreturned, List.map_cons,
        List.sum_cons, ih (by simp) hrest, List.map_cons, List.sum_cons, Nat.zero_add]

/-- Content tokens count for nothing, joined or not. -/
theorem counts_literalParts {items : List Raw}
    (hcontent : ∀ r, r.hasTag "@tstring_content" → Counts L m 0 (go r) ∧
      ∀ t, Returns (go r) t → t.hasTag "dstr" ∨ t.hasTag "str")
    (hdue : ∀ r ∈ items, r.hasTag "@tstring_content" → L.due r = 0)
    (h : ∀ r ∈ items, r.hasTag "@tstring_content" = false → Counts L m (L.due r) (go r) ∧
      ∀ t, Returns (go r) t → t.hasTag "dstr") :
    CountsAll L m (L.dueAll items) (literalParts go items) := by
  -- Joining replaces tokens by tokens, so they are weighed with nothing.
  let w := fun r : Raw => if r.hasTag "@tstring_content" then 0 else L.due r
  have hw : ∀ r, r.hasTag "@tstring_content" → w r = 0 := fun r hr => if_pos hr
  have hsum : L.dueAll items = (items.map w).sum := by
    rw [Ledger.dueAll_eq_sum]
    refine congrArg List.sum (List.map_congr_left fun r hr => ?_)
    by_cases htag : r.hasTag "@tstring_content"
    · rw [hw r htag, hdue r hr htag]
    · exact (if_neg htag).symm
  unfold literalParts mergeContent
  refine Restores.andThen (congruence_restores.mergeFrom _ _) fun ms hms => ?_
  -- What is visited is a joined token, or an item that was there before.
  have hvisit : ∀ r ∈ ms, Accounts L m (w r) 0 (go r) (L.weigh m) ∧
      ∀ t, Returns (go r) t → t.hasTag "dstr" ∨ t.hasTag "str" := by
    intro r hr
    by_cases htag : r.hasTag "@tstring_content"
    · rw [hw r htag]
      exact hcontent r htag
    · rw [show w r = L.due r from if_neg htag]
      have hmem := (mem_mergeFrom (by simp) hms r hr).resolve_left htag
      obtain ⟨hcounts, htags⟩ := h r hmem (Bool.eq_false_iff.2 htag)
      exact ⟨hcounts, fun t ht => .inl (htags t ht)⟩
  have hvisited := Accounts.mapM w (fun _ => 0) fun r hr => (hvisit r hr).1
  have hnone : (ms.map fun _ => 0).sum = 0 := by simp
  rw [sum_mergeFrom hw (by simp) hms, ← hsum, hnone] at hvisited
  refine hvisited.last fun ts hts => ?_
  have hparts : ∀ t ∈ ts, Accounts L m 0 (L.weigh m t) (partsOf t) (L.total m) := by
    intro t ht
    obtain ⟨r, hr, hreturned⟩ := returns_mapM hts t ht
    exact accounts_partsOf ((hvisit r hr).2 t hreturned)
  rw [← Ledger.total_eq_sum]
  exact (accounts_mapM hparts).bind fun parts _ => accounts_pure (Ledger.total_flatten parts)

/-- A lone text stands for the string, otherwise the parts are its children. -/
theorem counts_lowerString (h : CountsAll L m due (literalParts go fs)) :
    Counts L m due (lowerString go fs) := by
  unfold lowerString
  refine h.last fun ts _ => ?_
  split
  · exact accounts_bare rfl (by simp)
  · refine Restores.andThen (congruence_restores.isTagged _ _) fun isText _ => ?_
    split
    · exact accounts_pure (by simp)
    · exact accounts_bare rfl rfl
  · exact accounts_bare rfl rfl

theorem counts_lowerParts {tag : String} (htag : isPlain (.str tag))
    (h : CountsAll L m due (literalParts go fs)) : Counts L m due (lowerParts tag go fs) :=
  h.last fun _ _ => accounts_bare htag rfl

/-- Nothing is lost with an empty statement. -/
theorem counts_visitBody {r : Raw} (h : Counts L m due (go r)) :
    Counts L m due (visitBody go r) :=
  h.last fun _ _ => accounts_settled Ledger.settles_dropVoid

/-- An interpolation holds its statements, in a layer of theirs or its own. -/
theorem counts_lowerEmbedded (h : Counts L m due (go (fs.get 0))) :
    Counts L m due (lowerEmbedded go fs) := by
  unfold lowerEmbedded
  refine (counts_visitBody h).last fun t _ => ?_
  split
  · exact accounts_bare rfl (by simp)
  · split
    · exact accounts_opened rfl (by simp)
    · exact accounts_bare rfl (by simp)
  · exact accounts_bare rfl (by simp)

theorem counts_lowerEmbeddedVariable (h : Counts L m due (go (fs.get 0))) :
    Counts L m due (lowerEmbeddedVariable go fs) :=
  h.last fun _ _ => accounts_bare rfl (by simp)

/-- More children for a node. -/
theorem accounts_addChildren {t : Tree} (ht : t.plain) (more : List Tree) :
    Accounts L m 0 (L.weigh m t + L.total m more) (addChildren t more) (L.weigh m) := by
  unfold addChildren childrenOf
  refine Restores.andThen (congruence_restores.require _) fun children hchildren => ?_
  refine accounts_pure ?_
  have hsum := Ledger.weigh_withChildren (L := L) (m := m) ht (returns_require hchildren)
    (children ++ more)
  rw [Ledger.total_append] at hsum
  omega

/-- The list of parts is opened, and the flags stand behind them. -/
theorem counts_lowerRegexp (h : Counts L m due (go (fs.get 0)))
    (hnode : ∀ t, Returns (go (fs.get 0)) t → t.plain) : Counts L m due (lowerRegexp go fs) := by
  refine h.last fun t ht => ?_
  refine Restores.andThen (congruence_restores.regexpFlags _) fun flags _ => ?_
  refine (accounts_addChildren (hnode t ht) _).congr ?_
  simp [Ledger.total_symbols]

/-- Content of a symbol is due nothing, whether it is visited or not. -/
theorem counts_symbolContent {content : Raw}
    (h : content.hasTag "@tstring_content" → Counts L m 0 (go content)) :
    Counts L m 0 (symbolContent go content) := by
  unfold symbolContent
  split
  · rename_i htag
    refine (h htag).nothing fun t _ _ => ?_
    refine Restores.andThen (congruence_restores.firstChild _) fun _ _ => ?_
    exact accounts_placed rfl (by simp)
  · refine Restores.andThen (congruence_restores.nameOf _) fun _ _ => ?_
    exact accounts_placed rfl (by simp)

/-- A symbol literal is due nothing. -/
theorem counts_lowerSymbolLiteral (h : (fs.get 0).hasTag "symbol" → Counts L m 0 (go (fs.get 0)))
    (hcontent : (fs.get 0).hasTag "@tstring_content" → Counts L m 0 (go (fs.get 0))) :
    Counts L m 0 (lowerSymbolLiteral go fs) := by
  unfold lowerSymbolLiteral
  dsimp only
  split
  · rename_i hsymbol
    exact h hsymbol
  · exact counts_symbolContent hcontent

/-- A symbol made from a literal. One that is a text has no other parts. -/
theorem counts_quotedSymbolContent {content : Raw} (h : Counts L m due (go content))
    (hnode : ∀ t, Returns (go content) t → t.plain)
    (htext : ∀ t, Returns (go content) t → t.hasTag "str" → L.Settles (L.weigh m t) 0) :
    Counts L m due (quotedSymbolContent go content) := by
  unfold quotedSymbolContent
  refine h.last fun t ht => ?_
  refine Restores.andThen (congruence_restores.isTagged _ _) fun isText hisText => ?_
  split
  · rename_i htrue
    have htag : t.hasTag "str" := by
      cases t with
      | leaf v => exact absurd hisText not_returns_throw
      | node tag mark children => rwa [← returns_pure hisText] at htrue
    -- The symbol has no parts, so nothing may be lost with those of the text.
    have hnothing {u : Tree} (hu : L.weigh m u = 0) :
        Accounts L m 0 (L.weigh m t + 0) (pure u) (L.weigh m) :=
      accounts_settled ((htext t ht htag).trans (Ledger.settles_of_eq hu))
    refine Restores.andThen (congruence_restores.firstChild _) fun value _ => ?_
    split
    · exact hnothing (by simp)
    · exact hnothing (by simp)
  · refine Restores.andThen (congruence_restores.childrenOf _) fun children hchildren => ?_
    exact accounts_of_children? (hnode t ht) (returns_require hchildren) (by simp)

end Literals

end LowerM

end RubyTree
