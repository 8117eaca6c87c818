import RubyTree.Proofs.Lower.Spending.Basic

/-!
# Spending in Tokens and Literals

Tokens have no numbers, and neither has the content of a literal, whether content
tokens are joined or not. What a literal has is in its interpolations.

Here and later a node is taken apart and its children are used again. They are
paid for as long as the node is no assignment to a constant, since what an update
shares is in it twice and counts once.

## Theorems

* `Tree.usesAll_of_children?`, `Tree.uses_withChildren`: A node taken apart.
* `fresh_lowerContent`: Content tokens.
* `freshAll_literalParts`: The parts of a literal.
* `spends_addChildren`: More children for a node.
-/

namespace RubyTree

namespace Tree

variable {k : Nat} {t : Tree} {children : List Tree}

/-- The children of a node that is no assignment to a constant are paid for by it. -/
theorem usesAll_of_children? (ht : t.hasTag "casgn" = false) (h : t.children? = some children) :
    usesAll k children ≤ uses k t := by
  cases t with
  | leaf v => cases h
  | node tag mark cs =>
    cases h
    refine usesAll_children_le ?_
    rintro rfl
    cases ht

/-- Such a node pays for itself and for other children. -/
theorem uses_withChildren (ht : t.hasTag "casgn" = false) (h : t.children? = some children)
    (more : List Tree) :
    uses k (t.withChildren more) + usesAll k children = uses k t + usesAll k more := by
  cases t with
  | leaf v => cases h
  | node tag mark _ =>
    cases h
    have htag : tag ≠ .str "casgn" := by
      rintro rfl
      cases ht
    have hown : own k (node tag mark more) = own k (node tag mark children) := rfl
    rw [withChildren, uses_node_of_ne htag, uses_node_of_ne htag, hown]
    omega

/-- A line makes no difference but to an assignment to a constant. -/
theorem uses_withLine (ht : t.hasTag "casgn" = false) (line : Option Raw) :
    uses k (t.withLine line) = uses k t := by
  cases line with
  | none => rfl
  | some line =>
    cases t with
    | leaf v => rfl
    | node tag mark cs =>
      have htag : tag ≠ .str "casgn" := by
        rintro rfl
        cases ht
      rw [withLine, uses_node_of_ne htag, uses_node_of_ne htag]
      rfl

end Tree

open RubyTree.Tree (uses usesAll)

namespace LowerM

variable {go : Visit} {fs : Fields} {held : List Tree}

section Tokens

theorem fresh_lowerName (tag : String) (fs : Fields) : Fresh (lowerName tag fs) :=
  Quiet.andThen (congruence_quiet.tokenName fs) fun _ _ => spends_placed fun _ => by simp

theorem fresh_lowerConstant (fs : Fields) : Fresh (lowerConstant fs) :=
  Quiet.andThen (congruence_quiet.tokenName fs) fun _ _ => spends_placed fun _ => by simp

theorem fresh_lowerTopConstant (fs : Fields) : Fresh (lowerTopConstant fs) :=
  Quiet.andThen (congruence_quiet.nameOf _) fun _ _ => spends_placed fun _ => by simp

theorem fresh_lowerLabel (fs : Fields) : Fresh (lowerLabel fs) :=
  Quiet.andThen (congruence_quiet.clippedName _) fun _ _ => spends_placed fun _ => by simp

/-- A keyword holds its word alone. -/
theorem fresh_lowerKeyword (fs : Fields) : Fresh (lowerKeyword fs) := by
  unfold lowerKeyword
  dsimp only
  split
  · exact Quiet.andThen congruence_quiet.read fun _ _ => spends_placed fun _ => by simp
  · exact spends_placed fun _ => by simp
  · exact spends_placed fun _ => by simp
  · exact spends_node rfl fun _ => by simp

/-- A number or a name behind the sign. -/
theorem fresh_reference (line : Option Raw) (isFigure : Char → Bool) (cs : List Char)
    (name : String) : Fresh (reference line isFigure cs name) := by
  unfold reference
  split
  · split
    · exact spends_placed fun _ => by simp
    · exact spends_throw
  · exact spends_placed fun _ => by simp

theorem fresh_lowerBackReference (fs : Fields) : Fresh (lowerBackReference fs) := by
  unfold lowerBackReference
  split
  · exact fresh_reference _ _ _ _
  · exact Quiet.andThen (congruence_quiet.literalText fs) fun _ _ => fresh_reference _ _ _ _

theorem fresh_lowerInteger (fs : Fields) : Fresh (lowerInteger fs) := by
  refine Quiet.andThen (congruence_quiet.literalText fs) fun _ _ => ?_
  exact Quiet.andThen (congruence_quiet.ofExcept _) fun _ _ => spends_placed fun _ => by simp

theorem fresh_lowerFloat (fs : Fields) : Fresh (lowerFloat fs) := by
  refine Quiet.andThen (congruence_quiet.literalText fs) fun _ _ => ?_
  exact Quiet.andThen (congruence_quiet.ofExcept _) fun _ _ => spends_placed fun _ => by simp

theorem fresh_lowerRational (fs : Fields) : Fresh (lowerRational fs) := by
  refine Quiet.andThen (congruence_quiet.literalText fs) fun _ _ => ?_
  exact Quiet.andThen (congruence_quiet.ofExcept _) fun _ _ => spends_placed fun _ => by simp

theorem fresh_lowerImaginary (fs : Fields) : Fresh (lowerImaginary fs) := by
  refine Quiet.andThen (congruence_quiet.literalText fs) fun _ _ => ?_
  refine Quiet.andThen (congruence_quiet.ofExcept _) fun _ _ => ?_
  exact Quiet.andThen (congruence_quiet.ofExcept _) fun _ _ => spends_placed fun _ => by simp

/-- Half of a character is refused, so there is nothing to be paid for. -/
theorem spends_refuseHalf {parts : Tree → List Tree} (before : List Char) :
    Spends held (ofExcept (refuseHalf before)) parts := by
  unfold refuseHalf
  cases unescapeOctets before with
  | error e => exact spends_throw
  | ok bs => exact spends_throw

/-- A character literal is a text or octets. -/
theorem fresh_lowerCharacter (fs : Fields) : Fresh (lowerCharacter fs) := by
  -- The leaf differs between text and octets, but there is no number in either.
  have hplain {leafOf : List Char ⊕ List UInt8 → Tree}
      (hleaf : ∀ k value, uses k (leafOf value) = 0) : Fresh do
        let value ← ofExcept (unescapeChar (← literalText fs).tail)
        return .placed (tokenLine fs) "str" [leafOf value] := by
    refine Quiet.andThen (congruence_quiet.literalText fs) fun _ _ => ?_
    refine Quiet.andThen (congruence_quiet.ofExcept _) fun value _ => spends_placed fun k => ?_
    simp [hleaf k value]
  unfold lowerCharacter
  dsimp only
  split
  · split
    · refine Quiet.andThen (congruence_quiet.ofExcept _) fun _ _ => hplain fun k value => ?_
      cases value <;> simp
    · exact hplain fun k value => by cases value <;> simp
  · exact hplain fun k value => by cases value <;> simp

/-- The pieces of content are texts. -/
theorem freshAll_lowerPieces (delimiter : Option String) (line : Option Raw) (index : Nat)
    (pieces : List (List Char)) : FreshAll (lowerPieces delimiter line index pieces) := by
  induction pieces generalizing index with
  | nil => exact spends_pure fun _ => Nat.le_refl _
  | cons piece pieces ih =>
    unfold lowerPieces
    refine Quiet.andThen (congruence_quiet.ofExcept _) fun text _ => ?_
    refine Quiet.andThen (congruence_quiet.lineBelow _ _) fun place _ => ?_
    exact (ih (index + 1)).andThen fun ts _ => spends_pure fun _ => by simp

/-- The pieces of a content token are texts. -/
theorem fresh_lowerContent (fs : Fields) : Fresh (lowerContent fs) := by
  unfold lowerContent
  refine Quiet.andThen (congruence_quiet.delimiterOf _) fun delimiter _ => ?_
  -- Only what is done with the pieces differs between the branches.
  have hpieces {finish : List Tree → LowerM Tree}
      (hfinish : ∀ ts, Spends ts (finish ts) fun t => [t]) : Fresh (do
        let text ← require (fs.get 0).text?
        let pieces := contentPieces delimiter text.toList
        finish (← lowerPieces delimiter (tokenLine fs) 0 pieces)) := by
    refine Quiet.andThen (congruence_quiet.require _) fun text _ => ?_
    exact (freshAll_lowerPieces _ _ _ _).andThen fun ts _ => hfinish ts
  dsimp only
  split
  · exact Quiet.andThen (congruence_quiet.lineBelow _ _) fun _ _ => spends_placed fun _ => by simp
  · split
    · split
      · unfold refuseTorn
        refine Quiet.andThen (congruence_quiet.lowerPieces _ _ _ _) fun _ _ => ?_
        exact spends_refuseHalf _
      · refine hpieces fun ts => ?_
        split
        · exact spends_pure fun _ => Nat.le_refl _
        · exact spends_placed fun _ => Nat.le_refl _
    · refine hpieces fun ts => ?_
      split
      · exact spends_pure fun _ => Nat.le_refl _
      · exact spends_placed fun _ => Nat.le_refl _

theorem fresh_lowerEmpty (fs : Fields) : Fresh (lowerEmpty fs) :=
  spends_placed fun _ => Nat.le_refl _

theorem fresh_lowerGlobalAlias (fs : Fields) : Fresh (lowerGlobalAlias fs) := by
  refine Quiet.andThen (congruence_quiet.nameOf _) fun _ _ => ?_
  exact Quiet.andThen (congruence_quiet.nameOf _) fun _ _ => spends_bare fun _ => by simp

/-- A name alone holds its name, whether it is a local or a call. -/
theorem fresh_lowerBareName (fs : Fields) : Fresh (lowerBareName fs) := by
  refine Quiet.andThen (congruence_quiet.nameOf _) fun _ _ => ?_
  refine Quiet.andThen (quiet_isLocal _) fun _ _ => ?_
  split
  · exact spends_placed fun _ => by simp
  · exact spends_placed fun _ => by simp

theorem fresh_lowerFunction (fs : Fields) : Fresh (lowerFunction fs) :=
  Quiet.andThen (congruence_quiet.nameOf _) fun _ _ => spends_placed fun _ => by simp

theorem fresh_lowerNamedParam (tag : String) (fs : Fields) : Fresh (lowerNamedParam tag fs) := by
  unfold lowerNamedParam
  dsimp only
  split
  · exact spends_bare fun _ => Nat.le_refl _
  · exact Quiet.andThen (congruence_quiet.nameOf _) fun _ _ => spends_placed fun _ => by simp

end Tokens

section Literals

/-- Only the scope of a constant is visited. -/
theorem fresh_lowerScopedConstant (h : Fresh (go (fs.get 0))) :
    Fresh (lowerScopedConstant go fs) :=
  h.andThen fun _ _ => Quiet.andThen (congruence_quiet.nameOf _) fun _ _ =>
    spends_bare fun _ => by simp

/-- The items of a literal are taken over, but for its content tokens. -/
theorem mem_joinRun {run ms : List Raw} (hrun : ∀ r ∈ run, r.hasTag "@tstring_content")
    (h : Returns (joinRun run) ms) : ∀ m ∈ ms, m.hasTag "@tstring_content" := by
  unfold joinRun at h
  obtain ⟨texts, -, h⟩ := returns_bind h
  split at h
  · rw [← returns_pure h]
    exact fun _ hm => absurd hm List.not_mem_nil
  · rename_i token text htoken
    have hmem : (token, text) ∈ run.zip texts :=
      (List.mem_filter.1 (htoken ▸ List.mem_cons_self)).1
    rw [← returns_pure h]
    exact List.forall_mem_singleton.2 (hrun token (List.of_mem_zip hmem).1)
  · obtain ⟨atoms, -, h⟩ := returns_bind h
    obtain ⟨joined, -, h⟩ := returns_bind h
    rw [← returns_pure h]
    exact List.forall_mem_singleton.2 rfl

/-- What is left after joining is a content token or was there before. -/
theorem mem_mergeFrom {run items ms : List Raw} (hrun : ∀ r ∈ run, r.hasTag "@tstring_content")
    (h : Returns (mergeFrom run items) ms) :
    ∀ m ∈ ms, m.hasTag "@tstring_content" ∨ m ∈ items := by
  have hreverse : ∀ r ∈ run.reverse, r.hasTag "@tstring_content" :=
    fun r hr => hrun r (List.mem_reverse.1 hr)
  -- By the items: a token goes into the run, and any other item ends it.
  induction items generalizing run ms with
  | nil => exact fun m hm => .inl (mem_joinRun hreverse h m hm)
  | cons item items ih =>
    unfold mergeFrom at h
    split at h
    · rename_i htag
      have hcons : ∀ r ∈ item :: run, r.hasTag "@tstring_content" :=
        List.forall_mem_cons.2 ⟨htag, hrun⟩
      exact fun m hm => (ih hcons h (fun r hr => hcons r (List.mem_reverse.1 hr)) m hm).imp_right
        (List.mem_cons_of_mem item)
    · obtain ⟨joined, hjoined, h⟩ := returns_bind h
      obtain ⟨rest, hrest, h⟩ := returns_bind h
      rw [← returns_pure h]
      intro m hm
      rcases List.mem_append.1 hm with hm | hm
      · exact .inl (mem_joinRun hreverse hjoined m hm)
      · rcases List.mem_cons.1 hm with rfl | hm
        · exact .inr List.mem_cons_self
        · exact (ih (by simp) hrest (by simp) m hm).imp_right
            (List.mem_cons_of_mem item)

/-- A literal is spliced by its parts or as a whole; what is none is dropped. -/
theorem spends_partsOf (t : Tree) : Spends [t] (partsOf t) fun ts => ts := by
  unfold partsOf
  refine Quiet.andThen (congruence_quiet.isTagged _ _) fun isList hlist => ?_
  split
  · rename_i htrue
    cases t with
    | leaf v => exact absurd hlist not_returns_throw
    | node tag mark children =>
      -- Only an assignment to a constant can count for less than its children.
      have htag : tag ≠ .str "casgn" := by
        rintro rfl
        rw [← returns_pure hlist] at htrue
        cases htrue
      exact spends_pure fun k => by simpa using Tree.usesAll_children_le htag
  · refine Quiet.andThen (congruence_quiet.isTagged _ _) fun isText _ => ?_
    split
    · exact spends_pure fun _ => Nat.le_refl _
    · exact spends_pure fun _ => by simp

/-- Content tokens have no numbers, joined or not. -/
theorem freshAll_literalParts {items : List Raw}
    (hgo : ∀ r, r.hasTag "@tstring_content" → Fresh (go r))
    (h : ∀ r ∈ items, r.hasTag "@tstring_content" = false → Fresh (go r)) :
    FreshAll (literalParts go items) := by
  unfold literalParts mergeContent
  refine Quiet.andThen (congruence_quiet.mergeFrom _ _) fun ms hms => ?_
  -- What is visited is a token or an item that was there before.
  have hvisit : ∀ m ∈ ms, Fresh (go m) := by
    intro m hm
    cases htag : m.hasTag "@tstring_content" with
    | true => exact hgo m htag
    | false =>
      rcases mem_mergeFrom (by simp) hms m hm with hcontent | hitem
      · rw [htag] at hcontent
        cases hcontent
      · exact h m hitem htag
  refine (freshAll_mapM hvisit).andThen fun ts _ => ?_
  have hparts : Spends (ts.flatMap fun t => [t]) (ts.mapM partsOf) fun parts =>
      parts.flatMap fun us => us := Spends.mapM _ fun t _ => spends_partsOf t
  refine hparts.given [] (fun k => by simp) fun parts _ => spends_pure fun k => ?_
  rw [List.flatMap_id']
  exact Nat.le_refl _

/-- A lone text stands for the string, otherwise the parts are its children. -/
theorem fresh_lowerString (h : FreshAll (literalParts go fs)) : Fresh (lowerString go fs) := by
  unfold lowerString
  refine h.andThen fun ts _ => ?_
  split
  · exact spends_bare fun _ => by simp
  · refine Quiet.andThen (congruence_quiet.isTagged _ _) fun isText _ => ?_
    split
    · exact spends_pure fun _ => Nat.le_refl _
    · exact spends_bare fun _ => Nat.le_refl _
  · exact spends_bare fun _ => Nat.le_refl _

theorem fresh_lowerParts (tag : String) (h : FreshAll (literalParts go fs)) :
    Fresh (lowerParts tag go fs) :=
  h.andThen fun _ _ => spends_bare fun _ => Nat.le_refl _

/-- What is void is dropped with nothing in it. -/
theorem spends_dropVoid {t : Tree} : Spends [t] (pure t.dropVoid) fun u => [u] := by
  refine spends_pure fun k => ?_
  unfold Tree.dropVoid
  split
  · simp
  · exact Nat.le_refl _

theorem fresh_visitBody {r : Raw} (h : Fresh (go r)) : Fresh (visitBody go r) :=
  h.andThen fun _ _ => spends_dropVoid

/-- An interpolation holds its statements, in a layer of theirs or its own. -/
theorem fresh_lowerEmbedded (h : Fresh (go (fs.get 0))) : Fresh (lowerEmbedded go fs) := by
  unfold lowerEmbedded
  refine (fresh_visitBody h).andThen fun t _ => ?_
  split
  · exact spends_bare fun _ => by simp
  · rename_i mark children _
    have hchildren (k : Nat) :
        usesAll k children ≤ uses k (.node (.str "begin") mark children) :=
      Tree.usesAll_children_le (by simp)
    split
    · exact spends_bare fun k => by simpa using hchildren k
    · exact spends_bare fun k => by simp
  · exact spends_bare fun _ => by simp

theorem fresh_lowerEmbeddedVariable (h : Fresh (go (fs.get 0))) :
    Fresh (lowerEmbeddedVariable go fs) :=
  h.andThen fun _ _ => spends_bare fun _ => by simp

/-- More children for a node that is no assignment to a constant. -/
theorem spends_addChildren {t : Tree} (ht : t.hasTag "casgn" = false) (more : List Tree) :
    Spends (t :: more) (addChildren t more) fun u => [u] := by
  unfold addChildren childrenOf
  refine Quiet.andThen (congruence_quiet.require _) fun children hchildren => ?_
  refine spends_pure fun k => ?_
  have hchildren := returns_require hchildren
  have hsum := Tree.uses_withChildren (k := k) ht hchildren (children ++ more)
  simp only [Tree.usesAll_cons, Tree.usesAll_nil, Tree.usesAll_append] at hsum ⊢
  omega

/-- The list of parts is opened, and the flags stand behind them. -/
theorem fresh_lowerRegexp (h : Fresh (go (fs.get 0)))
    (hnode : ∀ t, Returns (go (fs.get 0)) t → t.hasTag "casgn" = false) :
    Fresh (lowerRegexp go fs) := by
  refine h.andThen fun t ht => Quiet.andThen (congruence_quiet.regexpFlags _) fun flags _ => ?_
  refine (spends_addChildren (hnode t ht) _).mono fun k => ?_
  have hflags : usesAll k (flags.map Tree.sym) = 0 := by
    clear * -
    induction flags with
    | nil => simp
    | cons flag flags ih => simpa using ih
  simp [hflags]

/-- Only content in quotes is visited; a name is taken as it is. -/
theorem fresh_symbolContent {content : Raw}
    (h : content.hasTag "@tstring_content" → Fresh (go content)) :
    Fresh (symbolContent go content) := by
  unfold symbolContent
  split
  · rename_i htag
    refine (h htag).andThen fun t _ => ?_
    exact Quiet.andThen (congruence_quiet.firstChild _) fun _ _ => spends_placed fun _ => by simp
  · exact Quiet.andThen (congruence_quiet.nameOf _) fun _ _ => spends_placed fun _ => by simp

/-- A symbol literal is that of its symbol, or of the token in its place. -/
theorem fresh_lowerSymbolLiteral (h : (fs.get 0).hasTag "symbol" → Fresh (go (fs.get 0)))
    (hcontent : (fs.get 0).hasTag "@tstring_content" → Fresh (go (fs.get 0))) :
    Fresh (lowerSymbolLiteral go fs) := by
  unfold lowerSymbolLiteral
  dsimp only
  split
  · rename_i hsymbol
    exact h hsymbol
  · exact fresh_symbolContent hcontent

/-- The node of the contents is opened or becomes a symbol. -/
theorem fresh_quotedSymbolContent {content : Raw} (h : Fresh (go content))
    (hnode : ∀ t, Returns (go content) t → t.hasTag "casgn" = false) :
    Fresh (quotedSymbolContent go content) := by
  unfold quotedSymbolContent
  refine h.andThen fun t ht => Quiet.andThen (congruence_quiet.isTagged _ _) fun isText _ => ?_
  split
  · refine Quiet.andThen (congruence_quiet.firstChild _) fun value _ => ?_
    split
    · exact spends_bare fun _ => by simp
    · exact spends_placed fun _ => by simp
  · refine Quiet.andThen (congruence_quiet.childrenOf _) fun children hchildren => ?_
    have hchildren := returns_require hchildren
    exact spends_bare fun k => by simpa using Tree.usesAll_of_children? (hnode t ht) hchildren

end Literals

end LowerM

end RubyTree
