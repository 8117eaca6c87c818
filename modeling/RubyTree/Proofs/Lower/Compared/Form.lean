import RubyTree.Proofs.Lower.Compared.Lower
import RubyTree.Proofs.Lower.LiteralContent

/-!
# Literals and Keys

Where a production reads a name off a tree that it has lowered, the field behind
it is a label or a literal. Both can be told by their tags, and then what they
are lowered to is known well enough: a label is a symbol, and the parts of a
literal are texts and interpolations. So none of them starts with a number that
could be a line, and none of them is a numbered block.

A literal is plain if nothing is interpolated in it. Only such a literal can be
the key of a pair that has no value, since the value is named after its key.

## Main definitions

* `Raw.Piece`: An item of a literal.
* `Raw.Literal`: A literal that is made from pieces.
* `Raw.Key`: The key of a pair that has no value.
* `Tree.IsText`: A text as lowering leaves it.

## Theorems

* `Literal.returns`: What a literal is lowered to.
* `Literal.spells`, `Literal.whole`: A literal fits where a symbol is made from it.
* `Key.spells`: A key fits where a variable is named after it.
* `Literal.relocate`, `Key.relocate`: Both are what they are on other lines, too.
-/

namespace RubyTree

open LowerM

namespace Raw

/-- An item of a literal: a piece of content, or an interpolation if the literal
    need not be plain. -/
inductive Piece (plain : Bool) : Raw → Prop where
  | content (a : Atom) (rest : List Raw) :
      Piece plain (list (str "@tstring_content" :: .atom a :: rest))
  | embedded {tag : String} (hplain : plain = false)
      (htag : tag ∈ ["string_embexpr", "string_dvar"]) (fields : List Raw) :
      Piece plain (list (str tag :: fields))

/-- The items of a literal with the tag that holds them together. -/
inductive Literal (plain : Bool) : Raw → Prop where
  | parts {tag : String} (htag : tag ∈ ["string_content", "word", "xstring"]) {items : List Raw}
      (h : ∀ x ∈ items, Piece plain x) : Literal plain (list (str tag :: items))

/-- The key of a pair that has no value. -/
inductive Key : Raw → Prop where
  | label (fields : List Raw) : Key (list (str "@label" :: fields))
  | literal {r : Raw} (h : Literal true r) : Key r
  | quoted {r : Raw} (h : Literal true r) (rest : List Raw) :
      Key (list (str "dyna_symbol" :: r :: rest))

section Relocated

variable {line : Bool → Raw → Raw} {plain : Bool} {r : Raw}

theorem Piece.relocate (h : Piece plain r) : Piece plain (relocate line r) := by
  cases h with
  | content a rest =>
    rw [Change.relocate_token (by decide)]
    exact .content a _
  | embedded hplain htag fields =>
    rw [relocate_node]
    exact .embedded hplain htag _

theorem Literal.relocate (h : Literal plain r) : Literal plain (relocate line r) := by
  cases h with
  | @parts tag htag items h =>
    have hplace : positionField? tag = none := by
      simp only [List.mem_cons, List.not_mem_nil, or_false] at htag
      rcases htag with rfl | rfl | rfl
      · rfl
      · rfl
      · rfl
    rw [relocate_node, hplace, relocateItems_none]
    refine .parts htag fun x hx => ?_
    obtain ⟨y, hy, rfl⟩ := List.mem_map.1 hx
    exact (h y hy).relocate

theorem Key.relocate (h : Key r) : Key (relocate line r) := by
  cases h with
  | label fields =>
    rw [relocate_node]
    exact .label _
  | literal h => exact .literal h.relocate
  | quoted h rest =>
    rw [relocate_node, show positionField? "dyna_symbol" = none from rfl, relocateItems]
    exact .quoted h.relocate _

end Relocated

end Raw

namespace Tree

/-- A text as lowering leaves it. -/
def IsText (t : Tree) : Prop :=
  ∃ a : Atom, a.parts? = none ∧ ∃ mark, t = .node (.str "str") mark [.leaf (.atom a)]

theorem IsText.isName {t : Tree} (h : t.IsText) : t.IsName := by
  obtain ⟨a, ha, hmark⟩ := h
  exact ⟨a, ha, .inr hmark⟩

/-- A part of a literal. -/
def IsPart (plain : Bool) (t : Tree) : Prop :=
  t.IsText ∨ plain = false ∧ t.hasTag "begin"

/-- Parts of a literal that are held together, or one text. -/
def IsLiteral (plain : Bool) (t : Tree) : Prop :=
  t.IsText ∨ ∃ tag ∈ ["dstr", "xstr"], ∃ mark ts, t = .node (.str tag) mark ts ∧
    ∀ u ∈ ts, u.IsPart plain

theorem IsLiteral.firstChild {plain : Bool} {t n : Tree} (h : t.IsLiteral plain)
    (hplain : t.hasTag "str" ∨ plain = true) (hn : t.children?.bind List.head? = some n) :
    n.IsName := by
  obtain ⟨a, ha, mark, rfl⟩ | ⟨tag, htag, mark, ts, rfl, hts⟩ := h
  · cases hn
    exact ⟨a, ha, .inl rfl⟩
  · have hstr : (Tree.node (.str tag) mark ts).hasTag "str" = false := by
      simp only [List.mem_cons, List.not_mem_nil, or_false] at htag
      rcases htag with rfl | rfl
      · rfl
      · rfl
    -- A literal with parts is no `str`, so its parts have to be plain.
    rcases hplain with hplain | rfl
    · rw [hstr] at hplain
      cases hplain
    · obtain htext | ⟨hfalse, -⟩ := hts n (List.mem_of_mem_head? hn)
      · exact htext.isName
      · cases hfalse

end Tree

namespace LowerM

variable {plain : Bool} {t : Tree} {ts : List Tree} {fs : Fields} {r : Raw}

theorem isText_placed (line : Option Raw) (text : String) :
    (Tree.placed line "str" [.str text]).IsText :=
  ⟨.str text, rfl, _, rfl⟩

theorem returns_lowerPieces {delimiter : Option String} {line : Option Raw} :
    ∀ {pieces : List (List Char)} {index : Nat} {ts : List Tree},
      Returns (lowerPieces delimiter line index pieces) ts → ∀ t ∈ ts, t.IsText
  | [], _, _, h, t, ht => by
    rw [← returns_pure h] at ht
    cases ht
  | _ :: _, _, _, h, t, ht => by
    obtain ⟨text, -, h⟩ := returns_bind h
    obtain ⟨place, -, h⟩ := returns_bind h
    obtain ⟨rest, hrest, h⟩ := returns_bind h
    rw [← returns_pure h] at ht
    rcases List.mem_cons.1 ht with rfl | ht
    · exact isText_placed _ _
    · exact returns_lowerPieces hrest t ht

/-- Only texts can stand for themselves. -/
theorem parts?_of_standsForItself {style : Style} {a : Atom}
    (h : standsForItself style (.atom a)) : a.parts? = none := by
  cases a with
  | sym name => rfl
  | torn points => rfl
  | _ => cases h

theorem returns_lowerContent {a : Atom} {rest : List Raw}
    (h : Returns (lowerContent (.atom a :: rest)) t) : t.IsLiteral plain := by
  unfold lowerContent at h
  obtain ⟨delimiter, -, h⟩ := returns_bind h
  dsimp only at h
  split at h
  · rename_i hitself
    obtain ⟨place, -, h⟩ := returns_bind h
    rw [← returns_pure h]
    exact .inl ⟨a, parts?_of_standsForItself hitself, _, rfl⟩
  · split at h
    on_goal 1 => split at h
    on_goal 1 => exact absurd h not_returns_refuseTorn
    -- What is left are the pieces of a text, which may be any number.
    all_goals
      obtain ⟨text, -, h⟩ := returns_bind h
      obtain ⟨ts, hts, h⟩ := returns_bind h
      have hts := returns_lowerPieces hts
      split at h
      · rw [← returns_pure h]
        exact .inl (hts _ List.mem_cons_self)
      · rw [← returns_pure h]
        exact .inr ⟨"dstr", by decide, _, _, rfl, fun u hu => .inl (hts u hu)⟩

/-- An interpolation is lowered to one part. -/
theorem returns_interpolation {tag : String} (htag : tag ∈ ["string_embexpr", "string_dvar"])
    (h : Returns (lower (.list (.str tag :: fs))) t) :
    ∃ us, t = .bare "dstr" [.bare "begin" us] := by
  simp only [List.mem_cons, List.not_mem_nil, or_false] at htag
  rw [lower_node] at h
  rcases htag with rfl | rfl
  · obtain ⟨body, -, h⟩ := returns_bind (show Returns (lowerEmbedded lower fs) t from h)
    split at h
    · exact ⟨_, (returns_pure h).symm⟩
    · split at h
      · exact ⟨_, (returns_pure h).symm⟩
      · exact ⟨_, (returns_pure h).symm⟩
    · exact ⟨_, (returns_pure h).symm⟩
  · obtain ⟨value, -, h⟩ := returns_bind (show Returns (lowerEmbeddedVariable lower fs) t from h)
    exact ⟨_, (returns_pure h).symm⟩

theorem returns_piece (hr : Raw.Piece plain r) (h : Returns (lower r) t) : t.IsLiteral plain := by
  cases hr with
  | content a rest => exact returns_lowerContent (by rw [lower_node] at h; exact h)
  | embedded hplain htag fields =>
    obtain ⟨us, rfl⟩ := returns_interpolation htag h
    refine .inr ⟨"dstr", by decide, _, _, rfl, fun u hu => .inr ⟨hplain, ?_⟩⟩
    rw [List.mem_singleton.1 hu]
    rfl

theorem returns_partsOf (ht : t.IsLiteral plain) (h : Returns (partsOf t) ts) :
    ∀ u ∈ ts, u.IsPart plain := by
  obtain ⟨a, ha, mark, rfl⟩ | ⟨tag, htag, mark, us, rfl, hus⟩ := ht
  · rw [← returns_pure (show Returns (pure [_]) ts from h)]
    intro u hu
    rw [List.mem_singleton.1 hu]
    exact .inl ⟨a, ha, mark, rfl⟩
  · simp only [List.mem_cons, List.not_mem_nil, or_false] at htag
    rcases htag with rfl | rfl
    · rw [← returns_pure (show Returns (pure us) ts from h)]
      exact hus
    · rw [← returns_pure (show Returns (pure []) ts from h)]
      exact fun _ hu => absurd hu List.not_mem_nil

theorem returns_literalParts {items : List Raw} (hitems : ∀ x ∈ items, Raw.Piece plain x)
    (h : Returns (literalParts lower items) ts) : ∀ u ∈ ts, u.IsPart plain := by
  obtain ⟨ms, hms, h⟩ := returns_bind h
  obtain ⟨lowered, hlowered, h⟩ := returns_bind h
  obtain ⟨parts, hparts, h⟩ := returns_bind h
  -- Joining tokens gives tokens, so each part comes from a piece.
  have hpieces : ∀ m ∈ ms, Raw.Piece plain m :=
    mergeFrom_within (fun a _ => .content a _) (fun _ hr => absurd hr List.not_mem_nil)
      (fun _ hr => absurd hr List.not_mem_nil) hitems hms
  rw [← returns_pure h]
  intro u hu
  obtain ⟨us, hus, hu⟩ := List.mem_flatten.1 hu
  obtain ⟨t, ht, hreturned⟩ := returns_mapM hparts us hus
  obtain ⟨m, hm, hlower⟩ := returns_mapM hlowered t ht
  exact returns_partsOf (returns_piece (hpieces m hm) hlower) hreturned u hu

theorem returns_lowerString {items : List Raw} (hitems : ∀ x ∈ items, Raw.Piece plain x)
    (h : Returns (lowerString lower items) t) : t.IsLiteral plain := by
  obtain ⟨ts, hts, h⟩ := returns_bind h
  have hparts := returns_literalParts hitems hts
  split at h
  · rw [← returns_pure h]
    exact .inl (isText_placed none "")
  · rename_i part
    have hpart := hparts part List.mem_cons_self
    obtain ⟨isText, htext, h⟩ := returns_bind h
    split at h
    · rename_i hstr
      rw [hstr] at htext
      rw [← returns_pure h]
      -- A lone part that is tagged `str` is a text, not an interpolation.
      obtain hpart | ⟨-, hbegin⟩ := hpart
      · exact .inl hpart
      · have hne := Tree.hasTag_of_ne hbegin (show "begin" ≠ "str" by decide)
        rw [returns_isTagged htext] at hne
        cases hne
    · rw [← returns_pure h]
      exact .inr ⟨"dstr", by decide, _, _, rfl, hparts⟩
  · rw [← returns_pure h]
    exact .inr ⟨"dstr", by decide, _, _, rfl, hparts⟩

end LowerM

namespace Raw

variable {plain : Bool} {t n : Tree} {r : Raw}

/-- What a literal is lowered to. -/
theorem Literal.returns (h : Literal plain r) (ht : Returns (lower r) t) : t.IsLiteral plain := by
  cases h with
  | @parts tag htag items hitems =>
    simp only [List.mem_cons, List.not_mem_nil, or_false] at htag
    rw [lower_node] at ht
    rcases htag with rfl | rfl | rfl
    · exact returns_lowerString hitems ht
    · exact returns_lowerString hitems ht
    · obtain ⟨ts, hts, ht⟩ := returns_bind (show Returns (lowerParts "xstr" lower items) t from ht)
      rw [← returns_pure ht]
      exact .inr ⟨"xstr", by decide, _, _, rfl, returns_literalParts hitems hts⟩

/-- A key starts with a name, whatever it is lowered to. -/
theorem Key.returns (h : Key r) (ht : Returns (lower r) t)
    (hn : t.children?.bind List.head? = some n) : n.IsName := by
  cases h with
  | label fields =>
    rw [lower_node] at ht
    obtain ⟨name, -, ht⟩ := returns_bind (show Returns (lowerLabel fields) t from ht)
    rw [← returns_pure ht] at hn
    cases hn
    exact ⟨.sym name, rfl, .inl rfl⟩
  | literal h => exact (h.returns ht).firstChild (.inr rfl) hn
  | @quoted literal h rest =>
    rw [lower_node] at ht
    obtain ⟨u, hu, ht⟩ :=
      returns_bind (show Returns (quotedSymbolContent lower literal) t from ht)
    obtain ⟨isText, -, ht⟩ := returns_bind ht
    -- A text alone becomes the name of the symbol, unless it is octets that are none.
    split at ht
    · obtain ⟨value, -, ht⟩ := returns_bind ht
      split at ht
      · rw [← returns_pure ht] at hn
        cases hn
      · rw [← returns_pure ht] at hn
        cases hn
        exact ⟨.sym _, rfl, .inl rfl⟩
    · -- The parts of the literal are those of the symbol.
      obtain ⟨us, hus, ht⟩ := returns_bind ht
      rw [← returns_pure ht] at hn
      refine (h.returns hu).firstChild (.inr rfl) ?_
      rw [returns_require hus]
      exact hn

theorem Literal.spells (c : Change) (h : Literal plain r) : c.Spells (·.hasTag "str") r :=
  fun _ => .inl fun _ _ hstr ht hn => (h.relocate.returns ht).firstChild (.inl hstr) hn

theorem Literal.whole (c : Change) (h : Literal plain r) : c.Whole r := by
  cases c with
  | moved k => trivial
  | renumbered => trivial
  | unnumbered =>
    intro t ht
    obtain ⟨a, -, mark, rfl⟩ | ⟨tag, htag, mark, ts, rfl, -⟩ := h.returns ht
    · rfl
    · simp only [List.mem_cons, List.not_mem_nil, or_false] at htag
      rcases htag with rfl | rfl
      · rfl
      · rfl

theorem Key.spells (c : Change) (h : Key r) : c.Spells (fun _ => True) r :=
  fun _ => .inl fun _ _ _ ht hn => h.relocate.returns ht hn

end Raw

end RubyTree
