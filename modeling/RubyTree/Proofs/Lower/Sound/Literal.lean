import RubyTree.Proofs.Lower.Sound.Expression

/-!
# Soundness of Literals and Collections

The pieces of a literal are texts and interpolations, in whatever order they were
written, and every literal is finished once they are. What a literal is made of
was found out where its content was followed through lowering; here only the form
of the pieces matters.

A symbol takes the first piece of a literal for its name, so a literal in its
place has to have one. The pairs of a hash may leave out their values.

## Theorems

* `pieces_finished`: The pieces of a literal are texts and interpolations.
* `sound_literal`: A literal whose content can be decoded.
* `quotedSymbolContent_yields`: A symbol made from a literal.
* `sound_pair`, `sound_shorthandPair`: The pairs of a hash.
-/

namespace RubyTree

namespace LowerM

open Raw (node token)

section Literals

/-- A text by itself. -/
theorem finished_str (slot : Slot) (hslot : slot.takes .text) (mark : Mark) (text : String) :
    Finished slot (.node (.str "str") mark [.str text]) :=
  .node rfl hslot rfl (.one (.leaf rfl) .nil)

/-- A node that holds a text is a piece of a literal. -/
theorem finished_of_strText? {t : Tree} {text : String} (h : strText? t = some text) :
    Finished .piece t := by
  unfold strText? at h
  split at h
  · exact finished_str _ rfl _ _
  · cases h

/-- The parts of a literal are pieces, if its interpolations are. -/
theorem pieces_finished {delimiter : Option String} {segs : List Segment}
    {lowered parts : List Tree} (h : Assembled delimiter segs lowered parts)
    (hlowered : ∀ t ∈ lowered, Holds "dstr" .piece t) :
    ∀ p ∈ parts, Finished .piece p := by
  -- By how the parts are put together: runs give texts, interpolations are given as pieces.
  induction h with
  | nil => exact nofun
  | run hpieces _ _ ih =>
    intro p hp
    rcases List.mem_append.1 hp with hp | hp
    · obtain ⟨text, htext⟩ := strText?_of_mem hpieces p hp
      exact finished_of_strText? htext
    · exact ih hlowered p hp
  | interpolation _ _ ih =>
    intro p hp
    rcases List.mem_cons.1 hp with rfl | hp
    · obtain ⟨mark, children, heq, hchildren⟩ := hlowered _ List.mem_cons_self
      cases heq
      exact hchildren p List.mem_cons_self
    · exact ih (fun t ht => hlowered t (List.mem_cons_of_mem _ ht)) p hp

/-- A literal of content tokens and interpolations. -/
theorem sound_literal {kind : LiteralKind} {delimiter : Option String} {items : List LiteralItem}
    (hruns : ∀ tokens, .run tokens ∈ segments items → ∃ text, runText delimiter tokens = .ok text)
    (h : ∀ r ∈ interpolations items, Sound .interpolation r) :
    Sound (.literal kind) (kind.raw delimiter items) := by
  intro options scope
  obtain ⟨lowered, after, hlowered, hholds⟩ := Yields.mapM h options scope
  have hgather := gather_segments delimiter options (segments items) scope
  -- Gathering fails only with the content of a run or with an interpolation, and
  -- neither of them fails here.
  rw [← literalParts_eq, interpolations_segments, hlowered] at hgather
  rw [lower_literal]
  cases hparts : (literalParts lower (items.map (·.raw delimiter))).runIn options scope with
  | mk result after' =>
    rw [hparts] at hgather
    cases result with
    | ok parts =>
      obtain ⟨lowered', heq, hassembled⟩ := hgather
      cases heq
      exact ⟨_, _, rfl, parts, rfl, pieces_finished hassembled hholds⟩
    | error e =>
      rcases hgather with ⟨tokens, hmem, e', hfails⟩ | hfails
      · obtain ⟨text, htext⟩ := hruns tokens hmem
        rw [htext] at hfails
        cases hfails
      · cases hfails

/-- An interpolation. -/
theorem sound_embedded {r : Raw} (h : Sound .code r) :
    Sound .interpolation (node "string_embexpr" [r]) := by
  have hpiece : ∀ ts : List Tree, (∀ t ∈ ts, Finished .value t) →
      Holds "dstr" .piece (.bare "dstr" [.bare "begin" ts]) := by
    intro ts hts
    exact ⟨_, _, rfl, List.forall_mem_singleton.2 (.node rfl rfl rfl (.all hts))⟩
  refine yields_node rfl ((visitBody_yields h).bind fun t ht => ?_)
  rcases ht.eq_null_or with rfl | ht
  · exact yields_pure (hpiece [] nofun)
  · have hone : ∀ u ∈ [t], Finished .value u := List.forall_mem_singleton.2 ht
    -- A sequence is not wrapped twice.
    split
    · exact absurd rfl (ne_null_of_value ht)
    · split
      · exact yields_pure (hpiece _ (values_of_begin ht))
      · exact yields_pure (hpiece _ hone)
    · exact yields_pure (hpiece _ hone)

/-- An interpolation without braces. -/
theorem sound_embeddedVariable {r : Raw} (h : Sound .expr r) :
    Sound .interpolation (node "string_dvar" [r]) := by
  refine yields_node rfl (h.bind fun t ht => yields_pure ⟨_, _, rfl, ?_⟩)
  refine List.forall_mem_singleton.2 (.node rfl rfl rfl (.all ?_))
  exact List.forall_mem_singleton.2 ht

/-- A string is one text, or a text in parts. -/
theorem stringNode_quoted {parts : List Tree} (h : ∀ p ∈ parts, Finished .piece p) :
    Finished .quoted (LiteralKind.stringNode parts) := by
  unfold LiteralKind.stringNode
  split
  · exact finished_str _ rfl _ _
  · rename_i t
    -- A lone text is the string itself.
    split
    · rename_i htag
      have ht := h t List.mem_cons_self
      obtain ⟨tag, mark, children, rfl⟩ := ht.exists_node
      cases eq_of_beq htag
      exact .node rfl rfl rfl (ht.children rfl)
    · exact .node rfl rfl rfl (.all h)
  · exact .node rfl rfl rfl (.all h)

/-- A string in quotes. -/
theorem sound_string {r : Raw} (h : Sound (.literal .string) r) :
    Sound .quote (node "string_literal" [r]) := by
  refine yields_node rfl (h.mono ?_)
  rintro t ⟨parts, rfl, hparts⟩
  exact stringNode_quoted hparts

/-- String literals next to each other. -/
theorem sound_concatenation {left right : Raw} (hleft : Sound .quote left)
    (hright : Sound .quote right) : Sound .quote (node "string_concat" [left, right]) := by
  refine yields_node rfl (hleft.bind fun l hl => hright.bind fun r hr => yields_pure ?_)
  refine .node rfl rfl rfl (.all fun t ht => ?_)
  rcases List.mem_cons.1 ht with rfl | ht
  · exact hl.within rfl
  · rw [List.mem_singleton.1 ht]
    exact hr.within rfl

/-- A command in backticks. -/
theorem sound_commandLiteral {r : Raw} (h : Sound (.literal .command) r) :
    Sound .expr (node "xstring_literal" [r]) := by
  refine yields_node rfl (h.mono ?_)
  rintro t ⟨parts, rfl, hparts⟩
  exact .node rfl rfl rfl (.all hparts)

/-- The flags behind a regular expression. -/
theorem regexpFlags_yields (tag flags : String) (place : Raw) :
    Yields (regexpFlags (token tag flags place)) fun _ => True := by
  have hmarks : ∀ m ∈ flags.toList.map fun c => Raw.str c.toString,
      Yields (require m.text?) fun _ => True := by
    intro m hm
    obtain ⟨c, -, rfl⟩ := List.mem_map.1 hm
    exact yields_pure trivial
  exact (Yields.mapM hmarks).bind fun _ _ => yields_pure trivial

/-- A regular expression with its flags. -/
theorem sound_regexp {r place : Raw} {tag flags : String} (h : Sound (.literal .regexp) r) :
    Sound .expr (node "regexp_literal" [r, token tag flags place]) := by
  refine yields_node rfl (h.bind ?_)
  rintro t ⟨parts, rfl, hparts⟩
  refine (regexpFlags_yields tag flags place).bind fun letters _ => ?_
  refine yields_pure (.node rfl rfl rfl (.many hparts (.one ?_ .nil)))
  refine .node rfl rfl rfl (.all fun t ht => ?_)
  obtain ⟨letter, -, rfl⟩ := List.mem_map.1 ht
  exact .symbol letter

/-- A symbol whose content is a name. -/
theorem symbolContent_token {tag : String} (htag : tag ≠ "@tstring_content") (name : String)
    (place : Raw) : Yields (symbolContent lower (token tag name place)) (Finished .value) := by
  have hcontent : (token tag name place).hasTag "@tstring_content" = false :=
    beq_eq_false_iff_ne.2 fun h => htag (Option.some.inj h)
  unfold symbolContent
  rw [hcontent, if_neg Bool.false_ne_true]
  exact yields_pure (.node rfl rfl rfl (.one (.symbol _) .nil))

/-- A symbol by a name. -/
theorem sound_symbol {tag name : String} {place : Raw} (htag : tag ≠ "@tstring_content") :
    Sound .expr (node "symbol_literal" [node "symbol" [token tag name place]]) := by
  have hsymbol : Sound .expr (node "symbol" [token tag name place]) :=
    yields_node rfl (symbolContent_token htag name place)
  exact yields_node rfl hsymbol

/-- A symbol that is only a token, as `alias` and `undef` have it. -/
theorem sound_symbolName {tag name : String} {place : Raw}
    (htag : tag ∉ ["symbol", "@tstring_content"]) :
    Sound .expr (node "symbol_literal" [token tag name place]) := by
  simp only [List.mem_cons, List.not_mem_nil, or_false, not_or] at htag
  have hsymbol : (token tag name place).hasTag "symbol" = false :=
    beq_eq_false_iff_ne.2 fun h => htag.1 (Option.some.inj h)
  refine yields_node (p := .symbolLiteral) rfl ?_
  show Yields (if (token tag name place).hasTag "symbol" then _ else _) _
  rw [hsymbol, if_neg Bool.false_ne_true]
  exact symbolContent_token htag.2 name place

/-- A symbol made from a literal: its text is the name, and its parts are kept. -/
theorem quotedSymbolContent_yields {r : Raw}
    (h : Yields (lower r) fun t => Finished .quoted t ∨ Holds "xstr" .piece t) :
    Yields (quotedSymbolContent lower r) (Finished .value) := by
  refine h.bind fun t ht => ?_
  rcases ht with ht | ⟨mark, children, rfl, hchildren⟩
  · obtain ⟨tag, htag, mark, children, rfl⟩ := ht.exists_tagged ["str", "dstr"] rfl
    simp only [List.mem_cons, List.not_mem_nil, or_false] at htag
    rcases htag with rfl | rfl
    · obtain ⟨_, _, rfl, htext, -⟩ := (ht.children rfl).of_one
      obtain ⟨text, rfl⟩ := htext.eq_text
      -- The empty text is no name, so its symbol is one without parts.
      show Yields (if _ then _ else _) _
      split
      · exact yields_pure (.node rfl rfl rfl (.all nofun))
      · exact yields_pure (.node rfl rfl rfl (.one (.symbol _) .nil))
    · exact yields_pure (.node rfl rfl rfl (.all (ht.children rfl).of_many))
  · exact yields_pure (.node rfl rfl rfl (.all hchildren))

/-- A symbol in quotes. -/
theorem sound_quotedSymbol {kind : LiteralKind} {r : Raw} (hkind : kind ≠ .regexp)
    (h : Sound (.literal kind) r) : Sound .expr (node "dyna_symbol" [r]) := by
  refine yields_node rfl (quotedSymbolContent_yields (h.mono ?_))
  rintro t ⟨parts, rfl, hparts⟩
  cases kind with
  | string | word => exact .inl (stringNode_quoted hparts)
  | command => exact .inr ⟨_, _, rfl, hparts⟩
  | regexp => exact absurd rfl hkind

end Literals

section Words

/-- Words that may have interpolations. -/
theorem sound_words {tag : String} {rs : List Raw} (htag : tag ∈ ["words", "symbols"])
    (h : ∀ r ∈ rs, Sound (.literal .word) r) : Sound .words (node tag rs) := by
  -- A word is a string whatever it is made of.
  have hquoted : ∀ r ∈ rs, Yields (lower r) (Finished .quoted) := by
    intro r hr
    refine (h r hr).mono ?_
    rintro t ⟨parts, rfl, hparts⟩
    exact stringNode_quoted hparts
  simp only [List.mem_cons, List.not_mem_nil, or_false] at htag
  rcases htag with rfl | rfl
  · refine yields_node rfl ((Yields.mapM hquoted).bind fun ts hts => ?_)
    exact yields_pure ⟨_, _, rfl, fun t ht => (hts t ht).within rfl⟩
  · have hsymbols : ∀ r ∈ rs, Yields (quotedSymbolContent lower r) (Finished .value) :=
      fun r hr => quotedSymbolContent_yields ((hquoted r hr).mono fun _ ht => .inl ht)
    refine yields_node rfl ((Yields.mapM hsymbols).bind fun ts hts => ?_)
    exact yields_pure ⟨_, _, rfl, fun t ht => (hts t ht).within rfl⟩

/-- A text that is not empty has a piece. -/
theorem splitLines_ne_nil (c : Char) (cs : List Char) : splitLines (c :: cs) ≠ [] := by
  unfold splitLines
  split
  · exact List.cons_ne_nil _ _
  · split
    · exact List.cons_ne_nil _ _
    · exact List.cons_ne_nil _ _

/-- Content is at least one piece. -/
theorem contentPieces_ne_nil (delimiter : Option String) (cs : List Char) :
    contentPieces delimiter cs ≠ [] := by
  unfold contentPieces
  dsimp only
  generalize (if (Style.ofDelimiter delimiter).joinsLines then joinContinued cs else cs) = text
  split
  · exact List.cons_ne_nil _ _
  · rename_i hbreak
    cases text with
    | nil => exact absurd (by simp) hbreak
    | cons c cs => exact splitLines_ne_nil c cs

/-- Decoding keeps the number of pieces, so one is left if there was one. -/
theorem exists_cons_of_mapM {f : List Char → Except Error (List Char)} {piece : List Char}
    {pieces texts : List (List Char)} (h : (piece :: pieces).mapM f = .ok texts) :
    ∃ text rest, texts = text :: rest := by
  rw [List.mapM_cons] at h
  cases hf : f piece with
  | error e =>
    rw [hf] at h
    cases h
  | ok text =>
    cases hrest : pieces.mapM f with
    | error e =>
      rw [hf, hrest] at h
      cases h
    | ok rest =>
      rw [hf, hrest] at h
      cases h
      exact ⟨text, rest, rfl⟩

/-- The nodes for pieces of content are texts. -/
theorem pieceNodes_finished (line : Option Raw) (index : Nat) (texts : List (List Char)) :
    ∀ t ∈ pieceNodes line index texts, Finished .piece t := by
  intro t ht
  obtain ⟨text, htext⟩ := strText?_of_mem (mapM_strText?_pieceNodes line index texts) t ht
  exact finished_of_strText? htext

/-- A content token by itself is a text with a first part. -/
theorem contentToken_yields {delimiter : Option String} {token : ContentToken}
    (h : ∃ text, runText delimiter [token] = .ok text) :
    Yields (lower (token.raw delimiter)) fun t =>
      Finished .quoted t ∧ ∃ c, Yields (firstChild t) (· = c) := by
  obtain ⟨text, htext⟩ := h
  have hsource : runSource [token] = token.text.toList := List.append_nil _
  have hpieces := decode_contentPieces delimiter token.text.toList
  rw [runText, hsource] at htext
  rw [htext] at hpieces
  cases htexts : (contentPieces delimiter token.text.toList).mapM (decodeContent delimiter) with
  | error e =>
    rw [htexts] at hpieces
    cases hpieces
  | ok texts =>
    -- A symbol is named after the first of these texts.
    have hfirst : ∃ text rest, texts = text :: rest := by
      cases hcontent : contentPieces delimiter token.text.toList with
      | nil => exact absurd hcontent (contentPieces_ne_nil _ _)
      | cons piece pieces =>
        rw [hcontent] at htexts
        exact exists_cons_of_mapM htexts
    obtain ⟨first, rest, rfl⟩ := hfirst
    rw [lower_contentToken, htexts]
    refine yields_pure ?_
    cases rest with
    | nil => exact ⟨finished_str _ rfl _ _, _, yields_pure rfl⟩
    | cons second rest =>
      have hall := pieceNodes_finished token.line? 0 (first :: second :: rest)
      exact ⟨.node rfl rfl rfl (.all hall), _, yields_pure rfl⟩

/-- Words without interpolations. -/
theorem sound_plainWords {tag : String} {delimiter : Option String} {tokens : List ContentToken}
    (htag : tag ∈ ["qwords", "qsymbols"])
    (h : ∀ token ∈ tokens, ∃ text, runText delimiter [token] = .ok text) :
    Sound .words (node tag (tokens.map (·.raw delimiter))) := by
  have hlower : ∀ r ∈ tokens.map (·.raw delimiter), Yields (lower r) (Finished .argument) := by
    intro r hr
    obtain ⟨token, htoken, rfl⟩ := List.mem_map.1 hr
    exact (contentToken_yields (h token htoken)).mono fun t ht => ht.1.within rfl
  -- A word that is to be a symbol is its first text, and it has one since it could be decoded.
  have hsymbols : ∀ r ∈ tokens.map (·.raw delimiter),
      Yields (symbolContent lower r) (Finished .argument) := by
    intro r hr
    obtain ⟨token, htoken, rfl⟩ := List.mem_map.1 hr
    refine (contentToken_yields (h token htoken)).bind fun t ht => ?_
    obtain ⟨-, c, hc⟩ := ht
    exact hc.bind fun _ _ => yields_pure (.node rfl rfl rfl (.one (.symbol _) .nil))
  simp only [List.mem_cons, List.not_mem_nil, or_false] at htag
  rcases htag with rfl | rfl
  · exact yields_node rfl ((Yields.mapM hlower).bind fun ts hts => yields_pure ⟨_, _, rfl, hts⟩)
  · exact yields_node rfl ((Yields.mapM hsymbols).bind fun ts hts => yields_pure ⟨_, _, rfl, hts⟩)

end Words

section Collections

/-- `[]` and `{}`. -/
theorem sound_emptyCollection {tag : String} (htag : tag ∈ ["array", "hash"]) :
    Sound .expr (node tag [.null]) := by
  simp only [List.mem_cons, List.not_mem_nil, or_false] at htag
  rcases htag with rfl | rfl
  · exact yields_node rfl (yields_pure (.node rfl rfl rfl (.all nofun)))
  · exact yields_node rfl (yields_pure (.node rfl rfl rfl (.all nofun)))

/-- A collection has the children of its only field. -/
theorem lowerCollection_yields {tag inner : String} {slot : Slot} {r : Raw}
    (h : Yields (lower r) (Holds inner slot)) :
    Yields (lowerCollection tag lower [r]) (Holds tag slot) := by
  show Yields (if r.isEmpty then _ else _) _
  split
  · exact yields_pure ⟨_, _, rfl, nofun⟩
  · refine h.bind ?_
    rintro t ⟨mark, children, rfl, hchildren⟩
    exact yields_pure ⟨_, _, rfl, hchildren⟩

/-- A list that is an argument may be a value as well. -/
theorem finished_array {t : Tree} (h : Holds "array" .argument t) : Finished .value t := by
  obtain ⟨mark, children, rfl, hchildren⟩ := h
  exact .node rfl rfl rfl (.all hchildren)

/-- An array of values. -/
theorem sound_array {r : Raw} (h : Sound .arglist r) : Sound .expr (node "array" [r]) :=
  yields_node rfl ((lowerCollection_yields h).mono fun _ => finished_array)

/-- An array of words or of symbols. -/
theorem sound_wordArray {r : Raw} (h : Sound .words r) : Sound .expr (node "array" [r]) :=
  yields_node rfl ((lowerCollection_yields h).mono fun _ => finished_array)

/-- A hash. -/
theorem sound_hash {r : Raw} (h : Sound .pairs r) : Sound .expr (node "hash" [r]) := by
  refine yields_node rfl ((lowerCollection_yields h).mono ?_)
  rintro t ⟨mark, children, rfl, hchildren⟩
  exact .node rfl rfl rfl (.all hchildren)

/-- The pairs of a hash. -/
theorem sound_pairs {rs : List Raw} (h : ∀ r ∈ rs, Sound .pair r) :
    Sound .pairs (node "assoclist_from_args" [.list rs]) := by
  refine yields_node (p := .each "assocs") rfl ?_
  show Yields (elementsOf (.list rs) >>= (·.mapM lower) >>= _) _
  rw [elementsOf_list, pure_bind]
  exact (Yields.mapM h).bind fun ts hts => yields_pure ⟨_, _, rfl, hts⟩

/-- A name by itself. -/
theorem finished_sym (mark : Mark) (name : String) :
    Finished .value (.node (.str "sym") mark [.sym name]) :=
  .node rfl rfl rfl (.one (.symbol _) .nil)

/-- A key that is a label. -/
theorem sound_label {name : String} {place : Raw} : Sound .key (token "@label" name place) := by
  refine (label_yields name place).mono ?_
  rintro _ ⟨mark, rfl⟩
  exact finished_sym mark _

/-- A key and its value. -/
theorem sound_pair {key value : Raw} (hkey : Sound .key key) (hvalue : Sound .expr value) :
    Sound .pair (node "assoc_new" [key, value]) := by
  obtain ⟨tag, fields, rfl⟩ := exists_node_of_sound hvalue
  refine yields_node rfl (hkey.bind fun k hk => hvalue.bind fun v hv => ?_)
  exact yields_pure (.node rfl rfl rfl (.one hk (.one (hv.within rfl) .nil)))

/-- A key that is its own value, such as `a:`. -/
theorem sound_shorthandPair {name : String} {place : Raw}
    (h : String.ofList name.toList.dropLast ≠ "!") :
    Sound .pair (node "assoc_new" [token "@label" name place, .null]) := by
  have hkey := label_yields name place
  generalize String.ofList name.toList.dropLast = clipped at h hkey
  refine yields_node rfl (hkey.bind ?_)
  rintro t ⟨mark, rfl⟩
  have hvalue : Yields (shorthandValue (token "@label" name place)
      (.node (.str "sym") mark [.sym clipped])) (Finished .value) := by
    -- A constant, a local variable or a call, as if the name stood alone.
    show Yields (if _ then _ else _) _
    split
    · exact yields_pure (.node rfl rfl rfl (.one (.leaf rfl) (.one (.symbol _) .nil)))
    · refine (yields_isLocal _).bind fun isLocal _ => ?_
      show Yields (if isLocal then _ else _) _
      split
      · exact yields_pure (.node rfl rfl rfl (.one (.symbol _) .nil))
      · exact yields_pure (.call rfl (.inl rfl) (.leaf rfl) nofun fun _ _ => h)
  refine hvalue.bind fun v hv => ?_
  exact yields_pure (.node rfl rfl rfl (.one (finished_sym mark _) (.one (hv.within rfl) .nil)))

/-- `**a` among pairs. -/
theorem sound_doubleSplat {r : Raw} (h : Sound (.optional .expr) r) :
    Sound .pair (node "assoc_splat" [r]) := by
  refine yields_node rfl ((optional_yields h).bind fun t ht => ?_)
  exact yields_pure (.node rfl rfl rfl (.one ht .nil))

end Collections

end LowerM

end RubyTree
