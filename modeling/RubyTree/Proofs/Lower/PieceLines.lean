import RubyTree.Proofs.Literal.PieceStart
import RubyTree.Proofs.Lower.LiteralContent
import RubyTree.Proofs.Lower.SourceOrder
import RubyTree.Proofs.Text.Surrogate

/-!
# Lines of Pieces

Content of several lines becomes a `str` for each, and the `str` with an index is put
so many lines below the first. That is the line its text has in the source, as long
as no continued line was joined before: the pieces are counted after joining, so each
continuation that was removed leaves the later pieces one line too high.

A text may hold halves of characters. It is lowered as the text it is shown as,
unless escapes are read, where it is refused, or it stands for itself.

## Main definitions

* `contentLeaf`: Content on a line.
* `Spells`, `SpellsAll`: A `str` with what a piece denotes, and one for each piece.
* `textToken`: Content that is a whole text.

## Theorems

* `lower_contentLeaf`: What becomes of content, be it a whole text or not.
* `contentLeaf_nodes`: There is a `str` for each piece, so many lines below the first.
* `lower_pieces_on_lines`: Where those lines are in the source.
-/

namespace RubyTree

namespace LowerM

/-- Content of any kind on a line. -/
def contentLeaf (content : Atom) (line : Int) (column : Raw) (delimiter : Option String) : Raw :=
  .list [.str "@tstring_content", .atom content, .list [.int line, column],
    delimiterRaw delimiter]

/-- A `str` on a line with what a piece denotes. -/
def Spells (delimiter : Option String) (piece : List Char) (line : Int) (node : Tree) : Prop :=
  ∃ text value, decodeContent delimiter piece = .ok text ∧
    value.text? = some (String.ofList text) ∧
    node = .placed (some (.int line)) "str" [.leaf value]

/-- A `str` for each piece, on the lines from this one on. -/
inductive SpellsAll (delimiter : Option String) : Int → List (List Char) → List Tree → Prop where
  | nil (line : Int) : SpellsAll delimiter line [] []
  | cons {line : Int} {piece : List Char} {node : Tree} {pieces : List (List Char)}
      {nodes : List Tree} (hfirst : Spells delimiter piece line node)
      (hrest : SpellsAll delimiter (line + 1) pieces nodes) :
      SpellsAll delimiter line (piece :: pieces) (node :: nodes)

section Leaves

variable {content : Atom} {text : String} {line : Int} {delimiter : Option String}

theorem SpellsAll.length_eq {pieces : List (List Char)} {nodes : List Tree}
    (h : SpellsAll delimiter line pieces nodes) : nodes.length = pieces.length := by
  induction h with
  | nil line => rfl
  | cons hfirst hrest ih => exact congrArg (· + 1) ih

theorem SpellsAll.getElem? {pieces : List (List Char)} {nodes : List Tree}
    (h : SpellsAll delimiter line pieces nodes) {index : Nat} {piece : List Char} {node : Tree}
    (hpiece : pieces[index]? = some piece) (hnode : nodes[index]? = some node) :
    Spells delimiter piece (line + index) node := by
  -- By the pieces: each one that is passed moves the line on by one.
  induction h generalizing index with
  | nil line => cases hpiece
  | cons hfirst hrest ih =>
    cases index with
    | zero =>
      cases hpiece
      cases hnode
      simpa using hfirst
    | succ index =>
      have hspells := ih hpiece hnode
      rwa [Int.add_assoc, Int.add_comm 1] at hspells

theorem spellsAll_pieceNodes {pieces texts : List (List Char)} (line : Int) (start : Nat)
    (h : pieces.mapM (decodeContent delimiter) = .ok texts) :
    SpellsAll delimiter (line + start) pieces (pieceNodes (some (.int line)) start texts) := by
  -- A piece that fails makes the whole fail, so all of them have been decoded.
  induction pieces generalizing start texts with
  | nil =>
    cases h
    exact .nil _
  | cons piece pieces ih =>
    rw [List.mapM_cons] at h
    cases hfirst : decodeContent delimiter piece with
    | error e =>
      rw [hfirst] at h
      cases h
    | ok text =>
      cases hrest : pieces.mapM (decodeContent delimiter) with
      | error e =>
        rw [hfirst, hrest] at h
        cases h
      | ok rest =>
        rw [hfirst, hrest] at h
        cases h
        refine .cons ⟨text, _, hfirst, rfl, rfl⟩ ?_
        rw [Int.add_assoc]
        exact ih (start + 1) hrest

/-- A whole text on a line, as a token. -/
def textToken (text : String) (line : Int) (column : Raw) : ContentToken where
  text
  position := .list [.int line, column]
  counts _ h := ⟨line, (Option.some.inj h).symm⟩

theorem lower_textToken (text : String) (line : Int) (column : Raw) (delimiter : Option String) :
    lower ((textToken text line column).raw delimiter) = do
      let texts ← ofExcept ((contentPieces delimiter text.toList).mapM (decodeContent delimiter))
      return wrapPieces (some (.int line)) (pieceNodes (some (.int line)) 0 texts) :=
  lower_contentToken delimiter (textToken text line column)

/-- Content that is no whole text stands for itself, is refused, or becomes what the
    text it is shown as becomes. -/
theorem lower_contentLeaf (htext : content.text? = some text) (line : Int) (column : Raw)
    (delimiter : Option String) :
    lower (contentLeaf content line column delimiter) =
      if standsForItself (.ofDelimiter delimiter) (.atom content) then
        pure (.placed (some (.int (line + (0 : Nat)))) "str" [.leaf (.atom content)])
      else if (Style.ofDelimiter delimiter).decodesEscapes then
        match content.beforeHalf? with
        | some before => refuseTorn delimiter (some (.int line)) before
        | none => lower ((textToken text line column).raw delimiter)
      else lower ((textToken text line column).raw delimiter) := by
  have hlower : lower (contentLeaf content line column delimiter) =
      lowerContent [.atom content, .list [.int line, column], delimiterRaw delimiter] :=
    lower_node "@tstring_content" _
  have hshown : lower ((textToken text line column).raw delimiter) =
      lowerContent [.str text, .list [.int line, column], delimiterRaw delimiter] :=
    lower_node "@tstring_content" _
  have hdelimiter : delimiterOf (delimiterRaw delimiter) = pure delimiter := by
    cases delimiter <;> rfl
  rw [hlower, hshown]
  show (delimiterOf (delimiterRaw delimiter) >>= fun d => _) =
    if _ then _ else if _ then (match content.beforeHalf? with
      | some before => refuseTorn delimiter (some (.int line)) before
      | none => delimiterOf (delimiterRaw delimiter) >>= fun d => _)
      else delimiterOf (delimiterRaw delimiter) >>= fun d => _
  rw [hdelimiter, pure_bind, pure_bind]
  show (if standsForItself (.ofDelimiter delimiter) (.atom content) then _ else _) = _
  have hhalf : (Fields.get [.atom content, .list [.int line, column], delimiterRaw delimiter]
    0).beforeHalf? = content.beforeHalf? := rfl
  have hread : (require content.text? : LowerM String) = pure text := by
    rw [htext]
    rfl
  -- Once the text has been read, nothing depends on what it was read from.
  split
  · rfl
  · cases (Style.ofDelimiter delimiter).decodesEscapes with
    | false =>
      show (require content.text? >>= fun _ => _) = _
      rw [hread]
      rfl
    | true =>
      rw [hhalf]
      cases content.beforeHalf? with
      | some before => rfl
      | none =>
        show (require content.text? >>= fun _ => _) = _
        rw [hread]
        rfl

/-- Content that stands for itself is not decoded and has no line break. -/
theorem standsForItself_plain (htext : content.text? = some text)
    (h : standsForItself (.ofDelimiter delimiter) (.atom content)) :
    Style.ofDelimiter delimiter = .verbatim ∧ '\n' ∉ text.toList := by
  cases content with
  | sym name =>
    -- Only text that is a symbol or torn stands for itself, and the test excludes breaks.
    cases htext
    simpa [standsForItself] using h
  | torn points =>
    cases htext
    obtain ⟨hstyle, hpoints⟩ : Style.ofDelimiter delimiter = .verbatim ∧ 10 ∉ points := by
      simpa [standsForItself] using h
    refine ⟨hstyle, fun hmem => ?_⟩
    rw [Text.shownPoints, String.toList_ofList] at hmem
    obtain ⟨n, hn, hshown⟩ := List.mem_map.1 hmem
    have hbreak : n = 10 := (Text.shownPoint_eq_iff (by decide) (by decide)).1 hshown
    exact hpoints (hbreak ▸ hn)
  | null | bool | int | str | real | complex | rational | octets | foreign => cases h

theorem contentPieces_plain (hstyle : Style.ofDelimiter delimiter = .verbatim) {cs : List Char}
    (h : '\n' ∉ cs) : contentPieces delimiter cs = [cs] := by
  unfold contentPieces
  rw [hstyle]
  simp [Style.joinsLines, Style.isWords, h]

theorem decodeContent_verbatim (hstyle : Style.ofDelimiter delimiter = .verbatim)
    (cs : List Char) : decodeContent delimiter cs = .ok cs := by
  unfold decodeContent
  rw [hstyle]
  rfl

variable {column : Raw} {options : Options} {scope after : Scope} {t : Tree}

theorem textToken_nodes
    (h : (lower ((textToken text line column).raw delimiter)).runIn options scope =
      (.ok t, after)) :
    after = scope ∧ ∃ nodes, t = wrapPieces (some (.int line)) nodes ∧
      SpellsAll delimiter line (contentPieces delimiter text.toList) nodes := by
  rw [lower_textToken] at h
  -- The pieces are decoded before any node is made, so a failure leaves none.
  cases htexts : (contentPieces delimiter text.toList).mapM (decodeContent delimiter) with
  | error e =>
    rw [htexts] at h
    cases h
  | ok texts =>
    rw [htexts] at h
    obtain ⟨rfl, rfl⟩ := runIn_pure_ok h
    refine ⟨rfl, pieceNodes (some (.int line)) 0 texts, rfl, ?_⟩
    simpa using spellsAll_pieceNodes line 0 htexts

/-- There is a `str` for each piece, as many lines below the first as pieces are
    before it. -/
theorem contentLeaf_nodes (htext : content.text? = some text)
    (h : (lower (contentLeaf content line column delimiter)).runIn options scope = (.ok t, after)) :
    after = scope ∧ ∃ nodes, t = wrapPieces (some (.int line)) nodes ∧
      SpellsAll delimiter line (contentPieces delimiter text.toList) nodes := by
  rw [lower_contentLeaf htext] at h
  split at h
  · rename_i hself
    obtain ⟨hstyle, hplain⟩ := standsForItself_plain htext hself
    obtain ⟨rfl, rfl⟩ := runIn_pure_ok h
    -- What stands for itself is a single piece.
    refine ⟨rfl, [_], rfl, ?_⟩
    rw [contentPieces_plain hstyle hplain]
    have hshown : (Raw.atom content).text? = some (String.ofList text.toList) := by
      rw [String.ofList_toList]
      exact htext
    refine .cons ⟨_, .atom content, decodeContent_verbatim hstyle _, hshown, ?_⟩ (.nil _)
    rw [Int.ofNat_zero, Int.add_zero]
    rfl
  · split at h
    · cases hhalf : content.beforeHalf? with
      | some before =>
        rw [hhalf] at h
        exact absurd ⟨options, scope, after, h⟩ not_returns_refuseTorn
      | none =>
        rw [hhalf] at h
        exact textToken_nodes h
    · exact textToken_nodes h

/-- Content that can be decoded is lowered. -/
theorem contentLeaf_returns (htext : content.text? = some text)
    (hwhole : (Style.ofDelimiter delimiter).decodesEscapes → content.beforeHalf? = none)
    {decoded : List Char}
    (hdecodes : decodeContent delimiter (prepared delimiter text.toList) = .ok decoded)
    (line : Int) (column : Raw) (options : Options) (scope : Scope) :
    ∃ t, (lower (contentLeaf content line column delimiter)).runIn options scope =
      (.ok t, scope) := by
  have htoken : ∃ t, (lower ((textToken text line column).raw delimiter)).runIn options scope =
      (.ok t, scope) := by
    -- Pieces are decoded one by one as the whole is, so none of them fails.
    have hpieces := decode_contentPieces delimiter text.toList
    rw [hdecodes] at hpieces
    rw [lower_textToken]
    cases htexts : (contentPieces delimiter text.toList).mapM (decodeContent delimiter) with
    | error e =>
      rw [htexts] at hpieces
      cases hpieces
    | ok texts =>
      exact ⟨_, rfl⟩
  rw [lower_contentLeaf htext]
  split
  · exact ⟨_, rfl⟩
  · split
    · rename_i hescapes
      rw [hwhole hescapes]
      exact htoken
    · exact htoken

theorem Spells.line_unique {piece : List Char} {line' : Int} {node : Tree}
    (h : Spells delimiter piece line node) (h' : Spells delimiter piece line' node) :
    line = line' := by
  obtain ⟨_, _, -, -, rfl⟩ := h
  obtain ⟨_, _, -, -, hnode⟩ := h'
  injection hnode with _ hmark
  injection hmark with hline
  injection hline with hline
  injection hline with hline
  injection hline

/-- Content that can be decoded has a `str` for each piece, with what that piece
    denotes. It is on the line where the piece starts in the source, less one for
    each continuation before it, and so on that line exactly if there is none. -/
theorem lower_pieces_on_lines (htext : content.text? = some text) (line : Int) (column : Raw)
    (delimiter : Option String) (options : Options) (scope : Scope) :
    (((Style.ofDelimiter delimiter).decodesEscapes → content.beforeHalf? = none) →
      ∀ decoded, decodeContent delimiter (prepared delimiter text.toList) = .ok decoded →
        ∃ t, (lower (contentLeaf content line column delimiter)).runIn options scope =
          (.ok t, scope)) ∧
    ∀ t after,
      (lower (contentLeaf content line column delimiter)).runIn options scope = (.ok t, after) →
      after = scope ∧ ∃ nodes, t = wrapPieces (some (.int line)) nodes ∧
        nodes.length = (contentPieces delimiter text.toList).length ∧
        ∀ index piece node, (contentPieces delimiter text.toList)[index]? = some piece →
          nodes[index]? = some node →
            (∃! cut : List Char × List Char,
              PieceStart delimiter text.toList index cut.1 cut.2) ∧
            ∀ before later, PieceStart delimiter text.toList index before later →
              Spells delimiter piece (line + before.count '\n' - removed delimiter before) node ∧
              (Spells delimiter piece (line + before.count '\n') node ↔
                removed delimiter before = 0) := by
  refine ⟨fun hwhole decoded hdecodes =>
    contentLeaf_returns htext hwhole hdecodes line column options scope, fun t after h => ?_⟩
  obtain ⟨hscope, nodes, ht, hnodes⟩ := contentLeaf_nodes htext h
  refine ⟨hscope, nodes, ht, hnodes.length_eq, fun index piece node hpiece hnode => ?_⟩
  obtain ⟨hindex, -⟩ := List.getElem?_eq_some_iff.1 hpiece
  refine ⟨pieceStart_existsUnique hindex, fun before later hstart => ?_⟩
  -- The lines of the node and of the source are both known from the index.
  have hcount := hstart.count_newline hindex
  have hline : line + before.count '\n' - removed delimiter before = line + index := by omega
  have hspells := hnodes.getElem? hpiece hnode
  refine ⟨hline ▸ hspells, fun hsource => ?_, fun hnone => ?_⟩
  · have hsame := hspells.line_unique hsource
    omega
  · have hsame : line + before.count '\n' = line + index := by omega
    rwa [hsame]

end Leaves

section Samples

/-- Two lines, the second of which is continued. -/
def continuedLast : Raw :=
  contentLeaf (.str "a\nb\\\nc") 3 (.int 1) (some "\"")

/-- Two lines, the first of which is continued. -/
def continuedFirst : Raw :=
  contentLeaf (.str "a\\\nb\nc") 1 (.int 0) (some "\"")

def textNode (line : Int) (text : String) : Tree :=
  .placed (some (.int line)) "str" [.str text]

/-- The last piece is where it is in the source, since only its own lines are
    continued. -/
theorem lower_pieces_on_lines_continuedLast :
    let first := "a\n".toList
    let second := "b\\\nc".toList
    (∃ t, (lower continuedLast).runIn {} {} = (.ok t, {})) ∧
      PieceStart (some "\"") "a\nb\\\nc".toList 1 first second ∧
      removed (some "\"") first = 0 ∧
      Spells (some "\"") "bc".toList (3 + first.count '\n') (textNode 4 "bc") := by
  intro first second
  have htext : (Atom.str "a\nb\\\nc").text? = some "a\nb\\\nc" := rfl
  have hstart : PieceStart (some "\"") "a\nb\\\nc".toList 1 first second :=
    ⟨rfl, rfl, rfl, fun _ => rfl⟩
  obtain ⟨hreturns, hnodes⟩ := lower_pieces_on_lines htext 3 (.int 1) (some "\"") {} {}
  have hlowered : (lower continuedLast).runIn {} {} =
      (.ok (.placed (some (.int 3)) "dstr" [textNode 3 "a\n", textNode 4 "bc"]), {}) := rfl
  obtain ⟨-, nodes, ht, hlength, hspells⟩ := hnodes _ _ hlowered
  -- Two pieces make two nodes, the second of which stands for both of its lines.
  match nodes, hlength with
  | [a, b], _ =>
    injection ht with _ _ hchildren
    obtain ⟨rfl, rfl⟩ : textNode 3 "a\n" = a ∧ textNode 4 "bc" = b := by
      simpa only [List.cons.injEq, and_true] using hchildren
    obtain ⟨-, hlines⟩ := hspells 1 "bc".toList (textNode 4 "bc") rfl rfl
    exact ⟨hreturns (fun _ => rfl) _ rfl, hstart, rfl, (hlines first second hstart).2.2 rfl⟩

/-- The last piece is one line too high, since a line before it is continued. -/
theorem lower_pieces_on_lines_continuedFirst :
    let first := "a\\\nb\n".toList
    (lower continuedFirst).runIn {} {} =
        (.ok (.placed (some (.int 1)) "dstr" [textNode 1 "ab\n", textNode 2 "c"]), {}) ∧
      PieceStart (some "\"") "a\\\nb\nc".toList 1 first "c".toList ∧
      ¬ Spells (some "\"") "c".toList (1 + first.count '\n') (textNode 2 "c") := by
  refine ⟨rfl, ⟨rfl, rfl, rfl, fun _ => rfl⟩, fun h => ?_⟩
  have hspells : Spells (some "\"") "c".toList 2 (textNode 2 "c") :=
    ⟨"c".toList, .str "c", rfl, rfl, rfl⟩
  exact absurd (hspells.line_unique h) (by decide)

end Samples

end LowerM

end RubyTree
