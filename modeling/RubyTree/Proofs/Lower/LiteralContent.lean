import RubyTree.Proofs.Literal.Lines
import RubyTree.Proofs.Lower.Depth

/-!
# Literals Keep Their Content

A literal is lowered in stages: content tokens side by side are joined and the
empty ones dropped, continued lines are joined, the text is cut into lines, each
line is decoded and becomes a `str`, and interpolations become `begin` nodes
among these. None of this is to be seen in what the literal denotes. Its parts
are, from first to last, the text of each run of content decoded as a whole and
one `begin` for each interpolation.

The content can make lowering fail, and does so exactly if the text of a run
cannot be decoded. When all runs can be, lowering the literal fails where lowering
its interpolations one after the other does, with the same error and the same
scope.

## Main definitions

* `ContentToken`, `Interpolation`, `LiteralItem`: What a literal is written with.
* `Segment`, `segments`: Runs of content that are as long as possible, and the
  interpolations between them.
* `runText`: What a run of content denotes.
* `Assembled`: The parts of a literal, segment by segment.
* `LiteralKind`: The literals, with the node that holds the parts of each.

## Theorems

* `mergeContent_items`: Joining tokens leaves one or none for each run.
* `gather_run`, `gather_interpolation`: What one segment contributes.
* `gather_segments`: The parts of all segments.
* `lower_literal_content`: Literals keep their content.
-/

namespace RubyTree

namespace LowerM

/-- A token with text of a literal. Its position starts with a line or is absent. -/
structure ContentToken where
  text : String
  position : Raw
  counts : ∀ line ∈ position.positionLine?, ∃ n : Int, line = .int n

/-- An opening delimiter as tokens carry it. -/
def delimiterRaw : Option String → Raw
  | some d => .str d
  | none => .null

namespace ContentToken

/-- The token in a literal with this delimiter. -/
def raw (delimiter : Option String) (token : ContentToken) : Raw :=
  .list [.str "@tstring_content", .str token.text, token.position, delimiterRaw delimiter]

def line? (token : ContentToken) : Option Raw :=
  token.position.positionLine?

end ContentToken

/-- An interpolated expression or variable, of any content. -/
structure Interpolation where
  raw : Raw
  tagged : raw.hasTag "string_embexpr" ∨ raw.hasTag "string_dvar"

/-- What stands between the delimiters of a literal. -/
inductive LiteralItem where
  | content (token : ContentToken)
  | interpolation (i : Interpolation)

def LiteralItem.raw (delimiter : Option String) : LiteralItem → Raw
  | content token => token.raw delimiter
  | interpolation i => i.raw

/-- A run of content tokens, or an interpolation. -/
inductive Segment where
  | run (tokens : List ContentToken)
  | interpolation (i : Interpolation)

/-- The items with content tokens that stand side by side in one run. -/
def segments : List LiteralItem → List Segment
  | [] => []
  | .content token :: items =>
    match segments items with
    | .run tokens :: segs => .run (token :: tokens) :: segs
    | segs => .run [token] :: segs
  | .interpolation i :: items => .interpolation i :: segments items

/-- The interpolations of a literal, in order. -/
def interpolations : List LiteralItem → List Raw
  | [] => []
  | .content _ :: items => interpolations items
  | .interpolation i :: items => i.raw :: interpolations items

/-- The text of a run of content tokens. -/
def runSource (tokens : List ContentToken) : List Char :=
  tokens.flatMap (·.text.toList)

/-- What a run of content tokens denotes, if it can be decoded. -/
def runText (delimiter : Option String) (tokens : List ContentToken) :
    Except Error (List Char) :=
  decodeContent delimiter (prepared delimiter (runSource tokens))

/-- The text of a `str` node. -/
def strText? : Tree → Option String
  | .node (.str "str") _ [.str text] => some text
  | _ => none

/-- The parts that segments have: for a run of content some `str` nodes that
    spell what it denotes, and for an interpolation the `begin` node that
    lowering the interpolation gives. -/
inductive Assembled (delimiter : Option String) : List Segment → List Tree → List Tree → Prop where
  | nil : Assembled delimiter [] [] []
  | run {tokens : List ContentToken} {pieces : List Tree} {texts : List String}
      {segs : List Segment} {lowered parts : List Tree}
      (hpieces : pieces.mapM strText? = some texts)
      (htext : runText delimiter tokens = .ok (texts.flatMap String.toList))
      (hrest : Assembled delimiter segs lowered parts) :
      Assembled delimiter (.run tokens :: segs) lowered (pieces ++ parts)
  | interpolation {i : Interpolation} {part : Tree} {segs : List Segment}
      {lowered parts : List Tree} (hpart : part.hasTag "begin")
      (hrest : Assembled delimiter segs lowered parts) :
      Assembled delimiter (.interpolation i :: segs) (.bare "dstr" [part] :: lowered)
        (part :: parts)

/-- The literals that are made of content and interpolations. -/
inductive LiteralKind where
  | string
  | word
  | command
  | regexp

namespace LiteralKind

def tag : LiteralKind → String
  | string => "string_content"
  | word => "word"
  | command => "xstring"
  | regexp => "regexp"

/-- The node that holds the parts of a string: none is needed around one piece
    of text. -/
def stringNode : List Tree → Tree
  | [] => .bare "str" [.str ""]
  | [t] => if t.hasTag "str" then t else .bare "dstr" [t]
  | ts => .bare "dstr" ts

/-- The node that holds the parts of a literal. -/
def node (parts : List Tree) : LiteralKind → Tree
  | string => stringNode parts
  | word => stringNode parts
  | command => .bare "xstr" parts
  | regexp => .bare "regexp" parts

/-- A literal with these items. -/
def raw (delimiter : Option String) (items : List LiteralItem) (kind : LiteralKind) : Raw :=
  .list (.str kind.tag :: items.map (·.raw delimiter))

end LiteralKind

section Steps

variable {α β : Type}

theorem ofExcept_bind (x : Except Error α) (f : α → Except Error β) :
    ofExcept (x >>= f) = ofExcept x >>= fun a => ofExcept (f a) := by
  cases x <;> rfl

end Steps

section Pieces

/-- A `str` for each decoded piece, on lines from the one at `index` on. -/
def pieceNodes (line : Option Raw) : Nat → List (List Char) → List Tree
  | _, [] => []
  | index, text :: texts =>
    .placed (line.bind (·.linesBelow? index)) "str" [.str (String.ofList text)] ::
      pieceNodes line (index + 1) texts

/-- Lines that are numbers can be counted on from. -/
theorem lineBelow_eq {line : Option Raw} (h : ∀ l ∈ line, ∃ n : Int, l = .int n) (index : Nat) :
    lineBelow index line = pure (line.bind (·.linesBelow? index)) := by
  cases line with
  | none => rfl
  | some l =>
    obtain ⟨n, rfl⟩ := h l rfl
    rfl

/-- Pieces are decoded first and get their lines after. -/
theorem lowerPieces_eq (delimiter : Option String) {line : Option Raw}
    (h : ∀ l ∈ line, ∃ n : Int, l = .int n) (pieces : List (List Char)) (index : Nat) :
    lowerPieces delimiter line index pieces = do
      let texts ← ofExcept (pieces.mapM (decodeContent delimiter))
      return pieceNodes line index texts := by
  induction pieces generalizing index with
  | nil => rfl
  | cons piece pieces ih =>
    rw [lowerPieces, List.mapM_cons, ofExcept_bind, bind_assoc, lineBelow_eq h, ih (index + 1)]
    refine bind_congr fun text => ?_
    rw [pure_bind, ofExcept_bind, bind_assoc, bind_assoc]
    rfl

/-- The texts of the pieces are those that were decoded. -/
theorem mapM_strText?_pieceNodes (line : Option Raw) (index : Nat) (texts : List (List Char)) :
    (pieceNodes line index texts).mapM strText? = some (texts.map String.ofList) := by
  induction texts generalizing index with
  | nil => rfl
  | cons text texts ih =>
    rw [pieceNodes, List.mapM_cons, ih (index + 1)]
    rfl

/-- One piece is by itself, several are the children of a `dstr`. -/
def wrapPieces (line : Option Raw) : List Tree → Tree
  | [t] => t
  | ts => .placed line "dstr" ts

/-- A content token gives its pieces, in a layer or without. -/
theorem partsOf_wrapPieces (line line' : Option Raw) (index : Nat) (texts : List (List Char)) :
    partsOf (wrapPieces line' (pieceNodes line index texts)) =
      pure (pieceNodes line index texts) := by
  cases texts with
  | nil => rfl
  | cons text texts => cases texts <;> rfl

/-- A content token is its pieces, decoded one by one. -/
theorem lower_contentToken (delimiter : Option String) (token : ContentToken) :
    lower (token.raw delimiter) = do
      let texts ← ofExcept
        ((contentPieces delimiter token.text.toList).mapM (decodeContent delimiter))
      return wrapPieces token.line? (pieceNodes token.line? 0 texts) := by
  have hlower : lower (token.raw delimiter) =
      lowerContent [.str token.text, token.position, delimiterRaw delimiter] :=
    lower_node "@tstring_content" _
  have hdelimiter : delimiterOf (delimiterRaw delimiter) = pure delimiter := by
    cases delimiter <;> rfl
  have hget : Fields.get [.str token.text, token.position, delimiterRaw delimiter] 2 =
      delimiterRaw delimiter := rfl
  -- A text neither stands for itself nor holds half of a character.
  have hcontent : lowerContent [.str token.text, token.position, delimiterRaw delimiter] = do
      match ← lowerPieces delimiter token.line? 0 (contentPieces delimiter token.text.toList) with
      | [t] => return t
      | ts => return .placed token.line? "dstr" ts := by
    rw [lowerContent, hget, hdelimiter, pure_bind]
    cases (Style.ofDelimiter delimiter).decodesEscapes <;> rfl
  have hcounts : ∀ l ∈ token.line?, ∃ n : Int, l = .int n := token.counts
  rw [hlower, hcontent, lowerPieces_eq delimiter hcounts, bind_assoc]
  refine bind_congr fun texts => ?_
  rw [pure_bind]
  unfold wrapPieces
  split <;> rfl

/-- Half of a character is refused where escapes are read. -/
theorem not_returns_refuseTorn {delimiter : Option String} {line : Option Raw} {before : List Char}
    {t : Tree} : ¬ Returns (refuseTorn delimiter line before) t := by
  intro h
  obtain ⟨_, -, h⟩ := returns_bind h
  unfold refuseHalf at h
  generalize unescapeOctets _ = octets at h
  cases octets with
  | error e => exact not_returns_throw h
  | ok bs => exact not_returns_throw h

end Pieces

section Merging

/-- A run of content tokens as one token, if it has any text. -/
def joinedToken? (tokens : List ContentToken) : Option ContentToken :=
  match tokens.filter (·.text != "") with
  | [] => none
  | token :: rest => some { token with text := String.join ((token :: rest).map (·.text)) }

theorem mapM_text (delimiter : Option String) (tokens : List ContentToken) :
    (tokens.map (·.raw delimiter)).mapM (fun token => require (token.item? 1)) =
      (pure (tokens.map fun token => Raw.str token.text) : LowerM (List Raw)) := by
  induction tokens with
  | nil => rfl
  | cons token tokens ih =>
    rw [List.map_cons, List.mapM_cons, ih]
    rfl

theorem mapM_atom (delimiter : Option String) (tokens : List ContentToken) :
    (tokens.map fun token => (token.raw delimiter, Raw.str token.text)).mapM
        (fun (_, text) => require text.atom?) =
      (pure (tokens.map fun token => Atom.str token.text) : LowerM (List Atom)) := by
  induction tokens with
  | nil => rfl
  | cons token tokens ih =>
    rw [List.map_cons, List.mapM_cons, ih]
    rfl

theorem joinTexts?_str (texts : List String) :
    Atom.joinTexts? (texts.map .str) = some (.str (String.join texts)) := by
  have hwhole : (texts.map Atom.str).any (·.beforeHalf?.isSome) = false := by
    simp [Atom.beforeHalf?]
  have htexts : (texts.map Atom.str).mapM Atom.text? = some texts := by
    induction texts with
    | nil => rfl
    | cons text texts ih =>
      rw [List.map_cons, List.mapM_cons, ih (by simp [Atom.beforeHalf?])]
      rfl
  rw [Atom.joinTexts?, hwhole, if_neg (by decide), htexts]
  rfl

/-- A run of tokens becomes one, at the place of the first. -/
theorem joinRun_tokens (delimiter : Option String) (tokens : List ContentToken) :
    joinRun (tokens.map (·.raw delimiter)) =
      pure ((joinedToken? tokens).toList.map (·.raw delimiter)) := by
  have hzip : (tokens.map (·.raw delimiter)).zip (tokens.map fun token => Raw.str token.text) =
      tokens.map fun token => (token.raw delimiter, Raw.str token.text) := by
    rw [List.zip_map']
  have hfilter : (tokens.map fun token => (token.raw delimiter, Raw.str token.text)).filter
        (fun (_, text) => !text.isText "") =
      (tokens.filter (·.text != "")).map fun token =>
        (token.raw delimiter, Raw.str token.text) := by
    rw [List.filter_map]
    rfl
  rw [joinRun, mapM_text, pure_bind, hzip, hfilter, joinedToken?]
  cases tokens.filter (·.text != "") with
  | nil => rfl
  | cons token rest =>
    -- A lone token is left as it is, others are joined into the first.
    cases rest with
    | nil => simp [ContentToken.raw]
    | cons next rest =>
      have hatoms := mapM_atom delimiter (token :: next :: rest)
      have hjoin := joinTexts?_str ((token :: next :: rest).map (·.text))
      simp only [List.map_map, List.map_cons, Function.comp_def] at hatoms hjoin ⊢
      rw [hatoms, pure_bind, hjoin]
      rfl

/-- The joined token has the texts of all. -/
theorem text_joinedToken? (tokens : List ContentToken) :
    (joinedToken? tokens).elim [] (·.text.toList) = runSource tokens := by
  -- Empty tokens are dropped, and add nothing to the text.
  have hsource : runSource tokens = runSource (tokens.filter (·.text != "")) := by
    induction tokens with
    | nil => rfl
    | cons token tokens ih =>
      unfold runSource at ih ⊢
      by_cases h : token.text = ""
      · simp [h, ih]
      · simp [h, ih]
  rw [hsource, joinedToken?]
  cases tokens.filter (·.text != "") with
  | nil => rfl
  | cons token rest =>
    simp [runSource, String.toList_join, List.flatMap_map]

/-- What a segment is lowered from. -/
def Segment.merged (delimiter : Option String) : Segment → List Raw
  | run tokens => (joinedToken? tokens).toList.map (·.raw delimiter)
  | interpolation i => [i.raw]

/-- A run by itself, unless it is empty. -/
def runSegments : List ContentToken → List Segment
  | [] => []
  | tokens => [.run tokens]

/-- Tokens at the end are a run. -/
theorem segments_run_nil (tokens : List ContentToken) :
    segments (tokens.map .content) = runSegments tokens := by
  induction tokens with
  | nil => rfl
  | cons token tokens ih =>
    rw [List.map_cons, segments, ih]
    cases tokens <;> rfl

/-- Tokens before an interpolation are a run. -/
theorem segments_run_interpolation (tokens : List ContentToken) (i : Interpolation)
    (items : List LiteralItem) :
    segments (tokens.map .content ++ .interpolation i :: items) =
      runSegments tokens ++ .interpolation i :: segments items := by
  induction tokens with
  | nil => rfl
  | cons token tokens ih =>
    rw [List.map_cons, List.cons_append, segments, ih]
    cases tokens <;> rfl

/-- A run stands for one token, an empty one for none. -/
theorem merged_runSegments (delimiter : Option String) (tokens : List ContentToken) :
    (runSegments tokens).flatMap (·.merged delimiter) =
      (joinedToken? tokens).toList.map (·.raw delimiter) := by
  cases tokens with
  | nil => rfl
  | cons token tokens => exact List.append_nil _

/-- An interpolation is no content token. -/
theorem Interpolation.not_content (i : Interpolation) :
    i.raw.hasTag "@tstring_content" = false := by
  rcases i.tagged with h | h
  · obtain ⟨fs, hraw⟩ := Raw.eq_of_hasTag h
    rw [hraw]
    rfl
  · obtain ⟨fs, hraw⟩ := Raw.eq_of_hasTag h
    rw [hraw]
    rfl

/-- Joining tokens goes through the items with the run before them at hand. -/
theorem mergeFrom_items (delimiter : Option String) (items : List LiteralItem)
    (before : List ContentToken) :
    mergeFrom (before.map (·.raw delimiter)).reverse (items.map (·.raw delimiter)) =
      pure ((segments (before.map .content ++ items)).flatMap (·.merged delimiter)) := by
  induction items generalizing before with
  | nil =>
    rw [List.map_nil, mergeFrom, List.reverse_reverse, joinRun_tokens, List.append_nil,
      segments_run_nil, merged_runSegments]
  | cons item items ih =>
    cases item with
    | content token =>
      -- The run grows by this token, and the interpolation below ends it.
      have hnext := ih (before ++ [token])
      have htag : (token.raw delimiter).hasTag "@tstring_content" = true := rfl
      rw [List.map_append, List.reverse_append, List.map_append, List.append_assoc] at hnext
      rw [List.map_cons, LiteralItem.raw, mergeFrom, htag, if_pos rfl]
      exact hnext
    | interpolation i =>
      have hnext : mergeFrom [] (items.map (·.raw delimiter)) =
          pure ((segments items).flatMap (·.merged delimiter)) := ih []
      rw [List.map_cons, LiteralItem.raw, mergeFrom, i.not_content, if_neg (by decide),
        List.reverse_reverse, joinRun_tokens, pure_bind, segments_run_interpolation,
        List.flatMap_append, merged_runSegments, List.flatMap_cons, hnext, pure_bind]
      rfl

/-- The items of a literal are merged run by run. -/
theorem mergeContent_items (delimiter : Option String) (items : List LiteralItem) :
    mergeContent (items.map (·.raw delimiter)) =
      pure ((segments items).flatMap (·.merged delimiter)) :=
  mergeFrom_items delimiter items []

end Merging

section Runs

/-- The parts a run of content contributes. -/
def runPieces (delimiter : Option String) (tokens : List ContentToken) : Except Error (List Tree) :=
  match joinedToken? tokens with
  | none => .ok []
  | some token => do
    let texts ← (contentPieces delimiter token.text.toList).mapM (decodeContent delimiter)
    return pieceNodes token.line? 0 texts

theorem decodeContent_nil (delimiter : Option String) : decodeContent delimiter [] = .ok [] := by
  unfold decodeContent
  generalize (delimiter.getD "").toList = d
  cases Style.ofDelimiter delimiter with
  | verbatim | escaped | escapedWords | regexp => rfl
  | simple | simpleWords =>
    simp only [Style.decode, unescapeDelimiter?, unescapeWord?]
    cases d.getLast? <;> rfl

theorem prepared_nil (delimiter : Option String) : prepared delimiter [] = [] := by
  unfold prepared
  split <;> rfl

/-- The parts of a run spell what it denotes. There are none exactly if it
    denotes nothing. -/
theorem runPieces_text (delimiter : Option String) (tokens : List ContentToken) :
    match runPieces delimiter tokens with
    | .ok pieces => ∃ texts, pieces.mapM strText? = some texts ∧
        runText delimiter tokens = .ok (texts.flatMap String.toList)
    | .error _ => ∃ e, runText delimiter tokens = .error e := by
  have hsource := text_joinedToken? tokens
  unfold runPieces runText
  cases hjoined : joinedToken? tokens with
  | none =>
    rw [hjoined] at hsource
    rw [← hsource]
    refine ⟨[], rfl, ?_⟩
    exact (congrArg _ (prepared_nil delimiter)).trans (decodeContent_nil delimiter)
  | some token =>
    rw [hjoined] at hsource
    have hsource : token.text.toList = runSource tokens := hsource
    -- The pieces and the whole are decoded alike, so of the four outcomes below
    -- only two are possible.
    have hdecode := decode_contentPieces delimiter token.text.toList
    rw [← hsource]
    dsimp only
    cases htexts : (contentPieces delimiter token.text.toList).mapM (decodeContent delimiter) with
    | ok texts =>
      rw [htexts] at hdecode
      refine ⟨texts.map String.ofList, mapM_strText?_pieceNodes token.line? 0 texts, ?_⟩
      cases hwhole : decodeContent delimiter (prepared delimiter token.text.toList) with
      | ok text =>
        rw [hwhole] at hdecode
        have htext : texts.flatten = text := Option.some.inj hdecode
        rw [← htext]
        rw [List.flatMap_map, List.flatten_eq_flatMap]
        simp only [String.toList_ofList]
        rfl
      | error e =>
        rw [hwhole] at hdecode
        cases hdecode
    | error e =>
      rw [htexts] at hdecode
      cases hwhole : decodeContent delimiter (prepared delimiter token.text.toList) with
      | ok text =>
        rw [hwhole] at hdecode
        cases hdecode
      | error e' => exact ⟨e', rfl⟩

end Runs

section Gathering

/-- Lowers merged items, and takes the parts from what they are lowered to. -/
def gather (ms : List Raw) : LowerM (List Tree) := do
  let ts ← ms.mapM lower
  return (← ts.mapM partsOf).flatten

/-- What an item contributes is known as soon as it is lowered, provided that
    every tree it is lowered to has parts. -/
theorem gather_cons {m : Raw} (h : ∀ t, Returns (lower m) t → ∃ ps, partsOf t = pure ps)
    (ms : List Raw) :
    gather (m :: ms) = do
      let ps ← lower m >>= partsOf
      return ps ++ (← gather ms) := by
  unfold gather
  rw [List.mapM_cons, bind_assoc, bind_assoc]
  -- Taking parts does nothing but give them, so it can be done before the other
  -- items are lowered.
  refine bind_congr_returned fun t ht => ?_
  obtain ⟨ps, hps⟩ := h t ht
  rw [hps, pure_bind, bind_assoc, bind_assoc]
  refine bind_congr fun ts => ?_
  rw [pure_bind, List.mapM_cons, hps, pure_bind, bind_assoc, bind_assoc]
  rfl

/-- A run gives its pieces before anything behind it. -/
theorem gather_run (delimiter : Option String) (tokens : List ContentToken) (ms : List Raw) :
    gather (Segment.merged delimiter (.run tokens) ++ ms) = do
      let ps ← ofExcept (runPieces delimiter tokens)
      return ps ++ (← gather ms) := by
  rw [Segment.merged, runPieces]
  cases joinedToken? tokens with
  | none =>
    -- A run without tokens is merged into nothing and decoded into nothing.
    show gather ms = do return [] ++ (← gather ms)
    simp only [List.nil_append, bind_pure]
  | some token =>
    show gather (token.raw delimiter :: ms) = _
    rw [gather_cons, lower_contentToken, bind_assoc, ofExcept_bind]
    · rw [bind_assoc, bind_assoc]
      refine bind_congr fun texts => ?_
      rw [pure_bind, partsOf_wrapPieces]
      rfl
    · intro t ht
      rw [lower_contentToken] at ht
      obtain ⟨texts, -, ht⟩ := returns_bind ht
      exact ⟨_, returns_pure ht ▸ partsOf_wrapPieces token.line? token.line? 0 texts⟩

/-- An interpolation is lowered to a `dstr` around one `begin`. -/
theorem Interpolation.returns (i : Interpolation) {t : Tree} (h : Returns (lower i.raw) t) :
    ∃ part, t = .bare "dstr" [part] ∧ part.hasTag "begin" := by
  rcases i.tagged with htag | htag
  · obtain ⟨fs, hraw⟩ := Raw.eq_of_hasTag htag
    have hlower : lower (.list (.str "string_embexpr" :: fs)) = lowerEmbedded lower fs :=
      lower_node "string_embexpr" fs
    rw [hraw, hlower] at h
    -- The body decides what stands in the `begin`, but there is one in each case.
    obtain ⟨body, -, h⟩ := returns_bind h
    split at h
    · exact ⟨.bare "begin" [], (returns_pure h).symm, by decide⟩
    · split at h
      · exact ⟨_, (returns_pure h).symm, rfl⟩
      · exact ⟨_, (returns_pure h).symm, rfl⟩
    · exact ⟨_, (returns_pure h).symm, rfl⟩
  · obtain ⟨fs, hraw⟩ := Raw.eq_of_hasTag htag
    have hlower : lower (.list (.str "string_dvar" :: fs)) = lowerEmbeddedVariable lower fs :=
      lower_node "string_dvar" fs
    rw [hraw, hlower] at h
    obtain ⟨value, -, h⟩ := returns_bind h
    exact ⟨.bare "begin" [value], (returns_pure h).symm, rfl⟩

/-- An interpolation gives its parts before anything behind it. -/
theorem gather_interpolation (i : Interpolation) (ms : List Raw) :
    gather (i.raw :: ms) = do
      let ps ← lower i.raw >>= partsOf
      return ps ++ (← gather ms) := by
  refine gather_cons (fun t ht => ?_) ms
  obtain ⟨part, rfl, -⟩ := i.returns ht
  exact ⟨[part], rfl⟩

/-- The interpolations among some segments. -/
def Segment.interpolations : List Segment → List Raw
  | [] => []
  | run _ :: segs => interpolations segs
  | interpolation i :: segs => i.raw :: interpolations segs

/-- Interpolations stay when tokens are put together in runs. -/
theorem interpolations_segments (items : List LiteralItem) :
    Segment.interpolations (segments items) = interpolations items := by
  induction items with
  | nil => rfl
  | cons item items ih =>
    cases item with
    | content token =>
      rw [segments, interpolations, ← ih]
      cases hsegs : segments items with
      | nil => rfl
      | cons seg segs => cases seg <;> rfl
    | interpolation i => rw [segments, interpolations, Segment.interpolations, ih]

/-- Gathering the parts of segments does what lowering the interpolations in turn
    does, unless a run of content cannot be decoded. -/
theorem gather_segments (delimiter : Option String) (options : Options) (segs : List Segment)
    (scope : Scope) :
    match (gather (segs.flatMap (·.merged delimiter))).runIn options scope with
    | (.ok parts, after) => ∃ lowered,
        ((Segment.interpolations segs).mapM lower).runIn options scope = (.ok lowered, after) ∧
          Assembled delimiter segs lowered parts
    | (.error e, after) =>
        (∃ tokens, .run tokens ∈ segs ∧ ∃ e', runText delimiter tokens = .error e') ∨
          ((Segment.interpolations segs).mapM lower).runIn options scope = (.error e, after) := by
  induction segs generalizing scope with
  | nil => exact ⟨[], rfl, .nil⟩
  | cons seg segs ih =>
    cases seg with
    | run tokens =>
      have hspelled := runPieces_text delimiter tokens
      have hnext := ih scope
      rw [List.flatMap_cons, gather_run, runIn_bind]
      cases hrun : runPieces delimiter tokens with
      | error e =>
        rw [hrun] at hspelled
        exact .inl ⟨tokens, List.mem_cons_self, hspelled⟩
      | ok pieces =>
        rw [hrun] at hspelled
        obtain ⟨texts, hpieces, htext⟩ := hspelled
        simp only [ofExcept, runIn_pure, runIn_bind]
        cases hgather : (gather (segs.flatMap (·.merged delimiter))).runIn options scope with
        | mk result after =>
          rw [hgather] at hnext
          cases result with
          | ok parts =>
            obtain ⟨lowered, hlowered, hassembled⟩ := hnext
            exact ⟨lowered, hlowered, .run hpieces htext hassembled⟩
          | error e =>
            rcases hnext with ⟨tokens', hmem, hfails⟩ | hlowered
            · exact .inl ⟨tokens', List.mem_cons_of_mem _ hmem, hfails⟩
            · exact .inr hlowered
    | interpolation i =>
      -- The scope after the interpolation is where the rest is gathered from.
      rw [List.flatMap_cons]
      show (match (gather (i.raw :: segs.flatMap (·.merged delimiter))).runIn options scope with
        | (.ok parts, after) => _
        | (.error e, after) => _)
      rw [gather_interpolation, Segment.interpolations, List.mapM_cons]
      simp only [runIn_bind]
      cases hlower : (lower i.raw).runIn options scope with
      | mk result middle =>
        cases result with
        | error e => exact .inr rfl
        | ok t =>
          obtain ⟨part, rfl, hpart⟩ := i.returns ⟨options, scope, middle, hlower⟩
          have hparts : partsOf (.bare "dstr" [part]) = pure [part] := rfl
          have hnext := ih middle
          simp only [hparts, runIn_pure]
          cases hgather : (gather (segs.flatMap (·.merged delimiter))).runIn options middle with
          | mk result after =>
            rw [hgather] at hnext
            cases result with
            | ok parts =>
              obtain ⟨lowered, hlowered, hassembled⟩ := hnext
              refine ⟨.bare "dstr" [part] :: lowered, ?_, .interpolation hpart hassembled⟩
              rw [hlowered]
            | error e =>
              rcases hnext with ⟨tokens', hmem, hfails⟩ | hlowered
              · exact .inl ⟨tokens', List.mem_cons_of_mem _ hmem, hfails⟩
              · right
                rw [hlowered]

end Gathering

section Literals

/-- The parts of a literal are gathered in the order of its items. -/
theorem literalParts_eq (delimiter : Option String) (items : List LiteralItem) :
    literalParts lower (items.map (·.raw delimiter)) =
      gather ((segments items).flatMap (·.merged delimiter)) := by
  unfold literalParts
  rw [mergeContent_items, pure_bind]
  rfl

theorem strText?_of_mem {pieces : List Tree} {texts : List String}
    (h : pieces.mapM strText? = some texts) : ∀ t ∈ pieces, ∃ text, strText? t = some text := by
  induction pieces generalizing texts with
  | nil =>
    intro t ht
    cases ht
  | cons piece pieces ih =>
    intro t ht
    rw [List.mapM_cons] at h
    obtain ⟨text, hpiece, h⟩ := Option.bind_eq_some_iff.1 h
    obtain ⟨texts', hpieces, -⟩ := Option.bind_eq_some_iff.1 h
    rcases List.mem_cons.1 ht with rfl | ht
    · exact ⟨text, hpiece⟩
    · exact ih hpieces t ht

/-- Parts are nodes, so that each of them has a tag to be told apart by. -/
theorem Assembled.isTagged {delimiter : Option String} {segs : List Segment}
    {lowered parts : List Tree} (h : Assembled delimiter segs lowered parts) :
    ∀ t ∈ parts, LowerM.isTagged "str" t = pure (t.hasTag "str") := by
  induction h with
  | nil =>
    intro t ht
    cases ht
  | @run tokens pieces texts segs lowered parts hpieces htext hrest ih =>
    intro t ht
    rcases List.mem_append.1 ht with ht | ht
    · -- A piece holds a text, so it is a node; asking a leaf for its tag would fail.
      obtain ⟨text, htext⟩ := strText?_of_mem hpieces t ht
      cases t with
      | leaf v => cases htext
      | node tag mark children => rfl
    · exact ih t ht
  | @interpolation i part segs lowered parts hpart hrest ih =>
    intro t ht
    rcases List.mem_cons.1 ht with rfl | ht
    · cases t with
      | leaf v => cases hpart
      | node tag mark children => rfl
    · exact ih t ht

/-- Every run of a literal that was put together can be decoded. -/
theorem Assembled.decodes {delimiter : Option String} {segs : List Segment}
    {lowered parts : List Tree} (h : Assembled delimiter segs lowered parts) :
    ∀ tokens, .run tokens ∈ segs → ∃ text, runText delimiter tokens = .ok text := by
  induction h with
  | nil =>
    -- The run at hand was decoded when the parts were put together; the others are further on.
    intro tokens hmem
    cases hmem
  | @run tokens' pieces texts segs lowered parts hpieces htext hrest ih =>
    intro tokens hmem
    rcases List.mem_cons.1 hmem with heq | hmem
    · cases heq
      exact ⟨_, htext⟩
    · exact ih tokens hmem
  | interpolation hpart hrest ih =>
    intro tokens hmem
    rcases List.mem_cons.1 hmem with heq | hmem
    · cases heq
    · exact ih tokens hmem

/-- A string is made from its parts and fails where they do. -/
theorem lowerString_of_parts (fs : Fields) (options : Options) (scope : Scope)
    (h : ∀ parts after, (literalParts lower fs).runIn options scope = (.ok parts, after) →
      ∀ t ∈ parts, isTagged "str" t = pure (t.hasTag "str")) :
    (lowerString lower fs).runIn options scope =
      match (literalParts lower fs).runIn options scope with
      | (.ok parts, after) => (.ok (LiteralKind.stringNode parts), after)
      | (.error e, after) => (.error e, after) := by
  rw [lowerString, runIn_bind]
  cases hparts : (literalParts lower fs).runIn options scope with
  | mk result after =>
    cases result with
    | error e => rfl
    | ok parts =>
      -- Only a lone part is looked at, to see whether it is a text.
      match parts, h parts after hparts with
      | [], _ => rfl
      | [t], htagged =>
        simp only [htagged t List.mem_cons_self, pure_bind, LiteralKind.stringNode]
        split <;> rfl
      | _ :: _ :: _, _ => rfl

/-- A literal that keeps its parts is made from them and fails where they do. -/
theorem lowerParts_of_parts (tag : String) (fs : Fields) (options : Options) (scope : Scope) :
    (lowerParts tag lower fs).runIn options scope =
      match (literalParts lower fs).runIn options scope with
      | (.ok parts, after) => (.ok (.bare tag parts), after)
      | (.error e, after) => (.error e, after) := by
  rw [lowerParts, runIn_bind]
  cases (literalParts lower fs).runIn options scope with
  | mk result after => cases result <;> rfl

/-- Once the parts are there, the node around them is made without fail. -/
theorem lower_literal (kind : LiteralKind) (delimiter : Option String) (items : List LiteralItem)
    (options : Options) (scope : Scope) :
    (lower (kind.raw delimiter items)).runIn options scope =
      match (literalParts lower (items.map (·.raw delimiter))).runIn options scope with
      | (.ok parts, after) => (.ok (kind.node parts), after)
      | (.error e, after) => (.error e, after) := by
  have htagged : ∀ parts after,
      (literalParts lower (items.map (·.raw delimiter))).runIn options scope = (.ok parts, after) →
        ∀ t ∈ parts, isTagged "str" t = pure (t.hasTag "str") := by
    -- The parts are known from the segments, which makes each of them a node.
    intro parts after hparts
    have hgather := gather_segments delimiter options (segments items) scope
    rw [← literalParts_eq, hparts] at hgather
    obtain ⟨lowered, -, hassembled⟩ := hgather
    exact hassembled.isTagged
  cases kind with
  | string =>
    have hlower : lower (LiteralKind.string.raw delimiter items) = lowerString lower _ :=
      lower_node "string_content" _
    rw [hlower, lowerString_of_parts _ options scope htagged]
    rfl
  | word =>
    have hlower : lower (LiteralKind.word.raw delimiter items) = lowerString lower _ :=
      lower_node "word" _
    rw [hlower, lowerString_of_parts _ options scope htagged]
    rfl
  | command =>
    have hlower : lower (LiteralKind.command.raw delimiter items) = lowerParts "xstr" lower _ :=
      lower_node "xstring" _
    rw [hlower, lowerParts_of_parts]
    rfl
  | regexp =>
    have hlower : lower (LiteralKind.regexp.raw delimiter items) = lowerParts "regexp" lower _ :=
      lower_node "regexp" _
    rw [hlower, lowerParts_of_parts]
    rfl

/-- Whatever the delimiter and the items: the parts of a literal spell its content
    run by run, with the interpolations where they were; content that cannot be
    decoded makes lowering fail; and with content that can be, lowering fails
    only in the interpolations. -/
theorem lower_literal_content (kind : LiteralKind) (delimiter : Option String)
    (items : List LiteralItem) (options : Options) (scope : Scope) :
    (∀ t after, (lower (kind.raw delimiter items)).runIn options scope = (.ok t, after) →
      ∃ parts lowered,
        (literalParts lower (items.map (·.raw delimiter))).runIn options scope =
          (.ok parts, after) ∧
        t = kind.node parts ∧
        ((interpolations items).mapM lower).runIn options scope = (.ok lowered, after) ∧
        Assembled delimiter (segments items) lowered parts) ∧
    ((∃ tokens, .run tokens ∈ segments items ∧ ∃ e, runText delimiter tokens = .error e) →
      ∃ e after, (lower (kind.raw delimiter items)).runIn options scope = (.error e, after)) ∧
    ((∀ tokens, .run tokens ∈ segments items → ∃ text, runText delimiter tokens = .ok text) →
      ∀ e after, (lower (kind.raw delimiter items)).runIn options scope = (.error e, after) ↔
        ((interpolations items).mapM lower).runIn options scope = (.error e, after)) := by
  have hlower := lower_literal kind delimiter items options scope
  have hgather := gather_segments delimiter options (segments items) scope
  rw [← literalParts_eq, interpolations_segments] at hgather
  -- All three statements follow from whether the parts can be had.
  cases hparts : (literalParts lower (items.map (·.raw delimiter))).runIn options scope with
  | mk result after =>
    rw [hparts] at hgather hlower
    cases result with
    | ok parts =>
      obtain ⟨lowered, hlowered, hassembled⟩ := hgather
      refine ⟨?_, ?_, ?_⟩
      · intro t after' hrun
        rw [hlower] at hrun
        cases hrun
        exact ⟨parts, lowered, rfl, rfl, hlowered, hassembled⟩
      · rintro ⟨tokens, hmem, e, hfails⟩
        obtain ⟨text, htext⟩ := hassembled.decodes tokens hmem
        rw [htext] at hfails
        cases hfails
      · intro _ e after'
        rw [hlower, hlowered]
        constructor <;>
          · intro h
            cases h
    | error e =>
      refine ⟨?_, fun _ => ⟨e, after, hlower⟩, ?_⟩
      · intro t after' hrun
        rw [hlower] at hrun
        cases hrun
      · intro hdecodes e' after'
        rcases hgather with ⟨tokens, hmem, e'', hfails⟩ | hlowered
        · obtain ⟨text, htext⟩ := hdecodes tokens hmem
          rw [htext] at hfails
          cases hfails
        · rw [hlower, hlowered]
          constructor <;>
            · intro h
              cases h
              rfl

/-- A text of two lines with an escaped character cut in half by tokens, a
    continued line, and a variable at the end. -/
def cutCharacter : List LiteralItem :=
  [.content ⟨"caf\\xc3", .list [.int 1, .int 1], fun _ h => ⟨1, (Option.some.inj h).symm⟩⟩,
   .content ⟨"\\xa9 \\\nau\nlait", .list [.int 1, .int 8],
     fun _ h => ⟨1, (Option.some.inj h).symm⟩⟩,
   .interpolation ⟨.list [.str "string_dvar", .list [.str "@ivar", .str "@x", .null]], .inr rfl⟩]

/-- A character that an interpolation divides is none. -/
def dividedCharacter : List LiteralItem :=
  [.content ⟨"\\xc3", .null, fun _ h => nomatch h⟩,
   .interpolation ⟨.list [.str "string_dvar", .list [.str "@ivar", .str "@x", .null]], .inr rfl⟩,
   .content ⟨"\\xa9", .null, fun _ h => nomatch h⟩]

theorem lower_literal_content_cutCharacter :
    (∃ t after parts lowered,
      (lower (LiteralKind.string.raw (some "\"") cutCharacter)).runIn {} {} = (.ok t, after) ∧
        t = LiteralKind.string.node parts ∧
        Assembled (some "\"") (segments cutCharacter) lowered parts) ∧
    (∃ e after,
      (lower (LiteralKind.string.raw (some "\"") dividedCharacter)).runIn {} {} =
        (.error e, after)) ∧
    (∀ e after,
      (lower (LiteralKind.string.raw (some "\"") cutCharacter)).runIn {} {} = (.error e, after) ↔
        ((interpolations cutCharacter).mapM lower).runIn {} {} = (.error e, after)) := by
  have hcut := lower_literal_content .string (some "\"") cutCharacter {} {}
  have hdivided := lower_literal_content .string (some "\"") dividedCharacter {} {}
  have hok : ((lower (LiteralKind.string.raw (some "\"") cutCharacter)).runIn {} {}).1.isOk := by
    decide +kernel
  refine ⟨?_, ?_, ?_⟩
  · cases hrun : (lower (LiteralKind.string.raw (some "\"") cutCharacter)).runIn {} {} with
    | mk result after =>
      rw [hrun] at hok
      cases result with
      | error e => cases hok
      | ok t =>
        obtain ⟨parts, lowered, -, ht, -, hassembled⟩ := hcut.1 t after hrun
        exact ⟨t, after, parts, lowered, rfl, ht, hassembled⟩
  · -- The first run alone decides: its second byte starts no character.
    exact hdivided.2.1 ⟨_, List.mem_cons_self, _, rfl⟩
  · refine hcut.2.2 fun tokens hmem => ?_
    obtain rfl : tokens = _ := by
      rcases List.mem_cons.1 hmem with h | h
      · exact (Segment.run.inj h)
      · cases h with
        | tail _ h => cases h
    exact ⟨_, rfl⟩

end Literals

end LowerM

end RubyTree
