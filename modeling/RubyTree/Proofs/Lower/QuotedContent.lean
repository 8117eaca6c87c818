import RubyTree.Proofs.Literal.Protected
import RubyTree.Proofs.Lower.LiteralContent

/-!
# Quoted Content

What to write between the delimiters of a literal so that it denotes a given text.
That is the text as it stands where nothing is read into it, with its backslashes
doubled where escapes are read, and with the ends of the literal and its backslashes
guarded where only these are special.

The delimiters are listed here by how they are written. Reading goes by the style of
a delimiter instead, which selects a decoder and decides whether continued lines are
joined and whether the content is cut into lines. So content is given back only if
the two lists agree on every delimiter.

## Main definitions

* `isRawHeredoc`, `isHeredoc`, `isPercent`: Forms of delimiters.
* `readsEscapes`, `protectsEnds`, `listsWords`, `opensRegexp`: Kinds of delimiters.
* `Fits`: A delimiter is of the kind that has a certain style.
* `quoteFor`: A text as content of a literal.
* `spelled?`: The text of a `str`, or of all that a `dstr` is made of.

## Theorems

* `fits_ofChars`: Every delimiter has the style of its kind.
* `decode_quoteFor`: Quoted content denotes the text.
* `lower_quoted_content`: Quoted content is lowered to the text.
-/

namespace RubyTree

section Kinds

/-- A heredoc whose identifier is in single quotes. -/
def isRawHeredoc : List Char → Bool
  | '<' :: '<' :: '\x27' :: _ => true
  | '<' :: '<' :: '-' :: '\x27' :: _ => true
  | '<' :: '<' :: '~' :: '\x27' :: _ => true
  | _ => false

def isHeredoc : List Char → Bool
  | '<' :: '<' :: _ :: _ => true
  | _ => false

/-- A percent sign, one of some letters, and a mark. -/
def isPercent (letters : List Char) : List Char → Bool
  | ['%', letter, mark] => letters.contains letter && mark != '\n'
  | _ => false

/-- A percent sign and a mark. -/
def isBarePercent : List Char → Bool
  | ['%', mark] => mark != '\n'
  | _ => false

/-- Escapes are read in heredocs, unless they are raw, and in texts and lists of
    words with interpolations. -/
def readsEscapes (d : List Char) : Bool :=
  isHeredoc d && !isRawHeredoc d || [['"'], ['\x60'], [':', '"']].contains d || isBarePercent d ||
    isPercent ['Q', 'W', 'I'] d

/-- Only the ends of a text without interpolations are protected. -/
def protectsEnds (d : List Char) : Bool :=
  [['\x27'], [':', '\x27']].contains d || isPercent ['q', 's'] d

/-- A list of words without interpolations. -/
def listsWords (d : List Char) : Bool :=
  isPercent ['w', 'i'] d

def opensRegexp (d : List Char) : Bool :=
  d == ['/'] || isPercent ['r'] d

/-- The characters that open or close the literal: the pair of brackets that the
    last character of the delimiter belongs to, or that character. -/
def endsOf (d : List Char) : List Char :=
  match d.getLast? with
  | some c => brackets c
  | none => []

/-- A text written as content of a literal. -/
def quoteFor (d cs : List Char) : List Char :=
  if readsEscapes d then doubled cs
  else if protectsEnds d then guarded (endsOf d) cs
  else if listsWords d then guarded (endsOf d ++ [' ', '\n']) cs
  else cs

end Kinds

section Styles

/-- A delimiter is of the kind that has this style. -/
def Fits (d : List Char) (style : Style) : Prop :=
  readsEscapes d = style.decodesEscapes ∧ protectsEnds d = decide (style = .simple) ∧
    listsWords d = decide (style = .simpleWords) ∧ opensRegexp d = decide (style = .regexp)

instance (d : List Char) (style : Style) : Decidable (Fits d style) :=
  inferInstanceAs (Decidable (_ ∧ _ ∧ _ ∧ _))

theorem fits_ofHeredoc (rest : List Char) : Fits ('<' :: '<' :: rest) (.ofHeredoc rest) := by
  -- The second sign is no letter of a percent literal and no slash.
  have hplain : protectsEnds ('<' :: '<' :: rest) = false ∧
      listsWords ('<' :: '<' :: rest) = false ∧ opensRegexp ('<' :: '<' :: rest) = false := by
    simp [protectsEnds, listsWords, opensRegexp, isPercent]
  obtain ⟨hends, hwords, hregexp⟩ := hplain
  unfold Style.ofHeredoc
  split
  · decide
  · exact ⟨rfl, hends, hwords, hregexp⟩
  · exact ⟨rfl, hends, hwords, hregexp⟩
  · exact ⟨rfl, hends, hwords, hregexp⟩
  -- Any other heredoc reads escapes, since no quote stands behind its sign.
  · rename_i hnil hquote hdash htilde
    obtain ⟨c, rest, rfl⟩ := List.exists_cons_of_ne_nil hnil
    have hheredoc : isHeredoc ('<' :: '<' :: c :: rest) = true := rfl
    have hraw : isRawHeredoc ('<' :: '<' :: c :: rest) = false := by
      unfold isRawHeredoc
      split <;> simp_all
    refine ⟨?_, hends, hwords, hregexp⟩
    simp [readsEscapes, hheredoc, hraw, Style.decodesEscapes]

theorem fits_ofLetter (letter : Char) {mark : Char} (hmark : mark ≠ '\n') :
    Fits ['%', letter, mark] (.ofLetter letter) := by
  have hpercent (letters : List Char) :
      isPercent letters ['%', letter, mark] = letters.contains letter := by
    simp [isPercent, hmark]
  have hother : isHeredoc ['%', letter, mark] = false ∧ isBarePercent ['%', letter, mark] = false :=
    ⟨rfl, rfl⟩
  unfold Style.ofLetter
  split <;>
    simp_all [Fits, readsEscapes, protectsEnds, listsWords, opensRegexp, Style.decodesEscapes]

/-- Every delimiter has the style of its kind. -/
theorem fits_ofChars (d : List Char) : Fits d (.ofChars d) := by
  unfold Style.ofChars
  -- One case for each line that styles are read off by; what is left depends on the mark.
  split
  · exact fits_ofHeredoc _
  · decide
  · decide
  · decide
  · decide
  · decide
  · decide
  · rename_i mark
    by_cases hmark : mark = '\n'
    · rw [hmark, if_pos rfl]
      decide
    · rw [if_neg hmark]
      simp [Fits, readsEscapes, protectsEnds, listsWords, opensRegexp, isHeredoc, isBarePercent,
        isPercent, Style.decodesEscapes, hmark]
  · rename_i letter mark
    by_cases hmark : mark = '\n'
    · rw [hmark, if_pos rfl]
      simp [Fits, readsEscapes, protectsEnds, listsWords, opensRegexp, isHeredoc, isBarePercent,
        isPercent, Style.decodesEscapes]
    · rw [if_neg hmark]
      exact fits_ofLetter letter hmark
  · -- None of the forms that the kinds are told by is left.
    simp_all [Fits, readsEscapes, protectsEnds, listsWords, opensRegexp, isHeredoc, isBarePercent,
      isPercent, Style.decodesEscapes]

end Styles

section Decoding

variable {d cs : List Char}

/-- A style that protects the ends of a literal knows them. -/
theorem unescapeDelimiter?_getD (hd : d ≠ []) (cs : List Char) :
    (unescapeDelimiter? d cs).getD cs = unescapeSimple (endsOf d) cs := by
  unfold unescapeDelimiter? endsOf
  rw [List.getLast?_eq_getLast_of_ne_nil hd]
  rfl

theorem unescapeWord?_getD (hd : d ≠ []) (cs : List Char) :
    (unescapeWord? d cs).getD cs = unescapeSimple (endsOf d ++ [' ', '\n']) cs := by
  unfold unescapeWord? endsOf
  rw [List.getLast?_eq_getLast_of_ne_nil hd]
  rfl

/-- Quoted content denotes the text. In a regular expression the text is written as
    it is, and so may not continue a line. -/
theorem decode_quoteFor (delimiter : String)
    (h : opensRegexp delimiter.toList → ¬ HasContinuedLine cs) :
    decodeContent (some delimiter) (prepared (some delimiter) (quoteFor delimiter.toList cs)) =
      .ok cs := by
  have hstyle : Style.ofDelimiter (some delimiter) = .ofChars delimiter.toList := rfl
  have hfits := fits_ofChars delimiter.toList
  unfold decodeContent prepared quoteFor
  rw [hstyle, Option.getD_some]
  -- From here on all that matters of the delimiter is that it fits its style.
  generalize delimiter.toList = d at h hfits
  have hne : Style.ofChars d ≠ .verbatim → d ≠ [] := by
    rintro hd rfl
    exact hd rfl
  generalize Style.ofChars d = style at hfits hne
  obtain ⟨hescapes, hends, hwords, hregexp⟩ := hfits
  rw [hescapes, hends, hwords]
  cases style with
  | verbatim => rfl
  | regexp =>
    have hjoined : joinContinued cs = cs := joinContinued_of_not_hasContinuedLine (h hregexp)
    exact congrArg Except.ok hjoined
  | escaped =>
    show unescape (joinContinued (doubled cs)) = .ok cs
    rw [joinContinued_doubled, unescape_doubled]
  | escapedWords => exact unescape_doubled cs
  | simple =>
    show Except.ok ((unescapeDelimiter? d (guarded (endsOf d) cs)).getD (guarded (endsOf d) cs)) =
      .ok cs
    rw [unescapeDelimiter?_getD (hne (by decide)), unescapeSimple_guarded]
  | simpleWords =>
    show Except.ok ((unescapeWord? d (guarded (endsOf d ++ [' ', '\n']) cs)).getD
      (guarded (endsOf d ++ [' ', '\n']) cs)) = .ok cs
    rw [unescapeWord?_getD (hne (by decide)), unescapeSimple_guarded]

end Decoding

namespace LowerM

section Lowering

/-- The text of a `str`, or of the `str` nodes of a `dstr` one after the other. -/
def spelled? : Tree → Option String
  | .node (.str "dstr") _ parts => (parts.mapM strText?).map String.join
  | t => strText? t

theorem spelled?_wrapPieces (line line' : Option Raw) (index : Nat) (texts : List (List Char)) :
    spelled? (wrapPieces line' (pieceNodes line index texts)) =
      some (String.ofList texts.flatten) := by
  have hjoin : String.join (texts.map String.ofList) = String.ofList texts.flatten := by
    rw [← String.toList_inj, String.toList_join, String.toList_ofList, List.flatMap_map,
      List.flatten_eq_flatMap]
    simp only [String.toList_ofList]
    rfl
  have hparts := mapM_strText?_pieceNodes line index texts
  -- Zero, one or several pieces are wrapped in different ways.
  match texts with
  | [text] => simp [wrapPieces, pieceNodes, spelled?, Tree.placed, strText?]
  | [] => rfl
  | first :: second :: texts =>
    show ((pieceNodes line index (first :: second :: texts)).mapM strText?).map String.join = _
    rw [hparts, Option.map_some, hjoin]

/-- A text quoted for the delimiter it stands behind. -/
def quotedText (delimiter : Option String) (s : String) : String :=
  match delimiter with
  | some d => String.ofList (quoteFor d.toList s.toList)
  | none => s

theorem decode_quotedText (s : String) (delimiter : Option String)
    (hregexp : ∀ d ∈ delimiter, opensRegexp d.toList → ¬ HasContinuedLine s.toList) :
    decodeContent delimiter (prepared delimiter (quotedText delimiter s).toList) =
      .ok s.toList := by
  cases delimiter with
  | none => rfl
  | some d =>
    rw [quotedText, String.toList_ofList]
    exact decode_quoteFor d (hregexp d rfl)

/-- Whatever the delimiter, a text quoted for it is lowered to nodes that spell the
    text. A regular expression is written as it is, so there no line may be
    continued. The text is one of characters: content with halves of characters in it
    (`Atom.torn`) is left out. -/
theorem lower_quoted_content (s : String) (delimiter : Option String) (position : Raw)
    (hline : ∀ line ∈ position.positionLine?, ∃ n : Int, line = .int n)
    (hregexp : ∀ d ∈ delimiter, opensRegexp d.toList → ¬ HasContinuedLine s.toList)
    (options : Options) (scope : Scope) :
    ∃ t, (lower (.list [.str "@tstring_content", .str (quotedText delimiter s), position,
        delimiterRaw delimiter])).runIn options scope = (.ok t, scope) ∧ spelled? t = some s := by
  have hwhole := decode_quotedText s delimiter hregexp
  -- The pieces are decoded to the whole of what decoding the text gives.
  have hpieces := decode_contentPieces delimiter (quotedText delimiter s).toList
  have hlower := lower_contentToken delimiter ⟨quotedText delimiter s, position, hline⟩
  rw [hwhole] at hpieces
  cases htexts : (contentPieces delimiter (quotedText delimiter s).toList).mapM
      (decodeContent delimiter) with
  | error e =>
    rw [htexts] at hpieces
    cases hpieces
  | ok texts =>
    rw [htexts] at hpieces hlower
    have htext : texts.flatten = s.toList := Option.some.inj hpieces
    refine ⟨_, congrArg (fun x => LowerM.runIn x options scope) hlower, ?_⟩
    rw [spelled?_wrapPieces, htext, String.ofList_toList]

/-- Ends of a literal, a backslash and a line break are given back, and so is a line
    of a regular expression that ends in an escaped backslash. -/
theorem lower_quoted_content_brackets :
    (∃ t, (lower (.list [.str "@tstring_content", .str "a\\\\\\(\n\\)", .list [.int 3, .int 0],
        .str "%q("])).runIn {} {} = (.ok t, {}) ∧ spelled? t = some "a\\(\n)") ∧
      ¬ HasContinuedLine "a\\\\\nb".toList ∧
      ∃ t, (lower (.list [.str "@tstring_content", .str "a\\\\\nb", .list [.int 3, .int 0],
        .str "/"])).runIn {} {} = (.ok t, {}) ∧ spelled? t = some "a\\\\\nb" := by
  have hline : ∀ line ∈ (Raw.list [.int 3, .int 0]).positionLine?, ∃ n : Int, line = .int n :=
    fun line h => ⟨3, (Option.some.inj h).symm⟩
  -- Its backslash is escaped, so the line is not continued.
  have hjoined : ¬ HasContinuedLine "a\\\\\nb".toList := by decide
  refine ⟨?_, hjoined, ?_⟩
  · refine lower_quoted_content "a\\(\n)" (some "%q(") _ hline ?_ {} {}
    rintro d hd hregexp
    cases hd
    exact absurd hregexp (by decide)
  · refine lower_quoted_content "a\\\\\nb" (some "/") _ hline ?_ {} {}
    intro d hd hregexp
    exact hjoined

end Lowering

end LowerM

end RubyTree
