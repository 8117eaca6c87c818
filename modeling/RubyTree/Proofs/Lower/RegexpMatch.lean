import RubyTree.Proofs.Literal.NamedGroups
import RubyTree.Proofs.Lower.PieceLines

/-!
# Matching a Regular Expression

A match with a regular expression on its left binds the named groups if the expression
is known, that is, if all that is interpolated into it are texts written out on one
line or single characters. Its source is put together again from what it was lowered
to: from the `str` nodes for each line of its content, and from the `begin` nodes for
what is interpolated.

Two things can be wrong with this. A character may be binary, and then the source
cannot be put together at all, although the expression itself has been lowered. And a
group is taken for escaped if a backslash stands right before it, which is wrong if
that backslash is itself escaped.

## Main definitions

* `IsOneLine`: A text that breaks its line at most at its end.
* `StaticLiteral`: A text or a character that may be interpolated.
* `RegexpPart`, `regexpLiteral`: A regular expression made of content and these.
* `SourceTexts`: The texts that the source of an expression is made of.
* `joined?`: The source that texts make, if none of them is binary.
* `Unpreceded`, `Unescaped`: The names of groups without a backslash right before them,
  and without one that escapes them.

## Theorems

* `returns_staticLiteral`, `returns_embedded`: What is interpolated becomes its text.
* `staticTexts_assembled`: The source is put together again.
* `lower_regexp_match`: A match binds the groups that no backslash stands right before.
-/

namespace RubyTree

/-- The text breaks its line nowhere but at its very end. -/
def IsOneLine (cs : List Char) : Prop :=
  '\n' ∉ cs.dropLast

instance (cs : List Char) : Decidable (IsOneLine cs) :=
  inferInstanceAs (Decidable ('\n' ∉ cs.dropLast))

section OneLine

variable {c : Char} {cs : List Char}

theorem isOneLine_cons : IsOneLine (c :: cs) ↔ (c = '\n' → cs = []) ∧ IsOneLine cs := by
  cases cs with
  | nil => simp [IsOneLine]
  | cons d cs => simp [IsOneLine, eq_comm]

/-- Joining lines makes no more of them. -/
theorem isOneLine_joinContinued (h : IsOneLine cs) : IsOneLine (joinContinued cs) := by
  fun_induction joinContinued cs with
  | case1 => exact h
  | case2 c => exact h
  | case3 cs ih => exact ih (isOneLine_cons.1 (isOneLine_cons.1 h).2).2
  | case4 d cs hd ih =>
    have hcs := (isOneLine_cons.1 (isOneLine_cons.1 h).2).2
    exact isOneLine_cons.2 ⟨by simp, isOneLine_cons.2 ⟨fun heq => absurd heq hd, ih hcs⟩⟩
  | case5 c d cs hc ih =>
    obtain ⟨hbreak, hcs⟩ := isOneLine_cons.1 h
    exact isOneLine_cons.2 ⟨fun heq => absurd (hbreak heq) (List.cons_ne_nil d cs), ih hcs⟩

/-- A text on one line is one piece. -/
theorem splitLines_of_isOneLine (h : IsOneLine cs) (hne : cs ≠ []) : splitLines cs = [cs] := by
  -- No line break is met, so the first line is all of it.
  induction cs with
  | nil => exact absurd rfl hne
  | cons c cs ih =>
    obtain ⟨hbreak, hcs⟩ := isOneLine_cons.1 h
    rw [splitLines]
    split
    next heq =>
      rw [hbreak heq]
      rfl
    next =>
      by_cases hnil : cs = []
      · rw [hnil]
        rfl
      · rw [ih hcs hnil]

/-- Content on one line is one piece. -/
theorem contentPieces_of_isOneLine (delimiter : Option String) (h : IsOneLine cs) :
    contentPieces delimiter cs = [prepared delimiter cs] := by
  -- Joining lines adds no break.
  have hprepared : IsOneLine (prepared delimiter cs) := by
    unfold prepared
    split
    · exact isOneLine_joinContinued h
    · exact h
  show (if (Style.ofDelimiter delimiter).isWords || !(prepared delimiter cs).contains '\n'
    then [prepared delimiter cs] else splitLines (prepared delimiter cs)) = _
  split
  next => rfl
  next hbreak =>
    refine splitLines_of_isOneLine hprepared fun hnil => hbreak ?_
    simp [hnil]

end OneLine

namespace LowerM

/-- A text on one line, or a character. -/
inductive StaticLiteral where
  | string (delimiter : Option String) (tokens : List ContentToken)
      (oneLine : IsOneLine (runSource tokens))
  | character (text : String) (position : Raw)

namespace StaticLiteral

def raw : StaticLiteral → Raw
  | string delimiter tokens _ =>
    .list [.str "string_literal", LiteralKind.string.raw delimiter (tokens.map .content)]
  | character text position => .list [.str "@CHAR", .str text, position]

/-- What the literal denotes, if it can be decoded. -/
def value : StaticLiteral → Except Error Atom
  | string delimiter tokens _ => do
    return .str (String.ofList (← runText delimiter tokens))
  | character text _ => do
    match ← unescapeChar text.toList.tail with
    | .inl cs => return .str (String.ofList cs)
    | .inr octets => return .octets octets

/-- The interpolation of the literal by itself. -/
def embedded (literal : StaticLiteral) : Interpolation :=
  ⟨.list [.str "string_embexpr", .list [.str "stmts", literal.raw]], .inl rfl⟩

end StaticLiteral

/-- A part of a regular expression that does not depend on the program's run. -/
inductive RegexpPart where
  | content (token : ContentToken)
  | interpolated (literal : StaticLiteral)

def RegexpPart.item : RegexpPart → LiteralItem
  | content token => .content token
  | interpolated literal => .interpolation literal.embedded

/-- A regular expression with its flags. -/
def regexpLiteral (delimiter : Option String) (parts : List RegexpPart) (ending : Raw) : Raw :=
  .list [.str "regexp_literal", LiteralKind.regexp.raw delimiter (parts.map (·.item)), ending]

/-- The texts that the source of a regular expression is made of, run by run and
    interpolation by interpolation. -/
inductive SourceTexts (delimiter : Option String) : List Segment → List Atom → Prop
  | nil : SourceTexts delimiter [] []
  | run {tokens : List ContentToken} {text : List Char} {segs : List Segment} {texts : List Atom}
      (htext : runText delimiter tokens = .ok text) (hrest : SourceTexts delimiter segs texts) :
      SourceTexts delimiter (.run tokens :: segs) (.str (String.ofList text) :: texts)
  | literal {literal : StaticLiteral} {text : Atom} {segs : List Segment} {texts : List Atom}
      (htext : literal.value = .ok text) (hrest : SourceTexts delimiter segs texts) :
      SourceTexts delimiter (.interpolation literal.embedded :: segs) (text :: texts)

/-- The source that texts make, unless one of them is binary. -/
def joined? (texts : List Atom) : Option String :=
  (texts.mapM Atom.text?).map String.join

/-- The name is that of a group that no backslash stands right before. -/
def Unpreceded (source name : String) : Prop :=
  ∃ before, GroupBegins source.toList before name.toList ∧ backslashesAtEnd before = 0

/-- The name is that of a group whose bracket is not escaped. -/
def Unescaped (source name : String) : Prop :=
  ∃ before, GroupBegins source.toList before name.toList ∧ Even (backslashesAtEnd before)

/-- The text or binary text of a `str` node. -/
def strAtom? : Tree → Option Atom
  | .node (.str "str") _ [.leaf (.atom a)] => some a
  | _ => none

section Interpolated

variable {t : Tree}

/-- Tokens alone are the pieces of one run. -/
theorem literalParts_tokens (delimiter : Option String) (tokens : List ContentToken) :
    literalParts lower ((tokens.map LiteralItem.content).map (·.raw delimiter)) =
      ofExcept (runPieces delimiter tokens) := by
  have hrun := gather_run delimiter tokens []
  have hnil : gather [] = pure [] := rfl
  rw [literalParts_eq, segments_run_nil, merged_runSegments]
  rw [List.append_nil, hnil] at hrun
  refine hrun.trans ?_
  cases runPieces delimiter tokens with
  | error e => rfl
  | ok pieces =>
    show (pure (pieces ++ []) : LowerM (List Tree)) = pure pieces
    rw [List.append_nil]

/-- A run on one line is one piece, at most. -/
theorem length_runPieces_le {delimiter : Option String} {tokens : List ContentToken}
    {pieces : List Tree} (h : runPieces delimiter tokens = .ok pieces)
    (hline : IsOneLine (runSource tokens)) : pieces.length ≤ 1 := by
  have hsource := text_joinedToken? tokens
  unfold runPieces at h
  cases hjoined : joinedToken? tokens with
  | none =>
    rw [hjoined] at h
    cases h
    exact Nat.zero_le 1
  | some token =>
    rw [hjoined] at h hsource
    -- The joined token has the texts of all, so it is on one line as they are.
    have hsource : token.text.toList = runSource tokens := hsource
    dsimp only at h
    rw [contentPieces_of_isOneLine delimiter (hsource ▸ hline), List.mapM_cons] at h
    cases hdecode : decodeContent delimiter (prepared delimiter token.text.toList) with
    | error e =>
      rw [hdecode] at h
      cases h
    | ok text =>
      rw [hdecode] at h
      cases h
      exact Nat.le_refl 1

theorem hasTag_of_strText? {text : String} (h : strText? t = some text) : t.hasTag "str" := by
  unfold strText? at h
  split at h
  · rfl
  · cases h

theorem strAtom?_of_strText? {text : String} (h : strText? t = some text) :
    strAtom? t = some (.str text) := by
  unfold strText? at h
  split at h
  · cases h
    rfl
  · cases h

/-- A node that holds one text is a string. -/
theorem eq_of_strAtom? {text : Atom} (h : strAtom? t = some text) :
    ∃ mark, t = .node (.str "str") mark [.leaf (.atom text)] := by
  unfold strAtom? at h
  split at h
  · cases h
    exact ⟨_, rfl⟩
  · cases h

/-- What a step that only makes a value returns. -/
theorem returns_ofExcept {α : Type} {x : Except Error α} {a : α} (h : Returns (ofExcept x) a) :
    x = .ok a := by
  cases x with
  | error e => exact absurd h not_returns_throw
  | ok b => rw [returns_pure h]

/-- A text on one line becomes one `str` node. -/
theorem returns_string {delimiter : Option String} {tokens : List ContentToken}
    (hline : IsOneLine (runSource tokens))
    (h : Returns (lower (LiteralKind.string.raw delimiter (tokens.map .content))) t) :
    ∃ text, runText delimiter tokens = .ok text ∧ strText? t = some (String.ofList text) := by
  obtain ⟨options, scope, after, hrun⟩ := h
  rw [lower_literal, literalParts_tokens] at hrun
  have htexts := runPieces_text delimiter tokens
  cases hpieces : runPieces delimiter tokens with
  | error e =>
    rw [hpieces] at hrun
    cases hrun
  | ok pieces =>
    rw [hpieces] at hrun htexts
    obtain ⟨texts, hspelled, htext⟩ := htexts
    -- One line gives no more than one piece, so there is no `dstr` around several.
    have hlength := length_runPieces_le hpieces hline
    have ht : LiteralKind.stringNode pieces = t := Except.ok.inj (Prod.mk.inj hrun).1
    refine ⟨_, htext, ?_⟩
    rw [← ht]
    match pieces, hlength with
    | [], _ =>
      cases hspelled
      rfl
    | [piece], _ =>
      rw [List.mapM_cons] at hspelled
      obtain ⟨text, hpiece, hspelled⟩ := Option.bind_eq_some_iff.1 hspelled
      cases hspelled
      rw [LiteralKind.stringNode, if_pos (hasTag_of_strText? hpiece), hpiece]
      simp

/-- A literal becomes one `str` node. -/
theorem returns_staticLiteral {literal : StaticLiteral} (h : Returns (lower literal.raw) t) :
    ∃ text, literal.value = .ok text ∧ strAtom? t = some text := by
  cases literal with
  | string delimiter tokens hline =>
    -- A string in quotes hands on what its contents are.
    have hlower : lower (StaticLiteral.string delimiter tokens hline).raw =
        lower (LiteralKind.string.raw delimiter (tokens.map .content)) :=
      lower_node "string_literal" _
    rw [hlower] at h
    obtain ⟨text, htext, ht⟩ := returns_string hline h
    refine ⟨.str (String.ofList text), ?_, strAtom?_of_strText? ht⟩
    rw [StaticLiteral.value, htext]
    rfl
  | character text position =>
    have hlower : lower (StaticLiteral.character text position).raw =
        lowerCharacter [.str text, position] :=
      lower_node "@CHAR" _
    have hvalue : lowerCharacter [.str text, position] = do
        let value ← ofExcept (unescapeChar text.toList.tail)
        return .placed (tokenLine [.str text, position]) "str" [match value with
          | .inl cs => .str (String.ofList cs)
          | .inr octets => .leaf (.atom (.octets octets))] := rfl
    rw [hlower, hvalue] at h
    obtain ⟨value, hread, h⟩ := returns_bind h
    rw [← returns_pure h, StaticLiteral.value, returns_ofExcept hread]
    -- A character may be decoded into octets, which are no text but are joined like one.
    cases value with
    | inl cs => exact ⟨_, rfl, rfl⟩
    | inr octets => exact ⟨_, rfl, rfl⟩

/-- Its interpolation becomes a `begin` around that. -/
theorem returns_embedded {literal : StaticLiteral} (h : Returns (lower literal.embedded.raw) t) :
    ∃ inner text, t = .bare "dstr" [.bare "begin" [inner]] ∧ strAtom? inner = some text ∧
      literal.value = .ok text := by
  have hstatements : lower (.list [.str "stmts", literal.raw]) =
      lowerStatements lower [literal.raw] :=
    lower_node "stmts" _
  have hlower : lower literal.embedded.raw =
      lowerEmbedded lower [.list [.str "stmts", literal.raw]] :=
    lower_node "string_embexpr" _
  have hget : Fields.get [.list [.str "stmts", literal.raw]] 0 =
      .list [.str "stmts", literal.raw] := rfl
  rw [hlower, lowerEmbedded, hget, visitBody, hstatements] at h
  obtain ⟨body, hbody, h⟩ := returns_bind h
  obtain ⟨statement, hstatement, hbody⟩ := returns_bind hbody
  obtain ⟨statements, hlist, hstatement⟩ := returns_bind hstatement
  rw [List.mapM_cons] at hlist
  obtain ⟨inner, hinner, hlist⟩ := returns_bind hlist
  obtain ⟨text, htext, hatom⟩ := returns_staticLiteral hinner
  obtain ⟨mark, rfl⟩ := eq_of_strAtom? hatom
  -- The sequence is its only statement, which is no empty one.
  obtain rfl : [Tree.node (.str "str") mark [.leaf (.atom text)]] = statements :=
    returns_pure hlist
  obtain rfl : Tree.node (.str "str") mark [.leaf (.atom text)] = statement :=
    returns_pure hstatement
  obtain rfl : Tree.node (.str "str") mark [.leaf (.atom text)] = body := returns_pure hbody
  exact ⟨_, text, (returns_pure h).symm, rfl, htext⟩

end Interpolated

section Sources

variable {delimiter : Option String} {segs : List Segment} {lowered parts : List Tree}

/-- Every interpolation among segments is that of a literal. -/
def AllStatic (segs : List Segment) : Prop :=
  ∀ i, .interpolation i ∈ segs → ∃ literal : StaticLiteral, i = literal.embedded

/-- Every interpolation was there before the runs were made. -/
theorem mem_of_mem_segments {i : Interpolation} {items : List LiteralItem}
    (h : .interpolation i ∈ segments items) : .interpolation i ∈ items := by
  -- By the items: tokens are put in front of a run or start a new one, and make no other item.
  induction items with
  | nil => cases h
  | cons item items ih =>
    cases item with
    | content token =>
      refine List.mem_cons_of_mem _ (ih ?_)
      rw [segments] at h
      split at h
      next tokens segs hsegs =>
        rw [hsegs]
        exact List.mem_cons_of_mem _ ((List.mem_cons.1 h).resolve_left (by simp))
      next => exact (List.mem_cons.1 h).resolve_left (by simp)
    | interpolation j =>
      rw [segments] at h
      rcases List.mem_cons.1 h with heq | h
      · cases heq
        exact List.mem_cons_self
      · exact List.mem_cons_of_mem _ (ih h)

theorem allStatic_segments (parts : List RegexpPart) :
    AllStatic (segments (parts.map (·.item))) := by
  intro i hi
  obtain ⟨part, -, hpart⟩ := List.mem_map.1 (mem_of_mem_segments hi)
  cases part with
  | content token => cases hpart
  | interpolated literal => exact ⟨literal, (LiteralItem.interpolation.inj hpart).symm⟩

/-- A string is a text. -/
theorem staticTexts_str {t : Tree} {text : Atom} (h : strAtom? t = some text) (ts : List Tree) :
    staticTexts (t :: ts) =
      (do return (← staticTexts ts).map ([.leaf (.atom text)] ++ ·)) := by
  obtain ⟨mark, rfl⟩ := eq_of_strAtom? h
  rfl

/-- An interpolation of a string is a text. -/
theorem staticTexts_begin {t : Tree} {text : Atom} (h : strAtom? t = some text)
    (ts : List Tree) :
    staticTexts (.bare "begin" [t] :: ts) =
      (do return (← staticTexts ts).map ([.leaf (.atom text)] ++ ·)) := by
  obtain ⟨mark, rfl⟩ := eq_of_strAtom? h
  rfl

/-- The pieces of a run are texts. -/
theorem staticTexts_pieces {pieces : List Tree} {texts : List String}
    (h : pieces.mapM strText? = some texts) {ts leaves : List Tree}
    (hts : staticTexts ts = pure (some leaves)) :
    staticTexts (pieces ++ ts) = pure (some (texts.map Tree.str ++ leaves)) := by
  -- Piece by piece: a piece holds one text, which comes before those of the rest.
  induction pieces generalizing texts with
  | nil =>
    cases h
    exact hts
  | cons piece pieces ih =>
    rw [List.mapM_cons] at h
    obtain ⟨text, hpiece, h⟩ := Option.bind_eq_some_iff.1 h
    obtain ⟨texts', hpieces, h⟩ := Option.bind_eq_some_iff.1 h
    cases h
    rw [List.cons_append, staticTexts_str (strAtom?_of_strText? hpiece), ih hpieces]
    rfl

theorem join_append (texts texts' : List String) :
    String.join (texts ++ texts') = String.join texts ++ String.join texts' := by
  rw [← String.toList_inj, String.toList_append]
  simp only [String.toList_join, List.flatMap_append]

/-- The source that leaves make. -/
def joinedLeaves? (leaves : List Tree) : Option String :=
  (leaves.mapM Tree.text?).map String.join

/-- Texts are joined part by part. -/
theorem mapM_append_map_join {α : Type} (f : α → Option String) (xs ys : List α) :
    ((xs ++ ys).mapM f).map String.join =
      ((xs.mapM f).map String.join).bind fun first =>
        ((ys.mapM f).map String.join).map (first ++ ·) := by
  rw [List.mapM_append]
  cases xs.mapM f with
  | none => rfl
  | some texts =>
    cases ys.mapM f with
    | none => rfl
    | some texts' => exact congrArg some (join_append texts texts')

/-- Texts are joined part by part, if they can be joined at all. -/
theorem joinedLeaves?_append {leaves leaves' : List Tree} {texts texts' : List Atom}
    (h : joinedLeaves? leaves = joined? texts) (h' : joinedLeaves? leaves' = joined? texts') :
    joinedLeaves? (leaves ++ leaves') = joined? (texts ++ texts') := by
  unfold joinedLeaves? joined? at h h' ⊢
  rw [mapM_append_map_join, mapM_append_map_join, h, h']

/-- Texts in a row are one text. -/
theorem joinedLeaves?_strs (found : List String) :
    joinedLeaves? (found.map Tree.str) =
      joined? [.str (String.ofList (found.flatMap String.toList))] := by
  have hleaves : (found.map Tree.str).mapM Tree.text? = some found := by
    induction found with
    | nil => rfl
    | cons text found ih =>
      rw [List.map_cons, List.mapM_cons, ih]
      rfl
  have hjoin : String.join found = String.join [String.ofList (found.flatMap String.toList)] := by
    rw [← String.toList_inj, String.toList_join, String.toList_join]
    simp
  rw [joinedLeaves?, hleaves, Option.map_some, hjoin]
  rfl

theorem joinedLeaves?_singleton (text : Atom) :
    joinedLeaves? [.leaf (.atom text)] = joined? [text] :=
  rfl

/-- The parts of a regular expression give its source back. -/
theorem staticTexts_assembled (h : Assembled delimiter segs lowered parts)
    (hstatic : AllStatic segs) {options : Options} {scope after : Scope}
    (hlowered : ((Segment.interpolations segs).mapM lower).runIn options scope =
      (.ok lowered, after)) :
    ∃ texts leaves, SourceTexts delimiter segs texts ∧
      staticTexts parts = pure (some leaves) ∧
      joinedLeaves? leaves = joined? texts := by
  -- Along the segments: a run gives a node for each of its lines, and an interpolation
  -- gives one `begin`.
  induction h generalizing scope after with
  | nil => exact ⟨[], [], .nil, rfl, rfl⟩
  | @run tokens pieces found segs lowered parts hpieces htext hrest ih =>
    obtain ⟨texts, leaves, htexts, hleaves, hjoined⟩ :=
      ih (fun i hi => hstatic i (List.mem_cons_of_mem _ hi)) hlowered
    exact ⟨_, _, .run htext htexts, staticTexts_pieces hpieces hleaves,
      joinedLeaves?_append (joinedLeaves?_strs found) hjoined⟩
  | @interpolation i part segs lowered parts hpart hrest ih =>
    obtain ⟨literal, rfl⟩ := hstatic i List.mem_cons_self
    rw [Segment.interpolations, List.mapM_cons, runIn_bind] at hlowered
    split at hlowered
    next t middle hfirst =>
      rw [runIn_bind] at hlowered
      split at hlowered
      next ts after' hothers =>
        cases hlowered
        obtain ⟨inner, text, hdstr, hinner, htext⟩ :=
          returns_embedded ⟨options, scope, middle, hfirst⟩
        cases hdstr
        obtain ⟨texts, leaves, htexts, hleaves, hjoined⟩ :=
          ih (fun i hi => hstatic i (List.mem_cons_of_mem _ hi)) hothers
        have hall : staticTexts (.bare "begin" [inner] :: parts) =
            pure (some ([.leaf (.atom text)] ++ leaves)) := by
          rw [staticTexts_begin hinner, hleaves]
          rfl
        exact ⟨_, _, .literal htext htexts, hall,
          joinedLeaves?_append (joinedLeaves?_singleton text) hjoined⟩
      next => cases hlowered
    next => cases hlowered

/-- Values that are all there. -/
theorem mapM_require {α β : Type} (f : α → Option β) (xs : List α) :
    (xs.mapM fun x => require (f x)) = (require (xs.mapM f) : LowerM (List β)) := by
  induction xs with
  | nil => rfl
  | cons x xs ih =>
    rw [List.mapM_cons, List.mapM_cons, ih]
    cases f x with
    | none => rfl
    | some y => cases xs.mapM f <;> rfl

/-- The source of a regular expression is known if its parts are, unless one of them
    is binary. -/
theorem staticSource?_regexp {leaves : List Tree} (hleaves : staticTexts parts = pure (some leaves))
    (flags : Tree) : staticSource? (.bare "regexp" (parts ++ [flags])) =
      (do return some (← require (joinedLeaves? leaves))) := by
  have hdrop : (parts ++ [flags]).dropLast = parts := List.dropLast_concat
  rw [Tree.bare, staticSource?, hdrop, hleaves, pure_bind]
  dsimp only
  rw [mapM_require, joinedLeaves?]
  cases leaves.mapM Tree.text? <;> rfl

end Sources

section Binding

variable {options : Options} {name : String}

/-- A bound name is a local from then on. -/
theorem mem_locals_bindLocal {scope : Scope} {bound : String} :
    name ∈ (scope.bindLocal bound).locals ↔ name ∈ scope.locals ∨ name = bound := by
  show name ∈ (if scope.locals.contains bound then scope.locals else bound :: scope.locals) ↔ _
  split
  next hbound =>
    refine ⟨.inl, fun h => h.elim id ?_⟩
    rintro rfl
    exact List.contains_iff_mem.1 hbound
  next => rw [List.mem_cons, or_comm]

/-- Binding names changes nothing but the locals. -/
theorem runIn_bindNames (names : List String) (scope : Scope) :
    ∃ after, (names.forM bindLocal).runIn options scope = (.ok (), after) ∧
      after = { scope with locals := after.locals } ∧
      ∀ name, name ∈ after.locals ↔ name ∈ scope.locals ∨ name ∈ names := by
  induction names generalizing scope with
  | nil => exact ⟨scope, rfl, rfl, by simp⟩
  | cons bound names ih =>
    obtain ⟨after, hrun, hrest, hlocals⟩ := ih (scope.bindLocal bound)
    refine ⟨after, ?_, hrest, fun name => ?_⟩
    · show (bindLocal bound >>= fun _ => names.forM bindLocal).runIn options scope = _
      rw [runIn_bind, runIn_bindLocal]
      exact hrun
    · rw [hlocals, mem_locals_bindLocal, List.mem_cons, or_assoc]

end Binding

section Matches

variable {delimiter : Option String} {parts : List RegexpPart} {ending op right : Raw}
  {options : Options} {scope middle after : Scope} {l r : Tree}

/-- A match of two operands. -/
def matchRaw (left op right : Raw) : Raw :=
  .list [.str "binary", left, op, right]

theorem operatorOf_text {text : String} (h : op.text? = some text) : operatorOf op = pure op := by
  have hkey : op.isKey := by
    cases op with
    | list items => cases h
    | atom a => cases a <;> first | rfl | cases h
  rw [operatorOf, if_pos hkey]

/-- The operands are lowered from left to right before they are matched. -/
theorem runIn_matchRaw {left : Raw} (hop : op.text? = some "=~")
    (hleft : (lower left).runIn options scope = (.ok l, middle))
    (hright : (lower right).runIn options middle = (.ok r, after)) :
    (lower (matchRaw left op right)).runIn options scope =
      (lowerMatch l r).runIn options after := by
  have hlower : lower (matchRaw left op right) = lowerBinary lower [left, op, right] :=
    lower_node "binary" _
  have hget : Fields.get [left, op, right] 1 = op := rfl
  rw [hlower, lowerBinary, hget, operatorOf_text hop, pure_bind, hop, if_pos (by rfl)]
  show (do lowerMatch (← lower left) (← lower right)).runIn options scope = _
  rw [runIn_bind, hleft]
  dsimp only
  rw [runIn_bind, hright]

/-- A regular expression is lowered to its parts and flags. -/
theorem regexp_of_runIn
    (h : (lower (regexpLiteral delimiter parts ending)).runIn options scope = (.ok l, middle)) :
    ∃ ps flags inner, (literalParts lower ((parts.map (·.item)).map (·.raw delimiter))).runIn
        options scope = (.ok ps, inner) ∧ l = .bare "regexp" (ps ++ [flags]) := by
  have hlower : lower (regexpLiteral delimiter parts ending) =
      lowerRegexp lower [LiteralKind.regexp.raw delimiter (parts.map (·.item)), ending] :=
    lower_node "regexp_literal" _
  rw [hlower, lowerRegexp, runIn_bind] at h
  split at h
  next regexp inner hregexp =>
    have hget : Fields.get [LiteralKind.regexp.raw delimiter (parts.map (·.item)), ending] 0 =
        LiteralKind.regexp.raw delimiter (parts.map (·.item)) := rfl
    rw [hget, lower_literal] at hregexp
    split at hregexp
    -- The parts come first and the flags after them, so the parts were all there.
    next ps last hps =>
      cases hregexp
      obtain ⟨flags, hflags, hl⟩ := returns_bind ⟨options, inner, middle, h⟩
      exact ⟨ps, _, inner, hps, (returns_pure hl).symm⟩
    next => cases hregexp
  next => cases h

/-- A literal denotes a text or a binary one. -/
theorem StaticLiteral.textual {literal : StaticLiteral} {a : Atom} (h : literal.value = .ok a) :
    (∃ text, a = .str text) ∨ ∃ octets, a = .octets octets := by
  cases literal with
  | string delimiter tokens hline =>
    obtain ⟨text, -, htext⟩ := bind_eq_ok.1 h
    cases htext
    exact .inl ⟨_, rfl⟩
  | character content position =>
    obtain ⟨value, -, htext⟩ := bind_eq_ok.1 h
    -- A character literal is a text, or octets when its escape is no character.
    cases value with
    | inl cs =>
      cases htext
      exact .inl ⟨_, rfl⟩
    | inr octets =>
      cases htext
      exact .inr ⟨_, rfl⟩

/-- What a source is made of is text or binary. -/
theorem SourceTexts.textual {segs : List Segment} {texts : List Atom}
    (h : SourceTexts delimiter segs texts) :
    ∀ a ∈ texts, (∃ text, a = .str text) ∨ ∃ octets, a = .octets octets := by
  induction h with
  | nil => simp
  | run htext hrest ih => exact List.forall_mem_cons.2 ⟨.inl ⟨_, rfl⟩, ih⟩
  | literal htext hrest ih => exact List.forall_mem_cons.2 ⟨StaticLiteral.textual htext, ih⟩

/-- Binary text is in no source. -/
theorem joined?_of_octets {texts : List Atom} {octets : List UInt8} (h : .octets octets ∈ texts) :
    joined? texts = none := by
  unfold joined?
  rw [Option.map_eq_none_iff]
  induction texts with
  | nil => cases h
  | cons a texts ih =>
    rw [List.mapM_cons]
    rcases List.mem_cons.1 h with rfl | h
    · rfl
    · rw [ih h]
      cases a.text? <;> rfl

/-- Texts can be joined. -/
theorem joined?_of_textual {texts : List Atom} (htexts : ∀ a ∈ texts, ∃ text, a = .str text) :
    ∃ source, joined? texts = some source := by
  suffices h : ∃ found, texts.mapM Atom.text? = some found by
    obtain ⟨found, hfound⟩ := h
    exact ⟨String.join found, by rw [joined?, hfound]; rfl⟩
  induction texts with
  | nil => exact ⟨[], rfl⟩
  | cons a texts ih =>
    obtain ⟨text, rfl⟩ := htexts a List.mem_cons_self
    obtain ⟨found, hfound⟩ := ih fun a ha => htexts a (List.mem_cons_of_mem _ ha)
    exact ⟨text :: found, by rw [List.mapM_cons, hfound]; rfl⟩

/-- A match with a regular expression whose interpolations are written out, once both
    operands have been lowered. Binary text in the source makes it fail. Without any,
    the names are bound of the groups that no backslash stands right before. These are
    the groups whose brackets are not escaped, unless one of them has an escaped
    backslash before it and its name is not bound otherwise. -/
theorem lower_regexp_match (hop : op.text? = some "=~")
    (hleft : (lower (regexpLiteral delimiter parts ending)).runIn options scope = (.ok l, middle))
    (hright : (lower right).runIn options middle = (.ok r, after)) :
    ∃ texts, SourceTexts delimiter (segments (parts.map (·.item))) texts ∧
      ((∃ octets, .octets octets ∈ texts) →
        (lower (matchRaw (regexpLiteral delimiter parts ending) op right)).runIn options scope =
          (.error .shape, after)) ∧
      ((∀ octets, .octets octets ∉ texts) → ∃ source final, joined? texts = some source ∧
        (lower (matchRaw (regexpLiteral delimiter parts ending) op right)).runIn options scope =
          (.ok (.bare "match_with_lvasgn" [l, r]), final) ∧
        final = { after with locals := final.locals } ∧
        (∀ name, name ∈ final.locals ↔ name ∈ after.locals ∨ Unpreceded source name) ∧
        ((∀ name, name ∈ final.locals ↔ name ∈ after.locals ∨ Unescaped source name) ↔
          ∀ name, Unescaped source name → name ∈ after.locals ∨ Unpreceded source name)) := by
  obtain ⟨ps, flags, inner, hparts, rfl⟩ := regexp_of_runIn hleft
  have hgather := gather_segments delimiter options (segments (parts.map (·.item))) scope
  rw [← literalParts_eq, hparts] at hgather
  obtain ⟨lowered, hlowered, hassembled⟩ := hgather
  -- The parts are all known, so the source is what they spell.
  obtain ⟨texts, leaves, htexts, hleaves, hjoined⟩ :=
    staticTexts_assembled hassembled (allStatic_segments parts) hlowered
  have hmatch := runIn_matchRaw hop hleft hright
  rw [lowerMatch, staticSource?_regexp hleaves, hjoined] at hmatch
  refine ⟨texts, htexts, ?_, fun hnone => ?_⟩
  · -- The operands have been lowered, so the scope is the one they leave.
    rintro ⟨octets, hoctets⟩
    rw [hmatch, joined?_of_octets hoctets]
    rfl
  · obtain ⟨source, hsource⟩ := joined?_of_textual fun a ha =>
      (htexts.textual a ha).resolve_right fun ⟨octets, h⟩ => hnone octets (h ▸ ha)
    obtain ⟨final, hbind, hrest, hlocals⟩ := @runIn_bindNames options (groupNames source) after
    have hbound : ∀ name, name ∈ final.locals ↔ name ∈ after.locals ∨ Unpreceded source name :=
      fun name => (hlocals name).trans (or_congr_right mem_groupNames)
    refine ⟨source, final, hsource, ?_, hrest, hbound, fun hclaim name hname => ?_,
      fun h name => ?_⟩
    · rw [hmatch, hsource]
      show ((groupNames source).forM bindLocal >>= fun _ => _).runIn options after = _
      rw [runIn_bind, hbind]
      rfl
    · exact (hbound name).1 ((hclaim name).2 (.inr hname))
    · -- No backslash at all is an even number of them.
      rw [hbound]
      refine ⟨fun hname => hname.imp_right ?_, fun hname => hname.elim .inl (h name)⟩
      rintro ⟨before, hbegins, hends⟩
      exact ⟨before, hbegins, hends ▸ Even.zero⟩

/-- A date with a group in a text on its own, and an escaped bracket. -/
def dateParts : List RegexpPart :=
  [.content (textToken "(?<year>\\d+)-" 1 (.int 1)),
   .interpolated (.string (some "\"") [textToken "(?<mon>" 1 (.int 16)] (by decide)),
   .interpolated (.character "?." .null),
   .content (textToken "+)\\(?<no>" 1 (.int 30))]

def slash : Raw :=
  .list [.str "@regexp_end", .str "/", .list [.int 1, .int 40]]

def textCall : Raw :=
  .list [.str "vcall", .list [.str "@ident", .str "s", .list [.int 1, .int 45]]]

def date : Raw :=
  regexpLiteral (some "/") dateParts slash

def dateMatch : Raw :=
  matchRaw date (.sym "=~") textCall

/-- What has run without an error has a value. -/
theorem exists_of_isOk {α : Type} {x : Except Error α × Scope} (h : x.1.isOk) :
    ∃ v, x = (.ok v, x.2) := by
  obtain ⟨result, scope⟩ := x
  cases result with
  | error e => cases h
  | ok v => exact ⟨v, rfl⟩

/-- The second group stands in a text of its own and ends behind it, and the last one is
    escaped. -/
theorem lower_regexp_match_date :
    ∃ texts source, SourceTexts (some "/") (segments (dateParts.map (·.item))) texts ∧
      joined? texts = some source ∧
      ∀ name, name ∈ ["mon", "year"] ↔ Unpreceded source name := by
  obtain ⟨l, hleft⟩ := exists_of_isOk (x := (lower date).runIn {} {}) (by decide +kernel)
  obtain ⟨r, hright⟩ := exists_of_isOk (x := (lower textCall).runIn {} ((lower date).runIn {} {}).2)
    (by decide +kernel)
  have hop : (Raw.sym "=~").text? = some "=~" := rfl
  obtain ⟨texts, htexts, hbinary, hknown⟩ := lower_regexp_match hop hleft hright
  have hok : ((lower dateMatch).runIn {} {}).1.isOk := by decide +kernel
  -- The match does not fail, so no text is binary.
  have hnone : ∀ octets, .octets octets ∉ texts := fun octets hmem => by
    rw [dateMatch, date, hbinary ⟨octets, hmem⟩] at hok
    cases hok
  obtain ⟨source, final, hsource, hrun, -, hlocals, -⟩ := hknown hnone
  have hfinal : final.locals = ["mon", "year"] := by
    have hlast : ((lower dateMatch).runIn {} {}).2.locals = ["mon", "year"] := by decide +kernel
    rw [dateMatch, date, hrun] at hlast
    exact hlast
  have hbefore : ((lower textCall).runIn {} ((lower date).runIn {} {}).2).2.locals = [] := by
    decide +kernel
  refine ⟨texts, source, htexts, hsource, fun name => ?_⟩
  rw [← hfinal, hlocals, hbefore]
  simp

/-- A group after an escaped backslash. -/
def escapedBackslash : List RegexpPart :=
  [.content (textToken "\\\\(?<n>x)" 1 (.int 1))]

/-- A character that is no UTF-8. -/
def binaryCharacter : List RegexpPart :=
  [.interpolated (.character "?\\xff" .null)]

/-- A group is missed if an escaped backslash stands before it, and a match with a
    binary character fails though its operands do not. -/
theorem lower_regexp_match_misses :
    (SourceTexts (some "/") (segments (escapedBackslash.map (·.item))) [.str "\\\\(?<n>x)"] ∧
      Unescaped "\\\\(?<n>x)" "n" ∧
      ((lower (matchRaw (regexpLiteral (some "/") escapedBackslash slash) (.sym "=~")
        textCall)).runIn {} {}).1.isOk ∧
      "n" ∉ ((lower (matchRaw (regexpLiteral (some "/") escapedBackslash slash) (.sym "=~")
        textCall)).runIn {} {}).2.locals) ∧
    ((lower (regexpLiteral (some "/") binaryCharacter slash)).runIn {} {}).1.isOk ∧
      ((lower textCall).runIn {} {}).1.isOk ∧
      ¬ ((lower (matchRaw (regexpLiteral (some "/") binaryCharacter slash) (.sym "=~")
        textCall)).runIn {} {}).1.isOk := by
  refine ⟨⟨.run rfl .nil, ?_, by decide +kernel, by decide +kernel⟩, by decide +kernel,
    by decide +kernel, by decide +kernel⟩
  refine ⟨['\\', '\\'], ⟨⟨by decide, by simp⟩, ?_⟩, by decide⟩
  decide

end Matches

end LowerM

end RubyTree
