import RubyTree.Lower.Block
import RubyTree.Lower.Collection
import RubyTree.Lower.Operator
import RubyTree.Lower.Target
import RubyTree.Proofs.Lower.Uniform.Field

/-!
# Uniform Expressions

The productions for names, literals, collections and calls respect every
congruence that the visitors respect. Each lemma follows its production step by
step: one step of the production is one use of `Congruence.bind`.

## Theorems

* `Related.literalParts`: The parts of a literal.
* `Related.lowerString`, `Related.lowerRegexp`, `Related.lowerPair`: Literals and
  collections.
* `Related.lowerCall`, `Related.lowerArgsBlock`, `Related.lowerIndex`: Calls.
-/

namespace RubyTree

namespace LowerM

section Expressions

variable {R : ∀ {α : Type}, LowerM α → LowerM α → Prop} {Q : Raw → Prop} {go go' : Visit}

namespace Congruence

/-- The name that a token carries. -/
theorem tokenName (h : Congruence R) (fs : Fields) :
    R (LowerM.tokenName fs) (LowerM.tokenName fs) :=
  h.bind (h.require _) fun _ => h.pure _

/-- A variable or an operator: a tag and the name of the token. -/
theorem lowerName (h : Congruence R) (tag : String) (fs : Fields) :
    R (LowerM.lowerName tag fs) (LowerM.lowerName tag fs) :=
  h.bind (h.tokenName fs) fun _ => h.pure _

/-- A constant by its name. -/
theorem lowerConstant (h : Congruence R) (fs : Fields) :
    R (LowerM.lowerConstant fs) (LowerM.lowerConstant fs) :=
  h.bind (h.tokenName fs) fun _ => h.pure _

/-- `::A`, a constant at the top level. -/
theorem lowerTopConstant (h : Congruence R) (fs : Fields) :
    R (LowerM.lowerTopConstant fs) (LowerM.lowerTopConstant fs) :=
  h.bind (h.nameOf _) fun _ => h.pure _

/-- A label without its colon. -/
theorem lowerLabel (h : Congruence R) (fs : Fields) :
    R (LowerM.lowerLabel fs) (LowerM.lowerLabel fs) :=
  h.bind (h.clippedName _) fun _ => h.pure _

/-- A keyword: a node of its word, but for `__FILE__` and `__LINE__`. -/
theorem lowerKeyword (h : Congruence R) (fs : Fields) :
    R (LowerM.lowerKeyword fs) (LowerM.lowerKeyword fs) := by
  unfold LowerM.lowerKeyword
  dsimp only
  split
  · exact h.bind h.read fun _ => h.pure _
  · exact h.pure _
  · exact h.pure _
  · exact h.pure _

/-- `$1` or `$&`: a number if the name behind the sign is one. -/
theorem reference (h : Congruence R) (line : Option Raw) (isFigure : Char → Bool)
    (cs : List Char) (name : String) :
    R (LowerM.reference line isFigure cs name) (LowerM.reference line isFigure cs name) := by
  unfold LowerM.reference
  split
  · split
    · exact h.pure _
    · exact h.throw _
  · exact h.pure _

/-- What the last match has captured. -/
theorem lowerBackReference (h : Congruence R) (fs : Fields) :
    R (LowerM.lowerBackReference fs) (LowerM.lowerBackReference fs) := by
  unfold LowerM.lowerBackReference
  split
  · exact h.reference _ _ _ _
  · exact h.bind (h.literalText fs) fun _ => h.reference _ _ _ _

/-- An integer literal. -/
theorem lowerInteger (h : Congruence R) (fs : Fields) :
    R (LowerM.lowerInteger fs) (LowerM.lowerInteger fs) :=
  h.bind (h.literalText fs) fun _ => h.bind (h.ofExcept _) fun _ => h.pure _

/-- A decimal literal. -/
theorem lowerFloat (h : Congruence R) (fs : Fields) :
    R (LowerM.lowerFloat fs) (LowerM.lowerFloat fs) :=
  h.bind (h.literalText fs) fun _ => h.bind (h.ofExcept _) fun _ => h.pure _

/-- A rational literal. -/
theorem lowerRational (h : Congruence R) (fs : Fields) :
    R (LowerM.lowerRational fs) (LowerM.lowerRational fs) :=
  h.bind (h.literalText fs) fun _ => h.bind (h.ofExcept _) fun _ => h.pure _

/-- An imaginary literal. -/
theorem lowerImaginary (h : Congruence R) (fs : Fields) :
    R (LowerM.lowerImaginary fs) (LowerM.lowerImaginary fs) := by
  unfold LowerM.lowerImaginary
  refine h.bind (h.literalText fs) fun cs => ?_
  refine h.bind (h.ofExcept _) fun x => ?_
  exact h.bind (h.ofExcept _) fun im => h.pure _

/-- A character literal, which may be decoded into octets. -/
theorem lowerCharacter (h : Congruence R) (fs : Fields) :
    R (LowerM.lowerCharacter fs) (LowerM.lowerCharacter fs) := by
  unfold LowerM.lowerCharacter
  dsimp only
  split
  · split
    · refine h.bind (h.ofExcept _) fun _ => ?_
      exact h.bind (h.literalText fs) fun _ => h.bind (h.ofExcept _) fun _ => h.pure _
    · exact h.bind (h.literalText fs) fun _ => h.bind (h.ofExcept _) fun _ => h.pure _
  · exact h.bind (h.literalText fs) fun _ => h.bind (h.ofExcept _) fun _ => h.pure _

/-- A run of content tokens as one token. -/
theorem joinRun (h : Congruence R) (run : List Raw) :
    R (LowerM.joinRun run) (LowerM.joinRun run) := by
  unfold LowerM.joinRun
  refine h.bind (h.mapM fun _ _ => h.require _) fun texts => ?_
  split
  · exact h.pure _
  · exact h.pure _
  · refine h.bind (h.mapM fun _ _ => h.require _) fun atoms => ?_
    exact h.bind (h.require _) fun joined => h.pure _

/-- Runs of content tokens joined, by recursion on the items. -/
theorem mergeFrom (h : Congruence R) :
    ∀ run items : List Raw, R (LowerM.mergeFrom run items) (LowerM.mergeFrom run items)
  | run, [] => h.joinRun _
  | run, item :: items => by
    unfold LowerM.mergeFrom
    split
    · exact h.mergeFrom (item :: run) items
    · refine h.bind (h.joinRun _) fun joined => ?_
      exact h.bind (h.mergeFrom [] items) fun rest => h.pure _

/-- The delimiter that a content token carries. -/
theorem delimiterOf (h : Congruence R) (r : Raw) :
    R (LowerM.delimiterOf r) (LowerM.delimiterOf r) := by
  unfold LowerM.delimiterOf
  split
  · exact h.pure _
  · exact h.bind (h.require _) fun _ => h.pure _

/-- The line so many lines below another. -/
theorem lineBelow (h : Congruence R) (k : Nat) (line : Option Raw) :
    R (LowerM.lineBelow k line) (LowerM.lineBelow k line) := by
  cases line with
  | none => exact h.pure _
  | some line => exact h.bind (h.require _) fun _ => h.pure _

/-- The pieces of a content token, one to a line. -/
theorem lowerPieces (h : Congruence R) (delimiter : Option String) (line : Option Raw) :
    ∀ (index : Nat) (pieces : List (List Char)),
      R (LowerM.lowerPieces delimiter line index pieces)
        (LowerM.lowerPieces delimiter line index pieces)
  | _, [] => h.pure _
  | index, piece :: pieces => by
    unfold LowerM.lowerPieces
    refine h.bind (h.ofExcept _) fun text => ?_
    refine h.bind (h.lineBelow _ _) fun place => ?_
    exact h.bind (h.lowerPieces delimiter line (index + 1) pieces) fun _ => h.pure _

/-- A content token, decoded piece by piece. -/
theorem lowerContent (h : Congruence R) (fs : Fields) :
    R (LowerM.lowerContent fs) (LowerM.lowerContent fs) := by
  unfold LowerM.lowerContent
  refine h.bind (h.delimiterOf _) fun delimiter => ?_
  dsimp only
  split
  · exact h.bind (h.lineBelow _ _) fun _ => h.pure _
  · -- Where escapes are decoded, a text with half of a surrogate pair fails at its pieces.
    split
    · split
      · unfold LowerM.refuseTorn
        exact h.bind (h.lowerPieces _ _ _ _) fun _ => h.ofExcept _
      · refine h.bind (h.require _) fun text => h.bind (h.lowerPieces _ _ _ _) fun ts => ?_
        split <;> exact h.pure _
    · refine h.bind (h.require _) fun text => h.bind (h.lowerPieces _ _ _ _) fun ts => ?_
      split <;> exact h.pure _

/-- The parts of a literal that is spliced into another. -/
theorem partsOf (h : Congruence R) (t : Tree) : R (LowerM.partsOf t) (LowerM.partsOf t) := by
  unfold LowerM.partsOf
  refine h.bind (h.isTagged _ _) fun isList => ?_
  split
  · exact h.childrenOf t
  · refine h.bind (h.isTagged _ _) fun isText => ?_
    split
    · exact h.pure _
    · exact h.pure _

/-- The flags behind a regular expression. -/
theorem regexpFlags (h : Congruence R) (ending : Raw) :
    R (LowerM.regexpFlags ending) (LowerM.regexpFlags ending) := by
  unfold LowerM.regexpFlags
  refine h.bind (h.require _) fun text => ?_
  refine h.bind (h.require _) fun marks => ?_
  exact h.bind (h.mapM fun _ _ => h.require _) fun marks => h.pure _

/-- Texts that are all there, by recursion on the nodes. -/
theorem allText (h : Congruence R) :
    ∀ ts : List Tree, R (LowerM.allText ts) (LowerM.allText ts) := by
  intro ts
  induction ts with
  | nil => exact h.pure _
  | cons t ts ih =>
    unfold LowerM.allText
    refine h.bind (h.isTagged _ _) fun isText => ?_
    split
    · exact ih
    · exact h.pure _

/-- The texts of parts that are no interpolations. -/
theorem staticTexts (h : Congruence R) :
    ∀ ts : List Tree, R (LowerM.staticTexts ts) (LowerM.staticTexts ts) := by
  intro ts
  -- By the trees: each step looks at the first one and goes on with the rest.
  induction ts with
  | nil => exact h.pure _
  | cons t ts ih =>
    unfold LowerM.staticTexts
    simp only [pure_bind]
    refine h.bind (h.isTagged _ _) fun isText => h.bind (h.isTagged _ _) fun isBegin => ?_
    split
    · refine h.bind (h.firstChild t) fun text => ?_
      exact h.bind ih fun _ => h.pure _
    · split
      · refine h.bind (h.childrenOf t) fun children => ?_
        refine h.bind (h.allText children) fun all => ?_
        split
        · refine h.bind (h.mapM fun t _ => h.firstChild t) fun texts => ?_
          exact h.bind ih fun _ => h.pure _
        · exact h.pure _
      · exact h.pure _

/-- The source of a regular expression without interpolations. -/
theorem staticSource? (h : Congruence R) (t : Tree) :
    R (LowerM.staticSource? t) (LowerM.staticSource? t) := by
  unfold LowerM.staticSource?
  split
  · refine h.bind (h.staticTexts _) fun texts => ?_
    split
    · exact h.pure _
    · exact h.bind (h.mapM fun _ _ => h.require _) fun _ => h.pure _
  · exact h.pure _

/-- `=~`, which binds the names that the expression on its left captures. -/
theorem lowerMatch (h : Congruence R) (left right : Tree) :
    R (LowerM.lowerMatch left right) (LowerM.lowerMatch left right) := by
  unfold LowerM.lowerMatch
  refine h.bind (h.staticSource? left) fun source => ?_
  split
  · exact h.pure _
  · refine h.bind ?_ fun _ => h.pure _
    exact h.forM fun name _ => h.bindLocal name

/-- The operator of an operation, a token or a name. -/
theorem operatorOf (h : Congruence R) (r : Raw) :
    R (LowerM.operatorOf r) (LowerM.operatorOf r) := by
  unfold LowerM.operatorOf
  split
  · exact h.pure _
  · exact h.throw _

/-- A key that is its own value: the scope is asked about the name only once there is one. -/
theorem shorthandValue (h : Congruence R) (key : Raw) {t : Tree}
    (hlocal : ∀ name, Returns (LowerM.firstChild t) name →
      R (LowerM.isLocal name) (LowerM.isLocal name)) :
    R (LowerM.shorthandValue key t) (LowerM.shorthandValue key t) := by
  unfold LowerM.shorthandValue
  refine h.bindReturned (h.firstChild t) fun name hname => ?_
  dsimp only
  split
  · exact h.bind (h.nameFrom name) fun _ => h.pure _
  · split
    · exact h.throw _
    · -- This look-up is the only one that may tell the two runs apart.
      refine h.bind (hlocal name hname) fun read => ?_
      refine h.bind (h.nameFrom name) fun symbol => ?_
      split
      · exact h.pure _
      · exact h.pure _

/-- `send` or `csend`, by the operator of the call. -/
theorem callTag (h : Congruence R) (operator : Raw) :
    R (LowerM.callTag operator) (LowerM.callTag operator) := by
  unfold LowerM.callTag
  dsimp only
  -- An operator is a token or a text; its text is looked up in the same way.
  split
  · refine h.bind (h.require _) fun op => ?_
    split
    · exact h.throw _
    · split
      · exact h.pure _
      · exact h.pure _
      · exact h.pure _
      · exact h.throw _
  · simp only [pure_bind]
    split
    · exact h.throw _
    · split
      · exact h.pure _
      · exact h.pure _
      · exact h.pure _
      · exact h.throw _

/-- A name alone: the scope decides between a local and a call. -/
theorem lowerBareName (h : Congruence R) {fs : Fields}
    (hlocal : ∀ name, Returns (LowerM.nameOf (fs.get 0)) name →
      R (LowerM.isLocal (.sym name)) (LowerM.isLocal (.sym name))) :
    R (LowerM.lowerBareName fs) (LowerM.lowerBareName fs) := by
  unfold LowerM.lowerBareName
  refine h.bindReturned (h.nameOf _) fun name hname => ?_
  refine h.bind (hlocal name hname) fun known => ?_
  split
  · exact h.pure _
  · exact h.pure _

/-- The name of a call without a receiver. -/
theorem lowerFunction (h : Congruence R) (fs : Fields) :
    R (LowerM.lowerFunction fs) (LowerM.lowerFunction fs) :=
  h.bind (h.nameOf _) fun _ => h.pure _

/-- The tag of an assignment by that of its target. -/
theorem assignmentTag (h : Congruence R) (tag : Raw) :
    R (LowerM.assignmentTag tag) (LowerM.assignmentTag tag) := by
  unfold LowerM.assignmentTag
  dsimp only
  by_cases hkey : tag.isKey
  · simp only [hkey, Bool.not_true, Bool.false_eq_true, if_false]
    split
    · exact h.inMethod fun method => Raw.str (if method then "cvasgn" else "cvdecl")
    all_goals exact h.pure _
  · simp only [hkey, Bool.not_false, if_true]
    exact h.throw _

/-- The tag of a call that is a target. -/
theorem attributeTag (h : Congruence R) (t : Tree) :
    R (LowerM.attributeTag t) (LowerM.attributeTag t) := by
  cases t with
  | leaf kind => exact h.pure _
  | node tag mark children => exact h.throw _

/-- A value put into a target, or a target alone. -/
theorem assignTo (h : Congruence R) (target : Tree) (value : Option Tree) :
    R (LowerM.assignTo target value) (LowerM.assignTo target value) := by
  unfold LowerM.assignTo
  split
  · exact h.throw _
  · split
    · exact h.throw _
    · exact h.pure _
  · exact h.bind (h.attributeTag _) fun _ => h.pure _
  · exact h.throw _
  · exact h.pure _
  · exact h.bind (h.assignmentTag _) fun _ => h.pure _

/-- A target without a value. -/
theorem targetOf (h : Congruence R) (t : Tree) : R (LowerM.targetOf t) (LowerM.targetOf t) :=
  h.bind (h.assignTo t none) fun _ => h.pure _

/-- The form of `a.b += c`, if the target has it. -/
theorem accessTarget? (h : Congruence R) (t : Tree) :
    R (LowerM.accessTarget? t) (LowerM.accessTarget? t) := by
  unfold LowerM.accessTarget?
  split
  · split
    · exact h.throw _
    · exact h.pure _
  · exact h.bind (h.attributeTag _) fun _ => h.pure _
  · exact h.throw _
  · exact h.pure _
  · exact h.throw _

/-- A node with a number of its own, unless it has one. -/
theorem numbered (h : Congruence R) (t : Tree) : R (LowerM.numbered t) (LowerM.numbered t) := by
  unfold LowerM.numbered
  split
  · exact h.pure _
  · split
    · exact h.pure _
    · exact h.bind h.freshNumber fun _ => h.pure _

/-- A target whose children stand in two places from now on. -/
theorem withSharedChildren (h : Congruence R) (t : Tree) :
    R (LowerM.withSharedChildren t) (LowerM.withSharedChildren t) := by
  unfold LowerM.withSharedChildren
  refine h.bind (h.childrenOf t) fun children => ?_
  exact h.bind (h.mapM fun u _ => h.numbered u) fun _ => h.pure _

end Congruence

end Expressions

section Merging

variable {Q : Raw → Prop}

/-- The token for a run of content tokens is within reach if they are: its text
    is an atom, and everything else comes from the first token. -/
theorem joinRun_within (hjoined : ∀ {items : List Raw} (a : Atom), Q (.list items) →
      Q (.list (.str "@tstring_content" :: .atom a :: items.drop 2))) {run ms : List Raw}
    (hrun : ∀ r ∈ run, r.hasTag "@tstring_content") (hn : ∀ r ∈ run, Q r)
    (h : Returns (joinRun run) ms) : Fields.Within Q ms := by
  unfold joinRun at h
  obtain ⟨texts, -, h⟩ := returns_bind h
  have hmem : ∀ keep, ∀ p ∈ (run.zip texts).filter keep, p.1 ∈ run :=
    fun _ p hp => (List.of_mem_zip (List.mem_filter.1 hp).1).1
  split at h
  · rw [← returns_pure h]
    intro r hr
    cases hr
  · rename_i token text htoken
    have hhead := hmem _ (token, text) (htoken ▸ List.mem_cons_self)
    rw [← returns_pure h]
    intro r hr
    rw [List.mem_singleton.1 hr]
    exact hn token hhead
  · rename_i head text rest _ hrest
    have hhead := hmem _ (head, text) (hrest ▸ List.mem_cons_self)
    obtain ⟨atoms, -, h⟩ := returns_bind h
    obtain ⟨joined, -, h⟩ := returns_bind h
    rw [← returns_pure h]
    intro r hr
    rw [List.mem_singleton.1 hr]
    have htag := hrun head hhead
    -- A token is a list, so the joined one is within reach as well.
    cases head with
    | atom a => simp only [Raw.hasTag, Raw.tag?, reduceCtorEq, beq_iff_eq] at htag
    | list items => exact hjoined _ (hn _ hhead)

/-- Runs that are joined stay inside what the visitors are asked about. -/
theorem mergeFrom_within (hjoined : ∀ {items : List Raw} (a : Atom), Q (.list items) →
      Q (.list (.str "@tstring_content" :: .atom a :: items.drop 2))) :
    ∀ {run items ms : List Raw}, (∀ r ∈ run, r.hasTag "@tstring_content") →
      (∀ r ∈ run, Q r) → Fields.Within Q items → Returns (mergeFrom run items) ms →
      Fields.Within Q ms
  | run, [], ms, hrun, hn, _, h => by
    refine joinRun_within hjoined (fun r hr => hrun r ?_) (fun r hr => hn r ?_) h
    · exact List.mem_reverse.1 hr
    · exact List.mem_reverse.1 hr
  | run, item :: items, ms, hrun, hn, hitems, h => by
    have hitem : Q item := hitems item List.mem_cons_self
    have hrest : Fields.Within Q items := hitems.of_subset (List.subset_cons_self item items)
    unfold mergeFrom at h
    split at h
    · rename_i htag
      refine mergeFrom_within hjoined (fun r hr => ?_) (fun r hr => ?_) hrest h
      · rcases List.mem_cons.1 hr with rfl | hr
        · exact htag
        · exact hrun r hr
      · rcases List.mem_cons.1 hr with rfl | hr
        · exact hitem
        · exact hn r hr
    · obtain ⟨joined, hreturned, h⟩ := returns_bind h
      obtain ⟨rest, hmerged, h⟩ := returns_bind h
      -- The run that ends here is joined, and the next one starts empty.
      have hj : Fields.Within Q joined := by
        refine joinRun_within hjoined (fun r hr => hrun r ?_) (fun r hr => hn r ?_) hreturned
        · exact List.mem_reverse.1 hr
        · exact List.mem_reverse.1 hr
      have hm : Fields.Within Q rest :=
        mergeFrom_within hjoined (by simp only [List.not_mem_nil, false_implies, implies_true])
          (by simp only [List.not_mem_nil, false_implies, implies_true]) hrest hmerged
      rw [← returns_pure h]
      intro r hr
      rcases List.mem_append.1 hr with hr | hr
      · exact hj r hr
      · rcases List.mem_cons.1 hr with rfl | hr
        · exact hitem
        · exact hm r hr

end Merging

section Visits

variable {R : ∀ {α : Type}, LowerM α → LowerM α → Prop} {Q : Raw → Prop} {go go' : Visit}
  {fs : Fields}

namespace Related

/-- `A::B`, a constant in a scope. -/
theorem lowerScopedConstant (h : Related R Q go go') (hfs : fs.Within Q) :
    R (LowerM.lowerScopedConstant go fs) (LowerM.lowerScopedConstant go' fs) :=
  h.bind (h.field hfs 0) fun _ => h.bind (h.nameOf _) fun _ => h.pure _

/-- The parts of a literal, after runs of tokens are joined. -/
theorem literalParts (h : Related R Q go go') (hfs : fs.Within Q) :
    R (LowerM.literalParts go fs) (LowerM.literalParts go' fs) := by
  unfold LowerM.literalParts mergeContent
  refine h.bindReturned (h.mergeFrom [] fs) fun ms hms => ?_
  have hm : Fields.Within Q ms :=
    mergeFrom_within h.hereditary.joined
      (by simp only [List.not_mem_nil, false_implies, implies_true])
      (by simp only [List.not_mem_nil, false_implies, implies_true]) hfs hms
  refine h.bind (h.mapM_fields hm) fun ts => ?_
  exact h.bind (h.mapM fun t _ => h.partsOf t) fun parts => h.pure _

/-- A string: a lone text stands for itself. -/
theorem lowerString (h : Related R Q go go') (hfs : fs.Within Q) :
    R (LowerM.lowerString go fs) (LowerM.lowerString go' fs) := by
  unfold LowerM.lowerString
  refine h.bind (h.literalParts hfs) fun parts => ?_
  split
  · exact h.pure _
  · refine h.bind (h.isTagged _ _) fun isText => ?_
    split
    · exact h.pure _
    · exact h.pure _
  · exact h.pure _

/-- A literal whose parts are kept apart, such as a command. -/
theorem lowerParts (h : Related R Q go go') (tag : String) (hfs : fs.Within Q) :
    R (LowerM.lowerParts tag go fs) (LowerM.lowerParts tag go' fs) :=
  h.bind (h.literalParts hfs) fun _ => h.pure _

/-- A field that holds statements. -/
theorem visitBody (h : Related R Q go go') {r : Raw} (hr : Q r) :
    R (LowerM.visitBody go r) (LowerM.visitBody go' r) :=
  h.bind (h.visit r hr) fun _ => h.pure _

/-- An interpolation: the statements in it. -/
theorem lowerEmbedded (h : Related R Q go go') (hfs : fs.Within Q) :
    R (LowerM.lowerEmbedded go fs) (LowerM.lowerEmbedded go' fs) := by
  unfold LowerM.lowerEmbedded
  refine h.bind (h.visitBody (h.get hfs 0)) fun body => ?_
  split
  · exact h.pure _
  · split
    · exact h.pure _
    · exact h.pure _
  · exact h.pure _

/-- An interpolation without braces. -/
theorem lowerEmbeddedVariable (h : Related R Q go go') (hfs : fs.Within Q) :
    R (LowerM.lowerEmbeddedVariable go fs) (LowerM.lowerEmbeddedVariable go' fs) :=
  h.bind (h.field hfs 0) fun _ => h.pure _

/-- A regular expression: its parts, then its flags. -/
theorem lowerRegexp (h : Related R Q go go') (hfs : fs.Within Q) :
    R (LowerM.lowerRegexp go fs) (LowerM.lowerRegexp go' fs) := by
  unfold LowerM.lowerRegexp
  refine h.bind (h.field hfs 0) fun regexp => ?_
  exact h.bind (h.regexpFlags _) fun flags => h.addChildren _ _

/-- The content of a symbol, by what it turned into. -/
theorem symbolContent (h : Related R Q go go') {r : Raw} (hr : Q r) :
    R (LowerM.symbolContent go r) (LowerM.symbolContent go' r) := by
  unfold LowerM.symbolContent
  split
  · refine h.bind (h.visit r hr) fun t => ?_
    exact h.bind (h.firstChild t) fun _ => h.pure _
  · exact h.bind (h.nameOf r) fun _ => h.pure _

/-- The content of a symbol in quotes. -/
theorem quotedSymbolContent (h : Related R Q go go') {r : Raw} (hr : Q r) :
    R (LowerM.quotedSymbolContent go r) (LowerM.quotedSymbolContent go' r) := by
  unfold LowerM.quotedSymbolContent
  refine h.bind (h.visit r hr) fun t => ?_
  refine h.bind (h.isTagged _ t) fun isText => ?_
  split
  · refine h.bind (h.firstChild t) fun value => ?_
    split
    · exact h.pure _
    · exact h.pure _
  · exact h.bind (h.childrenOf t) fun _ => h.pure _

/-- A symbol literal. -/
theorem lowerSymbolLiteral (h : Related R Q go go') (hfs : fs.Within Q) :
    R (LowerM.lowerSymbolLiteral go fs) (LowerM.lowerSymbolLiteral go' fs) := by
  unfold LowerM.lowerSymbolLiteral
  dsimp only
  split
  · exact h.field hfs 0
  · exact h.symbolContent (h.get hfs 0)

/-- `[]`, `{}` and their elements. -/
theorem lowerCollection (h : Related R Q go go') (tag : String) (hfs : fs.Within Q) :
    R (LowerM.lowerCollection tag go fs) (LowerM.lowerCollection tag go' fs) := by
  unfold LowerM.lowerCollection
  dsimp only
  split
  · exact h.pure _
  · refine h.bind (h.field hfs 0) fun t => ?_
    exact h.bind (h.childrenOf t) fun _ => h.pure _

/-- A node that holds the elements of its only field. -/
theorem lowerEach (h : Related R Q go go') (tag : String) (hfs : fs.Within Q) :
    R (LowerM.lowerEach tag go fs) (LowerM.lowerEach tag go' fs) :=
  h.bind (h.visitAll (h.get hfs 0)) fun _ => h.pure _

/-- A pair; without a value its key is looked up in the scope. -/
theorem lowerPair (h : Related R Q go go') (hfs : fs.Within Q)
    (hlocal : (fs.get 1).isNull → ∀ key name, Returns (go (fs.get 0)) key →
      Returns (LowerM.firstChild key) name → R (LowerM.isLocal name) (LowerM.isLocal name)) :
    R (LowerM.lowerPair go fs) (LowerM.lowerPair go' fs) := by
  unfold LowerM.lowerPair
  refine h.bindReturned (h.field hfs 0) fun key hkey => ?_
  split
  · rename_i hnull
    refine h.bind (h.shorthandValue _ fun name hname => ?_) fun _ => h.pure _
    exact hlocal hnull key name hkey hname
  · exact h.bind (h.field hfs 1) fun _ => h.pure _

/-- `a.b`: the receiver, the operator, the name. -/
theorem lowerCall (h : Related R Q go go') (hfs : fs.Within Q) :
    R (LowerM.lowerCall go fs) (LowerM.lowerCall go' fs) := by
  unfold LowerM.lowerCall
  refine h.bind (h.callTag _) fun kind => ?_
  refine h.bind (h.field hfs 0) fun receiver => ?_
  exact h.bind (h.nameOf _) fun name => h.pure _

/-- `p x`: a name and arguments without parentheses. -/
theorem lowerCommand (h : Related R Q go go') (hfs : fs.Within Q) :
    R (LowerM.lowerCommand go fs) (LowerM.lowerCommand go' fs) := by
  unfold LowerM.lowerCommand
  refine h.bind (h.nameOf _) fun name => ?_
  exact h.bind (h.argumentList (h.get hfs 1)) fun args => h.pure _

/-- `a.b x`: a receiver as well. -/
theorem lowerCommandCall (h : Related R Q go go') (hfs : fs.Within Q) :
    R (LowerM.lowerCommandCall go fs) (LowerM.lowerCommandCall go' fs) := by
  unfold LowerM.lowerCommandCall
  refine h.bind (h.callTag _) fun kind => ?_
  refine h.bind (h.field hfs 0) fun receiver => ?_
  refine h.bind (h.nameOf _) fun name => ?_
  exact h.bind (h.argumentList (h.get hfs 3)) fun args => h.pure _

/-- A call and its arguments in parentheses. -/
theorem lowerCallWithArgs (h : Related R Q go go') (hfs : fs.Within Q) :
    R (LowerM.lowerCallWithArgs go fs) (LowerM.lowerCallWithArgs go' fs) := by
  unfold LowerM.lowerCallWithArgs
  refine h.bind (h.field hfs 0) fun call => ?_
  refine h.bind (h.childrenOf call) fun children => ?_
  exact h.bind (h.argumentList (h.get hfs 1)) fun args => h.pure _

/-- Arguments in parentheses, or none. -/
theorem lowerArgParen (h : Related R Q go go') (hfs : fs.Within Q) :
    R (LowerM.lowerArgParen go fs) (LowerM.lowerArgParen go' fs) := by
  unfold LowerM.lowerArgParen
  dsimp only
  split
  · exact h.pure _
  · exact h.bind (h.argumentList (h.get hfs 0)) fun args => h.pure _

/-- A node that holds all its fields. -/
theorem lowerFields (h : Related R Q go go') (tag : String) (hfs : fs.Within Q) :
    R (LowerM.lowerFields tag go fs) (LowerM.lowerFields tag go' fs) :=
  h.bind (h.mapM_fields hfs) fun _ => h.pure _

/-- Arguments and a block that is passed on with `&`. -/
theorem lowerArgsBlock (h : Related R Q go go') (hfs : fs.Within Q) :
    R (LowerM.lowerArgsBlock go fs) (LowerM.lowerArgsBlock go' fs) := by
  unfold LowerM.lowerArgsBlock
  refine h.bind (h.argumentList (h.get hfs 0)) fun args => ?_
  split
  · exact h.pure _
  · exact h.pure _
  · exact h.pure _
  · exact h.pure _
  · rename_i block rest _ _ _ htail
    have hblock : block ∈ fs := List.mem_of_mem_tail (htail ▸ List.mem_cons_self)
    exact h.bind (h.visit block (hfs block hblock)) fun _ => h.pure _

/-- Arguments with a splat among them. -/
theorem lowerArgsStar (h : Related R Q go go') (hfs : fs.Within Q) :
    R (LowerM.lowerArgsStar go fs) (LowerM.lowerArgsStar go' fs) := by
  unfold LowerM.lowerArgsStar
  split
  · rename_i args splatted rest
    have hrest : ∀ r ∈ rest, R (go r) (go' r) := fun r hr =>
      h.visit r (hfs r (List.mem_cons_of_mem _ (List.mem_cons_of_mem _ hr)))
    refine h.bind (h.visit args (hfs args List.mem_cons_self)) fun items => ?_
    split
    -- The arguments may be null, but what follows is the same.
    all_goals
      refine h.bind (h.pure _) fun items => h.bind (h.childrenOf items) fun children => ?_
      refine h.bind (h.visit splatted (hfs _ (List.mem_cons_of_mem _ List.mem_cons_self))) ?_
      exact fun splat => h.bind (h.mapM hrest) fun _ => h.pure _
  · exact h.throw _

/-- A word with arguments, such as `return` or `super`. -/
theorem lowerWithArgs (h : Related R Q go go') (tag : String) (hfs : fs.Within Q) :
    R (LowerM.lowerWithArgs tag go fs) (LowerM.lowerWithArgs tag go' fs) :=
  h.bind (h.argumentList (h.get hfs 0)) fun _ => h.pure _

/-- `a[i]`: the receiver, then the arguments. -/
theorem lowerIndex (h : Related R Q go go') (hfs : fs.Within Q) :
    R (LowerM.lowerIndex go fs) (LowerM.lowerIndex go' fs) := by
  unfold LowerM.lowerIndex
  refine h.bind (h.field hfs 0) fun collection => ?_
  exact h.bind (h.argumentList (h.get hfs 1)) fun args => h.pure _

end Related

end Visits

end LowerM

end RubyTree
