import RubyTree.Proofs.Lower.Compared.Field

/-!
# Tokens and Literals in Two Runs

Names, keywords and numbers have the same value in both programs, at lines that
stand for each other. The value of `__LINE__` is the one leaf that is a line.

The content of a literal is cut into pieces with lines of their own, which are
counted from the line of its token. Where content is read as a name only its text
counts, so the trees it is lowered to are the same but for those lines.

## Main definitions

* `Change.Texts`: Pieces of content.
* `Change.Contents`: Content tokens, lowered.

## Theorems

* `parallel_lowerKeyword`: Keywords, among them `__LINE__`.
* `parallel_lowerContent`: Content.
* `Visited.literalParts`: The parts of a literal.
* `Visited.symbolContent`, `Visited.quotedSymbolContent`: Symbols.
* `parallel_staticSource`: The source of a regular expression.
-/

namespace RubyTree

open LowerM

namespace Change

variable {c : Change} {Q : Raw → Prop} {fs : Fields} {r : Raw} {here : Bool}

section Tokens

/-- A name that no line is part of is the same on both sides. -/
theorem tokenName_eq (htext : c.Plain (fs.get 0)) :
    tokenName (c.firstAt here 1 fs) = tokenName (c.secondAt here 1 fs) := by
  cases fs with
  | nil => rfl
  | cons x rest =>
    have hx : c.first x = c.second x := htext.first.trans htext.second.symm
    unfold firstAt secondAt
    rw [Raw.relocateItems, Raw.relocateItems]
    simp only [tokenName, List.head?_cons]
    rw [show Raw.relocate c.firstLine x = Raw.relocate c.secondLine x from hx]

/-- The text of a literal is no line. -/
theorem literalText_eq :
    literalText (c.firstAt here 1 fs) = literalText (c.secondAt here 1 fs) := by
  rw [literalText, literalText, get_firstAt here (by decide), get_secondAt here (by decide), first,
    second, Raw.text?_relocate, Raw.text?_relocate]

/-- The lines of a token stand for each other. -/
theorem tokenLine_rel (hplace : c.Sited (fs.get 1)) :
    Option.Rel c.Lines (tokenLine (c.firstAt here 1 fs)) (tokenLine (c.secondAt here 1 fs)) :=
  hplace.get

/-- A node with a name and a line. -/
theorem parallel_named {tag : String} (htag : tag = "lvar" ∨ tag ∉ lookedInto)
    {l l' : Option Raw} (hline : Option.Rel c.Lines l l') {x : LowerM String} (hx : Steady x) :
    c.Trees (do return .placed l tag [.sym (← x)]) (do return .placed l' tag [.sym (← x)]) := by
  refine hx.parallel.map fun name _ hname => ?_
  subst hname
  rcases htag with rfl | htag
  · exact agree_local hline name
  · exact agree_placed hline htag (.single (agree_leaf _))

theorem steady_tokenName (fs : Fields) : Steady (tokenName fs) :=
  (steady_require _).bind fun _ => steady_pure _

/-- A variable by its name, which is looked into only for locals. -/
theorem parallel_lowerName {tag : String} (htag : tag = "lvar" ∨ tag ∉ lookedInto)
    (htext : c.Plain (fs.get 0)) (hplace : c.Sited (fs.get 1)) :
    c.Trees (lowerName tag (c.firstAt here 1 fs)) (lowerName tag (c.secondAt here 1 fs)) := by
  rw [lowerName, lowerName, tokenName_eq htext]
  exact parallel_named htag (tokenLine_rel hplace) (steady_tokenName _)

/-- A constant by its name. -/
theorem parallel_lowerConstant (htext : c.Plain (fs.get 0)) (hplace : c.Sited (fs.get 1)) :
    c.Trees (lowerConstant (c.firstAt here 1 fs)) (lowerConstant (c.secondAt here 1 fs)) := by
  rw [lowerConstant, lowerConstant, tokenName_eq htext]
  refine (steady_tokenName _).parallel.map fun name _ hname => ?_
  subst hname
  exact agree_placed (tokenLine_rel hplace) (by decide) (.pair (agree_leaf _) (agree_leaf _))

theorem parallel_lowerLabel (htext : c.Plain (fs.get 0)) (hplace : c.Sited (fs.get 1)) :
    c.Trees (lowerLabel (c.firstAt here 1 fs)) (lowerLabel (c.secondAt here 1 fs)) := by
  rw [lowerLabel, lowerLabel, get_firstAt here (by decide), get_secondAt here (by decide),
    htext.first, htext.second]
  exact parallel_named (.inr (by decide)) (tokenLine_rel hplace) (steady_clippedName _)

/-- A keyword by itself is not looked into. -/
theorem Word.kept {word : String} (h : c.Word r) (hr : r.text? = some word) :
    c.Kept (.str word) [] := by
  cases c with
  | moved k =>
    intro htag
    injection htag with htag
    injection htag with htag
    exact absurd (htag ▸ hr) h
  | unnumbered =>
    obtain ⟨word', hword, hnot⟩ := h
    obtain rfl : word' = word := Option.some.inj (hword.symm.trans hr)
    exact kept_of_notMem hnot
  | renumbered => trivial

/-- A keyword that is no text is not looked into. -/
theorem Word.kept_of_none (h : c.Word r) (hr : r.text? = none) : c.Kept r [] := by
  cases c with
  | moved k =>
    rintro rfl
    cases hr
  | unnumbered =>
    obtain ⟨word, hword, -⟩ := h
    rw [hr] at hword
    cases hword
  | renumbered => trivial

/-- Only `__LINE__` shows a line, and it has to be marked. -/
theorem parallel_lowerKeyword (htext : c.Plain (fs.get 0)) (hplace : c.Sited (fs.get 1))
    (hword : c.Word (fs.get 0)) (hhere : (fs.get 0).isText "__LINE__" → here = true) :
    c.Trees (lowerKeyword (c.firstAt here 1 fs)) (lowerKeyword (c.secondAt here 1 fs)) := by
  have hline : Option.Rel c.Lines (tokenLine (c.firstAt here 1 fs)) _ := tokenLine_rel hplace
  unfold lowerKeyword
  dsimp only
  rw [get_firstAt here (by decide), get_secondAt here (by decide), htext.first, htext.second]
  split
  · refine parallel_read.andThen fun o o' ho => ?_
    rw [ho.filename]
    exact parallel_pure (agree_placed hline (by decide) (.single (agree_leaf _)))
  · rename_i hw
    -- The keyword for the line is the one that has its line as a value.
    obtain rfl := hhere (by rw [Raw.isText, hw]; rfl)
    refine parallel_pure (agree_placed hline (by decide) (.single (.leaf ?_)))
    rw [tokenLine, tokenLine, place_firstAt, place_secondAt]
    exact hplace.value
  · rename_i word _ _ hw
    exact parallel_pure (.node (marks_line hline) (hword.kept hw) .nil)
  · rename_i hw
    exact parallel_pure (.node (marks_line hline) (hword.kept_of_none hw) .nil)

/-- The name behind the sign is the same, so both find a number or both do not. -/
theorem parallel_reference {l l' : Option Raw} (hline : Option.Rel c.Lines l l')
    (isFigure : Char → Bool) (cs : List Char) (name : String) :
    c.Trees (reference l isFigure cs name) (reference l' isFigure cs name) := by
  unfold reference
  split
  · split
    · exact parallel_pure (agree_placed hline (by decide) (.single (agree_leaf _)))
    · exact parallel_throw _
  · exact parallel_pure (agree_placed hline (by decide) (.single (agree_leaf _)))

theorem parallel_lowerBackReference (htext : c.Plain (fs.get 0)) (hplace : c.Sited (fs.get 1)) :
    c.Trees (lowerBackReference (c.firstAt here 1 fs))
      (lowerBackReference (c.secondAt here 1 fs)) := by
  unfold lowerBackReference
  rw [literalText_eq, get_firstAt here (by decide), get_secondAt here (by decide), htext.first,
    htext.second]
  split
  · exact parallel_reference (tokenLine_rel hplace) _ _ _
  · refine (steady_literalText _).parallel.andThen fun cs _ hcs => ?_
    subst hcs
    exact parallel_reference (tokenLine_rel hplace) _ _ _

/-- A number, whatever its kind. -/
theorem parallel_number {α : Type} {tag : String} (htag : tag ∉ lookedInto) {l l' : Option Raw}
    (hline : Option.Rel c.Lines l l') {x : LowerM α} (hx : Steady x) (leaf : α → Atom) :
    c.Trees (do return .placed l tag [.leaf (.atom (leaf (← x)))])
      (do return .placed l' tag [.leaf (.atom (leaf (← x)))]) := by
  refine hx.parallel.map fun a _ ha => ?_
  subst ha
  exact agree_placed hline htag (.single (agree_leaf _))

/-- A number is read off a text that is the same on both sides. -/
theorem parallel_lowerInteger (hplace : c.Sited (fs.get 1)) :
    c.Trees (lowerInteger (c.firstAt here 1 fs)) (lowerInteger (c.secondAt here 1 fs)) := by
  unfold lowerInteger
  rw [literalText_eq]
  simp only [← bind_assoc]
  exact parallel_number (by decide) (tokenLine_rel hplace)
    ((steady_literalText _).bind fun _ => steady_ofExcept _) Atom.int

theorem parallel_lowerFloat (hplace : c.Sited (fs.get 1)) :
    c.Trees (lowerFloat (c.firstAt here 1 fs)) (lowerFloat (c.secondAt here 1 fs)) := by
  unfold lowerFloat
  rw [literalText_eq]
  simp only [← bind_assoc]
  exact parallel_number (by decide) (tokenLine_rel hplace)
    ((steady_literalText _).bind fun _ => steady_ofExcept _) Atom.real

theorem parallel_lowerRational (hplace : c.Sited (fs.get 1)) :
    c.Trees (lowerRational (c.firstAt here 1 fs)) (lowerRational (c.secondAt here 1 fs)) := by
  unfold lowerRational
  rw [literalText_eq]
  simp only [← bind_assoc]
  exact parallel_number (by decide) (tokenLine_rel hplace)
    ((steady_literalText _).bind fun _ => steady_ofExcept _) Atom.rational

theorem parallel_lowerImaginary (hplace : c.Sited (fs.get 1)) :
    c.Trees (lowerImaginary (c.firstAt here 1 fs)) (lowerImaginary (c.secondAt here 1 fs)) := by
  unfold lowerImaginary
  rw [literalText_eq]
  simp only [← bind_assoc]
  exact parallel_number (by decide) (tokenLine_rel hplace)
    (((steady_literalText _).bind fun _ => steady_ofExcept _).bind fun _ => steady_ofExcept _)
    (Atom.complex (.ofFields false 0))

/-- A character is decoded from a text that is the same on both sides. -/
theorem parallel_lowerCharacter (htext : c.Plain (fs.get 0)) (hplace : c.Sited (fs.get 1)) :
    c.Trees (lowerCharacter (c.firstAt here 1 fs)) (lowerCharacter (c.secondAt here 1 fs)) := by
  unfold lowerCharacter
  rw [literalText_eq, get_firstAt here (by decide), get_secondAt here (by decide), htext.first,
    htext.second]
  dsimp only
  split
  on_goal 1 => split
  on_goal 1 => refine (steady_ofExcept _).parallel.andThen fun _ _ _ => ?_
  -- What is left is the same in all cases: the character itself.
  all_goals
    refine (steady_literalText _).parallel.andThen fun cs _ hcs => ?_
    subst hcs
    refine (steady_ofExcept _).parallel.andThen fun value _ hvalue => ?_
    subst hvalue
    refine parallel_pure (agree_placed (tokenLine_rel hplace) (by decide) (.single ?_))
    split
    · exact agree_leaf _
    · exact agree_leaf _

end Tokens

section Contents

/-- Pieces of content that are the same but for their lines. -/
def Texts (c : Change) (t t' : Tree) : Prop :=
  ∃ l l' v, Option.Rel c.Lines l l' ∧ c.Leaves v v ∧ t = .placed l "str" [.leaf v] ∧
    t' = .placed l' "str" [.leaf v]

/-- Content that is the same but for its lines. -/
def Contents (c : Change) (t t' : Tree) : Prop :=
  c.Texts t t' ∨ ∃ l l' ts ts', Option.Rel c.Lines l l' ∧ List.Forall₂ c.Texts ts ts' ∧
    t = .placed l "dstr" ts ∧ t' = .placed l' "dstr" ts'

/-- A text agrees with the same text. -/
theorem Texts.agree {t t' : Tree} (h : c.Texts t t') : c.Agree t t' := by
  obtain ⟨l, l', v, hline, hleaf, rfl, rfl⟩ := h
  exact agree_placed hline (by decide) (.single (.leaf hleaf))

/-- What content turns into agrees on both sides. -/
theorem Contents.agree {t t' : Tree} (h : c.Contents t t') : c.Agree t t' := by
  obtain h | ⟨l, l', ts, ts', hline, hts, rfl, rfl⟩ := h
  · exact h.agree
  · exact agree_placed hline (by decide) (hts.imp fun _ _ => Texts.agree)

/-- Content starts with the same text, or with pieces that print alike. -/
theorem Contents.display {t t' : Tree} (h : c.Contents t t') :
    Option.Rel (fun n n' => n.display = n'.display) (t.children?.bind List.head?)
      (t'.children?.bind List.head?) := by
  obtain ⟨l, l', v, -, -, rfl, rfl⟩ | ⟨l, l', ts, ts', -, hts, rfl, rfl⟩ := h
  · exact .some rfl
  · cases hts with
    | nil => exact .none
    | cons h _ =>
      obtain ⟨l, l', v, -, -, rfl, rfl⟩ := h
      exact .some rfl

/-- The piece of a content token is so many lines further down on both sides. -/
theorem parallel_lineBelow {l l' : Option Raw} (h : Option.Rel c.Counted l l') (n : Nat) :
    c.Parallel (Option.Rel c.Lines) (lineBelow n l) (lineBelow n l') := by
  cases h with
  | none => exact parallel_pure .none
  | some h => exact (parallel_require (h.linesBelow? n)).map fun _ _ hl => .some hl

/-- All pieces, each one line below the one before. -/
theorem parallel_lowerPieces (delimiter : Option String) {l l' : Option Raw}
    (hline : Option.Rel c.Counted l l') : ∀ (index : Nat) (pieces : List (List Char)),
      c.Parallel (List.Forall₂ c.Texts) (lowerPieces delimiter l index pieces)
        (lowerPieces delimiter l' index pieces)
  | _, [] => parallel_pure .nil
  | index, piece :: pieces => by
    unfold lowerPieces
    refine (steady_ofExcept _).parallel.andThen fun text _ htext => ?_
    subst htext
    refine (parallel_lineBelow hline index).andThen fun place place' hplace => ?_
    refine (parallel_lowerPieces delimiter hline (index + 1) pieces).andThen fun ts ts' hts => ?_
    exact parallel_pure (.cons ⟨place, place', _, hplace, leaves_refl _, rfl, rfl⟩ hts)

/-- What is refused on one side is refused on the other. -/
theorem parallel_refuseHalf {α β : Type} {P : α → β → Prop} (before : List Char) :
    c.Parallel P (LowerM.ofExcept (refuseHalf before)) (LowerM.ofExcept (refuseHalf before)) := by
  unfold refuseHalf
  cases unescapeOctets before with
  | error e => exact parallel_throw _
  | ok cs => exact parallel_throw _

/-- A delimiter is no line. -/
theorem delimiterOf_eq (r : Raw) : delimiterOf (c.first r) = delimiterOf (c.second r) := by
  cases r with
  | atom a => rw [first_atom, second_atom]
  | list items =>
    rw [first, second, Raw.relocate, Raw.relocate]
    rfl

theorem steady_delimiterOf (r : Raw) : Steady (delimiterOf r) := by
  unfold delimiterOf
  split
  · exact steady_pure _
  · exact (steady_require _).bind fun _ => steady_pure _

/-- A content token, decoded by a delimiter that is the same on both sides. -/
theorem parallel_lowerContent (htext : c.Plain (fs.get 0)) (hplace : c.Sited (fs.get 1)) :
    c.Parallel c.Contents (lowerContent (c.firstAt false 1 fs))
      (lowerContent (c.secondAt false 1 fs)) := by
  have hcounted : Option.Rel c.Counted (tokenLine (c.firstAt false 1 fs))
      (tokenLine (c.secondAt false 1 fs)) := by
    rw [tokenLine, tokenLine, place_firstAt, place_secondAt]
    exact hplace.counted
  have hline : Option.Rel c.Lines (tokenLine (c.firstAt false 1 fs)) _ := tokenLine_rel hplace
  unfold lowerContent
  rw [get_firstAt false (by decide), get_secondAt false (by decide), get_firstAt false (by decide),
    get_secondAt false (by decide), htext.first, htext.second, delimiterOf_eq]
  refine (steady_delimiterOf _).parallel.andThen fun delimiter _ hdelimiter => ?_
  subst hdelimiter
  dsimp only
  split
  · refine (parallel_lineBelow hcounted 0).andThen fun l l' hl => ?_
    exact parallel_pure (.inl ⟨l, l', _, hl, htext.leaves, rfl, rfl⟩)
  · split
    on_goal 1 => split
    on_goal 1 =>
      unfold refuseTorn
      refine (parallel_lowerPieces delimiter hcounted 0 _).andThen fun _ _ _ => ?_
      exact parallel_refuseHalf _
    -- What is left are the pieces of a text, which may be any number.
    all_goals
      refine (steady_require _).parallel.andThen fun text _ ht => ?_
      subst ht
      refine (parallel_lowerPieces delimiter hcounted 0 _).andThen fun ts ts' hts => ?_
      cases hts with
      | nil => exact parallel_pure (.inr ⟨_, _, _, _, hline, .nil, rfl, rfl⟩)
      | cons h hrest =>
        cases hrest with
        | nil => exact parallel_pure (.inl h)
        | cons h' hrest =>
          exact parallel_pure (.inr ⟨_, _, _, _, hline, .cons h (.cons h' hrest), rfl, rfl⟩)

end Contents

section Merging

/-- The two programs' versions of the same raw trees. -/
def Images (c : Change) (Q : Raw → Prop) (rs rs' : List Raw) : Prop :=
  ∃ xs : List Raw, Fields.Within Q xs ∧ rs = xs.map c.first ∧ rs' = xs.map c.second

/-- A token of content in both programs. -/
theorem content_token (h : c.Visited Q) {items : List Raw}
    (hr : Q (.list (.str "@tstring_content" :: items))) :
    c.first (.list (.str "@tstring_content" :: items)) =
        .list (.str "@tstring_content" :: c.firstAt false 1 items) ∧
      c.second (.list (.str "@tstring_content" :: items)) =
        .list (.str "@tstring_content" :: c.secondAt false 1 items) ∧
      c.Plain (Fields.get items 0) ∧ c.Sited (Fields.get items 1) := by
  refine ⟨Raw.relocate_node _ _, Raw.relocate_node _ _, ?_, ?_⟩
  · exact (h.fits hr).text rfl
  · exact (h.fits hr).place 1 rfl

/-- The text of a content token is the same on both sides. -/
theorem content_text (h : c.Visited Q) (htag : r.hasTag "@tstring_content") (hr : Q r) :
    (c.first r).item? 1 = (c.second r).item? 1 := by
  obtain ⟨items, rfl⟩ := Raw.eq_of_hasTag htag
  obtain ⟨hfirst, hsecond, hplain, -⟩ := content_token h hr
  rw [hfirst, hsecond]
  cases items with
  | nil => rfl
  | cons x rest =>
    have hx : c.first x = c.second x := Eq.trans (Plain.first hplain) (Plain.second hplain).symm
    rw [firstAt, secondAt, Raw.relocateItems, Raw.relocateItems]
    exact congrArg some hx

/-- What comes from joining tokens comes from a token in both programs. -/
theorem joined_token (h : c.Visited Q) (htag : r.hasTag "@tstring_content") (hr : Q r) (a : Atom) :
    ∃ x, Q x ∧
      c.first x = .list (.str "@tstring_content" :: .atom a :: (match c.first r with
        | .list items => items.drop 2
        | .atom _ => [])) ∧
      c.second x = .list (.str "@tstring_content" :: .atom a :: (match c.second r with
        | .list items => items.drop 2
        | .atom _ => [])) := by
  obtain ⟨items, rfl⟩ := Raw.eq_of_hasTag htag
  -- The token with the joined text is as good as the first of its run.
  have hx := h.joined a hr
  refine ⟨_, hx, ?_, ?_⟩
  · rw [(content_token h hr).1, (content_token h hx).1]
    cases items with
    | nil => rfl
    | cons y rest => simp [firstAt, Raw.relocateItems, Raw.relocate_atom]
  · rw [(content_token h hr).2.1, (content_token h hx).2.1]
    cases items with
    | nil => rfl
    | cons y rest => simp [secondAt, Raw.relocateItems, Raw.relocate_atom]

/-- A run that is joined has the place of its first token on both sides. -/
theorem joinRun_images (h : c.Visited Q) {run : List Raw}
    (hrun : ∀ x ∈ run, x.hasTag "@tstring_content" ∧ Q x) :
    c.Parallel (c.Images Q) (joinRun (run.map c.first)) (joinRun (run.map c.second)) := by
  unfold joinRun
  have htexts : c.Parallel (List.Forall₂ Eq)
      ((run.map c.first).mapM fun token => require (token.item? 1))
      ((run.map c.second).mapM fun token => require (token.item? 1)) := by
    refine Parallel.mapM_map fun x hx => ?_
    rw [content_text h (hrun x hx).1 (hrun x hx).2]
    exact (steady_require _).parallel
  refine htexts.andThen fun texts _ ht => ?_
  rw [List.forall₂_eq_eq_eq] at ht
  subst ht
  -- The texts are the same in both programs, so the same tokens are kept.
  have hkept : ∀ (f : Raw → Raw) (keep : Raw × Raw → Bool),
      keep = (fun e => !e.2.isText "") → ((run.map f).zip texts).filter keep =
        ((run.zip texts).filter fun e => !e.2.isText "").map (Prod.map f id) := by
    intro f keep hkeep
    rw [hkeep, List.zip_map_left, List.filter_map]
    rfl
  rw [hkept c.first _ rfl, hkept c.second _ rfl]
  have hmem : ∀ e ∈ (run.zip texts).filter (fun e => !e.2.isText ""), e.1 ∈ run :=
    fun e he => (List.of_mem_zip (List.mem_filter.1 he).1).1
  generalize (run.zip texts).filter (fun e => !e.2.isText "") = kept at hmem
  rcases kept with _ | ⟨⟨head, text⟩, _ | ⟨second, rest⟩⟩
  · exact parallel_pure ⟨[], by simp [Fields.Within], rfl, rfl⟩
  · have htoken := hrun head (hmem (head, text) List.mem_cons_self)
    refine parallel_pure ⟨[head], ?_, rfl, rfl⟩
    intro x hx
    rw [List.mem_singleton.1 hx]
    exact htoken.2
  · have hhead := hrun head (hmem (head, text) List.mem_cons_self)
    have hatoms : ∀ read : Raw × Raw → LowerM Atom, (read = fun e => require e.2.atom?) →
        c.Parallel (List.Forall₂ Eq)
          ((((head, text) :: second :: rest).map (Prod.map c.first id)).mapM read)
          ((((head, text) :: second :: rest).map (Prod.map c.second id)).mapM read) := by
      rintro read rfl
      exact Parallel.mapM_map fun e _ => (steady_require e.2.atom?).parallel
    refine (hatoms _ rfl).andThen fun atoms _ ha => ?_
    rw [List.forall₂_eq_eq_eq] at ha
    subst ha
    refine (steady_require _).parallel.andThen fun joined _ hj => ?_
    subst hj
    obtain ⟨x, hx, hfirst, hsecond⟩ := joined_token h hhead.1 hhead.2 joined
    refine parallel_pure ⟨[x], fun y hy => ?_, ?_, ?_⟩
    · rwa [List.mem_singleton.1 hy]
    · exact (congrArg (fun y => [y]) hfirst).symm
    · exact (congrArg (fun y => [y]) hsecond).symm

/-- Runs of content tokens end at the same places on both sides. -/
theorem mergeFrom_images (h : c.Visited Q) : ∀ (run items : List Raw),
    (∀ x ∈ run, x.hasTag "@tstring_content" ∧ Q x) → Fields.Within Q items →
      c.Parallel (c.Images Q) (mergeFrom (run.map c.first) (items.map c.first))
        (mergeFrom (run.map c.second) (items.map c.second))
  | run, [], hrun, _ => by
    simp only [List.map_nil, mergeFrom, ← List.map_reverse]
    exact joinRun_images h fun x hx => hrun x (List.mem_reverse.1 hx)
  | run, item :: items, hrun, hitems => by
    have hitem : Q item := hitems item List.mem_cons_self
    have hrest : Fields.Within Q items := fun x hx => hitems x (List.mem_cons_of_mem _ hx)
    have hjoined : c.Parallel (c.Images Q) (joinRun (run.map c.first).reverse)
        (joinRun (run.map c.second).reverse) := by
      rw [← List.map_reverse, ← List.map_reverse]
      exact joinRun_images h fun x hx => hrun x (List.mem_reverse.1 hx)
    simp only [List.map_cons, mergeFrom]
    rw [first, second, Raw.hasTag_relocate, Raw.hasTag_relocate]
    by_cases htag : item.hasTag "@tstring_content"
    · rw [if_pos htag, if_pos htag]
      refine mergeFrom_images h (item :: run) items (fun x hx => ?_) hrest
      rcases List.mem_cons.1 hx with rfl | hx
      · exact ⟨htag, hitem⟩
      · exact hrun x hx
    · rw [if_neg htag, if_neg htag]
      -- The run ends here, and a new one starts behind this item.
      refine hjoined.andThen fun rs rs' hrs => ?_
      obtain ⟨xs, hxs, rfl, rfl⟩ := hrs
      have hafter := mergeFrom_images h [] items (by simp) hrest
      refine hafter.andThen fun rs rs' hrs => ?_
      obtain ⟨ys, hys, rfl, rfl⟩ := hrs
      refine parallel_pure ⟨xs ++ item :: ys, fun x hx => ?_, ?_, ?_⟩
      · rcases List.mem_append.1 hx with hx | hx
        · exact hxs x hx
        · rcases List.mem_cons.1 hx with rfl | hx
          · exact hitem
          · exact hys x hx
      · rw [List.map_append, List.map_cons]
        rfl
      · rw [List.map_append, List.map_cons]
        rfl

end Merging

section Parts

variable {t t' : Tree} {ts ts' : List Tree}

/-- Parts are told apart by tags, which are the same. -/
theorem parallel_partsOf (h : c.Agree t t') : c.TreeLists (partsOf t) (partsOf t') := by
  cases h with
  | leaf _ => exact parallel_throw _
  | block _ _ _ _ _ => exact parallel_pure .nil
  | node hmark hkept hts =>
    have hagree : c.Agree _ _ := .node hmark hkept hts
    unfold partsOf
    refine (parallel_isTagged (by decide) hagree).andThen fun b _ hb => ?_
    -- Both trees have the same tag, so both tests answer alike.
    subst hb
    split
    · exact parallel_pure hts
    · refine (parallel_isTagged (by decide) hagree).andThen fun b _ hb => ?_
      subst hb
      split
      · exact parallel_pure (.single hagree)
      · exact parallel_pure .nil

theorem Visited.literalParts (h : c.Visited Q) (hfs : fs.Within Q) :
    c.TreeLists (literalParts lower (fs.map c.first)) (literalParts lower (fs.map c.second)) := by
  unfold LowerM.literalParts mergeContent
  refine (mergeFrom_images h [] fs (by simp) hfs).andThen fun rs rs' hrs => ?_
  obtain ⟨xs, hxs, rfl, rfl⟩ := hrs
  refine (h.mapM_fields hxs).andThen fun ts ts' hts => ?_
  refine (Parallel.mapM hts fun _ _ ht => parallel_partsOf ht).map fun parts parts' hparts => ?_
  exact List.rel_flatten hparts

/-- A lone text stands for the string on both sides or on neither. -/
theorem Visited.lowerString (h : c.Visited Q) (hfs : fs.Within Q) :
    c.Trees (lowerString lower (fs.map c.first)) (lowerString lower (fs.map c.second)) := by
  unfold LowerM.lowerString
  refine (h.literalParts hfs).andThen fun ts ts' hts => ?_
  match hts with
  | .nil => exact parallel_pure (agree_bare (by decide) (.single (agree_leaf _)))
  | .cons ht .nil =>
    refine (parallel_isTagged (by decide) ht).andThen fun b _ hb => ?_
    subst hb
    split
    · exact parallel_pure ht
    · exact parallel_pure (agree_bare (by decide) (.single ht))
  | .cons ht (.cons ht' hrest) =>
    exact parallel_pure (agree_bare (by decide) (.cons ht (.cons ht' hrest)))

theorem Visited.lowerParts (h : c.Visited Q) (hfs : fs.Within Q) {tag : String}
    (htag : tag ∉ lookedInto) :
    c.Trees (lowerParts tag lower (fs.map c.first)) (lowerParts tag lower (fs.map c.second)) :=
  (h.literalParts hfs).map fun _ _ hts => agree_bare htag hts

/-- Lines do not matter for the number of statements. -/
theorem hasSeveral_relocate {line : Bool → Raw → Raw} (r : Raw) :
    hasSeveral (Raw.relocate line r) = hasSeveral r := by
  by_cases htag : r.hasTag "stmts"
  · obtain ⟨fs, rfl⟩ := Raw.eq_of_hasTag htag
    rw [Raw.relocate_node, show Raw.positionField? "stmts" = none from rfl, Raw.relocateItems_none]
    match fs with
    | [] => rfl
    | [_] => rfl
    | _ :: _ :: _ => rfl
  · have hfalse : ∀ {r : Raw}, r.hasTag "stmts" = false → hasSeveral r = false := by
      intro r hr
      unfold hasSeveral
      split
      · cases hr
      · rfl
    -- Without the tag `stmts` nothing counts as several, whatever the fields hold.
    rw [hfalse (by rw [Raw.hasTag_relocate]; simpa using htag), hfalse (by simpa using htag)]

/-- What the statements turned into has the same tag on both sides. -/
theorem Visited.lowerEmbedded (h : c.Visited Q) (hfs : fs.Within Q) :
    c.Trees (lowerEmbedded lower (fs.map c.first)) (lowerEmbedded lower (fs.map c.second)) := by
  unfold LowerM.lowerEmbedded
  dsimp only
  rw [get_first, get_second]
  refine (h.visitBody (h.get hfs 0)).andThen fun t t' ht => ?_
  rw [first, second, hasSeveral_relocate, hasSeveral_relocate]
  split
  · rw [ht.of_null]
    exact parallel_pure (agree_bare (by decide) (.single (agree_bare (by decide) .nil)))
  · obtain ⟨mark', ts', rfl, hmark, hkept, hts⟩ := ht.node_of_tag (by decide)
    split
    · exact parallel_pure (agree_bare (by decide) (.single (agree_bare (by decide) hts)))
    · exact parallel_pure (agree_bare (by decide) (.single (agree_bare (by decide) (.single ht))))
  · -- What is neither null nor a `begin` in one tree is neither in the other.
    rename_i hnull hbegin
    split
    · exact absurd ht.to_null hnull
    · exact absurd rfl (ht.ne_of_tag (by decide) hbegin _ _)
    · exact parallel_pure (agree_bare (by decide) (.single (agree_bare (by decide) (.single ht))))

theorem Visited.lowerEmbeddedVariable (h : c.Visited Q) (hfs : fs.Within Q) :
    c.Trees (lowerEmbeddedVariable lower (fs.map c.first))
      (lowerEmbeddedVariable lower (fs.map c.second)) :=
  (h.field hfs 0).map fun _ _ ht =>
    agree_bare (by decide) (.single (agree_bare (by decide) (.single ht)))

/-- The texts of the elements of a value, if it has elements. -/
def elementTexts (r : Raw) : Option (List (Option String)) :=
  r.elements?.map (·.map Raw.text?)

/-- Lines are no texts. -/
theorem elementTexts_relocate {line : Bool → Raw → Raw} (r : Raw) :
    elementTexts (Raw.relocate line r) = elementTexts r := by
  cases r with
  | atom a => rw [Raw.relocate_atom]
  | list items =>
    rw [Raw.relocate]
    refine congrArg some (List.ext_getElem? fun i => ?_)
    rw [List.getElem?_map, List.getElem?_map, Raw.getElem?_relocateItems, Option.map_map]
    refine congrFun (congrArg Option.map (funext fun r => ?_)) _
    simp only [Function.comp_apply]
    split
    · rw [Raw.text?_reline, Raw.text?_relocate]
    · rw [Raw.text?_relocate]

/-- Lines are no texts. -/
theorem elementTexts_reline {line : Bool → Raw → Raw} (hline : Raw.Relines line) (here : Bool) :
    (r : Raw) → elementTexts (r.reline (line here)) = elementTexts r
  | .atom _ => rfl
  | .list [] => rfl
  | .list (l :: rest) => by
    rw [Raw.reline]
    simp only [elementTexts, Raw.elements?, Option.map_some, List.map_cons, hline.text?]

/-- The flags of a regular expression depend on texts alone. -/
theorem regexpFlags_eq (ending : Raw) : regexpFlags ending = do
    let texts ← require (← require ((ending.item? 1).map elementTexts))
    let marks ← texts.mapM require
    let flags := marks.filter fun m => "a" ≤ m && m ≤ "z"
    return flags.eraseDups.mergeSort fun a b => decide (a ≤ b) := by
  unfold regexpFlags
  cases ending.item? 1 with
  | none => rfl
  | some x =>
    cases hx : x.elements? with
    | none =>
      simp only [require, Option.map_some, pure_bind, elementTexts, hx, Option.map_none]
      rfl
    | some items => simp [require, elementTexts, hx, List.mapM_map, Function.comp_def]

/-- Flags are texts. -/
theorem regexpFlags_relocate {line : Bool → Raw → Raw} (hline : Raw.Relines line) (r : Raw) :
    regexpFlags (Raw.relocate line r) = regexpFlags r := by
  have hitem : ((Raw.relocate line r).item? 1).map elementTexts =
      (r.item? 1).map elementTexts := by
    -- The flags are read from the texts of the second field, which has texts and no line.
    cases r with
    | atom a => rw [Raw.relocate_atom]
    | list items =>
      rw [Raw.relocate]
      simp only [Raw.item?, Raw.elements?, Option.bind_some, Raw.getElem?_relocateItems,
        Option.map_map]
      refine congrFun (congrArg Option.map (funext fun r => ?_)) _
      simp only [Function.comp_apply]
      split
      · rw [elementTexts_reline hline, elementTexts_relocate]
      · rw [elementTexts_relocate]
  rw [regexpFlags_eq, regexpFlags_eq, hitem]

theorem steady_regexpFlags (r : Raw) : Steady (regexpFlags r) := by
  unfold regexpFlags
  refine (steady_require _).bind fun text => (steady_require _).bind fun marks => ?_
  exact (Steady.mapM (fun _ => steady_require _) marks).bind fun _ => steady_pure _

/-- The parts of a regular expression, with flags that are the same. -/
theorem Visited.lowerRegexp (h : c.Visited Q) (hfs : fs.Within Q) :
    c.Trees (lowerRegexp lower (fs.map c.first)) (lowerRegexp lower (fs.map c.second)) := by
  unfold LowerM.lowerRegexp
  refine (h.field hfs 0).andThen fun t t' ht => ?_
  have hflags : regexpFlags (Fields.get (fs.map c.first) 1) =
      regexpFlags (Fields.get (fs.map c.second) 1) := by
    rw [get_first, get_second, first, second, regexpFlags_relocate c.relines_firstLine,
      regexpFlags_relocate c.relines_secondLine]
  rw [hflags]
  refine (steady_regexpFlags _).parallel.andThen fun flags _ hf => ?_
  subst hf
  exact parallel_addChildren ht (.single (agree_bare (by decide)
    (List.forall₂_same.2 fun u hu => by
      obtain ⟨flag, -, rfl⟩ := List.mem_map.1 hu
      exact agree_leaf _)))

end Parts

section Symbols

/-- A name is taken from a token, whose text is no line. -/
theorem Visited.symbolContent (h : c.Visited Q) (hr : Q r) (hname : c.Scanned r) :
    c.Trees (symbolContent lower (c.first r)) (symbolContent lower (c.second r)) := by
  unfold LowerM.symbolContent
  rw [hasTag_image]
  split
  · rename_i htag
    rw [first, Raw.hasTag_relocate] at htag
    obtain ⟨items, rfl⟩ := Raw.eq_of_hasTag htag
    -- A content token is lowered as a literal's run; its first child is the name.
    obtain ⟨hfirst, hsecond, hplain, hplace⟩ := content_token h hr
    rw [hfirst, hsecond, lower_node, lower_node]
    refine Parallel.andThen (parallel_lowerContent hplain hplace) fun t t' ht => ?_
    rw [firstChild_eq, firstChild_eq]
    refine (parallel_require ht.display).map fun n n' hn => ?_
    rw [hn]
    exact agree_placed ht.agree.line? (by decide) (.single (agree_leaf _))
  · rw [hname.nameOf]
    exact parallel_named (.inr (by decide)) hname.line? (steady_nameOf _)

/-- What is read as a name off a lowered field. -/
theorem Spells.legible {interest : Tree → Prop} (h : c.Spells interest r) {t t' n n' : Tree}
    (hint : interest t) (hint' : interest t') (ht : Returns (lower (c.first r)) t)
    (ht' : Returns (lower (c.second r)) t') (hn : t.children?.bind List.head? = some n)
    (hn' : t'.children?.bind List.head? = some n') (hagree : c.Agree n n') : c.Legible n := by
  intro hc
  rcases h hc with h | h
  · exact h t n hint ht hn
  · exact hagree.isName (h t' n' hint' ht' hn')

/-- One text becomes the name of a symbol, which must be none of a line. -/
theorem Visited.quotedSymbolContent (h : c.Visited Q) (hr : Q r)
    (hspells : c.Spells (·.hasTag "str") r) (hwhole : c.Whole r) :
    c.Trees (quotedSymbolContent lower (c.first r)) (quotedSymbolContent lower (c.second r)) := by
  unfold LowerM.quotedSymbolContent
  refine (h.visit hr).bind fun t t' ht hret hret' => ?_
  have hagree := ht
  cases ht with
  | leaf _ => exact parallel_throw _
  | block hc _ _ _ _ =>
    subst hc
    rw [first_eq_self (by intro k hk; cases hk)] at hret
    -- A literal is no block, so the partner is an ordinary node.
    cases hwhole _ hret
  | @node tag mark mark' ts ts' hmark hkept hts =>
    simp only [isTagged, pure_bind]
    have hsame : Tree.hasTag "str" (.node tag mark' ts') = Tree.hasTag "str" (.node tag mark ts) :=
      (hagree.hasTag "str" (by decide)).symm
    rw [hsame]
    split
    · rename_i htag
      rw [firstChild_eq, firstChild_eq]
      refine (parallel_require hagree.firstChild).bind fun n n' hn hnret hnret' => ?_
      have hlegible := hspells.legible htag (hsame.trans htag) hret hret' (returns_require hnret)
        (returns_require hnret') hn
      rw [hn.text?, hn.display hlegible]
      split
      · exact parallel_pure (agree_bare (by decide) .nil)
      · exact parallel_pure (agree_placed hagree.line? (by decide) (.single (agree_leaf _)))
    · exact parallel_pure (agree_bare (by decide) hts)

/-- A symbol, or a name in its place. -/
theorem Visited.lowerSymbolLiteral (h : c.Visited Q) (hfs : fs.Within Q)
    (hname : (fs.get 0).hasTag "symbol" = false → c.Scanned (fs.get 0)) :
    c.Trees (lowerSymbolLiteral lower (fs.map c.first))
      (lowerSymbolLiteral lower (fs.map c.second)) := by
  unfold LowerM.lowerSymbolLiteral
  dsimp only
  rw [get_first, get_second, hasTag_image]
  split
  · exact h.visit (h.get hfs 0)
  · rename_i htag
    rw [first, Raw.hasTag_relocate] at htag
    exact h.symbolContent (h.get hfs 0) (hname (by simpa using htag))

end Symbols

section Patterns

variable {t t' : Tree} {ts ts' : List Tree}

/-- Texts are the same on both sides. -/
theorem parallel_allText {ts ts' : List Tree} (h : c.AgreeAll ts ts') :
    c.Parallel Eq (allText ts) (allText ts') := by
  induction h with
  | nil => exact parallel_pure rfl
  | cons h hs ih =>
    unfold allText
    refine (parallel_isTagged (by decide) h).andThen fun b _ hb => ?_
    subst hb
    split
    · exact ih
    · exact parallel_pure rfl

/-- The texts of the parts are found on both sides or on neither. -/
theorem parallel_staticTexts : (ts ts' : List Tree) → c.AgreeAll ts ts' →
    c.Parallel (Option.Rel c.AgreeAll) (staticTexts ts) (staticTexts ts')
  | [], [], .nil => parallel_pure (.some .nil)
  | t :: ts, t' :: ts', .cons h hs => by
    have hrest : ∀ texts texts' : List Tree, c.AgreeAll texts texts' →
        c.Parallel (Option.Rel c.AgreeAll) (do return (← staticTexts ts).map (texts ++ ·))
          (do return (← staticTexts ts').map (texts' ++ ·)) := by
      intro texts texts' htexts
      refine (parallel_staticTexts ts ts' hs).map fun o o' ho => ?_
      cases ho with
      | none => exact .none
      | some ho => exact .some (htexts.append ho)
    unfold staticTexts
    simp only [pure_bind]
    refine (parallel_isTagged (by decide) h).andThen fun isText _ ht => ?_
    refine (parallel_isTagged (by decide) h).bind fun isBegin _ hb hbegin _ => ?_
    subst ht hb
    split
    · refine (parallel_firstChild h).andThen fun text text' htext => ?_
      exact hrest [text] [text'] (.single htext)
    · split
      · rename_i htag
        subst htag
        -- An interpolation is tagged `begin`, which no numbered block is.
        have hnumbered : t.hasTag "numblock" = false :=
          Tree.hasTag_of_ne (returns_isTagged hbegin) (by decide)
        refine (parallel_childrenOf h fun _ => hnumbered).andThen fun us us' hus => ?_
        refine (parallel_allText hus).andThen fun all _ ha => ?_
        subst ha
        split
        · refine (Parallel.mapM hus fun _ _ hu => parallel_firstChild hu).andThen ?_
          exact fun texts texts' htexts => hrest texts texts' htexts
        · exact parallel_pure .none
      · exact parallel_pure .none

/-- A source of a regular expression is the same on both sides. -/
theorem parallel_staticSource (h : c.Agree t t') :
    c.Parallel Eq (staticSource? t) (staticSource? t') := by
  unfold staticSource?
  split
  · obtain ⟨mark', ts', rfl, -, -, hts⟩ := h.node_of_tag (by decide)
    refine (parallel_staticTexts _ _ hts.dropLast).andThen fun o o' ho => ?_
    cases ho with
    | none => exact parallel_pure rfl
    | some ho =>
      -- Each of the texts was found on both sides, so the same one is read.
      have htext : ∀ u u' : Tree, c.Agree u u' →
          c.Parallel Eq (require u.text?) (require u'.text?) := fun u u' hu => by
        rw [hu.text?]
        exact (steady_require _).parallel
      refine (Parallel.mapM ho htext).map fun texts texts' ht => ?_
      rw [List.forall₂_eq_eq_eq] at ht
      rw [ht]
  · -- A tree that agrees with a regular expression is one itself.
    rename_i hregexp
    split
    · exact absurd rfl (h.ne_of_tag (by decide) hregexp _ _)
    · exact parallel_pure rfl

/-- The same names are bound on both sides. -/
theorem parallel_lowerMatch {right right' : Tree} (h : c.Agree t t') (hr : c.Agree right right') :
    c.Trees (lowerMatch t right) (lowerMatch t' right') := by
  unfold lowerMatch
  refine (parallel_staticSource h).andThen fun source _ hs => ?_
  subst hs
  split
  · exact parallel_pure (agree_bare (by decide) (.triple h (agree_leaf _) hr))
  · exact (parallel_bindLocals _).andThen fun _ _ _ =>
      parallel_pure (agree_bare (by decide) (.pair h hr))

end Patterns

end Change

end RubyTree
