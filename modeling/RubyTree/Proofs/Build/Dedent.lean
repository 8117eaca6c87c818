import RubyTree.Proofs.Build.Shows
import RubyTree.Proofs.Build.Step
import RubyTree.Proofs.Literal.Columns
import RubyTree.Proofs.Literal.HeredocLines

/-!
# The Builder Dedents a Heredoc

The builder goes through the items of a heredoc and puts a new leaf into the place of
each text that it dedents, while it reads the same list. The list changes and nothing
else does: a leaf that is replaced stays as it was for whoever still holds it. So the
items that are left to visit show what they showed before, whatever was done to the
items before them, and the loop does what dedenting the parts one by one does.

## Main definitions

* `OnlyList`: Between two builders only one list has changed, and there may be new ones.

## Theorems

* `OnlyList.shows`: What is not made of the list is shown as before.
* `runIn_dedentItems`: The loop over the items.
* `dedented_by_lines`: A heredoc is dedented line by line.
-/

namespace RubyTree

open Arena (Shows Stands)
open HeredocPart

/-- No list but one has changed, though there may be new lists, and no side table. -/
structure OnlyList (list : Item) (b b' : Builder) : Prop where
  lists : ∀ v items, v ≠ list → b.arena.items? v = some items → b'.arena.items? v = some items
  tables : b' = { b with arena := b'.arena }

namespace OnlyList

variable {list v : Item} {id : Nat} {b b' b'' : Builder} {r : Raw}

theorem refl (list : Item) (b : Builder) : OnlyList list b b :=
  ⟨fun _ _ _ h => h, rfl⟩

theorem trans (h : OnlyList list b b') (h' : OnlyList list b' b'') : OnlyList list b b'' where
  lists v items hv hitems := h'.lists v items hv (h.lists v items hv hitems)
  tables := by rw [h'.tables, h.tables]

theorem push (b : Builder) (items : List Item) : OnlyList list b (b.push items) :=
  ⟨fun _ _ _ h => Builder.items?_push h items, rfl⟩

theorem setItems (b : Builder) (items : List Item) :
    OnlyList list b (b.setItems list items) where
  lists _ _ hv h := (Builder.items?_setItems_ne hv.symm items).trans h
  tables := by cases list <;> rfl

/-- What is not made of the list is shown as before. -/
theorem shows (h : OnlyList (.list id) b b') (hr : b.arena.Shows (· ≠ id) r v) :
    b'.arena.Shows (· ≠ id) r v :=
  hr.transfer fun id' items hid hstored =>
    ⟨hid, h.lists (.list id') items (fun heq => hid (Item.list.inj heq)) hstored⟩

end OnlyList

namespace HeredocPart

theorem tag?_text (content : String) (more : List Raw) :
    (text content more).raw.tag? = some "@tstring_content" :=
  rfl

theorem tag?_embedded {r : Raw} (other : r.hasTag "@tstring_content" = false) :
    (embedded r other).raw.tag? ≠ some "@tstring_content" := by
  show r.tag? ≠ _
  simpa [Raw.hasTag] using other

end HeredocPart

/-- A text without its indentation is a text again. -/
theorem dedent?_str (content : String) (width : Int) :
    (Atom.str content).dedent? (some (.int width)) =
      some (.str (String.ofList (RubyTree.dedent width content.toList))) := by
  show (dedentElements? some (some (.int width)) content.toList).bind _ = _
  rw [dedentElements?_int]
  rfl

/-- The leaf of a text, taken apart. -/
theorem items_of_shows_text {a : Arena} {P : Nat → Prop} {content : String} {more : List Raw}
    {v : Item} (h : a.Shows P (text content more).raw v) :
    ∃ vs, a.items? v = some (.str "@tstring_content" :: .str content :: vs) ∧
      List.Forall₂ (a.Shows P) more vs := by
  cases h with
  | list mem stored parts =>
    cases parts with
    | cons htag parts =>
      cases htag with
      | atom _ =>
        cases parts with
        | cons hcontent hmore =>
          cases hcontent with
          | atom _ => exact ⟨_, stored, hmore⟩

section Loop

variable {id : Nat} {width : Int}

/-- The leaf of a text that starts a line is replaced by one that is dedented, before
    the loop goes on. -/
theorem runIn_replaceLeaf {b : Builder} {done items vs : List Item} {v : Item} {content : String}
    (hlist : b.arena.items? (.list id) = some (done ++ v :: items))
    (hleaf : b.arena.items? v = some (.str "@tstring_content" :: .str content :: vs))
    (next : BuildM Unit) :
    (do
      let left ← Effect.withoutIndent (.int width) (.str content)
      let piece ← BuildM.newList ((← BuildM.itemsOf v).set 1 left)
      BuildM.setItems (.list id) ((← BuildM.itemsOf (.list id)).set done.length piece)
      next).runIn b =
    next.runIn ((b.push (.str "@tstring_content" ::
        .str (String.ofList (RubyTree.dedent width content.toList)) :: vs)).setItems
      (.list id) (done ++ .list b.arena.lists.size :: items)) := by
  have hleft : Effect.withoutIndent (.int width) (.str content) =
      pure (.str (String.ofList (RubyTree.dedent width content.toList))) := by
    show (do return Item.atom (← BuildM.require _) : BuildM Item) = _
    rw [show (Item.int width).atom? = some (.int width) from rfl, dedent?_str]
    rfl
  rw [hleft, pure_bind, BuildM.runIn_bind, BuildM.runIn_itemsOf, hleaf]
  simp only [Option.map_some, Option.getD_some, List.set_cons_succ, List.set_cons_zero]
  rw [BuildM.runIn_bind, BuildM.runIn_newList]
  dsimp only
  -- The new leaf is a list of its own, so the heredoc still has the old one in its place.
  rw [BuildM.runIn_bind, BuildM.runIn_itemsOf, Builder.items?_push hlist]
  simp only [Option.map_some, Option.getD_some]
  rw [List.set_append_right _ _ (Nat.le_refl _), Nat.sub_self, List.set_cons_zero]
  rfl

/-- The loop does to the items what is done to the parts. -/
theorem runIn_dedentItems {b : Builder} {done items : List Item} {parts : List HeredocPart}
    {lineStart : Bool} (hlist : b.arena.items? (.list id) = some (done ++ items))
    (hparts : List.Forall₂ (b.arena.Shows (· ≠ id)) (parts.map raw) items) :
    ∃ b' items',
      (Effect.dedentItems (.list id) (.int width) done.length lineStart items).runIn b =
        (.ok (), b') ∧
      b'.arena.items? (.list id) = some (done ++ items') ∧
      List.Forall₂ (b'.arena.Shows (· ≠ id)) ((dedentParts width lineStart parts).map raw) items' ∧
      OnlyList (.list id) b b' := by
  induction parts generalizing b done items lineStart with
  | nil =>
    cases hparts
    exact ⟨b, [], rfl, hlist, .nil, .refl _ b⟩
  | cons part parts ih =>
    obtain ⟨v, items, hv, hitems, rfl⟩ := List.forall₂_cons_left_iff.1 hparts
    -- The rest of the loop, once this item has become `piece`.
    have hrest : ∀ (middle : Builder) (piece : Item) (r : Raw) (flag : Bool),
        middle.arena.items? (.list id) = some (done ++ piece :: items) →
        middle.arena.Shows (· ≠ id) r piece → OnlyList (.list id) b middle →
        ∃ b' items',
          (Effect.dedentItems (.list id) (.int width) (done.length + 1) flag items).runIn middle =
            (.ok (), b') ∧
          b'.arena.items? (.list id) = some (done ++ items') ∧
          List.Forall₂ (b'.arena.Shows (· ≠ id))
            (r :: (dedentParts width flag parts).map raw) items' ∧
          OnlyList (.list id) b b' := by
      intro middle piece r flag hmiddle hpiece honly
      rw [List.append_cons] at hmiddle
      obtain ⟨b', items', hrun, hleft, hshown, honly'⟩ := @ih middle (done ++ [piece]) items flag
        hmiddle (hitems.imp fun _ _ h => honly.shows h)
      rw [List.length_append, List.length_singleton] at hrun
      refine ⟨b', piece :: items', hrun, ?_, .cons (honly'.shows hpiece) hshown, honly.trans honly'⟩
      rw [hleft, ← List.append_cons]
    have htag : b.arena.tag? v = part.raw.tag? := hv.stands.tag?_eq
    unfold Effect.dedentItems
    rw [BuildM.runIn_bind, BuildM.runIn_tagOf, htag]
    dsimp only
    cases part with
    | embedded r other =>
      rw [if_pos (by simpa using tag?_embedded other)]
      exact hrest b v r lineStart hlist hv (.refl _ b)
    | text content more =>
      obtain ⟨vs, hleaf, hmore⟩ := items_of_shows_text hv
      have hcontent : b.arena.item? v 1 = some (.str content) := by
        cases v with
        | atom x => cases hleaf
        | list i => exact (congrArg (Option.bind · _) hleaf).trans rfl
      rw [tag?_text, if_neg (by simp), BuildM.runIn_bind, BuildM.runIn_itemAt, hcontent]
      simp only [Option.map_some, Option.getD_some]
      cases lineStart with
      | false => exact hrest b v _ _ hlist hv (.refl _ b)
      | true =>
        have hsize : b.arena.lists.size ≠ id := by
          obtain ⟨hlt, -⟩ := Array.getElem?_eq_some_iff.1 hlist
          exact (Nat.ne_of_lt hlt).symm
        rw [if_pos rfl, runIn_replaceLeaf hlist hleaf]
        generalize hpushed : b.push _ = pushed
        have honly : OnlyList (.list id) b (pushed.setItems (.list id)
            (done ++ .list b.arena.lists.size :: items)) :=
          (hpushed ▸ OnlyList.push b _).trans (.setItems pushed _)
        refine hrest _ (.list b.arena.lists.size)
          (text (String.ofList (RubyTree.dedent width content.toList)) more).raw _
          (Builder.items?_setItems_self (hpushed ▸ Builder.items?_push hlist _) _) ?_ honly
        -- The new leaf is not the list, and the rest of it is that of the old one.
        refine .list hsize ?_
          (.cons (.atom _) (.cons (.atom _) (hmore.imp fun _ _ h => honly.shows h)))
        refine (Builder.items?_setItems_ne (fun h => hsize (Item.list.inj h).symm) _).trans ?_
        exact hpushed ▸ Builder.items?_push_self b _

end Loop

/-- Dedenting a heredoc item by item dedents it line by line. The heredoc stays the list
    it was, with as many items, and of these only texts change. The texts are those made
    of characters: a text that halves of characters stand in (`Atom.torn`) is no part of
    such a heredoc. -/
theorem dedented_by_lines {b : Builder} {content : Item} {tag : String}
    {parts : List HeredocPart} (hcontent : b.arena.freeze? content =
      some (.list (.str tag :: parts.map raw))) (hcut : WellCut parts) (width : Int) :
    ∃ b' parts',
      (BuildM.build "heredoc_dedent" [content, .int width]).runIn b = (.ok content, b') ∧
      b'.arena.freeze? content = some (.list (.str tag :: parts'.map raw)) ∧
      List.Forall₂ SameButText parts parts' ∧
      flowOf parts' = dedentLines width (flowOf parts) ∧
      OnlyList content b b' := by
  cases Arena.shows_of_freezeAt hcontent with
  | @list id items _ mem stored hshown =>
    obtain ⟨items, hstored, hall⟩ := (Stands.list stored hshown).parts_avoid
    obtain ⟨_, items, htag, hitems, rfl⟩ := List.forall₂_cons_left_iff.1 hall
    cases htag with
    | atom _ =>
      have hparts : List.Forall₂ (b.arena.Shows (· ≠ id)) (parts.map raw) items :=
        hitems.imp fun _ _ h => h.mono fun _ h => h.2
      obtain ⟨b', items', hrun, hlist, hshown', honly⟩ :=
        @runIn_dedentItems id width b [.str tag] items parts true hstored hparts
      refine ⟨b', dedentParts width true parts, ?_, ?_, sameButText_dedentParts _ _ _,
        flowOf_dedentParts hcut width, honly⟩
      · show (Effect.dedent (.list id) (.int width)).runIn b = _
        -- The loop starts with the tag, which is no text.
        have htag : Effect.dedentItems (.list id) (.int width) 0 true (.str tag :: items) =
            Effect.dedentItems (.list id) (.int width) 1 true items := by
          rw [Effect.dedentItems]
          rfl
        unfold Effect.dedent
        rw [if_pos (by rfl), BuildM.runIn_bind, BuildM.runIn_itemsOf]
        rw [show b.arena.items? (.list id) = some (.str tag :: items) from hstored]
        simp only [Option.map_some, Option.getD_some]
        rw [BuildM.runIn_bind, htag, show (1 : Nat) = [Item.str tag].length from rfl, hrun]
        rfl
      · exact Arena.freeze?_of_stands (P := (· ≠ id)) (.list hlist (.cons (.atom _) hshown'))

/-- A heredoc of three lines, the second of which goes on after an interpolation. -/
def squigglyParts : List HeredocPart :=
  [ .text "    a\n" [.list [.int 2, .int 0], .str "<<~EOS"],
    .text "    b " [.list [.int 3, .int 0], .str "<<~EOS"],
    .embedded (.list [.str "string_embexpr", .list [.str "stmts"]]) rfl,
    .text "  c\n" [.list [.int 3, .int 9], .str "<<~EOS"],
    .text "    d\n" [.list [.int 4, .int 0], .str "<<~EOS"] ]

/-- The lists of this heredoc; the last one is its content. -/
def squigglyBuilder : Builder where
  filename := "(string)"
  line := 4
  arena.lists := #[
    [.int 2, .int 0], [.str "@tstring_content", .str "    a\n", .list 0, .str "<<~EOS"],
    [.int 3, .int 0], [.str "@tstring_content", .str "    b ", .list 2, .str "<<~EOS"],
    [.str "stmts"], [.str "string_embexpr", .list 4],
    [.int 3, .int 9], [.str "@tstring_content", .str "  c\n", .list 6, .str "<<~EOS"],
    [.int 4, .int 0], [.str "@tstring_content", .str "    d\n", .list 8, .str "<<~EOS"],
    [.str "string_content", .list 1, .list 3, .list 5, .list 7, .list 9] ]

theorem wellCut_squigglyParts : WellCut squigglyParts where
  breaksLast := by decide
  starts := by decide
  adjacent := by decide

/-- The text after the interpolation keeps its blanks. -/
theorem dedented_by_lines_squiggly :
    squigglyBuilder.arena.freeze? (.list 10) =
      some (.list (.str "string_content" :: squigglyParts.map raw)) ∧
    WellCut squigglyParts ∧
    ∃ b' parts',
      (BuildM.build "heredoc_dedent" [.list 10, .int 2]).runIn squigglyBuilder =
        (.ok (.list 10), b') ∧
      b'.arena.freeze? (.list 10) = some (.list (.str "string_content" :: parts'.map raw)) ∧
      List.Forall₂ SameButText squigglyParts parts' ∧
      flowOf parts' = "  a\n  b ".toList.map .inl ++
        [.inr (.list [.str "string_embexpr", .list [.str "stmts"]])] ++
        "  c\n  d\n".toList.map .inl := by
  have hfreeze : squigglyBuilder.arena.freeze? (.list 10) =
      some (.list (.str "string_content" :: squigglyParts.map raw)) := rfl
  obtain ⟨b', parts', hrun, hleft, hsame, hflow, -⟩ :=
    dedented_by_lines hfreeze wellCut_squigglyParts 2
  exact ⟨hfreeze, wellCut_squigglyParts, b', parts', hrun, hleft, hsame, hflow.trans rfl⟩

end RubyTree
