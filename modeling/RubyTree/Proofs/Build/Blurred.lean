import RubyTree.Proofs.Build.Step

/-!
# Keyword Texts Out of Sight

A keyword token that is only a name could as well be any other keyword. To say
that nothing depends on which one it is, its text is blurred: every list that
starts as a keyword token has its text replaced by the empty one. Two builders
are alike if they are equal once blurred, and what the last tokens were is left
out of sight too.

Blurring goes through everything that events read from lists but the texts
themselves: tags, the number of items, the items at other places, and whether a
key is written as a label. A node that is no keyword token has all its items in
sight.

## Main definitions

* `blurItems`, `Arena.blurred`: Without the texts of keyword tokens.
* `Builder.Alike`: Builders that are equal once their lists are blurred.

## Theorems

* `Arena.tag?_blurred`, `Arena.isEmpty_blurred`, `Arena.item?_blurred`: What can
  still be read.
* `Arena.items?_of_tag`: The items of a node that is no keyword token.
* `Arena.isLabel?_blurred`: Whether a key is written as a label.
-/

namespace RubyTree

/-- What stands second in a list, blurred if the first item makes the list a
    keyword token. -/
def blurText : Atom → Atom → Atom
  | .str "@kw", .str _ => .str ""
  | _, text => text

/-- The items of a list without the text of a keyword token. -/
def blurItems : List Item → List Item
  | .atom tag :: .atom text :: rest => .atom tag :: .atom (blurText tag text) :: rest
  | items => items

/-- A text that is blurred is that of a keyword token. -/
theorem blurText_eq (tag text : Atom) :
    blurText tag text = text ∨
      ∃ word, tag = .str "@kw" ∧ text = .str word ∧ blurText tag text = .str "" := by
  unfold blurText
  split
  · exact .inr ⟨_, rfl, rfl, rfl⟩
  · exact .inl rfl

/-- Items that are blurred are those of a keyword token. -/
theorem blurItems_eq (items : List Item) :
    blurItems items = items ∨
      ∃ word rest, items = .str "@kw" :: .str word :: rest ∧
        blurItems items = .str "@kw" :: .str "" :: rest := by
  unfold blurItems
  split
  · rename_i tag text rest
    rcases blurText_eq tag text with h | ⟨word, rfl, rfl, h⟩
    · exact .inl (by rw [h])
    · exact .inr ⟨word, rest, rfl, by rw [h]⟩
  · exact .inl rfl

/-- Lists that cannot be told apart are equal, or keyword tokens with different
    texts. -/
theorem blurItems_eq_iff {xs ys : List Item} :
    blurItems xs = blurItems ys ↔
      xs = ys ∨ ∃ word word' rest, xs = .str "@kw" :: .str word :: rest ∧
        ys = .str "@kw" :: .str word' :: rest := by
  constructor
  · intro h
    -- A blurred list is the list itself, or has an empty text for the word.
    rcases blurItems_eq xs with hx | ⟨word, rest, rfl, hx⟩ <;>
      rcases blurItems_eq ys with hy | ⟨word', rest', rfl, hy⟩ <;> rw [hx, hy] at h
    · exact .inl h
    · exact .inr ⟨"", word', rest', h, rfl⟩
    · exact .inr ⟨word, "", rest, rfl, h.symm⟩
    · injection h with _ h
      injection h with _ h
      exact .inr ⟨word, word', rest, rfl, by rw [h]⟩
  · rintro (rfl | ⟨word, word', rest, rfl, rfl⟩) <;> rfl

theorem blurItems_append {xs ys : List Item} (h : blurItems xs = blurItems ys) (x : Item) :
    blurItems (xs ++ [x]) = blurItems (ys ++ [x]) := by
  rcases blurItems_eq_iff.1 h with rfl | ⟨word, word', rest, rfl, rfl⟩ <;> rfl

/-- The text of a keyword token is an atom, so replacing an item that is a list
    leaves it alone. -/
theorem blurItems_set {xs ys : List Item} {i id : Nat} (h : blurItems xs = blurItems ys)
    (hi : xs[i]? = some (.list id)) (x : Item) :
    blurItems (xs.set i x) = blurItems (ys.set i x) := by
  rcases blurItems_eq_iff.1 h with rfl | ⟨word, word', rest, rfl, rfl⟩
  · rfl
  · match i, hi with
    | n + 2, _ => rfl

/-- Every item but the text of a keyword token is still in sight. -/
theorem getElem?_blurItems (items : List Item) {i : Nat} (hi : i ≠ 1) :
    (blurItems items)[i]? = items[i]? := by
  rcases blurItems_eq items with h | ⟨word, rest, rfl, h⟩ <;> rw [h]
  match i, hi with
  | 0, _ | n + 2, _ => rfl

theorem isEmpty_blurItems (items : List Item) : (blurItems items).isEmpty = items.isEmpty := by
  unfold blurItems
  split <;> rfl

/-- An element without a character is no blank, and nothing after it is one to
    remove. -/
theorem dedentFrom_of_none {α : Type} {char? : α → Option Char} {c : α} (h : char? c = none)
    (width : Width) (col : Nat) (cs : List α) :
    dedentFrom char? width col (c :: cs) = c :: cs := by
  rw [dedentFrom, h]
  simp

/-- A list that starts as a keyword token starts with no blank, so no indentation
    is taken from it. -/
theorem blurItems_dedentElements? {xs ys : List Item} (h : blurItems xs = blurItems ys)
    (width : Option Atom) :
    (dedentElements? (·.text?.bind Text.onlyChar?) width xs).map blurItems =
      (dedentElements? (·.text?.bind Text.onlyChar?) width ys).map blurItems := by
  rcases blurItems_eq_iff.1 h with rfl | ⟨word, word', rest, rfl, rfl⟩
  · rfl
  · -- The first item of a keyword token is no character, so nothing is cut off behind it.
    have hkeyword (word : String) : dedentElements? (·.text?.bind Text.onlyChar?) width
        (.str "@kw" :: .str word :: rest) =
          (width.bind (Width.ofAtom? (rest.length + 2))).map fun _ =>
            .str "@kw" :: .str word :: rest := by
      have hleft (w : Width) : dedentFrom (·.text?.bind Text.onlyChar?) w 0
          (.str "@kw" :: .str word :: rest) = Item.str "@kw" :: .str word :: rest :=
        dedentFrom_of_none (by decide) w 0 _
      cases width with
      | none => rfl
      | some a =>
        simp only [dedentElements?, hleft, Option.bind_eq_bind, Option.bind_some, List.length_cons]
        cases Width.ofAtom? (rest.length + 2) a <;> rfl
    rw [hkeyword, hkeyword, Option.map_map, Option.map_map]
    rfl

namespace Arena

/-- The lists without the texts of keyword tokens. -/
def blurred (a : Arena) : Arena :=
  { lists := a.lists.map blurItems }

@[simp] theorem size_blurred (a : Arena) : a.blurred.lists.size = a.lists.size :=
  Array.size_map ..

theorem blurred_new (a : Arena) (items : List Item) :
    (a.new items).2.blurred = (a.blurred.new (blurItems items)).2 := by
  simp only [new, blurred, Array.map_push]

theorem blurred_set (a : Arena) (v : Item) (items : List Item) :
    (a.set v items).blurred = a.blurred.set v (blurItems items) := by
  cases v with
  | atom a => rfl
  | list id => simp only [set, blurred, Array.map_setIfInBounds]

theorem items?_blurred (a : Arena) (v : Item) :
    a.blurred.items? v = (a.items? v).map blurItems := by
  cases v with
  | atom a => rfl
  | list id => simp only [items?, blurred, Array.getElem?_map]

theorem tag?_blurred (a : Arena) (v : Item) : a.blurred.tag? v = a.tag? v := by
  unfold tag?
  rw [items?_blurred]
  cases a.items? v with
  | none => rfl
  | some items =>
    rcases blurItems_eq items with h | ⟨word, rest, rfl, h⟩ <;> rw [Option.map_some, h]

theorem isEmpty_blurred (a : Arena) (v : Item) : a.blurred.isEmpty v = a.isEmpty v := by
  cases v with
  | atom a => rfl
  | list id =>
    simp only [isEmpty, items?_blurred]
    cases a.items? (.list id) with
    | none => rfl
    | some items => exact isEmpty_blurItems items

theorem item?_blurred (a : Arena) (v : Item) {i : Nat} (hi : i ≠ 1) :
    a.blurred.item? v i = a.item? v i := by
  cases v with
  | atom a => rfl
  | list id =>
    simp only [item?, items?_blurred, Option.bind_map]
    refine Option.bind_congr fun items _ => ?_
    exact getElem?_blurItems items hi

/-- A node that is no keyword token has all its items in sight. -/
theorem items?_blurred_of_tag {a : Arena} {v : Item} {tag : String} (h : a.tag? v = some tag)
    (htag : tag ≠ "@kw") : a.blurred.items? v = a.items? v := by
  rw [items?_blurred]
  cases hitems : a.items? v with
  | none => rfl
  | some items =>
    rcases blurItems_eq items with heq | ⟨word, rest, rfl, -⟩
    · rw [Option.map_some, heq]
    · rw [tag?, hitems] at h
      exact absurd (Option.some.inj h).symm htag

theorem item?_blurred_of_tag {a : Arena} {v : Item} {tag : String} (h : a.tag? v = some tag)
    (htag : tag ≠ "@kw") (i : Nat) : a.blurred.item? v i = a.item? v i := by
  cases v with
  | atom x => rfl
  | list id => rw [item?, item?, items?_blurred_of_tag h htag]

/-- The text of a keyword token is no piece of content. -/
theorem find?_pieces_blurred (a : Arena) (v : Item) :
    (a.blurred.pieces v).find? (a.tag? · == some "@tstring_content") =
      (a.pieces v).find? (a.tag? · == some "@tstring_content") := by
  unfold pieces
  rw [items?_blurred]
  cases a.items? v with
  | none => rfl
  | some items =>
    -- A keyword token is blurred in its second item, an atom both before and after.
    rcases blurItems_eq items with h | ⟨word, rest, rfl, h⟩ <;> rw [Option.map_some, h]
    rfl

/-- Tags and the items of quoted keys and of content are in sight. -/
theorem isLabel?_blurred (a : Arena) (key : Item) : a.blurred.isLabel? key = a.isLabel? key := by
  unfold isLabel?
  rw [tag?_blurred]
  split
  · rfl
  split
  · rfl
  -- A quoted symbol is no keyword token, nor is content, so blurring leaves both as they are.
  rename_i hquoted
  have hkey : a.tag? key = some "dyna_symbol" := by simpa using hquoted
  rw [item?_blurred_of_tag hkey (by decide)]
  refine Option.bind_congr fun parts _ => ?_
  simp only [tag?_blurred, find?_pieces_blurred]
  cases hfind : (a.pieces parts).find? (a.tag? · == some "@tstring_content") with
  | none => rfl
  | some content =>
    have hcontent : a.tag? content = some "@tstring_content" := by
      simpa using List.find?_some hfind
    simp only [item?_blurred_of_tag hcontent (by decide), isEmpty_blurred]

end Arena

namespace Builder

/-- Builders that differ at most in the texts of keyword tokens and in what the
    last tokens were. -/
structure Alike (b b' : Builder) : Prop where
  filename : b.filename = b'.filename
  line : b.line = b'.line
  column : b.column = b'.column
  comments : b.comments = b'.comments
  delimiters : b.delimiters = b'.delimiters
  operators : b.operators = b'.operators
  inSymbol : b.inSymbol = b'.inSymbol
  signed : b.signed = b'.signed
  arena : b.arena.blurred = b'.arena.blurred

namespace Alike

variable {b b' : Builder}

theorem refl (b : Builder) : b.Alike b :=
  ⟨rfl, rfl, rfl, rfl, rfl, rfl, rfl, rfl, rfl⟩

theorem size (h : b.Alike b') : b.arena.lists.size = b'.arena.lists.size := by
  rw [← b.arena.size_blurred, h.arena, Arena.size_blurred]

theorem tag? (h : b.Alike b') (v : Item) : b.arena.tag? v = b'.arena.tag? v := by
  rw [← b.arena.tag?_blurred, h.arena, Arena.tag?_blurred]

theorem isEmpty (h : b.Alike b') (v : Item) : b.arena.isEmpty v = b'.arena.isEmpty v := by
  rw [← b.arena.isEmpty_blurred, h.arena, Arena.isEmpty_blurred]

theorem item? (h : b.Alike b') (v : Item) {i : Nat} (hi : i ≠ 1) :
    b.arena.item? v i = b'.arena.item? v i := by
  rw [← b.arena.item?_blurred v hi, h.arena, Arena.item?_blurred _ _ hi]

/-- The items of the same list can at most be told apart by a keyword's text. -/
theorem items? (h : b.Alike b') (v : Item) :
    (b.arena.items? v).map blurItems = (b'.arena.items? v).map blurItems := by
  rw [← b.arena.items?_blurred, h.arena, Arena.items?_blurred]

theorem items?_of_tag (h : b.Alike b') {v : Item} {tag : String} (htag : b.arena.tag? v = some tag)
    (hne : tag ≠ "@kw") : b.arena.items? v = b'.arena.items? v := by
  have htag' : b'.arena.tag? v = some tag := (h.tag? v).symm.trans htag
  rw [← Arena.items?_blurred_of_tag htag hne, h.arena, Arena.items?_blurred_of_tag htag' hne]

theorem item?_of_tag (h : b.Alike b') {v : Item} {tag : String} (htag : b.arena.tag? v = some tag)
    (hne : tag ≠ "@kw") (i : Nat) : b.arena.item? v i = b'.arena.item? v i := by
  cases v with
  | atom a => rfl
  | list id => rw [Arena.item?, Arena.item?, h.items?_of_tag htag hne]

/-- Whether a key is written as a label does not depend on keyword texts. -/
theorem isLabel? (h : b.Alike b') (key : Item) : b.arena.isLabel? key = b'.arena.isLabel? key := by
  rw [← b.arena.isLabel?_blurred, h.arena, Arena.isLabel?_blurred]

theorem push (h : b.Alike b') {xs ys : List Item} (hitems : blurItems xs = blurItems ys) :
    (b.push xs).Alike (b'.push ys) := by
  refine { h with arena := ?_ }
  simp only [Builder.push]
  rw [Arena.blurred_new, Arena.blurred_new, h.arena, hitems]

theorem setItems (h : b.Alike b') {v : Item} {xs ys : List Item}
    (hitems : blurItems xs = blurItems ys) : (b.setItems v xs).Alike (b'.setItems v ys) := by
  refine { h with arena := ?_ }
  simp only [Builder.setItems]
  rw [Arena.blurred_set, Arena.blurred_set, h.arena, hitems]

end Alike

end Builder

end RubyTree
