import Mathlib
import RubyTree.Proofs.Text.Surrogate
import RubyTree.Proofs.Tree.Walk
import RubyTree.Tree.Print

/-!
# Printed Trees Can Be Told Apart

The one-line form of a tree says what its tags and children are, as long as the names in
it cannot be taken for the end of something. Names are printed as they are, so they end at
the first comma or closing parenthesis, and may hold none. Texts may hold anything: what
could end them is escaped.

What is read first says what kind of child comes next, and each child says itself where it
ends. So the argument goes from left to right through two trees at once, and what follows
a child is kept along: if two printed children followed by something are the same, the
children are the same, and so is what follows.

A text that holds halves of characters prints as code points which are no characters, so
the printed form is given by its code points here. It is shown as `Tree.print` says.

## Main definitions

* `Tree.printedPoints`: The code points of the one-line form.
* `Tree.isReadable`: Names are free of commas and closing parentheses, and leaves are absent,
  truth values, integers, texts or symbols.
* `Tree.isWhole`: No text holds half of a character.
* `Tree.Alike`: Trees with the same tags and children.
* `Closes`: What may follow a child.
* `readWord?`: The leaf that a word stands for.

## Theorems

* `Tree.shownPoints_printedPoints`, `Tree.printedPoints_of_isWhole`: The printed form as it
  is shown.
* `name_unique`: A name ends at the first comma or closing parenthesis.
* `doubleQuoted_unique`: A quoted text ends at its closing quote.
* `Atom.printed_unique`: A printed leaf says what it is and where it ends.
* `Tree.printed_unique`: A printed tree does.
* `Tree.print_tells_apart`: Trees that print the same are alike.
-/

namespace RubyTree

/-- The code points of a text. -/
def textPoints (t : String) : List Nat :=
  t.toList.map Char.toNat

/-- A code point between double quotes. -/
def escapedPoint (n : Nat) : List Nat :=
  if n = '\\'.toNat ∨ n = '"'.toNat then ['\\'.toNat, n]
  else if n = '\n'.toNat then ['\\'.toNat, 'n'.toNat] else [n]

/-- Code points between double quotes. -/
def doubleQuotedPoints (points : List Nat) : List Nat :=
  '"'.toNat :: (points.flatMap escapedPoint ++ ['"'.toNat])

/-- The code points of a value as it stands in a printed tree. -/
def Raw.printedPoints : Raw → List Nat
  | .atom (.torn points) => doubleQuotedPoints points
  | v => textPoints v.print

/-- A code point that does not end a name. -/
def isUncut (n : Nat) : Bool :=
  n != ','.toNat && n != ')'.toNat

/-- A name that can be printed as it is. -/
def isUncutName (name : String) : Bool :=
  (textPoints name).all isUncut

/-- The leaves of readable trees. A text given by its code points holds half of a character,
    since it would be given by its characters otherwise. -/
def Atom.isReadable : Atom → Bool
  | null | bool _ | int _ | str _ => true
  | sym name => isUncutName name
  | torn points => points.any Text.isSurrogate
  | _ => false

namespace Tree

mutual

/-- The code points of the one-line form. -/
def printedPoints : Tree → List Nat
  | leaf v => v.printedPoints
  | node tag _ children =>
    textPoints ("s(:" ++ tag.display) ++ (printedChildren children ++ [')'.toNat])

/-- The code points of the children, each after a comma. -/
def printedChildren : List Tree → List Nat
  | [] => []
  | t :: ts => ','.toNat :: ' '.toNat :: (t.printedPoints ++ printedChildren ts)

end

mutual

/-- Whether names are free of commas and closing parentheses and leaves are of the usual
    kinds. -/
def isReadable : Tree → Bool
  | leaf (.atom a) => a.isReadable
  | leaf (.list _) => false
  | node (.str tag) _ children => isUncutName tag && areReadable children
  | node (.sym tag) _ children => isUncutName tag && areReadable children
  | node _ _ _ => false

def areReadable : List Tree → Bool
  | [] => true
  | t :: ts => t.isReadable && areReadable ts

end

mutual

/-- Whether every text is made of characters. -/
def isWhole : Tree → Bool
  | leaf (.atom (.torn _)) => false
  | leaf _ => true
  | node _ _ children => areWhole children

def areWhole : List Tree → Bool
  | [] => true
  | t :: ts => t.isWhole && areWhole ts

end

mutual

/-- Trees with the same tags and the same children, whatever their lines and comments. A
    symbol is another leaf than its text. -/
def Alike : Tree → Tree → Prop
  | leaf v, leaf w => v = w
  | node tag _ ts, node tag' _ us => tag.text? = tag'.text? ∧ AllAlike ts us
  | _, _ => False

def AllAlike : List Tree → List Tree → Prop
  | [], [] => True
  | t :: ts, u :: us => t.Alike u ∧ AllAlike ts us
  | _, _ => False

end

end Tree

section Shown

theorem textPoints_append (s t : String) : textPoints (s ++ t) = textPoints s ++ textPoints t := by
  simp [textPoints]

theorem textPoints_inj {s t : String} : textPoints s = textPoints t ↔ s = t := by
  rw [textPoints, textPoints, List.map_inj_right fun _ _ => Char.toNat_inj.1, String.toList_inj]

theorem shownPoints_append (xs ys : List Nat) :
    Text.shownPoints (xs ++ ys) = Text.shownPoints xs ++ Text.shownPoints ys := by
  simp [Text.shownPoints]

theorem shownPoints_textPoints (t : String) : Text.shownPoints (textPoints t) = t := by
  rw [textPoints, Text.shownPoints_map_toNat, String.ofList_toList]

/-- Characters between quotes and their code points. -/
theorem textPoints_doubleQuoted (t : String) :
    textPoints (doubleQuoted t) = doubleQuotedPoints (textPoints t) := by
  -- Each character is escaped by itself, so only single ones are to be compared.
  have hescape (c : Char) : (if c = '\\' ∨ c = '"' then ['\\', c]
      else if c = '\n' then ['\\', 'n'] else [c]).map Char.toNat = escapedPoint c.toNat := by
    unfold escapedPoint
    simp only [Char.toNat_inj]
    split
    · rfl
    · split <;> rfl
  unfold textPoints doubleQuoted doubleQuotedPoints
  simp only [String.toList_ofList, List.map_append, List.map_cons, List.map_nil, List.cons_append,
    List.map_flatMap, hescape, List.flatMap_map]

/-- Escapes are shown as the escapes of what is shown. -/
theorem shownPoints_doubleQuotedPoints (points : List Nat) :
    Text.shownPoints (doubleQuotedPoints points) = doubleQuoted (Text.shownPoints points) := by
  have hescape (n : Nat) : (escapedPoint n).map Text.shownPoint =
      if Text.shownPoint n = '\\' ∨ Text.shownPoint n = '"' then ['\\', Text.shownPoint n]
      else if Text.shownPoint n = '\n' then ['\\', 'n'] else [Text.shownPoint n] := by
    -- Half of a character is shown as one that is not escaped.
    have hspecial {c : Char} (hfirst : c ≠ '\x00') (hreplacement : c ≠ Text.Utf8.replacement) :
        (Text.shownPoint n = c) = (n = c.toNat) :=
      propext (Text.shownPoint_eq_iff hfirst hreplacement)
    unfold escapedPoint
    simp only [hspecial (show '\\' ≠ '\x00' by decide) (by decide),
      hspecial (show '"' ≠ '\x00' by decide) (by decide),
      hspecial (show '\n' ≠ '\x00' by decide) (by decide)]
    split
    · simp only [List.map_cons, List.map_nil, Text.shownPoint_toNat]
    · split <;> simp only [List.map_cons, List.map_nil, Text.shownPoint_toNat]
  unfold doubleQuotedPoints doubleQuoted Text.shownPoints
  simp only [String.toList_ofList, List.map_append, List.map_cons, List.map_nil, List.cons_append,
    List.map_flatMap, hescape, List.flatMap_map, Text.shownPoint_toNat]

theorem Raw.shownPoints_printedPoints (v : Raw) : Text.shownPoints v.printedPoints = v.print := by
  unfold Raw.printedPoints
  split
  · rename_i points
    exact shownPoints_doubleQuotedPoints points
  · exact shownPoints_textPoints _

namespace Tree

mutual

/-- The printed form is shown as the text that is printed. -/
theorem shownPoints_printedPoints : (t : Tree) → Text.shownPoints t.printedPoints = t.print
  | leaf v => v.shownPoints_printedPoints
  | node tag mark children => by
    rw [printedPoints, shownPoints_append, shownPoints_append, shownPoints_textPoints,
      shownPoints_printedChildren children, print, ← String.append_assoc]
    rfl

theorem shownPoints_printedChildren : (ts : List Tree) →
    Text.shownPoints (printedChildren ts) = printChildren ts
  | [] => rfl
  | t :: ts => by
    have hsplit : printedChildren (t :: ts) =
        textPoints ", " ++ (t.printedPoints ++ printedChildren ts) := rfl
    rw [hsplit, shownPoints_append, shownPoints_append, shownPoints_textPoints,
      shownPoints_printedPoints t, shownPoints_printedChildren ts, printChildren,
      String.append_assoc]

end

mutual

/-- Of a tree without halves of characters the code points are those of the text. -/
theorem printedPoints_of_isWhole : (t : Tree) → t.isWhole → t.printedPoints = textPoints t.print
  | leaf (.list _), _ => rfl
  | leaf (.atom a), h => by
    cases a with
    | torn points => cases h
    | null | bool | int | str | sym | real | complex | rational | octets | foreign => rfl
  | node tag mark children, h => by
    rw [printedPoints, printedChildren_of_areWhole children h, print, textPoints_append _ ")",
      textPoints_append _ (printChildren children), List.append_assoc]
    rfl

theorem printedChildren_of_areWhole : (ts : List Tree) → areWhole ts →
    printedChildren ts = textPoints (printChildren ts)
  | [], _ => rfl
  | t :: ts, h => by
    rw [areWhole, Bool.and_eq_true] at h
    rw [printedChildren, printedPoints_of_isWhole t h.1, printedChildren_of_areWhole ts h.2,
      printChildren, textPoints_append, textPoints_append, List.append_assoc]
    rfl

end

end Tree

end Shown

section Names

variable {xs ys r s : List Nat}

/-- Nothing, or what starts with the end of a name. -/
def Closes (points : List Nat) : Prop :=
  ∀ n ∈ points.head?, isUncut n = false

theorem closes_cons {n : Nat} (h : isUncut n = false) (points : List Nat) :
    Closes (n :: points) := by
  intro m hm
  cases hm
  exact h

/-- A name ends at the first comma or closing parenthesis. -/
theorem name_unique (hxs : xs.all isUncut) (hys : ys.all isUncut) (hr : Closes r) (hs : Closes s)
    (h : xs ++ r = ys ++ s) : xs = ys ∧ r = s := by
  -- Where one name goes on and the other ends, the same point would go on and close.
  induction xs generalizing ys with
  | nil =>
    cases ys with
    | nil => exact ⟨rfl, h⟩
    | cons y ys =>
      obtain ⟨hy, -⟩ := Bool.and_eq_true _ _ ▸ (List.all_cons ▸ hys)
      have hend := hr y (by rw [show r = _ from h]; rfl)
      simp [hend] at hy
  | cons x xs ih =>
    cases ys with
    | nil =>
      have hend := hs x (by rw [← show _ = s from h]; rfl)
      simp [hend] at hxs
    | cons y ys =>
      obtain ⟨rfl, hrest⟩ := List.cons.inj h
      rw [List.all_cons, Bool.and_eq_true] at hxs hys
      obtain ⟨rfl, hends⟩ := ih hxs.2 hys.2 hrest
      exact ⟨rfl, hends⟩

end Names

section Quotes

variable {n m : Nat} {xs ys r s : List Nat}

/-- No escape is the start of another one. -/
theorem escapedPoint_unique (h : escapedPoint n ++ r = escapedPoint m ++ s) : n = m ∧ r = s := by
  unfold escapedPoint at h
  grind

/-- The closing quote is no escape. -/
theorem escapedPoint_ne_quote : escapedPoint n ++ r ≠ '"'.toNat :: s := by
  unfold escapedPoint
  grind

/-- A quoted text ends at its closing quote. -/
theorem doubleQuoted_unique (h : doubleQuotedPoints xs ++ r = doubleQuotedPoints ys ++ s) :
    xs = ys ∧ r = s := by
  simp only [doubleQuotedPoints, List.cons_append, List.append_assoc, List.cons.injEq, true_and,
    List.nil_append] at h
  -- No escape starts with the closing quote, so both texts end together.
  induction xs generalizing ys with
  | nil =>
    cases ys with
    | nil => exact ⟨rfl, (List.cons.inj h).2⟩
    | cons y ys =>
      rw [List.flatMap_cons, List.append_assoc] at h
      exact absurd h.symm escapedPoint_ne_quote
  | cons x xs ih =>
    rw [List.flatMap_cons, List.append_assoc] at h
    cases ys with
    | nil => exact absurd h escapedPoint_ne_quote
    | cons y ys =>
      rw [List.flatMap_cons, List.append_assoc] at h
      obtain ⟨rfl, hrest⟩ := escapedPoint_unique h
      obtain ⟨rfl, hends⟩ := ih hrest
      exact ⟨rfl, hends⟩

end Quotes

section Words

variable {a b : Atom} {r s : List Nat}

/-- The leaf that a word stands for. -/
def readWord? (word : String) : Option Atom :=
  if word = "nil" then some .null
  else if word = "true" then some (.bool true)
  else if word = "false" then some (.bool false)
  else match word.toList with
    | ':' :: name => some (.sym (String.ofList name))
    | _ => word.toInt?.map .int

namespace Atom

/-- Whether the value is printed as a word, without quotes. -/
def isWord : Atom → Bool
  | null | bool _ | int _ | sym _ => true
  | _ => false

/-- An integer is printed as digits, perhaps after a minus. -/
theorem print_int (i : Int) : ∃ c cs, (Raw.int i).print.toList = c :: cs ∧
    (c = '-' ∨ c.isDigit) ∧ ∀ d ∈ cs, d.isDigit := by
  have hdigits (n : Nat) : ∀ d ∈ n.repr.toList, d.isDigit := fun d hd =>
    Nat.isDigit_of_mem_toDigits (by decide) (by decide) (Nat.toList_repr ▸ hd)
  show ∃ c cs, i.repr.toList = c :: cs ∧ _
  cases i with
  | ofNat n =>
    -- A natural number has a digit at least, which is the lead.
    obtain ⟨c, cs, hcs⟩ := List.exists_cons_of_ne_nil (Nat.toDigits_ne_nil (n := n) (b := 10))
    have hlist : n.repr.toList = c :: cs := Nat.toList_repr.trans hcs
    have hall := hdigits n
    rw [hlist] at hall
    exact ⟨c, cs, hlist, .inr (hall c List.mem_cons_self),
      fun d hd => hall d (List.mem_cons_of_mem c hd)⟩
  | negSucc n =>
    exact ⟨'-', (n + 1).repr.toList, String.toList_append, .inl rfl, hdigits (n + 1)⟩

/-- A printed word says which leaf it is. -/
theorem readWord?_print (h : a.isWord) : readWord? (Raw.atom a).print = some a := by
  cases a with
  | null => rfl
  | bool b => cases b <;> rfl
  | int i =>
    obtain ⟨c, cs, hlist, hlead, -⟩ := print_int i
    -- No other word starts with a digit or a minus.
    have hdiffer {d : Char} {t : String} (ht : t.toList.head? = some d) (hd : d ≠ '-')
        (hdigit : d.isDigit = false) : (Raw.int i).print ≠ t := by
      rintro rfl
      obtain rfl : c = d := by simpa [hlist] using ht
      simp [hd, hdigit] at hlead
    unfold readWord?
    rw [if_neg (hdiffer (d := 'n') rfl (by decide) rfl),
      if_neg (hdiffer (d := 't') rfl (by decide) rfl),
      if_neg (hdiffer (d := 'f') rfl (by decide) rfl)]
    split
    · rename_i name hname
      exact absurd rfl (hdiffer (d := ':') (by rw [hname]; rfl) (by decide) rfl)
    · show i.repr.toInt?.map _ = _
      rw [Int.toInt?_repr]
      rfl
  | sym name =>
    have hlist : (Raw.sym name).print.toList = ':' :: name.toList := String.toList_append
    -- No other word starts with a colon.
    have hdiffer {d : Char} {t : String} (ht : t.toList.head? = some d) (hd : d ≠ ':') :
        (Raw.sym name).print ≠ t := by
      rintro rfl
      exact hd (by simpa [hlist] using ht.symm)
    unfold readWord?
    rw [if_neg (hdiffer (d := 'n') rfl (by decide)), if_neg (hdiffer (d := 't') rfl (by decide)),
      if_neg (hdiffer (d := 'f') rfl (by decide)), hlist]
    show some (Atom.sym (String.ofList name.toList)) = _
    rw [String.ofList_toList]
  | str | torn | real | complex | rational | octets | foreign => cases h

/-- A word can be printed as it is, and starts like no text and no node. -/
theorem uncut_print (h : a.isReadable) (hword : a.isWord) :
    (textPoints (Raw.atom a).print).all isUncut ∧ ∃ n points,
      textPoints (Raw.atom a).print = n :: points ∧ n ≠ '"'.toNat ∧ n ≠ 's'.toNat := by
  cases a with
  | null => exact ⟨rfl, _, _, rfl, by decide, by decide⟩
  | bool b => cases b <;> exact ⟨rfl, _, _, rfl, by decide, by decide⟩
  | int i =>
    obtain ⟨c, cs, hlist, hlead, hdigits⟩ := print_int i
    -- A sign and digits, none of which could end the leaf or begin something else.
    have hfigure (d : Char) (hd : d = '-' ∨ d.isDigit) :
        isUncut d.toNat ∧ d.toNat ≠ '"'.toNat ∧ d.toNat ≠ 's'.toNat := by
      rcases hd with rfl | hd
      · decide
      · simp only [Char.isDigit, Bool.and_eq_true, decide_eq_true_eq] at hd
        have hrange : 48 ≤ d.toNat ∧ d.toNat ≤ 57 := hd
        simp only [isUncut, Bool.and_eq_true, bne_iff_ne, Char.reduceToNat]
        omega
    obtain ⟨huncut, hquote, hnode⟩ := hfigure c hlead
    have hpoints : textPoints (Raw.int i).print = c.toNat :: cs.map Char.toNat := by
      rw [textPoints, hlist, List.map_cons]
    refine ⟨?_, _, _, hpoints, hquote, hnode⟩
    rw [hpoints, List.all_cons, huncut, Bool.true_and, List.all_map, List.all_eq_true]
    exact fun d hd => (hfigure d (.inr (hdigits d hd))).1
  | sym name =>
    have hpoints : textPoints (Raw.sym name).print = ':'.toNat :: textPoints name :=
      textPoints_append ":" name
    rw [hpoints]
    exact ⟨h, _, _, rfl, by decide, by decide⟩
  | str | torn | real | complex | rational | octets | foreign => cases hword

/-- The code points of a leaf that is no word are those of a text between quotes. -/
theorem printedPoints_of_not_isWord (h : a.isReadable) (hword : a.isWord = false) :
    ∃ points, a.points? = some points ∧ (Raw.atom a).printedPoints = doubleQuotedPoints points := by
  cases a with
  | str t => exact ⟨_, rfl, textPoints_doubleQuoted t⟩
  | torn points => exact ⟨points, rfl, rfl⟩
  | null | bool | int | sym => cases hword
  | real | complex | rational | octets | foreign => cases h

theorem printedPoints_of_isWord (h : a.isWord) :
    (Raw.atom a).printedPoints = textPoints (Raw.atom a).print := by
  cases a with
  | null | bool | int | sym => rfl
  | str | torn | real | complex | rational | octets | foreign => cases h

/-- A text is given by its characters, or by code points one of which is none. -/
theorem eq_of_points? (ha : a.isReadable) (hb : b.isReadable) (hworda : a.isWord = false)
    (hwordb : b.isWord = false) (h : a.points? = b.points?) : a = b := by
  -- Where one of the points is no character, they are the points of no whole text.
  have hwhole {t : String} {points : List Nat} (hhalf : points.any Text.isSurrogate) :
      some (t.toList.map Char.toNat) ≠ some points := by
    rintro ⟨⟩
    simp [Text.isSurrogate_toNat] at hhalf
  cases a with
  | str t =>
    cases b with
    | str t' => exact congrArg str (textPoints_inj.1 (Option.some.inj h))
    | torn points => exact absurd h (hwhole hb)
    | null | bool | int | sym => cases hwordb
    | real | complex | rational | octets | foreign => cases hb
  | torn points =>
    cases b with
    | str t' => exact absurd h.symm (hwhole ha)
    | torn points' => exact congrArg torn (Option.some.inj h)
    | null | bool | int | sym => cases hwordb
    | real | complex | rational | octets | foreign => cases hb
  | null | bool | int | sym => cases hworda
  | real | complex | rational | octets | foreign => cases ha

/-- A printed leaf starts unlike a node, and with a quote only if it is a text. -/
theorem printed_lead (h : a.isReadable) : ∃ n points, (Raw.atom a).printedPoints = n :: points ∧
    n ≠ 's'.toNat ∧ (n = '"'.toNat ↔ a.isWord = false) := by
  cases hword : a.isWord with
  | true =>
    obtain ⟨-, n, points, hpoints, hquote, hnode⟩ := uncut_print h hword
    refine ⟨n, points, (printedPoints_of_isWord hword).trans hpoints, hnode, ?_⟩
    exact iff_of_false hquote (by simp)
  | false =>
    obtain ⟨points, -, hpoints⟩ := printedPoints_of_not_isWord h hword
    exact ⟨_, _, hpoints, by decide, by simp⟩

/-- A printed leaf says what it is and where it ends. -/
theorem printed_unique (ha : a.isReadable) (hb : b.isReadable) (hr : Closes r) (hs : Closes s)
    (h : (Raw.atom a).printedPoints ++ r = (Raw.atom b).printedPoints ++ s) : a = b ∧ r = s := by
  -- The first code point says whether the leaf is a word.
  have hsame : a.isWord = b.isWord := by
    obtain ⟨n, points, hpoints, -, hn⟩ := printed_lead ha
    obtain ⟨m, points', hpoints', -, hm⟩ := printed_lead hb
    rw [hpoints, hpoints'] at h
    obtain rfl : n = m := (List.cons.inj h).1
    exact Bool.eq_iff_iff.2 (by simpa using not_congr (hn.symm.trans hm))
  cases hword : a.isWord with
  | true =>
    have hword' : b.isWord := hsame ▸ hword
    rw [printedPoints_of_isWord hword, printedPoints_of_isWord hword'] at h
    obtain ⟨hprint, hends⟩ := name_unique (uncut_print ha hword).1 (uncut_print hb hword').1 hr hs h
    have hread := readWord?_print hword
    rw [textPoints_inj.1 hprint, readWord?_print hword'] at hread
    exact ⟨(Option.some.inj hread).symm, hends⟩
  | false =>
    have hword' : b.isWord = false := hsame ▸ hword
    obtain ⟨points, hpoints, hquoted⟩ := printedPoints_of_not_isWord ha hword
    obtain ⟨points', hpoints', hquoted'⟩ := printedPoints_of_not_isWord hb hword'
    rw [hquoted, hquoted'] at h
    obtain ⟨rfl, hends⟩ := doubleQuoted_unique h
    exact ⟨eq_of_points? ha hb hword hword' (hpoints.trans hpoints'.symm), hends⟩

end Atom

end Words

namespace Tree

section Reading

variable {r s : List Nat}

/-- The tag of a readable tree is a name that is printed as it is. -/
theorem isReadable_node {tag : Raw} {mark : Mark} {children : List Tree}
    (h : (node tag mark children).isReadable) :
    tag.text? = some tag.display ∧ isUncutName tag.display ∧ areReadable children := by
  cases tag with
  | list items => cases h
  | atom a =>
    cases a with
    | str name | sym name => exact ⟨rfl, Bool.and_eq_true_iff.1 h⟩
    | null | bool | int | torn | real | complex | rational | octets | foreign => cases h

theorem closes_printedChildren (children : List Tree) (r : List Nat) :
    Closes (printedChildren children ++ ')'.toNat :: r) := by
  cases children with
  | nil => exact closes_cons rfl _
  | cons c cs => exact closes_cons rfl _

/-- What a printed node is made of. -/
theorem printedPoints_node (tag : Raw) (mark : Mark) (children : List Tree) (r : List Nat) :
    (node tag mark children).printedPoints ++ r = 's'.toNat :: '('.toNat :: ':'.toNat ::
      (textPoints tag.display ++ (printedChildren children ++ ')'.toNat :: r)) := by
  rw [printedPoints, textPoints_append, List.append_assoc, List.append_assoc, List.append_assoc]
  rfl

theorem printedChildren_cons (t : Tree) (ts : List Tree) (r : List Nat) :
    printedChildren (t :: ts) ++ r =
      ','.toNat :: ' '.toNat :: (t.printedPoints ++ (printedChildren ts ++ r)) := by
  rw [printedChildren, List.cons_append, List.cons_append, List.append_assoc]

mutual

/-- A printed tree says what it is and where it ends, whatever closes it. -/
theorem printed_unique : (t : Tree) → ∀ {u : Tree} {r s : List Nat}, t.isReadable → u.isReadable →
    Closes r → Closes s → t.printedPoints ++ r = u.printedPoints ++ s → t.Alike u ∧ r = s
  | leaf (.list items), _, _, _, ht, _, _, _, _ => nomatch ht
  | leaf (.atom a), u, r, s, ha, hu, hr, hs, h => by
    cases u with
    | leaf v =>
      cases v with
      | list items => cases hu
      | atom b =>
        obtain ⟨rfl, hends⟩ := Atom.printed_unique ha hu hr hs h
        exact ⟨rfl, hends⟩
    | node tag mark children =>
      -- The first point is the one that opens a node, and no leaf starts with it.
      obtain ⟨n, points, hpoints, hnode, -⟩ := Atom.printed_lead ha
      rw [printedPoints_node, printedPoints, hpoints] at h
      exact absurd (List.cons.inj h).1 hnode
  | node tag mark children, u, r, s, ht, hu, hr, hs, h => by
    rw [printedPoints_node] at h
    cases u with
    | leaf v =>
      cases v with
      | list items => cases hu
      | atom b =>
        obtain ⟨n, points, hpoints, hnode, -⟩ := Atom.printed_lead hu
        rw [printedPoints, hpoints] at h
        exact absurd (List.cons.inj h).1.symm hnode
    | node tag' mark' children' =>
      obtain ⟨htext, hname, hchildren⟩ := isReadable_node ht
      obtain ⟨htext', hname', hchildren'⟩ := isReadable_node hu
      rw [printedPoints_node] at h
      -- The tag ends where the children begin, and these end where the node is closed.
      obtain ⟨htag, hrest⟩ := name_unique hname hname' (closes_printedChildren children r)
        (closes_printedChildren children' s) (List.cons.inj (List.cons.inj (List.cons.inj h).2).2).2
      obtain ⟨halike, hends⟩ := printedChildren_unique children hchildren hchildren' hrest
      exact ⟨⟨by rw [htext, htext', textPoints_inj.1 htag], halike⟩, hends⟩

/-- The children of a node end at its closing parenthesis. -/
theorem printedChildren_unique : (ts : List Tree) → ∀ {us : List Tree} {r s : List Nat},
    areReadable ts → areReadable us →
    printedChildren ts ++ ')'.toNat :: r = printedChildren us ++ ')'.toNat :: s →
    AllAlike ts us ∧ r = s
  | [], [], _, _, _, _, h => ⟨trivial, (List.cons.inj h).2⟩
  | [], u :: us, _, _, _, _, h => by
    rw [printedChildren_cons] at h
    exact absurd (List.cons.inj h).1 (by decide)
  | t :: ts, [], _, _, _, _, h => by
    rw [printedChildren_cons] at h
    exact absurd (List.cons.inj h).1 (by decide)
  | t :: ts, u :: us, r, s, hts, hus, h => by
    obtain ⟨ht, hts⟩ := Bool.and_eq_true_iff.1 hts
    obtain ⟨hu, hus⟩ := Bool.and_eq_true_iff.1 hus
    rw [printedChildren_cons, printedChildren_cons] at h
    -- A child is closed by the next one, or by the parenthesis of the node.
    obtain ⟨halike, hrest⟩ := printed_unique t ht hu (closes_printedChildren ts r)
      (closes_printedChildren us s) (List.cons.inj (List.cons.inj h).2).2
    obtain ⟨hall, hends⟩ := printedChildren_unique ts hts hus hrest
    exact ⟨⟨halike, hall⟩, hends⟩

end

mutual

/-- Trees that are alike print the same. -/
theorem Alike.printedPoints_eq : (t : Tree) → ∀ {u : Tree}, t.isReadable → u.isReadable →
    t.Alike u → t.printedPoints = u.printedPoints
  | leaf v, leaf w, _, _, h => congrArg Raw.printedPoints h
  | node tag mark ts, node tag' mark' us, ht, hu, h => by
    obtain ⟨htext, -, hchildren⟩ := isReadable_node ht
    obtain ⟨htext', -, hchildren'⟩ := isReadable_node hu
    have htag : tag.display = tag'.display := by
      have heq := h.1
      rw [htext, htext'] at heq
      exact Option.some.inj heq
    rw [printedPoints, printedPoints, htag, AllAlike.printedChildren_eq ts hchildren hchildren' h.2]

theorem AllAlike.printedChildren_eq : (ts : List Tree) → ∀ {us : List Tree}, areReadable ts →
    areReadable us → AllAlike ts us → printedChildren ts = printedChildren us
  | [], [], _, _, _ => rfl
  | t :: ts, u :: us, hts, hus, h => by
    obtain ⟨ht, hts⟩ := Bool.and_eq_true_iff.1 hts
    obtain ⟨hu, hus⟩ := Bool.and_eq_true_iff.1 hus
    rw [printedChildren, printedChildren, Alike.printedPoints_eq t ht hu h.1,
      AllAlike.printedChildren_eq ts hts hus h.2]

end

end Reading

/-- Readable trees print the same if and only if they have the same tags and the same
    children, whatever their lines and comments. -/
theorem print_tells_apart {t u : Tree} (ht : t.isReadable) (hu : u.isReadable) :
    Text.shownPoints t.printedPoints = t.print ∧
      (t.printedPoints = u.printedPoints ↔ t.Alike u) ∧
      (t.isWhole → u.isWhole → (t.print = u.print ↔ t.Alike u)) := by
  have hpoints : t.printedPoints = u.printedPoints ↔ t.Alike u := by
    constructor
    · intro h
      refine (printed_unique t ht hu (r := []) (s := []) nofun nofun ?_).1
      rw [h]
    · exact Alike.printedPoints_eq t ht hu
  refine ⟨shownPoints_printedPoints t, hpoints, fun hwhole hwhole' => ?_⟩
  rw [← hpoints, printedPoints_of_isWhole t hwhole, printedPoints_of_isWhole u hwhole',
    textPoints_inj]

/-- One text with a quote, a comma and a quote in it. -/
def oneText : Tree :=
  bare "array" [null, str "a\", \"b"]

/-- The two texts that these would divide if quotes were not escaped. -/
def twoTexts : Tree :=
  bare "array" [null, str "a", str "b"]

/-- A text cannot be taken for two, and an absent child cannot be taken for a node with
    the tag that it prints as. -/
theorem print_tells_apart_oneText :
    (oneText.isReadable ∧ twoTexts.isReadable ∧ (bare "nil" []).isReadable ∧ null.isReadable) ∧
      (oneText.isWhole ∧ twoTexts.isWhole ∧ (bare "nil" []).isWhole ∧ null.isWhole) ∧
      oneText.print ≠ twoTexts.print ∧ (bare "nil" []).print ≠ null.print := by
  refine ⟨⟨rfl, rfl, rfl, rfl⟩, ⟨rfl, rfl, rfl, rfl⟩, fun h => ?_, fun h => ?_⟩
  · have halike := ((print_tells_apart (t := oneText) (u := twoTexts) rfl rfl).2.2 rfl rfl).1 h
    exact halike.2.2.2
  · exact ((print_tells_apart (t := bare "nil" []) (u := null) rfl rfl).2.2 rfl rfl).1 h

end Tree

end RubyTree
