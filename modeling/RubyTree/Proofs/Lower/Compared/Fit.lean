import RubyTree.Proofs.Lower.Compared.Step

/-!
# What the Two Programs Have to Be Like

A raw tree may be broken in many ways, and lowering takes most of them as they
come. So a change that is meant to leave everything else alone may be seen in a
place where nobody expects it: a position that is read as a name, a numbered
block whose children are taken for the elements of an array, a keyword that is
tagged like something else. What a node has to be like for this not to happen is
collected here, for each of the changes. Nothing is asked of a node when shared
nodes are numbered otherwise.

A field that is read as a name has to be a token or an atom, since a token keeps
its position apart from its text. Where a name is read off a tree that was
lowered, that tree has to start with a name.

## Main definitions

* `Raw.Token`: A token with an atom for its text, or an atom.
* `Production.names`: The fields that are read as names and operators.
* `Production.spelled`: The fields that are lowered and then read as names.
* `Production.opened`: The fields whose children become those of another node.
* `Change.Fits`: What a node has to be like.

## Theorems

* `Plain.first`, `Plain.second`: A field that is the same in both programs.
* `Scanned.nameOf`, `Scanned.line?`: A field that is read as a name.
* `Sited.line?`: The line of a position.
-/

namespace RubyTree

open LowerM

namespace Raw

/-- Whether a tag is that of a token. -/
def isScanner (tag : String) : Bool :=
  tag.toList.head? == some '@'

/-- An atom, or a token whose text is an atom. -/
inductive Token : Raw → Prop where
  | atom (a : Atom) : Token (atom a)
  | scanned {tag : String} (htag : isScanner tag) (a : Atom) (rest : List Raw) :
      Token (list (str tag :: .atom a :: rest))

/-- A position without a line, or with one that is an integer. -/
def OnLine (r : Raw) : Prop :=
  ∀ line, r.positionLine? = some line → ∃ l, line = int l

/-- The chain of clauses that starts here has no empty statement among them. -/
inductive Clauses : Raw → Prop where
  | atom (a : Atom) : Clauses (atom a)
  | last {items : List Raw} (htag : (list items).hasTag "void_stmt" = false)
      (hnext : items[4]? = none) : Clauses (list items)
  | next {items : List Raw} {r : Raw} (htag : (list items).hasTag "void_stmt" = false)
      (hnext : items[4]? = some r) (h : Clauses r) : Clauses (list items)

theorem positionField?_of_isScanner {tag : String} (h : isScanner tag) :
    positionField? tag = some 1 := by
  unfold positionField?
  rw [if_pos (by simpa [isScanner] using h)]

end Raw

namespace Production

/-- The field that is the position of the node. -/
def position? : Production → Option Nat
  | empty => some 0
  | hook _ => some 1
  | begin => some 1
  | moduleDef => some 2
  | singletonClass => some 2
  | classDef => some 3
  | method => some 3
  | singletonMethod => some 5
  | name _ => some 1
  | constant => some 1
  | label => some 1
  | keyword => some 1
  | backReference => some 1
  | integer => some 1
  | float => some 1
  | rational => some 1
  | imaginary => some 1
  | character => some 1
  | content => some 1
  | _ => none

/-- The fields that are read as names and operators. -/
def names : Production → Fields → List Raw
  | scopedConstant, fs => [fs.get 1]
  | topConstant, fs => [fs.get 0]
  | command, fs => [fs.get 0]
  | bareName, fs => [fs.get 0]
  | function, fs => [fs.get 0]
  | namedParam _, fs => [fs.get 0]
  | symbol, fs => [fs.get 0]
  | symbolLiteral, fs => if (fs.get 0).hasTag "symbol" then [] else [fs.get 0]
  | symbolWords, fs => fs
  | call, fs => [fs.get 1, fs.get 2]
  | commandCall, fs => [fs.get 1, fs.get 2]
  | attributeTarget, fs => [fs.get 1, fs.get 2]
  | operatorAssign, fs => [fs.get 1]
  | globalAlias, fs => [fs.get 0, fs.get 1]
  | method, fs => [fs.get 0]
  | singletonMethod, fs => [fs.get 2]
  | blockParams, fs => (fs.get 1).elements?.getD []
  | params, fs => ((fs.get 1).elements?.getD [] ++ (fs.get 4).elements?.getD []).filterMap
      fun r => r.pair?.map Prod.fst
  | _, _ => []

/-- The fields that are lowered to a node which starts with a name. -/
def spelled : Production → Fields → List Raw
  | pair, fs => if (fs.get 1).isNull then [fs.get 0] else []
  | hashPattern, fs => ((fs.get 1).elements?.getD []).filterMap fun r =>
      r.pair?.bind fun (key, value) => if value.isNull then some key else none
  | _, _ => []

/-- The fields that are lowered to a text or to the parts of one. -/
def quoted : Production → Fields → List Raw
  | quotedSymbol, fs => [fs.get 0]
  | quotedSymbolWords, fs => fs
  | _, _ => []

/-- The fields whose children become those of another node. -/
def opened : Production → Fields → List Raw
  | collection _, fs => [fs.get 0]
  | valuesStar, fs => [fs.get 0]
  | operatorAssign, fs => [fs.get 0]
  | quotedSymbol, fs => [fs.get 0]
  | quotedSymbolWords, fs => fs
  | _, _ => []

theorem mem_table_of_ofTag? {tag : String} {p : Production} (h : ofTag? tag = some p) :
    (tag, p) ∈ table := by
  obtain ⟨before, after, htable, -⟩ := List.lookup_eq_some_iff.1 h
  rw [htable]
  exact List.mem_append_right _ List.mem_cons_self

/-- A production knows where the position of its nodes is. -/
theorem positionField?_eq {tag : String} {p : Production} (h : ofTag? tag = some p) :
    Raw.positionField? tag = p.position? := by
  have htable : ∀ e ∈ table, Raw.positionField? e.1 = e.2.position? := by decide +kernel
  exact htable (tag, p) (mem_table_of_ofTag? h)

/-- Parameters are the only block parameters that may be empty. -/
def IsParams (args : Tree) : Prop :=
  args = .null ∨ args = .bare "args" [] ∨ ∃ tag mark t ts, args = .node tag mark (t :: ts)

end Production

namespace Change

/-- A field that has to be an atom. -/
def Plain : Change → Raw → Prop
  | moved _, r => ∃ a, r = .atom a
  | _, _ => True

/-- A position. -/
def Sited : Change → Raw → Prop
  | moved _, r => r.OnLine
  | _, _ => True

/-- A field that is read as a name. -/
def Scanned : Change → Raw → Prop
  | moved _, r => r.Token ∧ r.position.OnLine
  | _, _ => True

/-- The word of a keyword, which is the tag of its node. -/
def Word : Change → Raw → Prop
  | moved _, r => r.text? ≠ some "field"
  | unnumbered, r => ∃ word, r.text? = some word ∧ word ∉ lookedInto
  | renumbered, _ => True

/-- A field that is lowered, where what is found to be of interest starts with a
    name. It is enough to know this of one of the two programs. -/
def Spells (c : Change) (interest : Tree → Prop) (r : Raw) : Prop :=
  c ≠ renumbered → (∀ t n, interest t → Returns (lower (c.first r)) t →
      t.children?.bind List.head? = some n → n.IsName) ∨
    ∀ t n, interest t → Returns (lower (c.second r)) t →
      t.children?.bind List.head? = some n → n.IsName

/-- A field that is not lowered to a numbered block. -/
def Whole : Change → Raw → Prop
  | unnumbered, r => ∀ t, Returns (lower r) t → t.hasTag "numblock" = false
  | _, _ => True

/-- The parameters of a block, by themselves or with the body after them. -/
def Params : Change → Production → Fields → Prop
  | unnumbered, .lambda, fs => ∀ t, Returns (lower (fs.get 0)) t → Production.IsParams t
  | unnumbered, .blockCall, fs => ∀ t args body, Returns (lower (fs.get 1)) t →
      t.children? = some [args, body] → Production.IsParams args
  | _, _, _ => True

/-- A chain of clauses. -/
def Chain : Change → Raw → Prop
  | moved _, r => r.Clauses
  | _, _ => True

/-- What a node has to be like. -/
structure Fits (c : Change) (tag : String) (fs : Fields) : Prop where
  text : Raw.isScanner tag → c.Plain (fs.get 0)
  place : ∀ i, Raw.positionField? tag = some i → c.Sited (fs.get i)
  variableName : tag = "var_field" → c.Scanned (fs.get 0)
  names : ∀ p, Production.ofTag? tag = some p → ∀ x ∈ p.names fs, c.Scanned x
  comment : tag = "comment" → c.Plain (fs.get 0)
  word : tag = "@kw" → c.Word (fs.get 0)
  chain : tag = "bodystmt" → c.Chain (fs.get 1)
  spelled : ∀ p, Production.ofTag? tag = some p → ∀ x ∈ p.spelled fs, c.Spells (fun _ => True) x
  quoted : ∀ p, Production.ofTag? tag = some p → ∀ x ∈ p.quoted fs, c.Spells (·.hasTag "str") x
  opened : ∀ p, Production.ofTag? tag = some p → ∀ x ∈ p.opened fs, c.Whole x
  params : ∀ p, Production.ofTag? tag = some p → c.Params p fs

theorem fits_renumbered (tag : String) (fs : Fields) : renumbered.Fits tag fs where
  text _ := trivial
  place _ _ := trivial
  variableName _ := trivial
  names _ _ _ _ := trivial
  comment _ := trivial
  word _ := trivial
  chain _ := trivial
  spelled _ _ _ _ h := absurd rfl h
  quoted _ _ _ _ h := absurd rfl h
  opened _ _ _ _ := trivial
  params _ _ := trivial

section Reading

variable {c : Change} {r : Raw}

/-- Without a move both programs are the same. -/
theorem first_eq_second (hc : ∀ k, c ≠ moved k) (r : Raw) : c.first r = c.second r := by
  cases c with
  | moved k => exact absurd rfl (hc k)
  | unnumbered => rfl
  | renumbered => rfl

theorem first_eq_self (hc : ∀ k, c ≠ moved k) (r : Raw) : c.first r = r := by
  cases c with
  | moved k => exact absurd rfl (hc k)
  | unnumbered => exact Raw.relocate_eq_self (fun _ _ => rfl) r
  | renumbered => exact Raw.relocate_eq_self (fun _ _ => rfl) r

theorem second_eq_self (hc : ∀ k, c ≠ moved k) (r : Raw) : c.second r = r := by
  rw [← first_eq_second hc, first_eq_self hc]

theorem lines_refl (hc : ∀ k, c ≠ moved k) (l : Option Raw) : Option.Rel c.Lines l l := by
  cases l with
  | none => exact .none
  | some l =>
    cases c with
    | moved k => exact absurd rfl (hc k)
    | unnumbered => exact .some rfl
    | renumbered => exact .some rfl

theorem counted_refl (hc : ∀ k, c ≠ moved k) (l : Option Raw) : Option.Rel c.Counted l l := by
  cases l with
  | none => exact .none
  | some l =>
    cases c with
    | moved k => exact absurd rfl (hc k)
    | unnumbered => exact .some rfl
    | renumbered => exact .some rfl

/-- A field that is the same in both programs. -/
theorem Plain.first (h : c.Plain r) : c.first r = r := by
  cases c with
  | moved k =>
    obtain ⟨a, rfl⟩ := h
    exact Raw.relocate_atom a
  | unnumbered => exact first_eq_self (by intro k hk; cases hk) r
  | renumbered => exact first_eq_self (by intro k hk; cases hk) r

theorem Plain.second (h : c.Plain r) : c.second r = r := by
  cases c with
  | moved k =>
    obtain ⟨a, rfl⟩ := h
    exact Raw.relocate_atom a
  | unnumbered => exact second_eq_self (by intro k hk; cases hk) r
  | renumbered => exact second_eq_self (by intro k hk; cases hk) r

theorem Plain.leaves (h : c.Plain r) : c.Leaves r r := by
  cases c with
  | moved k =>
    obtain ⟨a, rfl⟩ := h
    exact leaves_refl a
  | unnumbered => rfl
  | renumbered => rfl

/-- The lines of a position that is moved. -/
theorem Sited.of_moved {k : Int} (h : (moved k).Sited r) (here : Bool) :
    (((moved k).first r).reline ((moved k).firstLine here)).positionLine? = none ∧
        (((moved k).second r).reline ((moved k).secondLine here)).positionLine? = none ∨
      ∃ l, (((moved k).first r).reline ((moved k).firstLine here)).positionLine? =
          some (if here then .list [.int l] else .int l) ∧
        (((moved k).second r).reline ((moved k).secondLine here)).positionLine? =
          some (.int (l + k)) := by
  unfold first second
  match r with
  | .atom a =>
    rw [Raw.relocate_atom, Raw.relocate_atom]
    exact .inl ⟨rfl, rfl⟩
  | .list [] =>
    rw [Raw.relocate, Raw.relocate, Raw.relocateItems, Raw.relocateItems]
    exact .inl ⟨rfl, rfl⟩
  | .list (x :: rest) =>
    -- A position whose first item is null has no line in either program.
    by_cases hnull : x = .null
    · subst hnull
      rw [Raw.relocate_untagged rfl, Raw.relocate_untagged rfl, List.map_cons, List.map_cons,
        Raw.relocate_atom, Raw.relocate_atom]
      cases here with
      | false => exact .inl ⟨rfl, rfl⟩
      | true => exact .inl ⟨rfl, rfl⟩
    · have hline : (Raw.list (x :: rest)).positionLine? = some x := by
        unfold Raw.positionLine?
        split
        · rename_i heq
          cases heq
          exact absurd rfl hnull
        · rename_i heq
          cases heq
          rfl
        · rename_i heq
          exact absurd rfl (heq _ _)
      obtain ⟨l, rfl⟩ := h x hline
      rw [Raw.relocate_untagged rfl, Raw.relocate_untagged rfl, List.map_cons, List.map_cons,
        Raw.relocate_atom, Raw.relocate_atom]
      cases here with
      | false => exact .inr ⟨l, rfl, rfl⟩
      | true => exact .inr ⟨l, rfl, rfl⟩

/-- The line of a position. -/
theorem Sited.line? (h : c.Sited r) (here : Bool) :
    Option.Rel c.Lines ((c.first r).reline (c.firstLine here)).positionLine?
      ((c.second r).reline (c.secondLine here)).positionLine? := by
  cases c with
  | unnumbered => exact lines_refl (by intro k hk; cases hk) _
  | renumbered => exact lines_refl (by intro k hk; cases hk) _
  | moved k =>
    obtain ⟨hfirst, hsecond⟩ | ⟨l, hfirst, hsecond⟩ := h.of_moved here
    · rw [hfirst, hsecond]
      exact .none
    · rw [hfirst, hsecond]
      cases here with
      | false => exact .some ⟨l, .inl rfl, rfl⟩
      | true => exact .some ⟨l, .inr rfl, rfl⟩

/-- A line that lines can be counted from. -/
theorem Sited.counted (h : c.Sited r) :
    Option.Rel c.Counted ((c.first r).reline (c.firstLine false)).positionLine?
      ((c.second r).reline (c.secondLine false)).positionLine? := by
  cases c with
  | unnumbered => exact counted_refl (by intro k hk; cases hk) _
  | renumbered => exact counted_refl (by intro k hk; cases hk) _
  | moved k =>
    obtain ⟨hfirst, hsecond⟩ | ⟨l, hfirst, hsecond⟩ := h.of_moved false
    · rw [hfirst, hsecond]
      exact .none
    · rw [hfirst, hsecond]
      exact .some ⟨l, rfl, rfl⟩

/-- The line of a `__LINE__` as its value. -/
theorem Sited.value (h : c.Sited r) :
    c.Leaves (((c.first r).reline (c.firstLine true)).positionLine?.getD .null)
      (((c.second r).reline (c.secondLine true)).positionLine?.getD .null) := by
  cases c with
  | unnumbered => rfl
  | renumbered => rfl
  | moved k =>
    obtain ⟨hfirst, hsecond⟩ | ⟨l, hfirst, hsecond⟩ := h.of_moved true
    · rw [hfirst, hsecond]
      exact .inl ⟨.null, rfl, rfl⟩
    · rw [hfirst, hsecond]
      exact .inr ⟨l, rfl, rfl⟩

/-- A token in either of the two programs. -/
theorem relocate_token {line : Bool → Raw → Raw} {tag : String} (htag : Raw.isScanner tag)
    (a : Atom) (rest : List Raw) :
    Raw.relocate line (.list (.str tag :: .atom a :: rest)) = .list (.str tag :: .atom a ::
      Raw.relocateItems line (Raw.isLineWord (.str tag :: .atom a :: rest)) (some 0) rest) := by
  rw [Raw.relocate_node, Raw.positionField?_of_isScanner htag, Raw.relocateItems, Raw.relocate_atom]

namespace Scanned

theorem item? (h : c.Scanned r) : (c.first r).item? 1 = (c.second r).item? 1 := by
  cases c with
  | unnumbered => rfl
  | renumbered => rfl
  | moved k =>
    unfold first second
    cases h.1 with
    | atom a => rw [Raw.relocate_atom, Raw.relocate_atom]
    | scanned htag a rest =>
      rw [relocate_token htag, relocate_token htag]
      rfl

theorem nameIn (h : c.Scanned r) : LowerM.nameIn (c.first r) = LowerM.nameIn (c.second r) := by
  rw [LowerM.nameIn, LowerM.nameIn, h.item?]

theorem nameOf (h : c.Scanned r) : LowerM.nameOf (c.first r) = LowerM.nameOf (c.second r) := by
  rw [LowerM.nameOf, LowerM.nameOf, h.nameIn, first, second, Raw.text?_relocate,
    Raw.text?_relocate]

theorem callTag (h : c.Scanned r) : LowerM.callTag (c.first r) = LowerM.callTag (c.second r) := by
  cases c with
  | unnumbered => rfl
  | renumbered => rfl
  | moved k =>
    unfold LowerM.callTag
    rw [h.item?]
    unfold first second
    rw [Raw.tag?_relocate, Raw.tag?_relocate]
    cases h.1 with
    | atom a => rw [Raw.relocate_atom, Raw.relocate_atom]
    | scanned htag a rest => rfl

theorem line? (h : c.Scanned r) : Option.Rel c.Lines (c.first r).line? (c.second r).line? := by
  cases c with
  | unnumbered => exact lines_refl (by intro k hk; cases hk) _
  | renumbered => exact lines_refl (by intro k hk; cases hk) _
  | moved k =>
    obtain ⟨htoken, hline⟩ := h
    -- A token has its position behind the text, and an atom has none.
    cases htoken with
    | atom a =>
      unfold first second
      rw [Raw.relocate_atom, Raw.relocate_atom]
      exact .none
    | scanned htag a rest =>
      unfold first second
      rw [relocate_token htag, relocate_token htag]
      cases rest with
      | nil =>
        rw [Raw.relocateItems, Raw.relocateItems]
        exact .none
      | cons p rest =>
        have hp : (moved k).Sited p := hline
        rw [Raw.relocateItems, Raw.relocateItems]
        exact hp.line? _

end Scanned

end Reading

end Change

end RubyTree
