import RubyTree.Program
import RubyTree.Proofs.Lower.Compared.Form
import RubyTree.Proofs.Lower.Shape
import RubyTree.Proofs.Tree.Moved

/-!
# Programs on Other Lines

A program that is moved down in its file keeps its meaning, and what is made of it
should be the same but for lines. So it is. Lines are picked up in many places: from
tokens, from definitions, from empty statements, and from the token that content of
several lines starts with, which is counted on from. But none of this decides
anything. Moving a raw tree moves the syntax tree, and if there is no syntax tree
there is none after moving either, for the same reason.

There is one place where a line becomes a value, and that is `__LINE__`. Its value
moves, and other integers do not, so the theorem is stated with a raw tree in which
the lines of `__LINE__` are marked. The syntax tree of that one says which leaves
are lines.

All this rests on where names come from. A token keeps its position apart from its
text, so a name that is read off a token does not depend on the position; a name
that is read off anything else might. `Raw.Sourced` says that the fields which are
read as names, operators and texts are tokens or atoms, and that a key or symbol
made from a literal is made from a literal. It also rules out one chain of clauses
that no program has: an empty statement in place of a rescue clause would have its
position read as a list of exceptions, and the line would be one of them.

## Main definitions

* `Raw.Sourced`: A raw tree whose names come from tokens.

## Theorems

* `Sourced.everywhere`: Such a raw tree is lowered in parallel with itself on other lines.
* `lower_shift`: Lowering on other lines.
* `programOfRaw_shift`: The syntax tree of a program on other lines.
* `programOfRaw_emptyClause`: The chain of clauses that is ruled out.
-/

namespace RubyTree

open LowerM

namespace Raw

/-- A name or an operator: an atom, or a token at a position whose line is an
    integer, if it has one. -/
def Scanned (r : Raw) : Prop :=
  r.Token ∧ r.position.OnLine

/-- A node whose names come from tokens. -/
structure Sources (tag : String) (fs : Fields) : Prop where
  text : isScanner tag → ∃ a, fs.get 0 = atom a
  place : ∀ i, positionField? tag = some i → (fs.get i).OnLine
  variableName : tag = "var_field" → (fs.get 0).Scanned
  names : ∀ p, Production.ofTag? tag = some p → ∀ x ∈ p.names fs, x.Scanned
  comment : tag = "comment" → ∃ a, fs.get 0 = atom a
  /-- A keyword with this text would be taken for the target of an assignment. -/
  word : tag = "@kw" → (fs.get 0).text? ≠ some "field"
  clauses : tag = "bodystmt" → (fs.get 1).Clauses
  keys : ∀ p, Production.ofTag? tag = some p → ∀ x ∈ p.spelled fs, Key x
  literals : ∀ p, Production.ofTag? tag = some p → ∀ x ∈ p.quoted fs, Literal false x

/-- A raw tree whose names come from tokens. -/
inductive Sourced : Raw → Prop where
  | atom (a : Atom) : Sourced (atom a)
  | list {items : List Raw} (hnode : ∀ tag fs, items = str tag :: fs → Sources tag fs)
      (hitems : ∀ x ∈ items, Sourced x) : Sourced (list items)

theorem Sources.fits {tag : String} {fs : Fields} (h : Sources tag fs) (k : Int) :
    (Change.moved k).Fits tag fs where
  text := h.text
  place := h.place
  variableName := h.variableName
  names := h.names
  comment := h.comment
  word := h.word
  chain := h.clauses
  spelled p hp x hx := (h.keys p hp x hx).spells _
  quoted p hp x hx := (h.literals p hp x hx).spells _
  opened _ _ _ _ := trivial
  params _ _ := trivial

/-- Such a raw tree is lowered in parallel with itself on other lines. -/
theorem Sourced.everywhere {r : Raw} (h : r.Sourced) (k : Int) : (Change.moved k).Everywhere r := by
  induction h with
  | atom a => exact .atom a
  | list hnode _ ih => exact .list (fun tag fs heq => (hnode tag fs heq).fits k) ih

theorem shift_zero (r : Raw) : r.shift 0 = r := by
  refine relocate_eq_self (fun _ line => ?_) r
  unfold lineAfter
  split
  · rw [Int.add_zero]
  · rfl

end Raw

namespace Change

variable {k : Int}

theorem marks_moved {m m' : Mark} (h : (moved k).Marks m m') : m' = m.downBy k := by
  obtain ⟨line, comments, shared⟩ := m
  obtain ⟨line', comments', shared'⟩ := m'
  obtain ⟨hline, hcomments, hshared⟩ := h
  -- A line of the first program may be marked, and then it is the same line without the mark.
  have hline : line' = line.map (Raw.lineBelow k) := by
    cases hline with
    | none => rfl
    | some hline =>
      obtain ⟨l, rfl | rfl, rfl⟩ := hline
      · rfl
      · rfl
  have hshared : shared' = shared := by
    cases hshared with
    | none => rfl
    | some hshared => exact congrArg some (Eq.symm hshared)
  rw [hline, hshared, ← show comments = comments' from hcomments]
  rfl

mutual

/-- The second tree is the first so many lines further down. -/
theorem eq_downBy : (t : Tree) → {t' : Tree} → (moved k).Agree t t' → t' = t.downBy k
  | .leaf _, _, .leaf h => by
    obtain ⟨a, rfl, rfl⟩ | ⟨l, rfl, rfl⟩ := h
    · rfl
    · rfl
  | .node _ _ ts, _, .node hmark _ h => by
    rw [Tree.downBy, marks_moved hmark, eq_downAll ts h]
  | .node _ _ _, _, .block hc _ _ _ _ => nomatch hc

theorem eq_downAll : (ts : List Tree) → {ts' : List Tree} → (moved k).AgreeAll ts ts' →
    ts' = Tree.downAll k ts
  | [], _, .nil => rfl
  | t :: ts, _, .cons h hs => by rw [Tree.downAll, eq_downBy t h, eq_downAll ts hs]

end

end Change

/-- Moving the raw tree moves what it is lowered to, and lowering fails as before. -/
theorem LowerM.lower_shift {r : Raw} (h : r.Sourced) (k : Int) (options : Options) (scope : Scope) :
    ((lower (r.shift k)).runIn options scope).1 =
      ((lower r.marked).runIn options scope).1.map (Tree.downBy k) := by
  have hrun := (h.everywhere k).lower options options scope scope rfl (Change.scopes_refl scope)
  have hends : Change.Ends (Change.moved k).Agree ((lower r.marked).runIn options scope).1
    ((lower (r.shift k)).runIn options scope).1 := hrun.1
  -- Both runs end in the same way, so two of the four combinations are left.
  cases hfirst : ((lower r.marked).runIn options scope).1 <;>
    cases hsecond : ((lower (r.shift k)).runIn options scope).1 <;>
    rw [hfirst, hsecond] at hends <;> cases hends
  · rfl
  · rename_i h
    rw [Change.eq_downBy _ h, Except.map]

/-- A program is empty or not wherever it stands. -/
theorem Tree.isVoid_downBy (k : Int) (t : Tree) : (t.downBy k).isVoid = t.isVoid := by
  cases t with
  | leaf v =>
    rw [downBy]
    unfold Raw.valueBelow
    split
    · rfl
    · rfl
  | node tag mark children =>
    rw [downBy, isVoid, isVoid, hasTag_congr (mark.downBy k) mark (downAll k children) children]
    rfl

theorem programOfRaw_eq (options : Options) (r : Raw) : programOfRaw options r =
    ((lower r).runIn options {}).1.map fun t => if t.isVoid then none else some t.fillShared := by
  unfold programOfRaw lowerProgram
  rw [runIn_bind]
  cases (lower r).runIn options {} with
  | mk result scope =>
    cases result with
    | error e => rfl
    | ok t =>
      dsimp only [Except.map, runIn_pure]
      split
      · rfl
      · rfl

/-- The syntax tree of a program on other lines is that of the program, moved to
    those lines together with the values of `__LINE__`. There is none exactly if there
    is none for the program, and if there is an error it is the same. -/
theorem programOfRaw_shift {r : Raw} (h : r.Sourced) (options : Options) :
    programOfRaw options r = (programOfRaw options r.marked).map (Option.map (Tree.downBy 0)) ∧
      ∀ k, programOfRaw options (r.shift k) =
        (programOfRaw options r.marked).map (Option.map (Tree.downBy k)) := by
  have hshift : ∀ k, programOfRaw options (r.shift k) =
      (programOfRaw options r.marked).map (Option.map (Tree.downBy k)) := by
    intro k
    rw [programOfRaw_eq, programOfRaw_eq, lower_shift h]
    cases ((lower r.marked).runIn options {}).1 with
    | error e => rfl
    | ok t =>
      dsimp only [Except.map]
      rw [Tree.isVoid_downBy, Tree.fillShared_downBy]
      split
      · rfl
      · rfl
  -- Shifting by nothing is the first half: the raw tree is then its own shift.
  have hself := hshift 0
  rw [Raw.shift_zero] at hself
  exact ⟨hself, hshift⟩

section Samples

open Raw (node token Sources Sourced)

theorem sourced_node {tag : String} {fs : List Raw} {p : Production}
    (hp : Production.ofTag? tag = some p)
    (hplain : p.names fs = [] ∧ p.spelled fs = [] ∧ p.quoted fs = [])
    (hplace : Raw.positionField? tag = none)
    (htag : tag ∉ ["var_field", "comment", "bodystmt"]) (hfs : ∀ x ∈ fs, Sourced x) :
    Sourced (node tag fs) := by
  -- The node of a scanner has a position, and this one has none.
  have hscanner : Raw.isScanner tag = false := by
    by_contra h
    rw [Raw.positionField?_of_isScanner (by simpa using h)] at hplace
    cases hplace
  have hne : ∀ {t : String}, t ∈ ["var_field", "comment", "bodystmt"] → tag ≠ t :=
    fun ht heq => htag (heq ▸ ht)
  refine .list (fun tag' fs' heq => ?_) (List.forall_mem_cons.2 ⟨.atom _, hfs⟩)
  cases heq
  refine
    { text := fun h => ?_
      place := fun i hi => ?_
      variableName := fun h => absurd h (hne (by decide))
      names := fun q hq x hx => ?_
      comment := fun h => absurd h (hne (by decide))
      word := fun h => ?_
      clauses := fun h => absurd h (hne (by decide))
      keys := fun q hq x hx => ?_
      literals := fun q hq x hx => ?_ }
  · rw [hscanner] at h
    cases h
  · rw [hplace] at hi
    cases hi
  · cases hp.symm.trans hq
    rw [hplain.1] at hx
    cases hx
  · rw [h] at hplace
    cases hplace
  · cases hp.symm.trans hq
    rw [hplain.2.1] at hx
    cases hx
  · cases hp.symm.trans hq
    rw [hplain.2.2] at hx
    cases hx

theorem sourced_value {tag text : String} (line : Int)
    (htag : tag ∈ ["@kw", "@int"]) (htext : text ≠ "field") :
    Sourced (token tag text (.list [.int line, .int 0])) := by
  have hplace : Sourced (.list [.int line, .int 0]) := by
    -- No token has clauses, keys or contents, so only its text and its place are left.
    refine .list (fun tag fs heq => by cases heq) (List.forall_mem_cons.2 ⟨.atom _, ?_⟩)
    exact List.forall_mem_singleton.2 (.atom _)
  refine .list (fun tag' fs' heq => ?_) (List.forall_mem_cons.2 ⟨.atom _,
    List.forall_mem_cons.2 ⟨.atom _, List.forall_mem_singleton.2 hplace⟩⟩)
  cases heq
  have hproduction : ∀ p, Production.ofTag? tag = some p → p = .keyword ∨ p = .integer := by
    intro p hp
    simp only [List.mem_cons, List.not_mem_nil, or_false] at htag
    rcases htag with rfl | rfl
    · exact .inl (Option.some.inj hp).symm
    · exact .inr (Option.some.inj hp).symm
  refine
    { text := fun _ => ⟨_, rfl⟩
      place := fun i hi => ?_
      variableName := fun h => absurd (h ▸ htag) (by decide)
      names := fun p hp x hx => ?_
      comment := fun h => absurd (h ▸ htag) (by decide)
      word := fun _ h => htext (Option.some.inj h)
      clauses := fun h => absurd (h ▸ htag) (by decide)
      keys := fun p hp x hx => ?_
      literals := fun p hp x hx => ?_ }
  · have hfirst : Raw.positionField? tag = some 1 := by
      simp only [List.mem_cons, List.not_mem_nil, or_false] at htag
      rcases htag with rfl | rfl
      · rfl
      · rfl
    cases hfirst.symm.trans hi
    exact fun l hl => ⟨line, (Option.some.inj hl).symm⟩
  all_goals
    rcases hproduction p hp with rfl | rfl
    · cases hx
    · cases hx

/-- A program that reads its line, which is a value elsewhere in it. -/
def readsLine : Raw :=
  node "program" [node "stmts" [node "var_ref" [token "@kw" "__LINE__" (.list [.int 3, .int 0])],
    token "@int" "3" (.list [.int 3, .int 0])]]

/-- Four lines further down the one value is another, and the other is the same. -/
theorem programOfRaw_shift_readsLine : readsLine.Sourced ∧
    programOfRaw {} (readsLine.shift 4) = .ok (some (.placed (some (.int 7)) "begin"
      [.placed (some (.int 7)) "int" [.int 7], .placed (some (.int 7)) "int" [.int 3]])) := by
  have hsourced : readsLine.Sourced := by
    refine sourced_node rfl ⟨rfl, rfl, rfl⟩ rfl (by decide) (List.forall_mem_singleton.2 ?_)
    refine sourced_node rfl ⟨rfl, rfl, rfl⟩ rfl (by decide) (List.forall_mem_cons.2 ⟨?_, ?_⟩)
    · exact sourced_node rfl ⟨rfl, rfl, rfl⟩ rfl (by decide)
        (List.forall_mem_singleton.2 (sourced_value 3 (by decide) (by decide)))
    · exact List.forall_mem_singleton.2 (sourced_value 3 (by decide) (by decide))
  refine ⟨hsourced, ?_⟩
  rw [(programOfRaw_shift hsourced {}).2 4]
  rfl

/-- An empty statement in place of a rescue clause has its position read as a list
    of exceptions. A line that is no zero is none, so lowering fails at the first line
    and succeeds one line further up. -/
theorem programOfRaw_emptyClause :
    let r := node "bodystmt"
      [node "stmts" [], node "void_stmt" [.list [.int 1, .int 0]], .null, .null]
    programOfRaw {} r = .error .notANode ∧
      programOfRaw {} (r.shift (-1)) = .ok (some (.bare "rescue"
        [.null, .bare "resbody" [.bare "array" [.null, .null], .null, .null], .null])) :=
  ⟨rfl, rfl⟩

end Samples

end RubyTree
