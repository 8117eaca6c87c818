import RubyTree.Literal.Capture
import RubyTree.Proofs.Literal.Protected

/-!
# Where Named Groups Begin

The names of the groups are found by going over a regular expression from left to
right, and what was found is skipped. Nothing is lost by this, since a group begins
with a bracket and there is none in the rest of what it begins with. So a name is found
if it is that of a group anywhere that no backslash stands right before.

A bracket is escaped if an odd number of backslashes stands before it. One of two is
such a number, but the second of two is not seen as escaped itself: of a group after an
even number of backslashes the name is not found.

## Main definitions

* `IsGroupName`: A name that a group can have.
* `groupOpening`: What a group of a name begins with.
* `GroupBegins`: A group begins after some of a text.

## Theorems

* `groupName?_eq_some_iff`: Reading the name of a group.
* `groupBegins_append_iff`: A group begins with another one or after it.
* `mem_groupNames`: The names that are found.
-/

namespace RubyTree

/-- A name that a group can have. -/
def IsGroupName : List Char → Prop
  | c :: cs => Text.startsIdentifier c ∧ ∀ d ∈ cs, Text.isWord d
  | [] => False

/-- What a group of this name begins with. -/
def groupOpening (name : List Char) : List Char :=
  '(' :: '?' :: '<' :: (name ++ ['>'])

/-- A named group begins in a text after some of it. -/
def GroupBegins (source before name : List Char) : Prop :=
  IsGroupName name ∧ before ++ groupOpening name <+: source

/-- Whether a backslash stands right before what comes after a text; the flag says
    whether one stands before the text. -/
def endsInBackslash (afterBackslash : Bool) (before : List Char) : Bool :=
  (before.getLast?.map (· == '\\')).getD afterBackslash

section Openings

variable {cs rest before name name' : List Char}

theorem isWord_closing : Text.isWord '>' = false := by
  decide +kernel

theorem isWord_bracket : Text.isWord '(' = false := by
  decide +kernel

theorem bracket_not_mem (h : IsGroupName name) : '(' ∉ name := by
  cases name with
  | nil => exact List.not_mem_nil
  | cons c cs =>
    intro hmem
    rcases List.mem_cons.1 hmem with rfl | hmem
    · exact absurd h.1 (by decide)
    · exact absurd (h.2 _ hmem) (by simp [isWord_bracket])

/-- The name of a group is read up to its end. -/
theorem groupName?_opening (h : IsGroupName name) (rest : List Char) :
    groupName? (groupOpening name ++ rest) = some (name, rest) := by
  cases name with
  | nil => exact h.elim
  | cons c cs =>
    obtain ⟨hc, hcs⟩ := h
    have hword : (cs ++ '>' :: rest).takeWhile Text.isWord = cs := by
      rw [List.takeWhile_append_of_pos hcs, List.takeWhile_cons_of_neg (by simp [isWord_closing]),
        List.append_nil]
    simp [groupOpening, groupName?, hword, hc]

theorem groupName?_eq_some_iff :
    groupName? cs = some (name, rest) ↔ IsGroupName name ∧ cs = groupOpening name ++ rest := by
  constructor
  · intro h
    unfold groupName? at h
    split at h
    next c cs =>
      dsimp only at h
      split at h
      next after hc hafter =>
        cases h
        refine ⟨⟨hc, fun d hd => List.mem_takeWhile_imp hd⟩, ?_⟩
        -- The name is what is taken as word characters, and the bracket stands right behind it.
        have hcut := List.prefix_iff_eq_append.1 (List.takeWhile_prefix Text.isWord (l := cs))
        rw [hafter] at hcut
        show _ = '(' :: '?' :: '<' :: c :: (cs.takeWhile Text.isWord ++ ['>'] ++ rest)
        rw [List.append_assoc, List.singleton_append, hcut]
      next => cases h
    next => cases h
  · rintro ⟨hname, rfl⟩
    exact groupName?_opening hname rest

/-- A group begins with another one or after it, since there is no bracket in what a
    group begins with but at the front. -/
theorem groupBegins_append_iff (h : IsGroupName name) :
    GroupBegins (groupOpening name ++ rest) before name' ↔
      (before = [] ∧ name' = name) ∨
        ∃ before', before = groupOpening name ++ before' ∧ GroupBegins rest before' name' := by
  constructor
  · rintro ⟨hname', after, hafter⟩
    rw [List.append_assoc] at hafter
    rcases List.append_eq_append_iff.1 hafter with ⟨inner, hinner, hrest⟩ | ⟨before', rfl, hrest⟩
    · cases before with
      | nil =>
        left
        have hboth := groupName?_opening hname' after
        rw [hrest, ← List.nil_append inner, ← hinner, groupName?_opening h rest] at hboth
        exact ⟨rfl, (Prod.mk.inj (Option.some.inj hboth)).1.symm⟩
      | cons b before =>
        right
        cases inner with
        | nil =>
          refine ⟨[], by rw [hinner, List.append_nil, List.append_nil], hname', after, ?_⟩
          simpa using hrest
        | cons c inner =>
          -- The bracket of the second group would be one of the first.
          have hc : c = '(' := (List.cons.inj hrest).1.symm
          have hmem : '(' ∈ '?' :: '<' :: (name ++ ['>']) := by
            have htail := (List.cons.inj hinner).2
            rw [htail, hc]
            exact List.mem_append_right _ List.mem_cons_self
          simp [bracket_not_mem h] at hmem
    · exact .inr ⟨before', rfl, hname', after, by rw [hrest, List.append_assoc]⟩
  · rintro (⟨rfl, rfl⟩ | ⟨before', rfl, hname', after, rfl⟩)
    · exact ⟨h, rest, rfl⟩
    · exact ⟨hname', after, by simp only [List.append_assoc]⟩

end Openings

section Scanning

theorem endsInBackslash_cons (afterBackslash : Bool) (c : Char) (before : List Char) :
    endsInBackslash afterBackslash (c :: before) = endsInBackslash (c == '\\') before := by
  unfold endsInBackslash
  rw [List.getLast?_cons]
  cases before.getLast? <;> rfl

theorem endsInBackslash_opening (name before : List Char) :
    endsInBackslash false (groupOpening name ++ before) = endsInBackslash false before := by
  unfold endsInBackslash
  rw [List.getLast?_append]
  cases before.getLast? with
  | none => simp [groupOpening, List.getLast?_cons]
  | some c => rfl

theorem not_groupBegins_nil {before name : List Char} : ¬ GroupBegins [] before name := by
  rintro ⟨-, hprefix⟩
  simp [groupOpening] at hprefix

/-- The names that are found from here on. -/
theorem mem_groupNamesFrom {name : String} {fuel : Nat} {afterBackslash : Bool} {cs : List Char}
    (hfuel : cs.length ≤ fuel) :
    name ∈ groupNamesFrom fuel afterBackslash cs ↔
      ∃ before, GroupBegins cs before name.toList ∧
        endsInBackslash afterBackslash before = false := by
  induction fuel generalizing afterBackslash cs with
  | zero =>
    obtain rfl := List.length_eq_zero_iff.1 (Nat.le_zero.1 hfuel)
    simp [groupNamesFrom, not_groupBegins_nil]
  | succ fuel ih =>
    cases cs with
    | nil => simp [groupNamesFrom, not_groupBegins_nil]
    | cons c cs =>
      rw [groupNamesFrom]
      split
      next found rest hfound =>
        obtain rfl : afterBackslash = false := by
          cases afterBackslash with
          | false => rfl
          | true => cases hfound
        obtain ⟨hname, hcs⟩ := groupName?_eq_some_iff.1 hfound
        have hlength : rest.length ≤ fuel := by
          have := congrArg List.length hcs
          simp only [groupOpening, List.length_cons, List.length_append] at this hfuel
          omega
        rw [List.mem_cons, ih hlength, hcs]
        constructor
        · rintro (rfl | ⟨before, hbegins, hends⟩)
          · refine ⟨[], (groupBegins_append_iff hname).2 (.inl ⟨rfl, String.toList_ofList⟩), rfl⟩
          · refine ⟨groupOpening found ++ before, ?_, ?_⟩
            · exact (groupBegins_append_iff hname).2 (.inr ⟨before, rfl, hbegins⟩)
            · rw [endsInBackslash_opening, hends]
        · rintro ⟨before, hbegins, hends⟩
          rcases (groupBegins_append_iff hname).1 hbegins with ⟨-, heq⟩ | ⟨later, rfl, hlater⟩
          · exact .inl (by rw [← heq, String.ofList_toList])
          · rw [endsInBackslash_opening] at hends
            exact .inr ⟨later, hlater, hends⟩
      next hnone =>
        rw [ih (Nat.le_of_succ_le_succ hfuel)]
        constructor
        · rintro ⟨before, ⟨hname, after, rfl⟩, hends⟩
          exact ⟨c :: before, ⟨hname, after, rfl⟩, (endsInBackslash_cons ..).trans hends⟩
        · rintro ⟨before, ⟨hname, after, hafter⟩, hends⟩
          cases before with
          | nil =>
            -- A group that begins here would have been read.
            obtain rfl : afterBackslash = false := hends
            have hread := groupName?_opening hname after
            rw [← List.nil_append (groupOpening _), hafter] at hread
            rw [if_neg (by decide), hread] at hnone
            cases hnone
          | cons b before =>
            obtain ⟨rfl, hrest⟩ := List.cons.inj hafter
            exact ⟨before, ⟨hname, after, hrest⟩, (endsInBackslash_cons ..).symm.trans hends⟩

/-- The names that are found are those of the groups that no backslash stands right
    before. -/
theorem mem_groupNames {name source : String} :
    name ∈ groupNames source ↔
      ∃ before, GroupBegins source.toList before name.toList ∧ backslashesAtEnd before = 0 := by
  have hends : ∀ before : List Char,
      endsInBackslash false before = false ↔ backslashesAtEnd before = 0 := by
    intro before
    unfold endsInBackslash backslashesAtEnd
    rcases List.eq_nil_or_concat before with rfl | ⟨before, c, rfl⟩
    · simp
    · by_cases hc : c = '\\' <;> simp [List.concat_eq_append, hc]
  simp only [groupNames, mem_groupNamesFrom (Nat.le_refl _), hends]

end Scanning

end RubyTree
