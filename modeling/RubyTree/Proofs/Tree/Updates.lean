import RubyTree.Proofs.Tree.SharedLines

/-!
# Updates

The assignment of an operation's result to a constant in another one puts what the
constant is in at two places: in the assignment itself, and in the read of the
constant below it. Both are offered the same line. If there is one before or in
what is shared, the assignment and the read both have it, and otherwise the read
gets its line from the assignment.

What is shared may hold such assignments itself, and then each of these stands in
four places. That is all right too, since whatever encloses the places offers them
the same line. It only must not happen that a number stands for two nodes.

So numbers are counted, and what an update shares is counted once. A number that
is not in its place counts twice, and a tree in which no number counts more than
once is one whose places agree.

## Main definitions

* `Tree.IsUpdate`: The assignment of an operation's result to a constant.
* `Tree.uses`: How often a number counts in a tree.
* `Tree.inner`: The same, but for the root.
* `Tree.Once`: No number counts more than once.

## Theorems

* `Tree.uses_bare`, `Tree.uses_node_le`, `Tree.usesAll_children_le`: The numbers in a node
  and in its children.
* `Tree.inner_update`: The numbers in an update.
* `Tree.agree_places_filled`: If no number counts more than once, the places agree.
-/

namespace RubyTree

namespace Tree

open SharedLines (Agree)

/-- The number of a node that stands in several places. -/
def number? : Tree → Option Nat
  | node _ mark _ => mark.shared
  | leaf _ => none

/-- The assignment of an operation's result to a constant, which is read in the
    operation: both have the same scope below and the same line. -/
inductive IsUpdate : Tree → Prop where
  | intro {mark mark' : Mark} {scope value : Tree} {name op : Raw} (h : mark'.line = mark.line) :
      IsUpdate (node (.str "casgn") mark [scope, leaf name, bare "send"
        [node (.str "const") mark' [scope, leaf name], leaf op, value]])

/-- Whether a number is that of the root. -/
def own (k : Nat) (t : Tree) : Nat :=
  if t.number? = some k then 1 else 0

mutual

/-- How often a number counts in a tree below its root. What stands in two places
    of an update counts in one of them. -/
noncomputable def inner (k : Nat) : Tree → Nat
  | leaf _ => 0
  | node tag mark children =>
    open Classical in
    usesAll k children - if IsUpdate (node tag mark children) then headUses k children else 0

/-- How often a number counts in the trees. -/
noncomputable def usesAll (k : Nat) : List Tree → Nat
  | [] => 0
  | t :: ts => 2 * own k t + inner k t + usesAll k ts

/-- How often a number counts too often in an update: it is the number of what is
    shared rather than one that is out of place, and there are two places. -/
noncomputable def headUses (k : Nat) : List Tree → Nat
  | [] => 0
  | t :: _ => 3 * own k t + inner k t

end

/-- How often a number counts in a tree, where that of the root is not in its place. -/
noncomputable def uses (k : Nat) (t : Tree) : Nat :=
  2 * own k t + inner k t

section Uses

variable {k : Nat} {tag : Raw} {mark : Mark} {children ts us : List Tree} {t : Tree}

@[simp] theorem own_leaf (v : Raw) : own k (leaf v) = 0 := rfl

@[simp] theorem inner_leaf (v : Raw) : inner k (leaf v) = 0 := by
  rw [inner]

@[simp] theorem uses_leaf (v : Raw) : uses k (leaf v) = 0 := by
  rw [uses, own_leaf, inner_leaf]

@[simp] theorem usesAll_nil : usesAll k [] = 0 := by
  rw [usesAll]

@[simp] theorem usesAll_cons : usesAll k (t :: ts) = uses k t + usesAll k ts := by
  rw [usesAll, uses]

@[simp] theorem usesAll_append : usesAll k (ts ++ us) = usesAll k ts + usesAll k us := by
  induction ts with
  | nil => simp
  | cons t ts ih => simp [ih, Nat.add_assoc]

theorem uses_le_usesAll (h : t ∈ ts) : uses k t ≤ usesAll k ts := by
  obtain ⟨before, after, rfl⟩ := List.append_of_mem h
  simp only [usesAll_append, usesAll_cons]
  omega

theorem inner_le : inner k (node tag mark children) ≤ usesAll k children := by
  rw [inner]
  exact Nat.sub_le _ _

/-- Only an assignment to a constant is an update. -/
theorem inner_of_ne (h : tag ≠ .str "casgn") :
    inner k (node tag mark children) = usesAll k children := by
  have hno : ¬ IsUpdate (node tag mark children) := by
    rintro ⟨-⟩
    exact h rfl
  rw [inner, if_neg hno, Nat.sub_zero]

/-- Below a node its comments and its number make no difference. -/
theorem inner_remark {mark' : Mark} (h : mark'.line = mark.line) :
    inner k (node tag mark' children) = inner k (node tag mark children) := by
  have hupdate {mark mark' : Mark} (h : mark'.line = mark.line)
      (hupdate : IsUpdate (node tag mark children)) : IsUpdate (node tag mark' children) := by
    obtain ⟨hline⟩ := hupdate
    exact .intro (hline.trans h.symm)
  rw [inner, inner]
  by_cases hnode : IsUpdate (node tag mark children)
  · rw [if_pos hnode, if_pos (hupdate h hnode)]
  · rw [if_neg hnode, if_neg fun hnode' => hnode (hupdate h.symm hnode')]

theorem uses_node_of_ne (h : tag ≠ .str "casgn") :
    uses k (node tag mark children) =
      2 * own k (node tag mark children) + usesAll k children := by
  rw [uses, inner_of_ne h]

/-- A node without a number has no more than its children. -/
theorem uses_node_le (h : mark.shared = none) :
    uses k (node tag mark children) ≤ usesAll k children := by
  have hown : own k (node tag mark children) = 0 := if_neg (by simp [number?, h])
  rw [uses, hown]
  simpa using inner_le

theorem usesAll_children_le (h : tag ≠ .str "casgn") :
    usesAll k children ≤ uses k (node tag mark children) := by
  rw [uses_node_of_ne h]
  omega

@[simp] theorem uses_placed {name : String} {line : Option Raw} (h : name ≠ "casgn") :
    uses k (placed line name children) = usesAll k children := by
  have htag : Raw.str name ≠ .str "casgn" := by simpa using h
  have hown : own k (node (.str name) { line } children) = 0 := rfl
  rw [placed, uses_node_of_ne htag, hown, Nat.mul_zero, Nat.zero_add]

@[simp] theorem uses_bare {name : String} (h : name ≠ "casgn") :
    uses k (bare name children) = usesAll k children := by
  have hplaced : bare name children = placed none name children := rfl
  rw [hplaced, uses_placed h]

/-- What an update shares counts once. -/
theorem inner_update {mark' : Mark} {scope value : Tree} {name op : Raw}
    (h : mark'.line = mark.line) :
    inner k (node (.str "casgn") mark [scope, leaf name, bare "send"
      [node (.str "const") mark' [scope, leaf name], leaf op, value]]) =
        own k scope + inner k scope + 2 * own k (node (.str "const") mark' [scope, leaf name]) +
          uses k value := by
  -- The constant stands on the left and inside the operation, hence the factor two.
  have hconst : uses k (node (.str "const") mark' [scope, leaf name]) =
      2 * own k (node (.str "const") mark' [scope, leaf name]) + uses k scope := by
    rw [uses_node_of_ne (by simp)]
    simp
  rw [inner, if_pos (.intro h), headUses]
  simp only [usesAll_cons, usesAll_nil, uses_leaf, uses_bare (show "send" ≠ "casgn" by decide),
    hconst]
  rw [uses]
  omega

/-- What counts in a child counts in the node. -/
theorem inner_pos (h : t ∈ children) (ht : 0 < own k t + inner k t) :
    0 < inner k (node tag mark children) := by
  by_cases hupdate : IsUpdate (node tag mark children)
  · cases hupdate with
    | @intro _ mark' scope value name op hline =>
      rw [inner_update hline]
      simp only [List.mem_cons, List.not_mem_nil, or_false] at h
      rcases h with rfl | rfl | rfl
      · omega
      · simp at ht
      · -- The operation has no number, and in it there are the scope and the value.
        have hsend : own k (bare "send"
            [node (.str "const") mark' [scope, leaf name], leaf op, value]) = 0 := rfl
        rw [hsend, bare, inner_of_ne (by simp)] at ht
        simp only [usesAll_cons, usesAll_nil, uses_leaf, uses_node_of_ne (show
          Raw.str "const" ≠ .str "casgn" by simp)] at ht
        rw [uses] at ht
        omega
  · -- Elsewhere a child's uses are among those of all children.
    have hle := uses_le_usesAll (k := k) h
    rw [uses] at hle
    rw [inner, if_neg hupdate]
    omega

end Uses

/-- No number counts more than once in the tree. -/
def Once (t : Tree) : Prop :=
  ∀ k, own k t + inner k t ≤ 1

section Places

variable {handed : Option Raw}

theorem mem_placesAll_map {ts : List Tree} {p : Nat × Option Raw} :
    p ∈ placesAll (ts.map (filled handed)) ↔ ∃ t ∈ ts, p ∈ (t.filled handed).places := by
  induction ts with
  | nil => simp [placesAll]
  | cons t ts ih => simp [placesAll, ih]

/-- A number that is in a tree counts. -/
theorem pos_of_mem_places {n : Nat} {line : Option Raw} (t : Tree)
    (h : (n, line) ∈ (t.filled handed).places) : 0 < own n t + inner n t := by
  induction t using induct generalizing handed line with
  | leaf v => cases h
  | node tag mark children ih =>
    rw [filled_node, places] at h
    rcases List.mem_append.1 h with h | h
    · have hnumber : mark.shared = some n := by
        cases hshared : mark.shared <;> simp_all
      have hown : own n (node tag mark children) = 1 := if_pos hnumber
      omega
    · obtain ⟨c, hc, hplace⟩ := mem_placesAll_map.1 h
      exact Nat.add_pos_right _ (inner_pos hc (ih c hc hplace))

theorem pos_of_mem_placesAll {n : Nat} {line : Option Raw} {ts : List Tree}
    (h : (n, line) ∈ placesAll (ts.map (filled handed))) : 0 < usesAll n ts := by
  obtain ⟨t, ht, hplace⟩ := mem_placesAll_map.1 h
  have hcount := pos_of_mem_places t hplace
  have hle := uses_le_usesAll (k := n) ht
  rw [uses] at hle
  omega

/-- The places in several trees agree if those in each do and no number counts
    more than once. -/
theorem agree_placesAll {ts : List Tree} (huses : ∀ k, usesAll k ts ≤ 1)
    (h : ∀ t ∈ ts, Agree (t.filled handed).places) :
    Agree (placesAll (ts.map (filled handed))) := by
  induction ts with
  | nil => exact fun _ _ _ hline => nomatch hline
  | cons t ts ih =>
    simp only [usesAll_cons] at huses
    rw [List.forall_mem_cons] at h
    rw [List.map_cons, placesAll]
    refine SharedLines.agree_append h.1 (ih (fun k => ?_) h.2) fun n line line' hline hline' => ?_
    · have := huses k
      omega
    -- A number in both places would count twice.
    · have hfirst := pos_of_mem_places t hline
      have hrest := pos_of_mem_placesAll hline'
      have := huses n
      rw [uses] at this
      omega

/-- The two places of an update are offered the same line: it is the first of those
    before the value, or else that of the assignment. -/
theorem line_update {line lineOfScope lineOfValue : Option Raw} :
    let read := line.or lineOfScope
    let whole := (line.or (lineOfScope.or (read.or lineOfValue))).or handed
    read.or ((read.or lineOfValue).or whole) = whole := by
  cases line <;> cases lineOfScope <;> cases lineOfValue <;> simp

/-- The places in an update are those in what it shares and those in its value. -/
theorem places_update_subset {mark mark' : Mark} (handed : Option Raw) (scope value : Tree)
    (name op : Raw) (hline : mark'.line = mark.line) (hread : mark'.shared = none) :
    let children := [scope, leaf name, bare "send"
      [node (.str "const") mark' [scope, leaf name], leaf op, value]]
    let line := (node (.str "casgn") mark children).firstLine.or handed
    ∃ line', placesAll (children.map (filled line)) ⊆
      (scope.filled line).places ++ (value.filled line').places := by
  intro children line
  let send := bare "send" [node (.str "const") mark' [scope, leaf name], leaf op, value]
  let read := mark.line.or scope.firstLine
  let sent := read.or value.firstLine
  have hconst : (node (.str "const") mark' [scope, leaf name]).firstLine = read := by
    simp only [read, firstLine_node, findSome?_cons_eq_or, List.findSome?_nil, firstLine_leaf,
      Option.or_none, hline]
  have hsend : send.firstLine = sent := by
    simp only [send, sent, bare, firstLine_node, findSome?_cons_eq_or, hconst]
    simp only [List.findSome?_nil, firstLine_leaf, Option.or_none, Option.none_or]
  have hwhole : (node (.str "casgn") mark children).firstLine =
      mark.line.or (scope.firstLine.or sent) := by
    rw [firstLine_node]
    simp only [children, findSome?_cons_eq_or, List.findSome?_nil, firstLine_leaf, hsend, send,
      Option.or_none, Option.none_or]
  -- The read is offered the line of the assignment, so it hands down the same one.
  have hsame : read.or (sent.or line) = line := by
    simp only [line, hwhole]
    exact line_update
  have hfilled : send.filled line = node (.str "send") { line := sent.or line }
      [node (.str "const") { mark' with line } [scope.filled line, leaf name], leaf op,
        value.filled (sent.or line)] := by
    rw [show send = node (.str "send") _ _ from rfl] at hsend ⊢
    rw [filled_node, hsend]
    simp only [List.map_cons, List.map_nil, filled_leaf, filled_node, hconst, hsame]
  have hchildren : children = [scope, leaf name, send] := rfl
  refine ⟨sent.or line, ?_⟩
  simp only [hchildren, List.map_cons, List.map_nil, filled_leaf, hfilled, placesAll, places, hread,
    Option.map_none, Option.toList_none, List.nil_append, List.append_nil]
  grind

/-- The places in an update, if those in its scope and its value agree. -/
theorem agree_update {mark mark' : Mark} {scope value : Tree} {name op : Raw}
    (hline : mark'.line = mark.line) (h : Once (node (.str "casgn") mark [scope, leaf name,
      bare "send" [node (.str "const") mark' [scope, leaf name], leaf op, value]]))
    (hscope : Once scope → ∀ line, Agree (scope.filled line).places)
    (hvalue : Once value → ∀ line, Agree (value.filled line).places) (handed : Option Raw) :
    let children := [scope, leaf name,
      bare "send" [node (.str "const") mark' [scope, leaf name], leaf op, value]]
    Agree (placesAll
      (children.map (filled ((node (.str "casgn") mark children).firstLine.or handed)))) := by
  intro children
  simp only [Once, inner_update hline, uses] at h
  -- The read has no number, which would be out of place.
  have hread : mark'.shared = none := by
    cases hshared : mark'.shared with
    | none => rfl
    | some k =>
      have hown : own k (node (.str "const") mark' [scope, leaf name]) = 1 := if_pos hshared
      have := h k
      omega
  obtain ⟨line', hsub⟩ := places_update_subset handed scope value name op hline hread
  refine SharedLines.Agree.mono ?_ hsub
  refine SharedLines.agree_append (hscope (fun k => ?_) _) (hvalue (fun k => ?_) _) ?_
  · have := h k
    omega
  · have := h k
    omega
  · intro n line line' hinScope hinValue
    have hinScope := pos_of_mem_places _ hinScope
    have hinValue := pos_of_mem_places _ hinValue
    have := h n
    omega

/-- The places below a node that is no update, if those in its children agree. -/
theorem agree_children {tag : Raw} {mark : Mark} {children : List Tree}
    (hplain : ¬ IsUpdate (node tag mark children)) (h : Once (node tag mark children))
    (hchildren : ∀ c ∈ children, Once c → ∀ line, Agree (c.filled line).places)
    (line : Option Raw) : Agree (placesAll (children.map (filled line))) := by
  have hinner (k : Nat) : inner k (node tag mark children) = usesAll k children := by
    rw [inner, if_neg hplain, Nat.sub_zero]
  simp only [Once, hinner] at h
  refine agree_placesAll (fun k => ?_) fun c hc => hchildren c hc (fun k => ?_) line
  · have := h k
    omega
  · have hle := uses_le_usesAll (k := k) hc
    have := h k
    rw [uses] at hle
    omega

/-- The number of a node does not count below it. -/
theorem agree_node {tag : Raw} {mark : Mark} {children : List Tree}
    (h : Once (node tag mark children)) {line : Option Raw}
    (hall : Agree (placesAll (children.map (filled line)))) :
    Agree (node tag { mark with line } (children.map (filled line))).places := by
  rw [places]
  cases hshared : mark.shared with
  | none => simpa using hall
  | some number =>
    have hown : own number (node tag mark children) = 1 := if_pos hshared
    refine SharedLines.agree_append ?_ hall fun n line line' hroot hinside => ?_
    · rintro n line line' hline hline'
      obtain ⟨-, rfl⟩ := Prod.mk.inj (List.mem_singleton.1 hline)
      exact (Prod.mk.inj (List.mem_singleton.1 hline')).2.symm
    · obtain ⟨rfl, -⟩ := Prod.mk.inj (List.mem_singleton.1 hroot)
      obtain ⟨c, hc, hplace⟩ := mem_placesAll_map.1 hinside
      -- Below the node, its number would count a second time.
      have hpos : 0 < inner n (node tag mark children) := inner_pos hc (pos_of_mem_places c hplace)
      have := h n
      omega

/-- If no number counts more than once, the places agree. -/
theorem agree_places_filled (t : Tree) (h : Once t) (handed : Option Raw) :
    Agree (t.filled handed).places := by
  match t with
  | leaf v => exact fun _ _ _ hline => nomatch hline
  | node tag mark children =>
    -- The value of an update is further down than its children, so this is by size.
    have hsmaller (c : Tree) (hc : c.size < (node tag mark children).size) (hc' : Once c)
        (line : Option Raw) : Agree (c.filled line).places :=
      agree_places_filled c hc' line
    rw [filled_node]
    refine agree_node h ?_
    by_cases hupdate : IsUpdate (node tag mark children)
    · cases hupdate with
      | intro hline =>
        refine agree_update hline h (hsmaller _ (size_lt_of_mem List.mem_cons_self))
          (hsmaller _ ?_) handed
        simp only [bare, size, sizeAll]
        omega
    · exact agree_children hupdate h (fun c hc => hsmaller c (size_lt_of_mem hc)) _
termination_by t.size

end Places

end Tree

end RubyTree
