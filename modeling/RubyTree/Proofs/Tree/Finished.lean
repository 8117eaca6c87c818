import RubyTree.Tree.Walk

/-!
# Finished Trees

The tag of a finished node determines its children: how many there may be, and
whether a child is a name, a text, a number or another node, and of which class.
Lowering goes through nodes that are not finished, such as argument lists and
targets that wait for a value, and none of these may be left in its result.

The grammar is a table. A tag has a class and a form, and the form is a sequence
of entries, each for one child, an optional one, or any number of them. A child
stands in a slot, which names the classes of nodes it takes, or the kind of leaf.
What a slot takes is finished itself, so one statement about the root is a
statement about every node below it. The one thing that slots cannot say is said
apart: a call without a receiver is no negation.

## Main definitions

* `NodeClass`: What kind of node a tag stands for.
* `Slot`: What may stand at a place.
* `Child`: One, at most one, or any number of children in a slot.
* `Tree.forms`, `Tree.formOf?`: The class and the children of each tag.
* `Tree.hasOperand`: A call is not a negation of nothing.
* `Finished`, `FinishedAll`: A finished tree in a slot, finished children of a form.

## Theorems

* `Finished.children`: The children of a finished node fit its form.
* `Finished.within`: A tree that fits a slot fits every slot that takes more.
* `Finished.hasTag_eq_false`: The tags that nothing in a slot has.
* `Finished.walk?`: A walk through a finished tree finds finished nodes.
-/

namespace RubyTree

/-- What kind of node a tag stands for. -/
inductive NodeClass where
  /-- A value that is none of the following. -/
  | value
  /-- The assignment to a variable, a constant or an element. -/
  | assignment
  /-- The call of a method. -/
  | call
  /-- A text, and a text made of parts. -/
  | text
  | textParts
  /-- Several values in a row. -/
  | group
  /-- A list of values. -/
  | array
  /-- What stands before the block of a lambda. -/
  | lambda
  /-- The top of all constants. -/
  | top
  /-- A value that is only a condition. -/
  | condition
  /-- A list taken apart. -/
  | splat
  /-- An argument that is no value by itself. -/
  | passed
  /-- A pair of a hash, or a hash in place of pairs. -/
  | pair
  /-- Several targets. -/
  | targets
  | params
  | param
  | pattern
  /-- The pattern that allows no other keys. -/
  | noKeys
  | whenClause
  | inClause
  | guard
  | rescueClause
  /-- The flags of a regular expression. -/
  | flags
  deriving DecidableEq, Repr

/-- What may stand at a place among the children of a node. -/
inductive Slot where
  /-- A node of one of these classes; nothing at all, if `absent` is set. -/
  | among (classes : List NodeClass) (absent : Bool)
  | symbol
  | text
  | integer
  | real
  | fraction
  | imaginary
  | flag
  deriving DecidableEq, Repr

namespace Slot

/-- The classes of nodes that are values. -/
def valueClasses : List NodeClass :=
  [.value, .assignment, .call, .text, .textParts, .group, .array]

def value : Slot := among valueClasses false

/-- A value that may be left out. -/
def optional : Slot := among valueClasses true

/-- The root of a constant. -/
def root : Slot := among (.top :: valueClasses) true

/-- What a block belongs to. -/
def callee : Slot := among (.lambda :: valueClasses) false

def condition : Slot := among (.condition :: valueClasses) false

def argument : Slot := among (.splat :: .passed :: valueClasses) false

/-- A text, in one or in parts. -/
def quoted : Slot := among [.text, .textParts] false

/-- A piece of a text. -/
def piece : Slot := among [.text, .textParts, .group] false

def pair : Slot := among [.pair] false

/-- What a single target becomes. -/
def assigned : Slot := among [.assignment, .call] false

/-- What can be assigned to. -/
def target : Slot := among [.assignment, .call, .targets] false

/-- A target that may be left out. -/
def capture : Slot := among [.assignment, .call, .targets] true

/-- What a splat takes apart, or assigns to. -/
def splatted : Slot := among (.targets :: valueClasses) true

def targets : Slot := among [.targets] false

/-- A target or parameter in a list of them. -/
def listed : Slot := among [.assignment, .call, .targets, .splat, .param] false

def params : Slot := among [.params] false

def param : Slot := among [.param, .targets] false

def pattern : Slot := among (.pattern :: valueClasses) false

/-- A part of a pattern for hashes. -/
def keyPattern : Slot := among [.pair, .pattern, .noKeys] false

def whenClause : Slot := among [.whenClause] false

def inClause : Slot := among [.inClause] false

def guard : Slot := among [.guard] true

def rescueClause : Slot := among [.rescueClause] false

/-- The exceptions that are caught. -/
def exceptions : Slot := among [.array] true

def flags : Slot := among [.flags] false

/-- Whether a node of this class may stand here. -/
def takes (c : NodeClass) : Slot → Bool
  | among classes _ => classes.contains c
  | _ => false

/-- Whether this value may stand here. -/
def takesLeaf : Slot → Raw → Bool
  | among _ absent, .null => absent
  | symbol, .sym _ => true
  | text, .str _ => true
  | integer, .int _ => true
  | real, .atom (.real _) => true
  | fraction, .atom (.rational _) => true
  | imaginary, .atom (.complex _ _) => true
  | flag, .bool _ => true
  | _, _ => false

end Slot

/-- What a form asks for: one child, at most one, or any number. -/
inductive Child where
  | one (slot : Slot)
  | maybe (slot : Slot)
  | many (slot : Slot)
  deriving DecidableEq, Repr

namespace Tree

open Child

/-- The tags of finished nodes, with their class and their children. -/
def forms : List (List String × NodeClass × List Child) :=
  -- Names and constants.
  [ (["lvar", "ivar", "gvar", "cvar", "sym", "back_ref"], .value, [one .symbol]),
    (["const"], .value, [one .root, one .symbol]),
    (["cbase"], .top, []),
    (["self", "nil", "true", "false", "__ENCODING__", "zsuper", "redo", "retry"], .value, []),
    -- Numbers and texts.
    (["int", "nth_ref"], .value, [one .integer]),
    (["float"], .value, [one .real]),
    (["rational"], .value, [one .fraction]),
    (["complex"], .value, [one .imaginary]),
    (["str"], .text, [one .text]),
    (["dstr"], .textParts, [many .piece]),
    (["xstr", "dsym"], .value, [many .piece]),
    (["regexp"], .value, [many .piece, one .flags]),
    (["regopt"], .flags, [many .symbol]),
    -- Collections and arguments.
    (["array"], .array, [many .argument]),
    (["hash"], .value, [many .pair]),
    (["pair"], .pair, [one .value, one .pattern]),
    (["kwsplat"], .pair, [one .optional]),
    (["kwargs"], .passed, [many .pair]),
    (["splat"], .splat, [maybe .splatted]),
    (["block_pass"], .passed, [one .optional]),
    (["forwarded_args"], .passed, []),
    -- Calls and blocks.
    (["send"], .call, [one .optional, one .symbol, many .argument]),
    (["safe_call"], .call, [one .optional, one .symbol, many .argument]),
    (["index"], .value, [one .value, many .argument]),
    (["super", "yield", "return", "next", "break"], .value, [many .argument]),
    (["block"], .value, [one .callee, one .params, one .optional]),
    (["numblock"], .value, [one .callee, one .integer, one .optional]),
    (["lambda"], .lambda, []),
    -- Parameters and targets in a list.
    (["args"], .params, [many .param]),
    (["arg", "kwarg", "shadowarg"], .param, [one .symbol]),
    (["optarg", "kwoptarg"], .param, [one .symbol, one .value]),
    (["restarg", "kwrestarg", "blockarg"], .param, [maybe .symbol]),
    (["kwnilarg", "forward_arg"], .param, []),
    (["procarg0"], .param, [many .param]),
    (["mlhs"], .targets, [many .listed]),
    -- Operators, conditions and loops.
    (["and", "or", "alias", "match_with_lvasgn"], .value, [one .value, one .value]),
    (["defined?"], .value, [one .value]),
    (["irange", "erange"], .value, [one .optional, one .optional]),
    (["iflipflop", "eflipflop"], .condition, [one .optional, one .optional]),
    (["match_current_line"], .condition, [one .value]),
    (["if"], .value, [one .condition, one .optional, one .optional]),
    (["while", "until", "while_post", "until_post"], .value,
      [one .condition, one .optional, one .flag]),
    (["for"], .value, [one .target, one .value, one .optional]),
    -- Choices and patterns.
    (["case"], .value, [one .optional, many .whenClause, one .optional]),
    (["when"], .whenClause, [many .argument, one .optional]),
    (["case_match"], .value, [one .value, many .inClause, one .optional]),
    (["in_pattern"], .inClause, [one .pattern, one .guard, one .optional]),
    (["if_guard", "unless_guard"], .guard, [one .value]),
    (["match_pattern", "match_pattern_p"], .value, [one .value, one .pattern]),
    (["match_var"], .pattern, [one .symbol]),
    (["match_rest"], .pattern, [maybe .pattern]),
    (["match_as", "match_alt"], .pattern, [one .pattern, one .pattern]),
    (["pin"], .pattern, [one .value]),
    (["const_pattern"], .pattern, [one .value, one .pattern]),
    (["array_pattern", "find_pattern"], .pattern, [many .pattern]),
    (["hash_pattern"], .pattern, [many .keyPattern]),
    (["match_nil_pattern"], .noKeys, []),
    -- Sequences and their clauses.
    (["begin"], .group, [many .value]),
    (["kwbegin"], .value, [many .value]),
    (["rescue"], .value, [one .optional, many .rescueClause, one .optional]),
    (["resbody"], .rescueClause, [one .exceptions, one .capture, one .optional]),
    (["ensure"], .value, [one .optional, one .optional]),
    -- Assignments.
    (["lvasgn", "ivasgn", "gasgn", "cvasgn", "cvdecl"], .assignment, [one .symbol, maybe .value]),
    (["casgn"], .assignment, [one .root, one .symbol, maybe .value]),
    (["indexasgn"], .assignment, [one .value, many .argument]),
    (["op_asgn"], .value, [one .target, one .symbol, one .value]),
    (["or_asgn", "and_asgn"], .value, [one .target, one .value]),
    (["masgn"], .value, [one .targets, one .value]),
    -- Definitions.
    (["def"], .value, [one .symbol, one .params, many .value]),
    (["defs"], .value, [one .value, one .symbol, one .params, many .value]),
    (["class"], .value, [one .value, one .optional, one .optional]),
    (["module", "sclass"], .value, [one .value, one .optional]),
    (["preexe", "postexe"], .value, [one .optional]),
    (["undef"], .value, [many .value]),
    (["valias"], .value, [one .symbol, one .symbol]) ]

/-- A negation has something to negate. -/
def hasOperand : String → List Tree → Bool
  | "send", [.null, .sym "!"] => false
  | _, _ => true

theorem hasOperand_eq_false {tag : String} {children : List Tree} :
    hasOperand tag children = false ↔ tag = "send" ∧ children = [.null, .sym "!"] := by
  unfold hasOperand
  split <;> simp_all

/-- The class of nodes with a tag, and what their children are. -/
def formOf? (tag : String) : Option (NodeClass × List Child) :=
  (forms.find? (·.1.contains tag)).map (·.2)

end Tree

mutual

/-- A finished tree that may stand in a slot. -/
inductive Finished : Slot → Tree → Prop where
  | leaf {slot : Slot} {v : Raw} (h : slot.takesLeaf v) : Finished slot (.leaf v)
  | node {slot : Slot} {tag : String} {mark : Mark} {children : List Tree} {c : NodeClass}
      {form : List Child} (hform : Tree.formOf? tag = some (c, form)) (hslot : slot.takes c)
      (hoperand : Tree.hasOperand tag children) (hchildren : FinishedAll form children) :
      Finished slot (.node (.str tag) mark children)

/-- Finished trees that are what a form asks for. -/
inductive FinishedAll : List Child → List Tree → Prop where
  | nil : FinishedAll [] []
  | one {slot : Slot} {form : List Child} {t : Tree} {ts : List Tree} (h : Finished slot t)
      (hrest : FinishedAll form ts) : FinishedAll (.one slot :: form) (t :: ts)
  | left {slot : Slot} {form : List Child} {ts : List Tree} (hrest : FinishedAll form ts) :
      FinishedAll (.maybe slot :: form) ts
  | maybe {slot : Slot} {form : List Child} {t : Tree} {ts : List Tree} (h : Finished slot t)
      (hrest : FinishedAll form ts) : FinishedAll (.maybe slot :: form) (t :: ts)
  | many {slot : Slot} {form : List Child} {as ts : List Tree} (h : ∀ t ∈ as, Finished slot t)
      (hrest : FinishedAll form ts) : FinishedAll (.many slot :: form) (as ++ ts)

end

namespace FinishedAll

theorem all {slot : Slot} {ts : List Tree} (h : ∀ t ∈ ts, Finished slot t) :
    FinishedAll [.many slot] ts := by
  have hmany := FinishedAll.many h .nil
  rw [List.append_nil] at hmany
  exact hmany

theorem of_option {slot : Slot} {o : Option Tree} (h : ∀ t ∈ o, Finished slot t) :
    FinishedAll [.maybe slot] o.toList := by
  cases o with
  | none => exact .left .nil
  | some t => exact .maybe (h t rfl) .nil

/-- What stands before the other children. -/
theorem of_one {slot : Slot} {form : List Child} {ts : List Tree}
    (h : FinishedAll (.one slot :: form) ts) :
    ∃ t rest, ts = t :: rest ∧ Finished slot t ∧ FinishedAll form rest := by
  cases h with
  | one hhead hrest => exact ⟨_, _, rfl, hhead, hrest⟩

/-- What any number of children in a slot are, and what comes after them. -/
theorem of_many_append {slot : Slot} {form : List Child} {ts : List Tree}
    (h : FinishedAll (.many slot :: form) ts) :
    ∃ as rest, ts = as ++ rest ∧ (∀ t ∈ as, Finished slot t) ∧ FinishedAll form rest := by
  -- The form is an index of the derivation, and is split off from it first.
  generalize hform : Child.many slot :: form = form' at h
  cases h with
  | many hall hrest =>
    cases hform
    exact ⟨_, _, rfl, hall, hrest⟩
  | nil | one | left | maybe => cases hform

theorem of_many {slot : Slot} {ts : List Tree} (h : FinishedAll [.many slot] ts) :
    ∀ t ∈ ts, Finished slot t := by
  obtain ⟨as, rest, rfl, hall, hnil⟩ := h.of_many_append
  cases hnil
  rw [List.append_nil]
  exact hall

/-- Each of the children is finished, whatever its slot is. -/
theorem exists_slot {form : List Child} {ts : List Tree} (h : FinishedAll form ts) :
    ∀ t ∈ ts, ∃ slot, Finished slot t := by
  -- By the form: each of its parts takes some of the children and leaves the others.
  match h with
  | .nil =>
    intro t ht
    cases ht
  | .one hhead hrest =>
    intro t ht
    rcases List.mem_cons.1 ht with rfl | ht
    · exact ⟨_, hhead⟩
    · exact exists_slot hrest t ht
  | .left hrest => exact exists_slot hrest
  | .maybe hhead hrest =>
    intro t ht
    rcases List.mem_cons.1 ht with rfl | ht
    · exact ⟨_, hhead⟩
    · exact exists_slot hrest t ht
  | .many hall hrest =>
    intro t ht
    rcases List.mem_append.1 ht with ht | ht
    · exact ⟨_, hall t ht⟩
    · exact exists_slot hrest t ht

end FinishedAll

namespace Slot

/-- Whether one slot takes no more than another. -/
def within : Slot → Slot → Bool
  | among cs absent, among ds absent' => cs.all ds.contains && (!absent || absent')
  | s, s' => s == s'

/-- The only leaf in the place of a node is the absent child. -/
theorem takesLeaf_among {classes : List NodeClass} {absent : Bool} {v : Raw}
    (h : (among classes absent).takesLeaf v) : v = .null ∧ absent = true := by
  unfold takesLeaf at h
  split at h <;> simp_all

theorem takes_of_within {s s' : Slot} {c : NodeClass} (hw : s.within s') (h : s.takes c) :
    s'.takes c := by
  cases s with
  | among cs absent =>
    cases s' with
    | among ds absent' =>
      simp only [within, Bool.and_eq_true, List.all_eq_true] at hw
      exact hw.1 c (List.contains_iff_mem.1 h)
    | symbol | text | integer | real | fraction | imaginary | flag => cases hw
  | symbol | text | integer | real | fraction | imaginary | flag => cases h

theorem takesLeaf_of_within {s s' : Slot} {v : Raw} (hw : s.within s') (h : s.takesLeaf v) :
    s'.takesLeaf v := by
  cases s with
  | among cs absent =>
    obtain ⟨rfl, rfl⟩ := takesLeaf_among h
    cases s' with
    | among ds absent' =>
      simp only [within, Bool.and_eq_true, Bool.not_true, Bool.false_or] at hw
      exact hw.2
    | symbol | text | integer | real | fraction | imaginary | flag => cases hw
  | symbol | text | integer | real | fraction | imaginary | flag =>
    rw [← eq_of_beq hw]
    exact h

end Slot

namespace Finished

/-- The children of a finished node are those of its form. -/
theorem children {slot : Slot} {tag : String} {mark : Mark} {children : List Tree} {c : NodeClass}
    {form : List Child} (hform : Tree.formOf? tag = some (c, form))
    (h : Finished slot (.node (.str tag) mark children)) : FinishedAll form children := by
  cases h with
  | node hform' _ _ hchildren =>
    rw [hform] at hform'
    cases hform'
    exact hchildren

/-- A tree that fits a slot fits every slot that takes more. -/
theorem within {s s' : Slot} {t : Tree} (h : Finished s t) (hw : s.within s') : Finished s' t := by
  cases h with
  | leaf hleaf => exact .leaf (Slot.takesLeaf_of_within hw hleaf)
  | node hform hslot hoperand hchildren =>
    exact .node hform (Slot.takes_of_within hw hslot) hoperand hchildren

theorem symbol (name : String) : Finished .symbol (.sym name) :=
  .leaf rfl

/-- A call that is no negation of nothing. -/
theorem call {slot : Slot} {tag : String} {mark : Mark} {receiver : Tree} {name : String}
    {args : List Tree} (hslot : slot.takes .call) (htag : tag = "send" ∨ tag = "safe_call")
    (hreceiver : Finished .optional receiver) (hargs : ∀ a ∈ args, Finished .argument a)
    (hname : receiver = .null → args = [] → name ≠ "!") :
    Finished slot (.node (.str tag) mark (receiver :: .sym name :: args)) := by
  have hchildren : FinishedAll [.one .optional, .one .symbol, .many .argument]
      (receiver :: .sym name :: args) := .one hreceiver (.one (symbol name) (.all hargs))
  have hoperand : Tree.hasOperand tag (receiver :: .sym name :: args) := by
    -- What lacks an operand is the negation alone, without receiver and arguments.
    rw [← Bool.not_eq_false, Tree.hasOperand_eq_false]
    rintro ⟨-, heq⟩
    injection heq with hnull heq
    injection heq with hsym hnil
    cases hsym
    exact hname hnull hnil rfl
  rcases htag with rfl | rfl
  · exact .node rfl hslot hoperand hchildren
  · exact .node rfl hslot hoperand hchildren

/-- What is carried besides tag and children does not matter. -/
theorem remark {slot : Slot} {tag : Raw} {mark : Mark} {children : List Tree}
    (h : Finished slot (.node tag mark children)) (mark' : Mark) :
    Finished slot (.node tag mark' children) := by
  cases h with
  | node hform hslot hoperand hchildren => exact .node hform hslot hoperand hchildren

/-- Where nothing may be left out there is a node. -/
theorem exists_node {classes : List NodeClass} {t : Tree} (h : Finished (.among classes false) t) :
    ∃ tag mark children, t = .node (.str tag) mark children := by
  cases h with
  | leaf hleaf => cases (Slot.takesLeaf_among hleaf).2
  | @node _ tag mark children => exact ⟨tag, mark, children, rfl⟩

theorem eq_null_or {classes : List NodeClass} {t : Tree} (h : Finished (.among classes true) t) :
    t = .null ∨ Finished (.among classes false) t := by
  cases h with
  | leaf hleaf => exact .inl (congrArg Tree.leaf (Slot.takesLeaf_among hleaf).1)
  | node hform hslot hoperand hchildren => exact .inr (.node hform hslot hoperand hchildren)

theorem eq_symbol {t : Tree} (h : Finished .symbol t) : ∃ name, t = .sym name := by
  cases h with
  | @leaf _ v hleaf =>
    unfold Slot.takesLeaf at hleaf
    split at hleaf <;> simp_all
  | node hform hslot => cases hslot

theorem eq_text {t : Tree} (h : Finished .text t) : ∃ text, t = .str text := by
  cases h with
  | @leaf _ v hleaf =>
    unfold Slot.takesLeaf at hleaf
    split at hleaf <;> simp_all
  | node hform hslot => cases hslot

/-- A tag that no node in the slot may have. -/
theorem hasTag_eq_false {slot : Slot} {t : Tree} (h : Finished slot t) (tag : String)
    (htag : ((Tree.formOf? tag).all fun form => !slot.takes form.1) = true) :
    t.hasTag tag = false := by
  cases h with
  | leaf => rfl
  | @node _ tag' _ _ _ _ hform hslot =>
    rw [Tree.hasTag, beq_eq_false_iff_ne]
    rintro rfl
    rw [hform, Option.all_some, hslot] at htag
    cases htag

/-- The tags that the classes of a slot leave open. -/
theorem exists_tagged {classes : List NodeClass} {t : Tree}
    (h : Finished (.among classes false) t) (tags : List String)
    (htags : (Tree.forms.all fun e => !classes.contains e.2.1 || e.1.all tags.contains) = true) :
    ∃ tag ∈ tags, ∃ mark children, t = .node (.str tag) mark children := by
  cases h with
  | leaf hleaf => cases (Slot.takesLeaf_among hleaf).2
  | @node _ tag mark children c form hform hslot =>
    refine ⟨tag, ?_, mark, children, rfl⟩
    -- The form of the node is an entry of the table, and every entry of a class
    -- that the slot takes has its tags among those given.
    obtain ⟨entry, hfind, hentry⟩ := Option.map_eq_some_iff.1 hform
    have hall := List.all_eq_true.1 htags entry (List.mem_of_find?_eq_some hfind)
    have hclass : classes.contains entry.2.1 = true := by
      rw [hentry]
      exact hslot
    rw [hclass, Bool.not_true, Bool.false_or] at hall
    have htag := List.find?_some hfind
    exact List.contains_iff_mem.1 (List.all_eq_true.1 hall tag (List.contains_iff_mem.1 htag))

/-- Whatever a walk reaches from finished trees is finished. -/
theorem visit {skip : List String} {steps : Nat} {stack : List Tree}
    (h : ∀ t ∈ stack, ∃ slot, Finished slot t) :
    ∀ t ∈ Tree.visit skip steps stack, ∃ slot, Finished slot t := by
  induction steps generalizing stack with
  | zero => exact fun t ht => nomatch ht
  | succ steps ih =>
    match stack with
    | [] => exact fun t ht => nomatch ht
    | .leaf v :: stack => exact ih fun t ht => h t (List.mem_cons_of_mem _ ht)
    | .node tag mark children :: stack =>
      obtain ⟨slot, hnode⟩ := h _ List.mem_cons_self
      -- What the walk puts on the stack next are the children of a finished node.
      have hchildren : ∀ t ∈ children, ∃ slot, Finished slot t := by
        cases hnode with
        | node _ _ _ hchildren => exact hchildren.exists_slot
      have hstack : ∀ t ∈ stack, ∃ slot, Finished slot t :=
        fun t ht => h t (List.mem_cons_of_mem _ ht)
      intro t ht
      rw [Tree.visit] at ht
      rcases List.mem_cons.1 ht with rfl | ht
      · exact ⟨slot, hnode⟩
      · refine ih ?_ t ht
        split
        · exact hstack
        · intro u hu
          exact (List.mem_append.1 hu).elim (hchildren u) (hstack u)

/-- A walk through a finished tree can look up every tag. -/
theorem walk? {slot : Slot} {t : Tree} (h : Finished slot t) (skip : List String) :
    ∃ nodes, t.walk? skip = some nodes ∧ ∀ u ∈ nodes, ∃ slot, Finished slot u := by
  have hnodes : ∀ u ∈ t.walk skip, ∃ slot, Finished slot u := by
    cases h with
    | leaf => exact fun u hu => nomatch hu
    | node hform hslot hoperand hchildren =>
      intro u hu
      rcases List.mem_cons.1 hu with rfl | hu
      · exact ⟨slot, .node hform hslot hoperand hchildren⟩
      · exact visit hchildren.exists_slot u hu
  -- The tags of finished nodes are texts, and looking one up cannot fail.
  refine ⟨t.walk skip, if_pos (List.all_eq_true.2 fun u hu => ?_), hnodes⟩
  obtain ⟨slot', hu⟩ := hnodes u (List.mem_of_mem_tail hu)
  cases hu <;> rfl

end Finished

end RubyTree
