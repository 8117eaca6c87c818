import RubyTree.Proofs.Lower.Soundness
import RubyTree.Proofs.Tree.Walk

/-!
# Blocks with Numbered Parameters

A block without parameters that reads `_1` to `_9` in its own scope has as many
parameters as the highest of them. The parameters and the body of a block,
method, class or module inside it are a scope of their own; what stands before
them, such as the call of an inner block, is not.

The search for the reads treats scopes in another way. It leaves out all of a
scope below the body, with its call, and enters a body that is a scope itself. So
what is found is right if the body is no scope, and if no call of an inner scope
reads a higher parameter than everything else does. Otherwise it need not be: a
block around a block with numbered parameters takes them for its own.

## Main definitions

* `Tree.Reads`: A numbered parameter is read in a scope.
* `Tree.ownParts`, `Tree.foundParts`: The children of a node in the same scope, and
  those that are searched.
* `Tree.ReadsBefore`: A read that stands before an inner scope.
* `Undeclared`: No parameters.
* `NumberedBy`: A block with as many parameters as the highest read.

## Theorems

* `exists_openNodes_iff`: What the search finds.
* `makeBlock_numberedBy`: A block is numbered by what the search finds.
* `block_numbered_by_own_reads`: Blocks and lambdas are numbered by the reads in
  their own scope.
* `nestedBlock_takes_inner_reads`: A block around a block.
-/

namespace RubyTree

open LowerM (scopeTags parameterNumber numberRead highestNumbered)

namespace Tree

/-- The name of a numbered parameter. -/
def numberedName (n : Nat) : String :=
  String.ofList ['_', Nat.digitChar n]

/-- A node that reads a numbered parameter. -/
def ReadsHere (n : Nat) (t : Tree) : Prop :=
  (1 ≤ n ∧ n ≤ 9) ∧ ∃ mark, t = .node (.str "lvar") mark [.sym (numberedName n)]

/-- A numbered parameter is read in a tree, where `parts` gives the children of a
    node that are in the same scope as the node. -/
inductive Reads (parts : String → List Tree → List Tree) (n : Nat) : Tree → Prop where
  | here {t : Tree} (h : ReadsHere n t) : Reads parts n t
  | inside {tag : String} {mark : Mark} {children : List Tree} {c : Tree}
      (hc : c ∈ parts tag children) (h : Reads parts n c) :
      Reads parts n (.node (.str tag) mark children)

/-- How many children of a scope stand before its parameters and its body. -/
def countBefore : String → Nat
  | "def" => 0
  | "class" => 2
  | _ => 1

/-- The children in the same scope: those of a scope before its parameters and
    its body. -/
def ownParts (tag : String) (children : List Tree) : List Tree :=
  if scopeTags.contains tag then children.take (countBefore tag) else children

/-- The children that are searched: none of a scope. -/
def foundParts (tag : String) (children : List Tree) : List Tree :=
  if scopeTags.contains tag then [] else children

/-- Whether a tree is a scope. -/
def isScope : Tree → Bool
  | node (.str tag) _ _ => scopeTags.contains tag
  | _ => false

/-- What the search finds: the root is entered in any case. -/
def Found (n : Nat) (t : Tree) : Prop :=
  Reads foundParts n t ∨ ∃ c ∈ t.children?.getD [], Reads foundParts n c

/-- A numbered parameter is read before an inner scope: in the call of a block,
    in the receiver of a method or in the superclass of a class. -/
inductive ReadsBefore (n : Nat) : Tree → Prop where
  | here {tag : String} {mark : Mark} {children : List Tree} {c : Tree}
      (htag : scopeTags.contains tag) (hc : c ∈ children.take (countBefore tag))
      (h : Reads ownParts n c) : ReadsBefore n (.node (.str tag) mark children)
  | inside {tag : String} {mark : Mark} {children : List Tree} {c : Tree}
      (htag : scopeTags.contains tag = false) (hc : c ∈ children) (h : ReadsBefore n c) :
      ReadsBefore n (.node (.str tag) mark children)

variable {n : Nat} {t : Tree}

theorem not_reads_leaf {parts : String → List Tree → List Tree} {v : Raw} :
    ¬ Reads parts n (.leaf v) := by
  rintro ⟨-, mark, hmark⟩
  cases hmark

theorem reads_node_iff {parts : String → List Tree → List Tree} {tag : String} {mark : Mark}
    {children : List Tree} : Reads parts n (.node (.str tag) mark children) ↔
      ReadsHere n (.node (.str tag) mark children) ∨ ∃ c ∈ parts tag children, Reads parts n c := by
  constructor
  · intro h
    cases h with
    | here h => exact .inl h
    | inside hc h => exact .inr ⟨_, hc, h⟩
  · rintro (h | ⟨c, hc, h⟩)
    · exact .here h
    · exact .inside hc h

theorem not_readsBefore_leaf {v : Raw} : ¬ ReadsBefore n (.leaf v) :=
  nofun

theorem readsBefore_node_iff {tag : String} {mark : Mark} {children : List Tree} :
    ReadsBefore n (.node (.str tag) mark children) ↔ if scopeTags.contains tag then
      ∃ c ∈ children.take (countBefore tag), Reads ownParts n c
    else ∃ c ∈ children, ReadsBefore n c := by
  constructor
  · -- The two rules exclude each other by the tag, which decides the branch.
    intro h
    cases h with
    | here htag hc h =>
      rw [if_pos htag]
      exact ⟨_, hc, h⟩
    | inside htag hc h =>
      rw [htag]
      exact ⟨_, hc, h⟩
  · split
    · rename_i htag
      rintro ⟨c, hc, h⟩
      exact .here htag hc h
    · rename_i htag
      rintro ⟨c, hc, h⟩
      exact .inside (by simpa using htag) hc h

/-- The reads in a scope are those that are found and those before inner scopes. -/
theorem reads_own_iff : Reads ownParts n t ↔ Reads foundParts n t ∨ ReadsBefore n t := by
  constructor
  · intro h
    -- Inner scopes are where the two ways of looking at a tree come apart.
    induction h with
    | here h => exact .inl (.here h)
    | @inside tag mark children c hc h ih =>
      unfold ownParts at hc
      split at hc
      · rename_i htag
        exact .inr (.here htag hc h)
      · rename_i htag
        have hparts : c ∈ foundParts tag children := by
          rw [foundParts, if_neg htag]
          exact hc
        exact ih.imp (.inside hparts) (.inside (by simpa using htag) hc)
  · rintro (h | h)
    · -- Either way of finding a read is one of reading in the scope.
      induction h with
      | here h => exact .here h
      | @inside tag mark children c hc _ ih =>
        refine .inside ?_ ih
        unfold foundParts at hc
        unfold ownParts
        split at hc
        · cases hc
        · rename_i htag
          rwa [if_neg htag]
    · induction h with
      | here htag hc h =>
        refine .inside ?_ h
        rwa [ownParts, if_pos htag]
      | inside htag hc _ ih =>
        refine .inside ?_ ih
        rwa [ownParts, htag]

/-- If the root is no scope, it is searched like everything below. -/
theorem found_iff (h : t.isScope = false) {slot : Slot} (ht : Finished slot t) :
    Found n t ↔ Reads foundParts n t := by
  refine ⟨?_, .inl⟩
  rintro (hreads | ⟨c, hc, hreads⟩)
  · exact hreads
  · cases ht with
    | leaf => cases hc
    | @node _ tag mark children =>
      refine .inside ?_ hreads
      have htag : scopeTags.contains tag = false := h
      rwa [foundParts, htag]

theorem mem_of_mem_foundParts {tag : String} {children : List Tree}
    (h : t ∈ foundParts tag children) : t ∈ children := by
  unfold foundParts at h
  split at h
  · cases h
  · exact h

theorem Reads.ne_zero {parts : String → List Tree → List Tree} (h : Reads parts n t) : n ≠ 0 := by
  induction h with
  | here h => exact Nat.ne_of_gt h.1.1
  | inside _ _ ih => exact ih

theorem Found.ne_zero (h : Found n t) : n ≠ 0 := by
  rcases h with h | ⟨c, -, h⟩
  · exact h.ne_zero
  · exact h.ne_zero

theorem exists_openNodesAll_iff {ts : List Tree}
    (h : ∀ c ∈ ts, (∃ u ∈ c.openNodes scopeTags, ReadsHere n u) ↔ Reads foundParts n c) :
    (∃ u ∈ openNodesAll scopeTags ts, ReadsHere n u) ↔ ∃ c ∈ ts, Reads foundParts n c := by
  simp only [mem_openNodesAll]
  constructor
  · rintro ⟨u, ⟨c, hc, hu⟩, hreads⟩
    exact ⟨c, hc, (h c hc).1 ⟨u, hu, hreads⟩⟩
  · rintro ⟨c, hc, hreads⟩
    obtain ⟨u, hu, hhere⟩ := (h c hc).2 hreads
    exact ⟨u, ⟨c, hc, hu⟩, hhere⟩

/-- What the search comes upon in a tree below the root is read there. -/
theorem exists_openNodes_iff {slot : Slot} (h : Finished slot t) :
    (∃ u ∈ t.openNodes scopeTags, ReadsHere n u) ↔ Reads foundParts n t := by
  -- By the tree: the search stops at a scope, and below other nodes it goes on.
  induction t using induct generalizing slot with
  | leaf v => simp [openNodes, not_reads_leaf]
  | node tag mark children ih =>
    cases h with
    | @node _ tag _ _ _ _ _ _ _ hchildren =>
      have hskip : (Raw.str tag).text?.any scopeTags.contains = scopeTags.contains tag := rfl
      have hinside := exists_openNodesAll_iff (n := n) fun c hc =>
        (hchildren.exists_slot c hc).elim fun _ hslot => ih c hc hslot
      rw [openNodes, hskip, reads_node_iff, foundParts]
      cases scopeTags.contains tag with
      | true => simp
      | false => simp [hinside]

theorem exists_walk_iff {slot : Slot} (h : Finished slot t) :
    (∃ u ∈ t.walk scopeTags, ReadsHere n u) ↔ Found n t := by
  rw [walk_eq_preorder]
  cases h with
  | leaf => simp [preorder, Found, not_reads_leaf, children?]
  | @node _ tag mark children _ _ _ _ _ hchildren =>
    -- Below the root the walk stays out of scopes, so what it meets is read in the open.
    have hbelow := exists_openNodesAll_iff (n := n) fun c hc =>
      (hchildren.exists_slot c hc).elim fun _ hslot => exists_openNodes_iff hslot
    have hinside : (∃ c ∈ foundParts tag children, Reads foundParts n c) →
        ∃ c ∈ children, Reads foundParts n c := by
      rintro ⟨c, hc, h⟩
      exact ⟨c, mem_of_mem_foundParts hc, h⟩
    simp only [preorder, List.mem_cons, exists_eq_or_imp, hbelow, Found, children?,
      Option.getD_some, reads_node_iff]
    rw [or_assoc, or_iff_right_of_imp hinside]

/-- The search can be made, and it finds the reads. -/
theorem walk?_reads {slot : Slot} (h : Finished slot t) :
    ∃ nodes, t.walk? scopeTags = some nodes ∧ (∀ u ∈ nodes, ∃ slot, Finished slot u) ∧
      ∀ n, (∃ u ∈ nodes, ReadsHere n u) ↔ Found n t := by
  obtain ⟨nodes, hwalk, hnodes⟩ := h.walk? scopeTags
  refine ⟨nodes, hwalk, hnodes, fun n => ?_⟩
  have heq : nodes = t.walk scopeTags := by
    unfold walk? at hwalk
    dsimp only at hwalk
    split at hwalk
    · exact (Option.some.inj hwalk).symm
    · cases hwalk
  rw [heq, exists_walk_iff h]

/-- The number of a name is that of the numbered parameter with this name. -/
theorem parameterNumber_eq_iff {name : String} (hn : n ≠ 0) :
    parameterNumber name = n ↔ (1 ≤ n ∧ n ≤ 9) ∧ name = numberedName n := by
  have hzero : '0'.toNat = 48 := rfl
  unfold parameterNumber
  constructor
  · intro h
    split at h
    · rename_i d hname
      split at h
      · rename_i hd
        have hlow : 49 ≤ d.toNat := hd.1
        have hhigh : d.toNat ≤ 57 := hd.2
        -- A digit is told by its code point, and so is the digit of a number.
        have hdigit : Nat.digitChar n = d := by
          apply Char.toNat_inj.1
          rw [Nat.toNat_digitChar_of_lt_ten (by omega)]
          omega
        refine ⟨by omega, ?_⟩
        rw [numberedName, hdigit, ← hname, String.ofList_toList]
      · exact absurd h.symm hn
    · exact absurd h.symm hn
  · rintro ⟨⟨hlow, hhigh⟩, rfl⟩
    rw [numberedName, String.toList_ofList]
    have hdigit : (Nat.digitChar n).toNat = 48 + n := Nat.toNat_digitChar_of_lt_ten (by omega)
    have hrange : '1' ≤ Nat.digitChar n ∧ Nat.digitChar n ≤ '9' := by
      constructor
      · change 49 ≤ (Nat.digitChar n).toNat
        omega
      · change (Nat.digitChar n).toNat ≤ 57
        omega
    change (if _ ∧ _ then (Nat.digitChar n).toNat - '0'.toNat else 0) = n
    rw [if_pos hrange]
    omega

end Tree

namespace LowerM

open RubyTree.Tree (ReadsHere Found)

/-- The number of the parameter that a finished node reads. -/
theorem numberRead_eq {slot : Slot} {t : Tree} (h : Finished slot t) :
    ∃ k, numberRead t = pure k ∧ ∀ n, n ≠ 0 → (k = n ↔ ReadsHere n t) := by
  unfold numberRead
  -- Only a local that has a name alone is asked; anything else reads no number.
  split
  · rename_i mark children
    obtain ⟨_, _, rfl, hname, hrest⟩ := (h.children rfl).of_one
    obtain ⟨name, rfl⟩ := hname.eq_symbol
    cases hrest
    refine ⟨parameterNumber name, rfl, fun n hn => ?_⟩
    rw [Tree.parameterNumber_eq_iff hn, ReadsHere]
    simp
  · rename_i hlvar
    refine ⟨0, rfl, fun n hn => ⟨fun h => absurd h.symm hn, ?_⟩⟩
    rintro ⟨-, mark, rfl⟩
    exact absurd rfl (hlvar mark _)

/-- The numbers of the parameters that finished nodes read. -/
theorem numbersRead_eq {nodes : List Tree} (h : ∀ u ∈ nodes, ∃ slot, Finished slot u) :
    ∃ ks, nodes.mapM numberRead = pure ks ∧
      ∀ n, n ≠ 0 → (n ∈ ks ↔ ∃ u ∈ nodes, ReadsHere n u) := by
  induction nodes with
  | nil => exact ⟨[], rfl, by simp⟩
  | cons u nodes ih =>
    obtain ⟨⟨slot, hu⟩, hnodes⟩ := List.forall_mem_cons.1 h
    obtain ⟨k, hk, hread⟩ := numberRead_eq hu
    obtain ⟨ks, hks, hreads⟩ := ih hnodes
    refine ⟨k :: ks, ?_, fun n hn => ?_⟩
    · rw [List.mapM_cons, hk, pure_bind, hks, pure_bind]
    · rw [List.mem_cons, hreads n hn, eq_comm, hread n hn]
      simp

/-- The highest of some numbers is among them, unless it is zero. -/
theorem foldl_max (ks : List Nat) (m : Nat) :
    m ≤ ks.foldl max m ∧ (∀ k ∈ ks, k ≤ ks.foldl max m) ∧
      (ks.foldl max m = m ∨ ks.foldl max m ∈ ks) := by
  induction ks generalizing m with
  | nil => simp
  | cons k ks ih =>
    obtain ⟨hle, hall, hmem⟩ := ih (max m k)
    rw [List.foldl_cons]
    -- The highest of the rest is the highest of all, or the first number is.
    refine ⟨by omega, List.forall_mem_cons.2 ⟨by omega, hall⟩, ?_⟩
    rcases hmem with hmem | hmem
    · rcases Nat.le_total m k with hmk | hmk
      · rw [hmem, Nat.max_eq_right hmk]
        exact .inr List.mem_cons_self
      · rw [hmem, Nat.max_eq_left hmk]
        exact .inl rfl
    · exact .inr (List.mem_cons_of_mem _ hmem)

/-- The highest number read, which is zero if there is none. -/
theorem highestNumbered_eq {slot : Slot} {body : Tree} (h : Finished slot body) :
    ∃ k, highestNumbered body = pure k ∧ (k ≠ 0 → Found k body) ∧ ∀ n, Found n body → n ≤ k := by
  obtain ⟨nodes, hwalk, hnodes, hfound⟩ := Tree.walk?_reads h
  obtain ⟨ks, hks, hreads⟩ := numbersRead_eq hnodes
  obtain ⟨-, hall, hmem⟩ := foldl_max ks 0
  refine ⟨ks.foldl max 0, ?_, fun hk => ?_, fun n hn => ?_⟩
  · rw [highestNumbered, hwalk]
    change (nodes.mapM numberRead >>= _) = _
    rw [hks, pure_bind]
  · rw [← hfound, ← hreads _ hk]
    exact hmem.resolve_left hk
  · exact hall n ((hreads n hn.ne_zero).2 ((hfound n).2 hn))

/-- A block has as many parameters as the highest of some reads, and an empty list
    of them if there is none. -/
inductive NumberedBy (reads : Nat → Prop) (call body : Tree) : Tree → Prop where
  | numbered {n : Nat} (hpos : 0 < n) (h : reads n) (hmax : ∀ k, reads k → k ≤ n) :
      NumberedBy reads call body (.bare "numblock" [call, .int n, body])
  | plain {mark : Mark} (h : ∀ n, ¬ reads n) :
      NumberedBy reads call body (.bare "block" [call, .node (.str "args") mark [], body])

theorem NumberedBy.body {reads : Nat → Prop} {call body t : Tree}
    (h : NumberedBy reads call body t) : t.children?.bind (·[2]?) = some body := by
  cases h <;> rfl

/-- The reads may be taken from elsewhere, if none of them is higher. -/
theorem NumberedBy.of_le {reads reads' : Nat → Prop} {call body t : Tree}
    (h : NumberedBy reads call body t) (hsub : ∀ n, reads n → reads' n)
    (hle : ∀ n, reads' n → ∃ k, n ≤ k ∧ reads k) : NumberedBy reads' call body t := by
  cases h with
  | numbered hpos h hmax =>
    refine .numbered hpos (hsub _ h) fun k hk => ?_
    obtain ⟨m, hkm, hm⟩ := hle k hk
    exact Nat.le_trans hkm (hmax m hm)
  | plain h =>
    refine .plain fun n hn => ?_
    obtain ⟨k, -, hk⟩ := hle n hn
    exact h k hk

/-- What is found are the reads of the scope, if the body is no scope and nothing
    before an inner scope reads a higher one. -/
theorem NumberedBy.own {call body t : Tree} (h : NumberedBy (Found · body) call body t)
    {slot : Slot} (hbody : Finished slot body) (hscope : body.isScope = false)
    (hbefore : ∀ n, body.ReadsBefore n → ∃ k, n ≤ k ∧ body.Reads Tree.foundParts k) :
    NumberedBy (body.Reads Tree.ownParts ·) call body t := by
  have hfound (n : Nat) : Found n body ↔ body.Reads Tree.foundParts n :=
    Tree.found_iff hscope hbody
  refine h.of_le (fun n hn => Tree.reads_own_iff.2 (.inl ((hfound n).1 hn))) fun n hn => ?_
  rcases Tree.reads_own_iff.1 hn with hn | hn
  · exact ⟨n, Nat.le_refl n, (hfound n).2 hn⟩
  · obtain ⟨k, hk, hread⟩ := hbefore n hn
    exact ⟨k, hk, (hfound k).2 hread⟩

/-- No parameters, or an empty list of them. -/
def NoParams (t : Tree) : Prop :=
  t = .null ∨ ∃ mark, t = .node (.str "args") mark []

/-- A block without parameters is numbered by what is found in its body. -/
theorem makeBlock_numberedBy {options : Options} (hon : options.numberedParams) (scope : Scope)
    (call : Tree) {args body : Tree} (hargs : NoParams args) (hbody : Finished .optional body) :
    ∃ t, (makeBlock call args body).runIn options scope = (.ok t, scope) ∧
      NumberedBy (Found · body) call body t := by
  -- Parameters that are not there are an empty list of them.
  obtain ⟨mark, hparams⟩ :
      ∃ mark, (if args.isNull then .bare "args" [] else args) = .node (.str "args") mark [] := by
    rcases hargs with rfl | ⟨mark, rfl⟩
    · exact ⟨{}, rfl⟩
    · exact ⟨mark, rfl⟩
  obtain ⟨k, hk, hread, hmax⟩ := highestNumbered_eq hbody
  have hrun : (makeBlock call args body).runIn options scope = (if k != 0 then
      pure (.bare "numblock" [call, .int k, body])
      else pure (.bare "block" [call, .node (.str "args") mark [], body]) : LowerM Tree).runIn
        options scope := by
    unfold makeBlock
    rw [runIn_bind, runIn_read]
    dsimp only
    rw [hparams, if_pos hon]
    change (highestNumbered body >>= _).runIn options scope = _
    rw [hk, pure_bind]
  rw [hrun]
  -- Zero stands for no numbered parameter at all.
  by_cases hzero : k = 0
  · subst hzero
    refine ⟨_, rfl, .plain fun n hn => ?_⟩
    exact hn.ne_zero (Nat.le_zero.1 (hmax n hn))
  · rw [if_pos (by simpa using hzero)]
    exact ⟨_, rfl, .numbered (Nat.pos_of_ne_zero hzero) (hread hzero) hmax⟩

section Blocks

open Raw (node)

/-- A parameter list with nothing in it. -/
inductive EmptyList : Raw → Prop where
  | intro {required optionals rest post keywords kwrest block : Raw}
      (h : ∀ r ∈ [required, optionals, post, keywords, kwrest, block], r.isEmpty)
      (hrest : isExtraComma rest ∨ rest.isEmpty) :
      EmptyList (node "params" [required, optionals, rest, post, keywords, kwrest, block])

/-- The parameters of a block or lambda that has none. -/
inductive Undeclared : Raw → Prop where
  | absent : Undeclared .null
  | list {r : Raw} (h : EmptyList r) : Undeclared r
  | paren {r : Raw} (h : EmptyList r) : Undeclared (node "paren" [r])
  | bars {r locals : Raw} (h : EmptyList r) (hlocals : locals.isEmpty) :
      Undeclared (node "block_var" [r, locals])

/-- A block or lambda without parameters, with the call before it and its body. -/
inductive Parameterless : Raw → Option Raw → Raw → Prop where
  | block {tag : String} {call params body : Raw} (htag : tag ∈ ["brace_block", "do_block"])
      (hcall : Shaped .expr call) (hparams : Undeclared params) (hbody : Shaped .code body) :
      Parameterless (node "method_add_block" [call, node tag [params, body]]) (some call) body
  | lambda {params body : Raw} (hparams : Undeclared params) (hbody : Shaped .code body) :
      Parameterless (node "lambda" [params, body]) none body

/-- What a block is given to: the call before it, or nothing but a lambda. -/
def LowersCall (options : Options) (scope : Scope) : Option Raw → Tree → Prop
  | some r, c => ∃ scope', (lower r).runIn options scope = (.ok c, scope')
  | none, c => c = .bare "lambda" []

theorem elementsOf_isEmpty {r : Raw} (h : r.isEmpty) : elementsOf r = pure [] :=
  if_pos h

theorem special_isEmpty {r : Raw} (h : r.isEmpty) : special lower r = pure [] := by
  unfold special
  split
  · cases h
  · exact if_pos h

theorem lower_emptyList {r : Raw} (h : EmptyList r) : lower r = pure (.bare "args" []) := by
  obtain ⟨hempty, hrest⟩ := h
  rename_i required optionals rest post keywords kwrest block
  simp only [List.forall_mem_cons] at hempty
  obtain ⟨hrequired, hoptionals, hpost, hkeywords, hkwrest, hblock, -⟩ := hempty
  rw [lower_node]
  change lowerParams lower [required, optionals, rest, post, keywords, kwrest, block] = _
  rcases hrest with hrest | hrest <;>
    simp [lowerParams, positional, Fields.get, elementsOf_isEmpty, special_isEmpty, hrequired,
      hoptionals, hrest, hpost, hkeywords, hkwrest, hblock]

/-- Whether a comma follows does not matter if there is nothing before it. -/
theorem hasTrailingComma_emptyList {r : Raw} (h : EmptyList r) :
    ∃ comma, hasTrailingComma r = pure comma := by
  obtain ⟨-, -⟩ := h
  exact ⟨_, rfl⟩

theorem lower_undeclared {r : Raw} (h : Undeclared r) :
    ∃ args, lower r = pure args ∧ NoParams args := by
  cases h with
  | absent => exact ⟨.null, lower_of_isEmpty rfl, .inl rfl⟩
  | list h => exact ⟨_, lower_emptyList h, .inr ⟨_, rfl⟩⟩
  | @paren r h =>
    refine ⟨.bare "args" [], ?_, .inr ⟨_, rfl⟩⟩
    -- A list without parameters is still a node, so the parentheses are not empty.
    have hempty : r.isEmpty = false := by
      obtain ⟨-, -⟩ := h
      rfl
    rw [lower_node]
    change (if r.isEmpty then _ else lower r >>= _ : LowerM Tree) = _
    rw [hempty, lower_emptyList h]
    rfl
  | @bars r locals h hlocals =>
    refine ⟨.bare "args" [], ?_, .inr ⟨_, rfl⟩⟩
    obtain ⟨comma, hcomma⟩ := hasTrailingComma_emptyList h
    rw [lower_node]
    change lowerBlockParams lower [r, locals] = _
    unfold lowerBlockParams
    change (lower r >>= _) = _
    rw [lower_emptyList h, pure_bind]
    change (hasTrailingComma r >>= _) = _
    rw [hcomma, pure_bind]
    have hshadows : (elementsOf locals >>= fun rs => rs.mapM shadow >>= fun shadows =>
        pure ((Tree.bare "args" []).withChildren shadows)) = pure (.bare "args" []) := by
      rw [elementsOf_isEmpty hlocals]
      rfl
    -- There is no parameter that a comma could stand behind.
    cases comma <;> exact hshadows

/-- The parameters of such a block are lowered to none, and then its body is. -/
theorem runIn_paramsAndBody {params body : Raw} (hparams : Undeclared params)
    (hbody : Shaped .code body) (options : Options) (scope : Scope) :
    ∃ args b inner inner' scope',
      (paramsAndBody lower [params, body]).runIn options scope = (.ok (args, b), scope') ∧
        NoParams args ∧ (visitBody lower body).runIn options inner = (.ok b, inner') ∧
        Finished .optional b := by
  obtain ⟨args, hargs, hnone⟩ := lower_undeclared hparams
  -- The body is lowered within the rest name of the parameters, and these have none.
  obtain ⟨b, inner, hrun, hb⟩ :=
    visitBody_yields (sound_of_shaped hbody) options (scope.enterRest (restName args))
  refine ⟨args, b, _, inner, inner.leaveRest scope, ?_, hnone, hrun, hb⟩
  change (lower params >>= _).runIn options scope = _
  rw [hargs, pure_bind]
  change (withRest (restName args) (visitBody lower body) >>= _).runIn options scope = _
  rw [runIn_bind, runIn_withRest, hrun]
  rfl

/-- Blocks and lambdas without parameters are numbered by what is found in their
    bodies. These are the reads in their own scope, unless the body is a scope
    itself or something before an inner scope reads a higher one. -/
theorem block_numbered_by_own_reads {r body : Raw} {call : Option Raw}
    (h : Parameterless r call body) {options : Options} (hon : options.numberedParams)
    (scope : Scope) :
    ∃ c b t inner inner' scope', LowersCall options scope call c ∧
      (visitBody lower body).runIn options inner = (.ok b, inner') ∧
      (lower r).runIn options scope = (.ok t, scope') ∧ NumberedBy (Found · b) c b t ∧
      (b.isScope = false →
        (∀ n, b.ReadsBefore n → ∃ k, n ≤ k ∧ b.Reads Tree.foundParts k) →
        NumberedBy (b.Reads Tree.ownParts ·) c b t) := by
  cases h with
  | @block tag call params body htag hcall hparams hbody =>
    obtain ⟨c, middle, hrunCall, -⟩ := sound_of_shaped hcall options scope
    obtain ⟨args, b, inner, inner', scope', hrunBlock, hnone, hrunBody, hb⟩ :=
      runIn_paramsAndBody hparams hbody options middle
    obtain ⟨t, hrun, hnumbered⟩ := makeBlock_numberedBy hon scope' c hnone hb
    refine ⟨c, b, t, inner, inner', scope', ⟨middle, hrunCall⟩, hrunBody, ?_, hnumbered,
      hnumbered.own hb⟩
    -- Both kinds of brackets are lowered in the same way.
    have hlower : lower (node tag [params, body]) = lowerBlockBody lower [params, body] := by
      simp only [List.mem_cons, List.not_mem_nil, or_false] at htag
      rcases htag with rfl | rfl <;> exact lower_node _ _
    rw [lower_node]
    change (lower call >>= fun _ => lower (node tag [params, body]) >>= _).runIn options scope = _
    rw [runIn_bind, hrunCall]
    dsimp only
    rw [hlower, lowerBlockBody, bind_assoc, runIn_bind, hrunBlock]
    exact hrun
  | @lambda params body hparams hbody =>
    obtain ⟨args, b, inner, inner', scope', hrunBlock, hnone, hrunBody, hb⟩ :=
      runIn_paramsAndBody hparams hbody options scope
    obtain ⟨t, hrun, hnumbered⟩ :=
      makeBlock_numberedBy hon scope' (.bare "lambda" []) hnone hb
    refine ⟨_, b, t, inner, inner', scope', rfl, hrunBody, ?_, hnumbered, hnumbered.own hb⟩
    rw [lower_node]
    change (paramsAndBody lower [params, body] >>= _).runIn options scope = _
    rw [runIn_bind, hrunBlock]
    exact hrun

end Blocks

section Samples

open Raw (node token)
open RubyTree.Tree (ownParts foundParts)

/-- A name at the first line. -/
def nameAt (name : String) : Raw :=
  token "@ident" name (.list [.int 1, .int 0])

/-- A call with a block of these statements. -/
def blockOf (name : String) (statements : List Raw) : Raw :=
  node "method_add_block"
    [node "fcall" [nameAt name], node "brace_block" [.null, node "stmts" statements]]

def readOf (name : String) : Raw :=
  node "var_ref" [nameAt name]

theorem shaped_readOf (name : String) : Shaped .code (readOf name) :=
  .ofBody (.ofValue (.reference (by decide) (.variableName (by decide))))

theorem parameterless_blockOf {name : String} (hname : name ≠ "!") {statements : List Raw}
    (h : ∀ r ∈ statements, Shaped .code r) :
    Parameterless (blockOf name statements) (some (node "fcall" [nameAt name]))
      (node "stmts" statements) :=
  .block (by decide) (.ofCallee (.function (.token _ _ _) hname)) .absent (.statements h)

/-- A lowered read. -/
def readTree (name : String) : Tree :=
  .placed (some (.int 1)) "lvar" [.sym name]

/-- A lowered call without arguments. -/
def callTree (name : String) : Tree :=
  .placed (some (.int 1)) "send" [.null, .sym name]

/-- A block that reads a parameter, with a block beside it that reads another. -/
def siblingBlock : Raw :=
  blockOf "foo" [readOf "_1", blockOf "bar" [readOf "_2"]]

theorem lower_siblingBlock : ((lower siblingBlock).runIn {} {}).1 = .ok (.bare "numblock"
    [callTree "foo", .int 1, .bare "begin" [readTree "_1",
      .bare "numblock" [callTree "bar", .int 2, readTree "_2"]]]) :=
  rfl

theorem block_numbered_by_own_reads_siblingBlock :
    ∃ c b t scope', (lower siblingBlock).runIn {} {} = (.ok t, scope') ∧
      NumberedBy (b.Reads ownParts ·) c b t := by
  have hinner : Shaped .code (blockOf "bar" [readOf "_2"]) := by
    refine .ofBody (.ofValue (.blockCall (.ofCallee (.function (.token _ _ _) (by decide))) ?_))
    exact .block (by decide) .absent (.statements (List.forall_mem_singleton.2 (shaped_readOf _)))
  have hblock : Parameterless siblingBlock _ _ := parameterless_blockOf (by decide)
    (List.forall_mem_cons.2 ⟨shaped_readOf _, List.forall_mem_singleton.2 hinner⟩)
  obtain ⟨c, b, t, -, -, scope', -, -, hrun, hnumbered, hown⟩ :=
    block_numbered_by_own_reads hblock (rfl : ({} : Options).numberedParams = true) {}
  have ht := lower_siblingBlock
  rw [hrun] at ht
  have hb : some b = some (.bare "begin" [readTree "_1",
      .bare "numblock" [callTree "bar", .int 2, readTree "_2"]]) := by
    rw [← hnumbered.body, Except.ok.inj ht]
    rfl
  injection hb with hb
  refine ⟨c, b, t, scope', hrun, hown (by rw [hb]; rfl) fun n hn => ?_⟩
  -- The call of the inner block reads nothing.
  simp [hb, Tree.bare, callTree, readTree, Tree.placed, Tree.readsBefore_node_iff,
    Tree.reads_node_iff, Tree.ReadsHere, ownParts, scopeTags, Tree.countBefore,
    Tree.not_reads_leaf, Tree.not_readsBefore_leaf] at hn

/-- A block around a block with numbered parameters. -/
def nestedBlock : Raw :=
  blockOf "foo" [blockOf "bar" [readOf "_1"]]

/-- The outer block reads nothing in its own scope, and yet it is numbered. -/
theorem nestedBlock_takes_inner_reads :
    ((lower nestedBlock).runIn {} {}).1 = .ok (.bare "numblock" [callTree "foo", .int 1,
        .bare "numblock" [callTree "bar", .int 1, readTree "_1"]]) ∧
      ∀ n, ¬ (Tree.bare "numblock" [callTree "bar", .int 1, readTree "_1"]).Reads ownParts n := by
  refine ⟨rfl, fun n hn => ?_⟩
  simp [Tree.bare, callTree, readTree, Tree.placed, Tree.reads_node_iff, Tree.ReadsHere, ownParts,
    scopeTags, Tree.countBefore, Tree.not_reads_leaf] at hn

-- The call of an inner block is in the scope of the outer one, and is not searched.
example : ((lower (blockOf "foo" [node "method_add_block"
      [node "call" [readOf "_1", .sym ".", nameAt "each"],
        node "brace_block" [.null, node "stmts" [readOf "a"]]],
      readOf "b"])).runIn {} {}).1.toOption.map (·.hasTag "block") = some true :=
  rfl

end Samples

end LowerM

end RubyTree
