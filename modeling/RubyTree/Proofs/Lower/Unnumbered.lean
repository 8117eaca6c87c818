import RubyTree.Proofs.Lower.Compared.Form
import RubyTree.Proofs.Lower.NumberedBlock
import RubyTree.Proofs.Lower.ScopeRestored

/-!
# Blocks Without Numbered Parameters

A block that reads `_1` to `_9` can be lowered as a numbered block or as a block
without parameters, and an option says which. Blocks nest, and the block around
one is made from a body in which the option has already been at work. So the two
trees are different at every level. Still nothing else comes of it: lowering ends
alike under both options, and to get the second tree it is enough to rewrite the
numbered blocks of the first.

A numbered block holds an integer where other blocks hold their parameters, so
this is true only as long as nobody looks at the children of a block for what
they are. `Raw.Conforming` keeps a program from making that happen. It says of
the few fields whose children are handed on, or from which a name is read, that
they hold what such a field is for; the other fields may hold anything, and
lowering may well fail.

## Main definitions

* `Raw.Listing`, `Raw.Target`, `Raw.Parameters`, `Raw.Braces`: What fields are for.
* `Raw.Conforming`: A raw tree whose fields hold what they are for.
* `Tree.withoutNumbers`: A tree with its numbered blocks rewritten.

## Theorems

* `Conforming.everywhere`: Conforming raw trees are lowered in parallel.
* `lower_without_numbers`: Lowering under both options.
-/

namespace RubyTree

open LowerM

namespace Production

/-- The tag of what a production builds, where there is only one. -/
def result? : Production → Option String
  | fields tag => some tag
  | each tag => some tag
  | argsBlock => some "arglist"
  | symbolWords => some "words"
  | quotedSymbolWords => some "words"
  | valuesFromArgs => some "mrhs"
  | name tag => some tag
  | constant => some "const"
  | scopedConstant => some "const"
  | topConstant => some "const"
  | indexTarget => some "aref_field"
  | attributeTarget => some "field"
  | _ => none

/-- The tags of a production that asks something of its fields. -/
def askers : Production → List String
  | keyword => ["@kw"]
  | pair => ["assoc_new"]
  | hashPattern => ["hshptn"]
  | quotedSymbol => ["dyna_symbol"]
  | quotedSymbolWords => ["symbols"]
  | collection _ => ["array", "hash"]
  | valuesStar => ["mrhs_add_star"]
  | operatorAssign => ["opassign"]
  | lambda => ["lambda"]
  | blockCall => ["method_add_block"]
  | _ => []

theorem mem_askers {tag : String} {p : Production} (h : ofTag? tag = some p)
    (hp : p.askers ≠ []) : tag ∈ p.askers := by
  have htable : ∀ e ∈ table, e.2.askers = [] ∨ e.1 ∈ e.2.askers := by decide +kernel
  exact (htable _ (mem_table_of_ofTag? h)).resolve_left hp

theorem spelled_eq_nil {p : Production} (h : p.askers = []) (fs : Fields) : p.spelled fs = [] := by
  cases p <;> first | rfl | cases h

theorem quoted_eq_nil {p : Production} (h : p.askers = []) (fs : Fields) : p.quoted fs = [] := by
  cases p <;> first | rfl | cases h

theorem returns_result {p : Production} {tag : String} (hp : p.result? = some tag) {go : Visit}
    {fs : Fields} {t : Tree} (h : Returns (p.lower go fs) t) : t.hasTag tag := by
  -- By the production: those with a known result end by making a node with that tag.
  cases p <;> cases hp
  case fields =>
    obtain ⟨_, -, h⟩ := returns_bind h
    rw [← returns_pure h]
    exact beq_self_eq_true _
  case each =>
    obtain ⟨_, -, h⟩ := returns_bind h
    rw [← returns_pure h]
    exact beq_self_eq_true _
  case name =>
    obtain ⟨_, -, h⟩ := returns_bind h
    rw [← returns_pure h]
    exact beq_self_eq_true _
  case argsBlock =>
    obtain ⟨_, -, h⟩ := returns_bind h
    split at h
    · rw [← returns_pure h]
      rfl
    · rw [← returns_pure h]
      rfl
    · rw [← returns_pure h]
      rfl
    · rw [← returns_pure h]
      rfl
    · obtain ⟨_, -, h⟩ := returns_bind h
      rw [← returns_pure h]
      rfl
  case symbolWords =>
    obtain ⟨_, -, h⟩ := returns_bind h
    rw [← returns_pure h]
    rfl
  case quotedSymbolWords =>
    obtain ⟨_, -, h⟩ := returns_bind h
    rw [← returns_pure h]
    rfl
  case valuesFromArgs =>
    cases fs with
    | nil => exact absurd h not_returns_throw
    | cons inner rest =>
      obtain ⟨_, -, h⟩ := returns_bind h
      obtain ⟨_, -, h⟩ := returns_bind h
      rw [← returns_pure h]
      rfl
  case constant =>
    obtain ⟨_, -, h⟩ := returns_bind h
    rw [← returns_pure h]
    rfl
  case scopedConstant =>
    obtain ⟨_, -, h⟩ := returns_bind h
    obtain ⟨_, -, h⟩ := returns_bind h
    rw [← returns_pure h]
    rfl
  case topConstant =>
    obtain ⟨_, -, h⟩ := returns_bind h
    rw [← returns_pure h]
    rfl
  case indexTarget =>
    obtain ⟨_, -, h⟩ := returns_bind h
    obtain ⟨_, -, h⟩ := returns_bind h
    rw [← returns_pure h]
    rfl
  case attributeTarget =>
    obtain ⟨_, -, h⟩ := returns_bind h
    obtain ⟨_, -, h⟩ := returns_bind h
    obtain ⟨_, -, h⟩ := returns_bind h
    rw [← returns_pure h]
    rfl

end Production

namespace Raw

/-- The tags of lists of elements that are built anew. -/
def listTags : List String :=
  ["args", "args_add_block", "words", "qwords", "symbols", "qsymbols", "assoclist_from_args",
    "mrhs", "mrhs_new_from_args"]

/-- The elements of an array or hash, or values that come before a splat. -/
inductive Listing : Raw → Prop where
  | absent {r : Raw} (h : r.isEmpty) : Listing r
  | node {tag : String} (htag : tag ∈ listTags) (fields : List Raw) :
      Listing (list (str tag :: fields))
  | splat {r : Raw} (h : Listing r) (rest : List Raw) :
      Listing (list (str "args_add_star" :: r :: rest))

/-- The tags of variables, and of accesses that can be assigned to. -/
def targetTags : List String :=
  ["@ident", "@ivar", "@gvar", "@cvar", "@const", "aref_field", "field", "const_path_field",
    "top_const_field"]

/-- The target of an operator assignment. -/
inductive Target : Raw → Prop where
  | node {tag : String} (htag : tag ∈ targetTags) (fields : List Raw) :
      Target (list (str tag :: fields))
  | name {r : Raw} (h : Target r) (rest : List Raw) :
      Target (list (str "var_field" :: r :: rest))

/-- The parameters of a lambda, which may be in parentheses, or none. -/
inductive Parameters : Raw → Prop where
  | absent {r : Raw} (h : r.isEmpty) : Parameters r
  | bare (fields : List Raw) : Parameters (list (str "params" :: fields))
  | paren (fields rest : List Raw) :
      Parameters (list (str "paren" :: list (str "params" :: fields) :: rest))

/-- A block with its parameters between bars, or with none. -/
inductive Braces : Raw → Prop where
  | absent {tag : String} (htag : tag ∈ ["brace_block", "do_block"]) {r : Raw} (h : r.isEmpty)
      (rest : List Raw) : Braces (list (str tag :: r :: rest))
  | bars {tag : String} (htag : tag ∈ ["brace_block", "do_block"]) (fields locals rest : List Raw) :
      Braces (list (str tag ::
        list (str "block_var" :: list (str "params" :: fields) :: locals) :: rest))

/-- A node whose fields hold what they are for. -/
structure Conforms (tag : String) (fs : Fields) : Prop where
  word : tag = "@kw" → ∃ word, (fs.get 0).text? = some word ∧ word ∉ Change.lookedInto
  keys : ∀ p, Production.ofTag? tag = some p → ∀ x ∈ p.spelled fs, Key x
  literals : ∀ p, Production.ofTag? tag = some p → ∀ x ∈ p.quoted fs, Literal false x
  elements : tag ∈ ["array", "hash", "mrhs_add_star"] → Listing (fs.get 0)
  target : tag = "opassign" → Target (fs.get 0)
  lambda : tag = "lambda" → Parameters (fs.get 0)
  block : tag = "method_add_block" → Braces (fs.get 1)

/-- A raw tree whose fields hold what they are for. -/
inductive Conforming : Raw → Prop where
  | atom (a : Atom) : Conforming (atom a)
  | list {items : List Raw} (hnode : ∀ tag fs, items = str tag :: fs → Conforms tag fs)
      (hitems : ∀ x ∈ items, Conforming x) : Conforming (list items)

/-- The tags of nodes of which something is asked. -/
def askedTags : List String :=
  ["@kw", "assoc_new", "hshptn", "dyna_symbol", "symbols", "array", "hash", "mrhs_add_star",
    "opassign", "lambda", "method_add_block"]

/-- Nothing is asked of any other node. -/
theorem conforms_of_notMem {tag : String} (h : tag ∉ askedTags) (fs : Fields) :
    Conforms tag fs := by
  have hne : ∀ {t : String}, t ∈ askedTags → tag ≠ t := fun ht heq => h (heq ▸ ht)
  have hfree : ∀ {p : Production}, Production.ofTag? tag = some p → p.askers = [] := by
    -- The table is looked through once: other tags have productions that ask nothing.
    have htable : ∀ e ∈ Production.table, e.1 ∉ askedTags → e.2.askers = [] := by decide +kernel
    exact fun {p} hp => htable (tag, p) (Production.mem_table_of_ofTag? hp) h
  refine
    { word := fun htag => absurd htag (hne (by decide))
      keys := fun p hp x hx => ?_
      literals := fun p hp x hx => ?_
      elements := fun htag => ?_
      target := fun htag => absurd htag (hne (by decide))
      lambda := fun htag => absurd htag (hne (by decide))
      block := fun htag => absurd htag (hne (by decide)) }
  · rw [Production.spelled_eq_nil (hfree hp)] at hx
    cases hx
  · rw [Production.quoted_eq_nil (hfree hp)] at hx
    cases hx
  · simp only [List.mem_cons, List.not_mem_nil, or_false] at htag
    rcases htag with htag | htag | htag
    · exact absurd htag (hne (by decide))
    · exact absurd htag (hne (by decide))
    · exact absurd htag (hne (by decide))

variable {r : Raw} {t : Tree} {fs : Fields} {tag : String}

theorem conforming_node (h : tag ∉ askedTags) (hfs : ∀ x ∈ fs, Conforming x) :
    Conforming (list (str tag :: fs)) := by
  refine .list (fun tag' fs' heq => ?_) (List.forall_mem_cons.2 ⟨.atom _, hfs⟩)
  cases heq
  exact conforms_of_notMem h fs

/-- What is built anew is no numbered block. -/
theorem returns_built (htag : tag ∈ listTags ++ targetTags)
    (h : Returns (lower (list (str tag :: fs))) t) : t.hasTag "numblock" = false := by
  -- The table says what each of these productions makes, and none makes a numbered block.
  have htable : ∀ tag ∈ listTags ++ targetTags, ((Production.ofTag? tag).bind
      Production.result?).any (· ≠ "numblock") := by decide +kernel
  have hresult := htable tag htag
  rw [lower_node] at h
  cases hp : Production.ofTag? tag with
  | none =>
    rw [hp] at hresult
    cases hresult
  | some p =>
    rw [hp] at hresult h
    cases hbuilt : p.result? with
    | none =>
      rw [Option.bind_some, hbuilt] at hresult
      cases hresult
    | some built =>
      rw [Option.bind_some, hbuilt] at hresult
      exact Tree.hasTag_of_ne (Production.returns_result hbuilt h) (by simpa using hresult)

theorem Listing.whole (h : Listing r) : Change.unnumbered.Whole r := by
  induction h with
  | absent h =>
    intro t ht
    rw [lower_of_isEmpty h] at ht
    rw [← returns_pure ht]
    rfl
  | node htag fields => exact fun t ht => returns_built (List.mem_append_left _ htag) ht
  | @splat r _ rest ih =>
    -- The arguments before the splat keep their tag.
    intro t ht
    rw [lower_node] at ht
    cases rest with
    | nil => exact absurd ht not_returns_throw
    | cons splatted rest =>
      obtain ⟨u, hu, ht⟩ := returns_bind
        (show Returns (lowerArgsStar lower (r :: splatted :: rest)) t from ht)
      have hrest : ∀ items : Tree, items.hasTag "numblock" = false → Returns (do
          let children ← childrenOf items
          let splat := Tree.bare "splat" [← lower splatted]
          return items.withChildren (children ++ splat :: (← rest.mapM lower))) t →
          t.hasTag "numblock" = false := by
        intro items hitems ht
        obtain ⟨children, -, ht⟩ := returns_bind ht
        obtain ⟨value, -, ht⟩ := returns_bind ht
        obtain ⟨after, -, ht⟩ := returns_bind ht
        rw [← returns_pure ht]
        cases items with
        | leaf v => rfl
        | node tag mark ts => exact (Tree.hasTag_congr _ _ _ _).trans hitems
      dsimp only at ht
      split at ht
      · exact hrest (.bare "arglist" []) rfl ht
      · exact hrest u (ih u hu) ht

theorem Target.whole (h : Target r) : Change.unnumbered.Whole r := by
  induction h with
  | node htag fields => exact fun t ht => returns_built (List.mem_append_right _ htag) ht
  | name _ rest ih =>
    intro t ht
    rw [lower_node] at ht
    exact ih t ht

/-- Parameters by themselves. -/
theorem returns_params (h : Returns (lower (list (str "params" :: fs))) t) :
    ∃ ts, t = .bare "args" ts := by
  rw [lower_node] at h
  obtain ⟨_, -, h⟩ := returns_bind (show Returns (lowerParams lower fs) t from h)
  obtain ⟨_, -, h⟩ := returns_bind h
  obtain ⟨_, -, h⟩ := returns_bind h
  -- Whatever comes before the later parameters, an `args` is made of all of them.
  have hrest : ∀ {before rest : List Tree}, Returns (do
      let post ← positional lower (fs.get 3)
      let keywords ← (← elementsOf (fs.get 4)).mapM (keyword lower)
      let kwrest ← special lower (fs.get 5)
      let block ← special lower (fs.get 6)
      return .bare "args" (before ++ rest ++ post ++ keywords ++ kwrest ++ block)) t →
      ∃ ts, t = .bare "args" ts := by
    intro before rest h
    obtain ⟨_, -, h⟩ := returns_bind h
    obtain ⟨_, -, h⟩ := returns_bind h
    obtain ⟨_, -, h⟩ := returns_bind h
    obtain ⟨_, -, h⟩ := returns_bind h
    obtain ⟨_, -, h⟩ := returns_bind h
    exact ⟨_, (returns_pure h).symm⟩
  dsimp only at h
  split at h
  · exact hrest h
  · obtain ⟨_, -, h⟩ := returns_bind h
    exact hrest h

theorem isParams_args (ts : List Tree) : Production.IsParams (.bare "args" ts) := by
  cases ts with
  | nil => exact .inr (.inl rfl)
  | cons t ts => exact .inr (.inr ⟨_, _, t, ts, rfl⟩)

theorem Parameters.isParams (h : Parameters r) (ht : Returns (lower r) t) :
    Production.IsParams t := by
  -- Parameters are absent, bare, or in parentheses, which an argument list does without.
  cases h with
  | absent h =>
    rw [lower_of_isEmpty h] at ht
    exact .inl (returns_pure ht).symm
  | bare fields =>
    obtain ⟨ts, rfl⟩ := returns_params ht
    exact isParams_args ts
  | paren fields rest =>
    rw [lower_node] at ht
    obtain ⟨u, hu, ht⟩ := returns_bind
      (show Returns (lowerParen lower (list (str "params" :: fields) :: rest)) t from ht)
    obtain ⟨ts, rfl⟩ := returns_params hu
    rw [← returns_pure (show Returns (pure (.bare "args" ts)) t from ht)]
    exact isParams_args ts

theorem returns_blockParams {locals : List Raw}
    (h : Returns (lower (list (str "block_var" :: list (str "params" :: fs) :: locals))) t) :
    Production.IsParams t := by
  rw [lower_node] at h
  obtain ⟨args, hargs, h⟩ := returns_bind
    (show Returns (lowerBlockParams lower (list (str "params" :: fs) :: locals)) t from h)
  obtain ⟨ts, rfl⟩ := returns_params hargs
  obtain ⟨_, -, h⟩ := returns_bind h
  obtain ⟨_, -, h⟩ := returns_bind h
  -- Shadowed names are put behind the parameters, so they stay parameters.
  have hrest : ∀ {children : List Tree}, Returns (do
      let shadows ← (← elementsOf (Fields.get (list (str "params" :: fs) :: locals) 1)).mapM shadow
      return (Tree.bare "args" ts).withChildren (children ++ shadows)) t →
      Production.IsParams t := by
    intro children h
    obtain ⟨_, -, h⟩ := returns_bind h
    obtain ⟨_, -, h⟩ := returns_bind h
    rw [← returns_pure h]
    exact isParams_args _
  dsimp only at h
  split at h
  · exact hrest h
  · obtain ⟨_, -, h⟩ := returns_bind h
    exact hrest h

theorem Braces.isParams (h : Braces r) {args body : Tree} (ht : Returns (lower r) t)
    (hchildren : t.children? = some [args, body]) : Production.IsParams args := by
  -- The first child is what the first field was lowered to.
  have hfirst : ∀ {tag : String} {params : Raw} {rest : List Raw},
      tag ∈ ["brace_block", "do_block"] → Returns (lower (list (str tag :: params :: rest))) t →
      Returns (lower params) args := by
    intro tag params rest htag ht
    have hbody : Returns (lowerBlockBody lower (params :: rest)) t := by
      simp only [List.mem_cons, List.not_mem_nil, or_false] at htag
      rw [lower_node] at ht
      rcases htag with rfl | rfl
      · exact ht
      · exact ht
    obtain ⟨⟨args', body'⟩, hboth, hbody⟩ := returns_bind hbody
    obtain ⟨args'', hargs, hboth⟩ := returns_bind hboth
    obtain ⟨body'', -, hboth⟩ := returns_bind hboth
    cases returns_pure hboth
    rw [← returns_pure hbody] at hchildren
    cases hchildren
    exact hargs
  cases h with
  | absent htag h rest =>
    have hargs := hfirst htag ht
    rw [lower_of_isEmpty h] at hargs
    exact .inl (returns_pure hargs).symm
  | bars htag fields locals rest => exact returns_blockParams (hfirst htag ht)

theorem Conforms.fits (h : Conforms tag fs) : Change.unnumbered.Fits tag fs := by
  refine
    { text := fun _ => trivial
      place := fun _ _ => trivial
      variableName := fun _ => trivial
      names := fun _ _ _ _ => trivial
      comment := fun _ => trivial
      word := h.word
      chain := fun _ => trivial
      spelled := fun p hp x hx => (h.keys p hp x hx).spells _
      quoted := fun p hp x hx => (h.literals p hp x hx).spells _
      opened := fun p hp x hx => ?_
      params := fun p hp => ?_ }
  · -- Only five productions look into a field as it stands.
    have hasker := Production.mem_askers hp
    have hliterals := h.literals p hp
    cases p with
    | collection t =>
      rw [List.mem_singleton.1 hx]
      have htag := hasker (by simp [Production.askers])
      exact (h.elements (List.mem_append_left ["mrhs_add_star"] htag)).whole
    | valuesStar =>
      rw [List.mem_singleton.1 hx]
      exact (h.elements (List.mem_append_right ["array", "hash"] (hasker (by decide)))).whole
    | operatorAssign =>
      rw [List.mem_singleton.1 hx]
      exact (h.target (List.mem_singleton.1 (hasker (by decide)))).whole
    | quotedSymbol => exact (hliterals x hx).whole _
    | quotedSymbolWords => exact (hliterals x hx).whole _
    | _ => cases hx
  · -- Only two productions look at parameters.
    have hasker := Production.mem_askers hp
    cases p with
    | lambda =>
      exact fun t ht => (h.lambda (List.mem_singleton.1 (hasker (by decide)))).isParams ht
    | blockCall =>
      exact fun t args body ht hchildren =>
        (h.block (List.mem_singleton.1 (hasker (by decide)))).isParams ht hchildren
    | _ => trivial

/-- Conforming raw trees are lowered in parallel. -/
theorem Conforming.everywhere (h : Conforming r) : Change.unnumbered.Everywhere r := by
  induction h with
  | atom a => exact .atom a
  | list hnode _ ih => exact .list (fun tag fs heq => (hnode tag fs heq).fits) ih

end Raw

namespace Tree

mutual

/-- A tree in which numbered blocks have become blocks without parameters. -/
def withoutNumbers : Tree → Tree
  | leaf v => leaf v
  | node (.str "numblock") mark (call :: _ :: body :: rest) =>
    node (.str "block") mark
      (call.withoutNumbers :: bare "args" [] :: body.withoutNumbers :: withoutNumbersAll rest)
  | node tag mark ts => node tag mark (withoutNumbersAll ts)

/-- Trees in which numbered blocks have become blocks without parameters. -/
def withoutNumbersAll : List Tree → List Tree
  | [] => []
  | t :: ts => t.withoutNumbers :: withoutNumbersAll ts

end

end Tree

namespace Change

theorem marks_unnumbered {m m' : Mark} (h : unnumbered.Marks m m') : m' = m := by
  have heq : ∀ {α : Type} {a b : Option α}, Option.Rel Eq a b → b = a := by
    intro α a b hab
    cases hab with
    | none => rfl
    | some hab => rw [hab]
  obtain ⟨line, comments, shared⟩ := m
  obtain ⟨line', comments', shared'⟩ := m'
  obtain ⟨hline, hcomments, hshared⟩ := h
  rw [Mark.mk.injEq]
  exact ⟨heq hline, hcomments.symm, heq hshared⟩

mutual

/-- The second tree is the first with its numbered blocks rewritten. -/
theorem eq_withoutNumbers : (t : Tree) → {t' : Tree} → unnumbered.Agree t t' →
    t' = t.withoutNumbers
  | .leaf _, _, .leaf h => by rw [Tree.withoutNumbers, show _ = _ from h]
  | .node _ _ ts, _, .node hmark hkept h => by
    obtain ⟨word, rfl, hword, -⟩ := hkept
    rw [Tree.withoutNumbers, marks_unnumbered hmark, eq_withoutNumbersAll ts h]
    intro call count body rest hnumbered
    cases hnumbered
    exact absurd rfl hword
  | .node _ _ (call :: _ :: body :: ts), _, .block _ hmark hcall hbody h => by
    rw [Tree.withoutNumbers, marks_unnumbered hmark, eq_withoutNumbers call hcall,
      eq_withoutNumbers body hbody, eq_withoutNumbersAll ts h]

theorem eq_withoutNumbersAll : (ts : List Tree) → {ts' : List Tree} →
    unnumbered.AgreeAll ts ts' → ts' = Tree.withoutNumbersAll ts
  | [], _, .nil => rfl
  | t :: ts, _, .cons h hs => by
    rw [Tree.withoutNumbersAll, eq_withoutNumbers t h, eq_withoutNumbersAll ts hs]

end

end Change

namespace LowerM

/-- Without numbered parameters lowering fails if and only if it fails with them,
    for the same reason. If it succeeds its result is the same but for the numbered
    blocks, and in both cases it leaves the same scope behind. -/
theorem lower_without_numbers {r : Raw} (h : r.Conforming) (options : Options) (scope : Scope) :
    (lower r).runIn { options with numberedParams := false } scope =
      (((lower r).runIn { options with numberedParams := true } scope).1.map Tree.withoutNumbers,
        ((lower r).runIn { options with numberedParams := true } scope).2) := by
  have hself : ∀ k, Change.unnumbered ≠ .moved k := by
    intro k hk
    cases hk
  have hrun := h.everywhere.lower { options with numberedParams := true }
    { options with numberedParams := false } scope scope ⟨rfl, rfl⟩ (Change.scopes_refl scope)
  rw [Change.first_eq_self hself, Change.second_eq_self hself] at hrun
  obtain ⟨hends, hscopes⟩ := hrun
  -- What the two runs may leave different they restore.
  have hon := restores_lowerAt r.depth r { options with numberedParams := true } scope
  have hoff := restores_lowerAt r.depth r { options with numberedParams := false } scope
  generalize hrunOn : (lower r).runIn { options with numberedParams := true } scope = on at *
  generalize hrunOff : (lower r).runIn { options with numberedParams := false } scope = off at *
  rw [show (lowerAt r.depth r).runIn { options with numberedParams := true } scope = on
    from hrunOn] at hon
  rw [show (lowerAt r.depth r).runIn { options with numberedParams := false } scope = off
    from hrunOff] at hoff
  obtain ⟨result, locals, rests, inMethod, numbered⟩ := on
  obtain ⟨result', locals', rests', inMethod', numbered'⟩ := off
  obtain ⟨hlocals, hinMethod, hnumbered, -⟩ := hscopes
  cases hlocals
  cases hinMethod
  cases hnumbered
  obtain rfl : rests' = rests := hoff.rests.trans hon.rests.symm
  cases hends with
  | ok h => rw [Change.eq_withoutNumbers _ h, Except.map]
  | error e => rw [Except.map]

section Samples

open Raw (Conforming conforming_node)

theorem conforming_nameAt (name : String) : Conforming (nameAt name) := by
  refine conforming_node (by decide) (List.forall_mem_cons.2 ⟨.atom _, ?_⟩)
  refine List.forall_mem_singleton.2 (.list (fun tag fs heq => by cases heq) ?_)
  exact List.forall_mem_cons.2 ⟨.atom _, List.forall_mem_singleton.2 (.atom _)⟩

theorem conforming_readOf (name : String) : Conforming (readOf name) :=
  conforming_node (by decide) (List.forall_mem_singleton.2 (conforming_nameAt name))

theorem conforming_blockOf (name : String) {statements : List Raw}
    (h : ∀ r ∈ statements, Conforming r) : Conforming (blockOf name statements) := by
  refine .list (fun tag fs heq => ?_) (List.forall_mem_cons.2 ⟨.atom _, ?_⟩)
  · cases heq
    -- This block has no parameters, and what else is asked concerns other tags.
    exact
      { word := fun htag => absurd htag (by decide)
        keys := fun p hp x hx => by cases hp; cases hx
        literals := fun p hp x hx => by cases hp; cases hx
        elements := fun htag => absurd htag (by decide)
        target := fun htag => absurd htag (by decide)
        lambda := fun htag => absurd htag (by decide)
        block := fun _ => .absent (by decide) rfl _ }
  · refine List.forall_mem_cons.2 ⟨conforming_node (by decide)
      (List.forall_mem_singleton.2 (conforming_nameAt name)), List.forall_mem_singleton.2 ?_⟩
    exact conforming_node (by decide) (List.forall_mem_cons.2
      ⟨.atom _, List.forall_mem_singleton.2 (conforming_node (by decide) h)⟩)

/-- Both of two nested blocks are rewritten. -/
theorem lower_without_numbers_nestedBlock :
    ((lower nestedBlock).runIn { numberedParams := false } {}).1 = .ok (.bare "block"
      [callTree "foo", .bare "args" [], .bare "block"
        [callTree "bar", .bare "args" [], readTree "_1"]]) := by
  have hinner : Conforming (blockOf "bar" [readOf "_1"]) :=
    conforming_blockOf "bar" (List.forall_mem_singleton.2 (conforming_readOf "_1"))
  have hrun := lower_without_numbers
    (conforming_blockOf "foo" (List.forall_mem_singleton.2 hinner)) {} {}
  rw [show ({ numberedParams := false } : Options) =
    { ({} : Options) with numberedParams := false } from rfl, nestedBlock, hrun]
  rfl

end Samples

end LowerM

end RubyTree
