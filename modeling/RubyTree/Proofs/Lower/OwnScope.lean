import RubyTree.Proofs.Lower.ScopeRestored
import RubyTree.Proofs.Lower.Shape

/-!
# Bodies with a Scope of Their Own

A definition lowers its body where no local variable of the scope around it is
known, so whatever that scope holds should make no difference to the body. There
is one exception. The names of double-splat parameters are kept on a stack that
goes on into the bodies of definitions, so a name there may read a parameter of a
method far outside.

With stacks that differ only in names the body does not look up, two runs stay in
step: inside the body both scopes hold the same names but for the lower parts of
their stacks, and two productions alone look names up. So the walk over all
productions is one more congruence, taken over the raw trees that read no name
the stacks differ in.

What is lowered around a body, such as the parent of a class, belongs to the scope
outside and may differ. `Definition` takes the two apart.

## Main definitions

* `Reads`: The names that lowering a raw tree may look up.
* `StacksAgree`: Stacks that hold the same of these names.
* `Scope.Alike`: Scopes that differ in the lower parts of their stacks.
* `RunsAlike`: Steps that do the same from scopes that are alike.
* `Apart`: A step that gives the same whatever the scope holds.
* `Definition`: What a definition lowers around its body and inside it.

## Theorems

* `congruence_runsAlike`: Steps made of steps that run alike do so too.
* `lower_runsAlike`: Lowering runs alike if the stacks agree on the names it reads.
* `apart_own`: The body of a definition does not depend on the scope around it.
* `definition_apart`: The same for the whole node.
-/

namespace RubyTree

namespace LowerM

open Raw (node token)

section Reading

/-- The names that lowering a raw tree may look up: a bare name, and what the key of
    a pair without a value stands for. -/
inductive Reads : Raw → Tree → Prop where
  | bareName {fs : Fields} {text : String} (h : Returns (nameOf (fs.get 0)) text) :
      Reads (node "vcall" fs) (.sym text)
  | shorthand {fs : Fields} {key name : Tree} (hvalue : (fs.get 1).isNull)
      (hkey : Returns (lower (fs.get 0)) key) (hname : Returns (firstChild key) name) :
      Reads (node "assoc_new" fs) name
  | inside {items : List Raw} {x : Raw} {name : Tree} (hx : x ∈ items) (h : Reads x name) :
      Reads (.list items) name

theorem not_reads_atom {a : Atom} {name : Tree} : ¬ Reads (.atom a) name := by
  intro h
  cases h

/-- The stacks hold the same of the names that the raw tree reads. -/
def StacksAgree (A B : List Tree) (r : Raw) : Prop :=
  ∀ name, Reads r name → A.any name.same = B.any name.same

/-- Other nodes than those two read what is read in their fields. -/
theorem Reads.exists_field {tag : String} {fs : Fields} {name : Tree}
    (h : Reads (node tag fs) name) (hbare : tag ≠ "vcall") (hpair : tag ≠ "assoc_new") :
    ∃ x ∈ fs, Reads x name := by
  generalize hnode : node tag fs = r at h
  cases h with
  | bareName =>
    obtain ⟨htag, -⟩ : tag = "vcall" ∧ fs = _ := by simpa [node] using hnode
    exact absurd htag hbare
  | shorthand =>
    obtain ⟨htag, -⟩ : tag = "assoc_new" ∧ fs = _ := by simpa [node] using hnode
    exact absurd htag hpair
  | inside hx h =>
    -- The tag is a field of the list as well, but an atom reads nothing.
    obtain rfl : _ :: fs = _ := Raw.list.inj hnode
    rcases List.mem_cons.1 hx with rfl | hx
    · exact absurd h not_reads_atom
    · exact ⟨_, hx, h⟩

theorem tag_of_lookup {tag : String} {p : Production} (h : Production.ofTag? tag = some p)
    (tag' : String) (htable : ∀ e ∈ Production.table, e.2 = p → e.1 = tag') : tag = tag' := by
  obtain ⟨before, after, htag, -⟩ := List.lookup_eq_some_iff.1 h
  exact htable (tag, p) (by simp [htag]) rfl

/-- The names that a production looks up are read by its node. -/
theorem Asks.reads {tag : String} {fs : Fields} {p : Production} {name : Tree}
    (h : Asks lower fs p name) (hp : Production.ofTag? tag = some p) :
    Reads (node tag fs) name := by
  cases p with
  | bareName =>
    obtain ⟨text, htext, rfl⟩ := h
    rw [tag_of_lookup hp "vcall" (by decide +kernel)]
    exact .bareName htext
  | pair =>
    obtain ⟨hvalue, key, hkey, hname⟩ := h
    rw [tag_of_lookup hp "assoc_new" (by decide +kernel)]
    exact .shorthand hvalue hkey hname
  | _ => exact h.elim

theorem hereditary_stacksAgree (A B : List Tree) : Raw.Hereditary (StacksAgree A B) where
  atom _ _ h := absurd h not_reads_atom
  item hr hx name h := hr name (.inside hx h)
  joined a hr name h := by
    obtain ⟨x, hx, h⟩ := Reads.exists_field h (by decide) (by decide)
    rcases List.mem_cons.1 hx with rfl | hx
    · exact absurd h not_reads_atom
    · exact hr name (.inside (List.mem_of_mem_drop hx) h)

end Reading

end LowerM

namespace Scope

/-- Scopes that differ in nothing but the lower parts of their stacks, on which
    these names have been put. -/
structure Alike (own A B : List Tree) (s s' : Scope) : Prop where
  locals : s.locals = s'.locals
  inMethod : s.inMethod = s'.inMethod
  numbered : s.numbered = s'.numbered
  left : s.rests = own ++ A
  right : s'.rests = own ++ B

namespace Alike

variable {own A B : List Tree} {s s' inner inner' : Scope} {name : Tree}

theorem isLocal (h : Alike own A B s s') (hname : A.any name.same = B.any name.same) :
    s.isLocal name = s'.isLocal name := by
  unfold Scope.isLocal
  rw [h.locals, h.left, h.right, List.any_append, List.any_append, hname]

theorem bindLocal (h : Alike own A B s s') (name : String) :
    Alike own A B (s.bindLocal name) (s'.bindLocal name) :=
  ⟨by simp only [Scope.bindLocal, h.locals], h.inMethod, h.numbered, h.left, h.right⟩

theorem enterBody (h : Alike own A B s s') (method : Bool) :
    Alike own A B (s.enterBody method) (s'.enterBody method) :=
  ⟨rfl, rfl, h.numbered, h.left, h.right⟩

theorem leaveBody (h : Alike own A B s s') (hinner : Alike own A B inner inner') :
    Alike own A B (inner.leaveBody s) (inner'.leaveBody s') :=
  ⟨h.locals, h.inMethod, hinner.numbered, hinner.left, hinner.right⟩

theorem enterRest (h : Alike own A B s s') (name : Tree) :
    Alike (name :: own) A B (s.enterRest name) (s'.enterRest name) :=
  ⟨h.locals, h.inMethod, h.numbered, congrArg (name :: ·) h.left, congrArg (name :: ·) h.right⟩

/-- The name that is taken away is the last one that was put on both stacks. -/
theorem leaveRest (h : Alike (name :: own) A B inner inner') (s s' : Scope) :
    Alike own A B (inner.leaveRest s) (inner'.leaveRest s') :=
  ⟨h.locals, h.inMethod, h.numbered, congrArg List.tail h.left, congrArg List.tail h.right⟩

end Alike

end Scope

namespace LowerM

open Raw (node token)

section Running

variable {A B : List Tree} {α β : Type}

/-- Steps that do the same from scopes that are alike, and leave such scopes, with
    the same names on both stacks as before. -/
def RunsAlike (A B : List Tree) {α : Type} (x y : LowerM α) : Prop :=
  ∀ own options s s', Scope.Alike own A B s s' →
    (x.runIn options s).1 = (y.runIn options s').1 ∧
      Scope.Alike own A B (x.runIn options s).2 (y.runIn options s').2

theorem runsAlike_bind {x y : LowerM α} {f g : α → LowerM β} (hx : RunsAlike A B x y)
    (hf : ∀ a, Returns x a → RunsAlike A B (f a) (g a)) : RunsAlike A B (x >>= f) (y >>= g) := by
  intro own options s s' hs
  -- The first steps end alike, so the others start from the same value in like scopes.
  have hfirst := hx own options s s' hs
  rw [runIn_bind, runIn_bind]
  cases hrun : x.runIn options s with
  | mk result middle =>
    cases hrun' : y.runIn options s' with
    | mk result' middle' =>
      rw [hrun, hrun'] at hfirst
      obtain ⟨rfl, hmiddle⟩ := hfirst
      cases result with
      | error e => exact ⟨rfl, hmiddle⟩
      | ok a => exact hf a ⟨options, s, middle, hrun⟩ own options middle middle' hmiddle

theorem congruence_runsAlike : Congruence (RunsAlike A B) where
  pure _ _ _ _ _ hs := ⟨rfl, hs⟩
  throw _ _ _ _ _ hs := ⟨rfl, hs⟩
  bindReturned := runsAlike_bind
  read _ _ _ _ hs := ⟨rfl, hs⟩
  inMethod f _ _ _ _ hs := ⟨congrArg (Except.ok ∘ f) hs.inMethod, hs⟩
  bindLocal name _ _ _ _ hs := ⟨rfl, hs.bindLocal name⟩
  freshNumber _ _ _ _ hs := ⟨congrArg Except.ok hs.numbered,
    hs.locals, hs.inMethod, congrArg (· + 1) hs.numbered, hs.left, hs.right⟩
  inBody method _ _ hx own options s s' hs := by
    obtain ⟨hresult, hinner⟩ := hx own options _ _ (hs.enterBody method)
    exact ⟨hresult, hs.leaveBody hinner⟩
  withRest name _ _ hx own options s s' hs := by
    -- The name is on top of both stacks, and is what leaving the reach takes away.
    obtain ⟨hresult, hinner⟩ := hx (name :: own) options _ _ (hs.enterRest name)
    exact ⟨hresult, hinner.leaveRest s s'⟩

theorem runsAlike_isLocal {name : Tree} (h : A.any name.same = B.any name.same) :
    RunsAlike A B (isLocal name) (isLocal name) :=
  fun _ _ _ _ hs => ⟨congrArg Except.ok (hs.isLocal h), hs⟩

/-- Lowering runs alike if the stacks agree on the names it reads. A node is visited
    through its fields, which are less deep. -/
theorem lower_runsAlike : (r : Raw) → StacksAgree A B r → RunsAlike A B (lower r) (lower r)
  | .atom a, _ => by
    -- An atom is no node, so nothing is looked up.
    rw [lower_eq_lowerWith]
    unfold lowerWith
    split
    · exact congruence_runsAlike.pure _
    · exact congruence_runsAlike.throw _
  | .list items, h => by
    have hagree := hereditary_stacksAgree A B
    have hrel : Related (RunsAlike A B)
        (fun x => x.depth ≤ Raw.depthItems items ∧ StacksAgree A B x) lower lower :=
      { congruence_runsAlike with
        hereditary := (Raw.hereditary_depth (Raw.depthItems items)).and hagree
        visit := fun x hx => lower_runsAlike x hx.2 }
    rw [lower_eq_lowerWith]
    refine hrel.lowerWith (fun tag fs hr x hx => ?_) fun tag fs p name hr hp hname => ?_
    -- The fields are less deep than the node, and read nothing that it does not read.
    · have hmem : x ∈ items := Raw.list.inj hr ▸ List.mem_cons_of_mem tag hx
      exact ⟨Raw.depth_le_depthItems hmem, hagree.item h hmem⟩
    · rw [hr] at h
      exact runsAlike_isLocal (h name (hname.reads hp))
termination_by r => r.depth
decreasing_by
  have hlist : (Raw.list items).depth = Raw.depthItems items + 1 := by rw [Raw.depth]
  omega

theorem related_lower : Related (RunsAlike A B) (StacksAgree A B) lower lower :=
  { congruence_runsAlike with
    hereditary := hereditary_stacksAgree A B
    visit := lower_runsAlike }

end Running

section Bodies

variable {A B : List Tree} {α β : Type}

/-- A step that gives the same from all scopes with these stacks, whatever else they hold. -/
def Apart (A B : List Tree) (x : LowerM α) : Prop :=
  ∀ options s s', s.rests = A → s'.rests = B → s.numbered = s'.numbered →
    (x.runIn options s).1 = (x.runIn options s').1

/-- In a body of its own a step finds scopes that are alike. -/
theorem apart_inBody {x : LowerM α} (method : Bool) (hx : RunsAlike A B x x) :
    Apart A B (inBody method x) := by
  rintro options s s' rfl rfl hnumbered
  -- All that may differ but the stacks is replaced on entry.
  have hentered : Scope.Alike [] s.rests s'.rests (s.enterBody method) (s'.enterBody method) :=
    ⟨rfl, rfl, hnumbered, rfl, rfl⟩
  exact (hx [] options _ _ hentered).1

theorem Apart.map {x : LowerM α} (hx : Apart A B x) (f : α → β) :
    Apart A B (do return f (← x)) := by
  intro options s s' hs hs' hnumbered
  have hresult := hx options s s' hs hs' hnumbered
  rw [runIn_bind, runIn_bind]
  cases hrun : x.runIn options s with
  | mk result middle =>
    cases hrun' : x.runIn options s' with
    | mk result' middle' =>
      rw [hrun, hrun'] at hresult
      obtain rfl : result = result' := hresult
      cases result <;> rfl

theorem apart_methodParts {params body : Raw} (hparams : StacksAgree A B params)
    (hbody : StacksAgree A B body) : Apart A B (methodParts lower params body) := by
  have h := related_lower (A := A) (B := B)
  refine apart_inBody true (h.bind (h.methodParams hparams) fun args => ?_)
  exact h.bind (h.withRest _ (h.methodStatements hbody)) fun _ => h.pure _

theorem apart_namespaceBody {body : Raw} (hbody : StacksAgree A B body) :
    Apart A B (namespaceBody lower body) :=
  apart_inBody false ((related_lower (A := A) (B := B)).visitBody hbody)

end Bodies

section Definitions

/-- What a definition lowers around its body and inside it, and the node of both. -/
structure Definition where
  /-- In the scope around: the receiver of a method, the name of a class and its parent. -/
  outer : LowerM (List Tree)
  /-- In a body of its own: parameters and statements. -/
  own : LowerM (List Tree)
  node : List Tree → List Tree → Except Error Tree
  /-- The fields that are lowered in the body. -/
  parts : List Raw

namespace Definition

/-- A name that has to be there. -/
def nameIn (token : Raw) : Except Error Tree :=
  match token.item? 1 with
  | some name => .ok (.sym name.display)
  | none => .error .shape

/-- A method. -/
def method (fs : Fields) : Definition where
  outer := return []
  own := methodParts lower (fs.get 1) (fs.get 2)
  node _ own := (nameIn (fs.get 0)).map fun name =>
    .placed (fs.get 3).positionLine? "def" (name :: own)
  parts := [fs.get 1, fs.get 2]

/-- A method of one object. -/
def singletonMethod (fs : Fields) : Definition where
  outer := return [(← lower (fs.get 0)).unwrapBegin]
  own := methodParts lower (fs.get 3) (fs.get 4)
  node outer own := (nameIn (fs.get 2)).map fun name =>
    .placed (fs.get 5).positionLine? "defs" (outer ++ name :: own)
  parts := [fs.get 3, fs.get 4]

/-- A class or module, with its body after so many fields. -/
def space (tag : String) (before : Nat) (fs : Fields) : Definition where
  outer := (List.range before).mapM fun i => lower (fs.get i)
  own := return [← namespaceBody lower (fs.get before)]
  node outer own := .ok (.placed (fs.get (before + 1)).positionLine? tag (outer ++ own))
  parts := [fs.get before]

end Definition

/-- The definitions: methods, classes and modules. -/
inductive Defines : Raw → Definition → Prop where
  | method (fs : Fields) : Defines (node "def" fs) (.method fs)
  | singletonMethod (fs : Fields) : Defines (node "defs" fs) (.singletonMethod fs)
  | classDef (fs : Fields) : Defines (node "class" fs) (.space "class" 2 fs)
  | moduleDef (fs : Fields) : Defines (node "module" fs) (.space "module" 1 fs)
  | singletonClass (fs : Fields) : Defines (node "sclass" fs) (.space "sclass" 1 fs)

theorem ofExcept_nameIn (token : Raw) (build : Tree → Tree) :
    ofExcept ((Definition.nameIn token).map build) =
      (do return build (.sym (← nameIn token))) := by
  unfold Definition.nameIn nameIn
  cases token.item? 1 <;> rfl

/-- The body of a definition is lowered after what is around it. -/
theorem lower_definition {r : Raw} {d : Definition} (h : Defines r d) :
    lower r = (do
      let outer ← d.outer
      let own ← d.own
      ofExcept (d.node outer own)) := by
  -- Each definition runs some fields outside and some inside, and then puts its node together.
  cases h with
  | method fs =>
    have hlower : lower (node "def" fs) = lowerMethod lower fs := lower_node "def" fs
    rw [hlower]
    simp [lowerMethod, Definition.method, ofExcept_nameIn]
  | singletonMethod fs =>
    have hlower : lower (node "defs" fs) = lowerSingletonMethod lower fs := lower_node "defs" fs
    rw [hlower]
    simp [lowerSingletonMethod, Definition.singletonMethod, ofExcept_nameIn]
  | classDef fs =>
    have hlower : lower (node "class" fs) = lowerClass lower fs := lower_node "class" fs
    rw [hlower]
    simp [lowerClass, Definition.space, List.range_succ, ofExcept]
  | moduleDef fs =>
    have hlower : lower (node "module" fs) = lowerModule lower fs := lower_node "module" fs
    rw [hlower]
    simp [lowerModule, Definition.space, ofExcept]
  | singletonClass fs =>
    have hlower : lower (node "sclass" fs) = lowerSingletonClass lower fs := lower_node "sclass" fs
    rw [hlower]
    simp [lowerSingletonClass, Definition.space, ofExcept]

theorem runIn_definition {r : Raw} {d : Definition} (h : Defines r d) {options : Options}
    {s m : Scope} {outer : List Tree} (hrun : d.outer.runIn options s = (.ok outer, m)) :
    ((lower r).runIn options s).1 = (d.own.runIn options m).1.bind (d.node outer) := by
  rw [lower_definition h, runIn_bind, hrun]
  dsimp only
  rw [runIn_bind]
  cases d.own.runIn options m with
  | mk result after =>
    cases result with
    | error e => rfl
    | ok own =>
      show ((ofExcept (d.node outer own)).runIn options after).1 = d.node outer own
      cases d.node outer own <;> rfl

/-- What is around the body leaves the stack as it was. -/
theorem rests_outer {r : Raw} {d : Definition} (h : Defines r d) {options : Options}
    {s m : Scope} {outer : List Tree} (hrun : d.outer.runIn options s = (.ok outer, m)) :
    m.rests = s.rests := by
  have hlower (r : Raw) : Restores (lower r) := restores_lowerAt r.depth r
  have houter : Restores d.outer := by
    cases h with
    | method => exact congruence_restores.pure _
    | singletonMethod => exact restores_bind (hlower _) fun _ _ => congruence_restores.pure _
    | classDef fs | moduleDef fs | singletonClass fs =>
      exact congruence_restores.mapM (g := fun i => lower (fs.get i)) fun i _ => hlower _
  have hrestored := houter options s
  rw [hrun] at hrestored
  exact hrestored.rests

theorem apart_own {A B : List Tree} {r : Raw} {d : Definition} (h : Defines r d)
    (hparts : ∀ x ∈ d.parts, StacksAgree A B x) : Apart A B d.own := by
  cases h with
  | method | singletonMethod =>
    exact apart_methodParts (hparts _ List.mem_cons_self)
      (hparts _ (List.mem_cons_of_mem _ List.mem_cons_self))
  | classDef | moduleDef | singletonClass =>
    exact (apart_namespaceBody (hparts _ List.mem_cons_self)).map _

/-- What a definition has in a body of its own does not depend on the scope around it,
    as long as the stacks of double-splat parameters agree on the names that the body
    looks up. The body is lowered to the same or fails alike, if it is reached with as
    many nodes numbered, and a method has nothing else. -/
theorem definition_apart {r : Raw} {d : Definition} (h : Defines r d) (options : Options)
    (s : Scope) (locals : List String) (rests : List Tree) (inMethod : Bool)
    (hparts : ∀ x ∈ d.parts, StacksAgree s.rests rests x) :
    (∀ outer outer' m m', d.outer.runIn options s = (.ok outer, m) →
      d.outer.runIn options { s with locals, rests, inMethod } = (.ok outer', m') →
      m.numbered = m'.numbered →
      let own := (d.own.runIn options m).1
      ((lower r).runIn options s).1 = own.bind (d.node outer) ∧
        ((lower r).runIn options { s with locals, rests, inMethod }).1 =
          own.bind (d.node outer')) ∧
      (r.hasTag "def" → ((lower r).runIn options s).1 =
        ((lower r).runIn options { s with locals, rests, inMethod }).1) := by
  have hsame {outer outer' : List Tree} {m m' : Scope}
      (hrun : d.outer.runIn options s = (.ok outer, m))
      (hrun' : d.outer.runIn options { s with locals, rests, inMethod } = (.ok outer', m'))
      (hnumbered : m.numbered = m'.numbered) :
      (d.own.runIn options m).1 = (d.own.runIn options m').1 :=
    apart_own h hparts options m m' (rests_outer h hrun) (rests_outer h hrun') hnumbered
  refine ⟨fun outer outer' m m' hrun hrun' hnumbered => ?_, fun hdef => ?_⟩
  · refine ⟨runIn_definition h hrun, ?_⟩
    rw [runIn_definition h hrun', hsame hrun hrun' hnumbered]
  · cases h with
    | method fs =>
      -- There is nothing around the body of a method that might be lowered differently.
      have hrun := runIn_definition (.method fs) (runIn_pure options s [])
      have hrun' := runIn_definition (.method fs)
        (runIn_pure options { s with locals, rests, inMethod } [])
      rw [hrun, hrun', hsame (runIn_pure options s []) (runIn_pure options _ []) rfl]
    | _ => cases hdef

end Definitions

section Samples

/-- A name on the first line. -/
def identAt (name : String) : Raw :=
  token "@ident" name (.list [.int 1, .int 0])

/-- A method with these statements. -/
def methodOf (name : String) (params : Raw) (statements : List Raw) : Raw :=
  node "def" [identAt name, params,
    node "bodystmt" [node "stmts" statements, .null, .null, .null], .list [.int 1, .int 0]]

/-- Parameters with a double splat. -/
def restParams (name : String) : Raw :=
  node "params" [.null, .null, .null, .null, .null, node "kwrest_param" [identAt name], .null]

/-- A method that reads its own parameter and a name that it does not know. -/
def readingMethod : Raw :=
  methodOf "m" (restParams "opts") [node "vcall" [identAt "opts"], node "vcall" [identAt "x"]]

theorem not_reads_identAt {text : String} {name : Tree} : ¬ Reads (identAt text) name := by
  intro h
  obtain ⟨x, hx, h⟩ := Reads.exists_field h (by decide) (by decide)
  simp only [List.mem_cons, List.not_mem_nil, or_false] at hx
  rcases hx with rfl | rfl
  · exact not_reads_atom h
  · cases h with
    | inside hx h =>
      simp only [List.mem_cons, List.not_mem_nil, or_false] at hx
      rcases hx with rfl | rfl <;> exact not_reads_atom h

theorem reads_bareName {text : String} {name : Tree}
    (h : Reads (node "vcall" [identAt text]) name) : name = .sym text := by
  generalize hnode : node "vcall" [identAt text] = r at h
  cases h with
  -- Only the first kind of node that reads is possible here.
  | bareName h =>
    obtain ⟨-, rfl⟩ := List.cons.inj (Raw.list.inj hnode)
    have hname : nameOf (identAt text) = pure text := rfl
    rw [Fields.get, List.getD_cons_zero, hname] at h
    rw [returns_pure h]
  | shorthand => simp at hnode
  | inside hx h =>
    rw [← Raw.list.inj hnode] at hx
    simp only [List.mem_cons, List.not_mem_nil, or_false] at hx
    rcases hx with rfl | rfl
    · exact absurd h not_reads_atom
    · exact absurd h not_reads_identAt

theorem not_reads_restParams {text : String} {name : Tree} : ¬ Reads (restParams text) name := by
  intro h
  obtain ⟨x, hx, h⟩ := Reads.exists_field h (by decide) (by decide)
  simp only [List.mem_cons, List.not_mem_nil, or_false, or_self_left] at hx
  rcases hx with rfl | rfl | rfl
  · exact not_reads_atom h
  · obtain ⟨x, hx, h⟩ := Reads.exists_field h (by decide) (by decide)
    rw [List.mem_singleton.1 hx] at h
    exact not_reads_identAt h
  · exact not_reads_atom h

/-- A method with such parameters reads what its statements read. -/
theorem reads_methodOf {m text : String} {statements : List Raw} :
    ∃ fs, Defines (methodOf m (restParams text) statements) (.method fs) ∧
      ∀ x ∈ (Definition.method fs).parts, ∀ name, Reads x name →
        ∃ statement ∈ statements, Reads statement name := by
  refine ⟨_, .method _, fun x hx name h => ?_⟩
  rcases List.mem_cons.1 hx with rfl | hx
  · exact absurd h not_reads_restParams
  · obtain rfl := List.mem_singleton.1 hx
    obtain ⟨x, hx, h⟩ := Reads.exists_field h (by decide) (by decide)
    rcases List.mem_cons.1 hx with rfl | hx
    · exact Reads.exists_field h (by decide) (by decide)
    · simp only [List.mem_cons, List.not_mem_nil, or_false, or_self] at hx
      rw [hx] at h
      exact absurd h not_reads_atom

/-- A lowered method. -/
def methodTree (name : String) (parts : List Tree) : Tree :=
  .placed (some (.int 1)) "def" (.sym name :: parts)

/-- Lowered parameters with a double splat. -/
def restTree (name : String) : Tree :=
  .bare "args" [.placed (some (.int 1)) "kwrestarg" [.sym name]]

/-- The scope around the method knows one of the names it reads, and its stack a name
    that it does not read. -/
theorem definition_apart_readingMethod :
    ∃ d, Defines readingMethod d ∧
      (∀ x ∈ d.parts, StacksAgree [] [.sym "rest"] x) ∧
      ((lower readingMethod).runIn {}
        { locals := ["x"], rests := [.sym "rest"], inMethod := true }).1 =
        .ok (methodTree "m" [restTree "opts", .placed (some (.int 1)) "lvar" [.sym "opts"],
          .placed (some (.int 1)) "send" [.null, .sym "x"]]) := by
  obtain ⟨fs, hdefines, hreads⟩ : ∃ fs, Defines readingMethod (.method fs) ∧ _ := reads_methodOf
  -- The statements read `x` and `opts`, and neither is the name on the stack.
  have hagree : ∀ x ∈ (Definition.method fs).parts, StacksAgree [] [.sym "rest"] x := by
    intro x hx name hname
    obtain ⟨statement, hmem, hname⟩ := hreads x hx name hname
    simp only [List.mem_cons, List.not_mem_nil, or_false] at hmem
    rcases hmem with rfl | rfl <;> rw [reads_bareName hname] <;> rfl
  have hsame := (definition_apart hdefines {} {} ["x"] [.sym "rest"] true hagree).2 rfl
  exact ⟨_, hdefines, hagree, hsame.symm.trans rfl⟩

/-- A method that reads a name which it does not know. -/
def innerMethod : Raw :=
  methodOf "b" .null [node "vcall" [identAt "rest"]]

/-- The name is taken for the double-splat parameter of a method around it, although
    a method does not see the local variables there. So what a method is lowered to
    depends on where it stands. -/
theorem outerRest_read_in_method :
    ((lower (methodOf "a" (restParams "rest") [innerMethod])).runIn {} {}).1 =
        .ok (methodTree "a" [restTree "rest",
          methodTree "b" [.bare "args" [], .placed (some (.int 1)) "lvar" [.sym "rest"]]]) ∧
      ((lower innerMethod).runIn {} {}).1 =
        .ok (methodTree "b"
          [.bare "args" [], .placed (some (.int 1)) "send" [.null, .sym "rest"]]) ∧
      ((lower innerMethod).runIn {} { rests := [.sym "rest"] }).1 ≠
        ((lower innerMethod).runIn {} {}).1 := by
  refine ⟨rfl, rfl, fun h => ?_⟩
  have htree : methodTree "b" [.bare "args" [], .placed (some (.int 1)) "lvar" [.sym "rest"]] =
      -- The outer name makes one a local variable and leaves the other a call.
      methodTree "b" [.bare "args" [], .placed (some (.int 1)) "send" [.null, .sym "rest"]] :=
    Except.ok.inj h
  simp [methodTree, Tree.placed] at htree

end Samples

end LowerM

end RubyTree
