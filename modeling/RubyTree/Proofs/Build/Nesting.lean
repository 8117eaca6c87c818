import RubyTree.Proofs.Build.Session

/-!
# Nested Events

Two of the builder's tables are stacks: an event puts an entry on top, and a
later one takes it off. Which of the later ones has to be said from outside. A
nesting says which events stand alone, which open something and which complete
it, and a sequence of events is nested if everything opened in it is completed
in it, innermost first.

If single events leave a stack alone, opening ones add an entry and completing
ones take off the entry they find on top, then a nested sequence leaves the
stack as it was, and each event that completes something finds what its own
partner has put there.

## Main definitions

* `Nesting`: What events open and complete.
* `Nesting.Nested`: Sequences in which everything opened is completed.
* `Nesting.Placed`: What an event is among others.
* `Nesting.InPair`: The innermost pair around an event.

## Theorems

* `Nested.append`: Nested sequences one after another.
* `Nested.restores`: A nested sequence leaves a stack as it was.
* `Nested.placed`: An event that completes something has its partner.
* `Nested.inPair`: An event that stands alone has a pair around it, or none.
-/

namespace RubyTree

/-- Which events stand alone, and which open or complete something of a kind. -/
structure Nesting (κ : Type) where
  single : Session → Event → Prop
  opens : Session → Event → κ → Prop
  closes : Session → Event → κ → Prop

namespace Nesting

variable {κ : Type} {n : Nesting κ}

/-- Everything that is opened is completed, innermost first. -/
inductive Nested (n : Nesting κ) : Session → List Event → Prop where
  | nil (s : Session) : Nested n s []
  | single {s : Session} {e : Event} {es : List Event} (he : n.single s e)
      (hes : Nested n (s.next e) es) : Nested n s (e :: es)
  | pair {s : Session} {opener done : Event} {inside rest : List Event} {k : κ}
      (hopener : n.opens s opener k) (hinside : Nested n (s.next opener) inside)
      (hdone : n.closes ((s.next opener).run inside) done k)
      (hrest : Nested n (((s.next opener).run inside).next done) rest) :
      Nested n s (opener :: (inside ++ done :: rest))

theorem Nested.append {s : Session} {es es' : List Event} (h : n.Nested s es)
    (h' : n.Nested (s.run es) es') : n.Nested s (es ++ es') := by
  induction h with
  | nil s => exact h'
  | single he _ ih => exact .single he (ih h')
  | pair hopener hinside hdone _ _ ih =>
    rw [List.cons_append, List.append_assoc, List.cons_append]
    refine .pair hopener hinside hdone (ih ?_)
    simpa using h'

/-- A nested sequence leaves a stack as it was. -/
theorem Nested.restores {α : Type} (stack : Builder → List α) (entry : κ → α → Prop)
    (hsingle : ∀ s e, n.single s e → stack (s.next e).builder = stack s.builder)
    (hopens : ∀ s e k, n.opens s e k →
      ∃ x, entry k x ∧ stack (s.next e).builder = x :: stack s.builder)
    (hcloses : ∀ s e k x rest, n.closes s e k → entry k x → stack s.builder = x :: rest →
      stack (s.next e).builder = rest)
    {s : Session} {es : List Event} (h : n.Nested s es) :
    stack (s.run es).builder = stack s.builder := by
  -- By the nesting: a pair puts an entry on the stack, and its end takes that entry off.
  induction h with
  | nil s => rfl
  | single he _ ih => exact ih.trans (hsingle _ _ he)
  | pair hopener _ hdone _ ihinside ihrest =>
    obtain ⟨x, hx, hpush⟩ := hopens _ _ _ hopener
    have htop := hcloses _ _ _ x _ hdone hx (ihinside.trans hpush)
    simpa using ihrest.trans htop

/-- What the event after others is: it stands alone, or opens something, or
    completes what its partner among them has opened. -/
inductive Placed (n : Nesting κ) (s : Session) : List Event → Event → Prop where
  | single {front : List Event} {e : Event} (h : n.single (s.run front) e) : Placed n s front e
  | opens {front : List Event} {e : Event} {k : κ} (h : n.opens (s.run front) e k) :
      Placed n s front e
  | closes {before inside : List Event} {opener e : Event} {k : κ}
      (hopener : n.opens (s.run before) opener k)
      (hinside : n.Nested ((s.run before).next opener) inside)
      (h : n.closes (((s.run before).next opener).run inside) e k) :
      Placed n s (before ++ opener :: inside) e

/-- What comes before a sequence does not change the places in it. -/
theorem Placed.after {s : Session} (es : List Event) {front : List Event} {e : Event}
    (h : n.Placed (s.run es) front e) : n.Placed s (es ++ front) e := by
  cases h with
  | single h => exact .single (by rwa [Session.run_append])
  | opens h => exact .opens (by rwa [Session.run_append])
  | closes hopener hinside h =>
    rw [← Session.run_append] at hopener hinside h
    rw [← List.append_assoc]
    exact .closes hopener hinside h

/-- Every event of a nested sequence has its place. -/
theorem Nested.placed {s : Session} {es front after : List Event} {e : Event}
    (h : n.Nested s es) (hes : es = front ++ e :: after) : n.Placed s front e := by
  induction h generalizing front after with
  | nil s => cases front <;> cases hes
  | @single s first es he _ ih =>
    cases front with
    | nil =>
      cases hes
      exact .single he
    | cons x front =>
      cases hes
      exact .after [first] (ih rfl)
  | @pair s opener done inside rest k hopener hinside hdone _ ihinside ihrest =>
    cases front with
    | nil =>
      cases hes
      exact .opens hopener
    | cons x front =>
      injection hes with hx hes
      subst hx
      have hpartner : n.Placed s ([] ++ opener :: inside) done := .closes hopener hinside hdone
      -- The event is `done`, or stands inside the pair or after it.
      rcases List.append_eq_append_iff.1 hes with ⟨xs, rfl, hxs⟩ | ⟨xs, rfl, hxs⟩
      · cases xs with
        | nil =>
          cases hxs
          rwa [List.append_nil]
        | cons y ys =>
          cases hxs
          have hplaced : n.Placed (s.run (opener :: (inside ++ [done]))) ys e := by
            simpa using ihrest rfl
          simpa using hplaced.after
      · cases xs with
        | nil =>
          cases hxs
          rwa [List.append_nil] at hpartner
        | cons y ys =>
          cases hxs
          exact .after [opener] (ihinside rfl)

/-- The innermost pair around an event: what is opened between the opening event of the
    pair and this one is completed there, and so is what is opened between this one
    and the event that completes the pair. -/
inductive InPair (n : Nesting κ) (s : Session) (k : κ) :
    List Event → Event → List Event → Prop where
  | intro {before inside more rest : List Event} {opener e done : Event}
      (hopener : n.opens (s.run before) opener k)
      (hinside : n.Nested ((s.run before).next opener) inside)
      (hmore : n.Nested ((((s.run before).next opener).run inside).next e) more)
      (hdone : n.closes (((((s.run before).next opener).run inside).next e).run more) done k) :
      InPair n s k (before ++ opener :: inside) e (more ++ done :: rest)

/-- What comes before and after a sequence does not change the pairs in it. -/
theorem InPair.extend {s : Session} {k : κ} (es es' : List Event) {front after : List Event}
    {e : Event} (h : n.InPair (s.run es) k front e after) :
    n.InPair s k (es ++ front) e (after ++ es') := by
  cases h with
  | @intro before inside more rest opener _ done hopener hinside hmore hdone =>
    rw [← Session.run_append] at hopener hinside hmore hdone
    rw [← List.append_assoc es, List.append_assoc more, List.cons_append]
    exact .intro hopener hinside hmore hdone

/-- An event that neither opens nor completes anything stands directly in a pair,
    or what is before and after it is nested by itself. -/
theorem Nested.inPair {s : Session} {es front after : List Event} {e : Event}
    (h : n.Nested s es) (hes : es = front ++ e :: after)
    (hopens : ∀ k, ¬ n.opens (s.run front) e k) (hcloses : ∀ k, ¬ n.closes (s.run front) e k) :
    (n.Nested s front ∧ n.Nested ((s.run front).next e) after) ∨
      ∃ k, n.InPair s k front e after := by
  induction h generalizing front after with
  | nil s => cases front <;> cases hes
  | @single s first es he hrest ih =>
    cases front with
    | nil =>
      cases hes
      exact .inl ⟨.nil s, hrest⟩
    | cons x front =>
      cases hes
      refine (ih rfl hopens hcloses).imp (fun ⟨hfront, hafter⟩ => ⟨.single he hfront, hafter⟩) ?_
      rintro ⟨k, hpair⟩
      have hpair : n.InPair (s.run [first]) k front e after := hpair
      exact ⟨k, by simpa using hpair.extend [first] []⟩
  | @pair s opener done inside rest k hopener hinside hdone _ ihinside ihrest =>
    cases front with
    | nil =>
      cases hes
      exact absurd hopener (hopens k)
    | cons x front =>
      injection hes with hx hes
      subst hx
      rcases List.append_eq_append_iff.1 hes with ⟨xs, rfl, hxs⟩ | ⟨xs, rfl, hxs⟩
      · -- The event stands after the pair, since it does not complete it.
        cases xs with
        | nil =>
          cases hxs
          exact absurd hdone (by simpa using hcloses k)
        | cons y ys =>
          cases hxs
          have hrun : s.run (opener :: (inside ++ done :: ys)) =
              (((s.next opener).run inside).next done).run ys := by simp
          rw [hrun] at hopens hcloses
          refine (ihrest rfl hopens hcloses).imp ?_ ?_
          · rintro ⟨hfront, hafter⟩
            exact ⟨.pair hopener hinside hdone hfront, by rwa [hrun]⟩
          · rintro ⟨k', hpair⟩
            have hpair : n.InPair (s.run (opener :: (inside ++ [done]))) k' ys e after := by
              simpa using hpair
            exact ⟨k', by simpa using hpair.extend _ []⟩
      · cases xs with
        | nil =>
          cases hxs
          exact absurd hdone (by simpa using hcloses k)
        | cons y ys =>
          cases hxs
          -- The event stands inside, in this pair or in one within it.
          rcases ihinside rfl hopens hcloses with ⟨hfront, hafter⟩ | ⟨k', hpair⟩
          · refine .inr ⟨k, ?_⟩
            have hdone : n.closes ((((s.next opener).run front).next e).run ys) done k := by
              simpa using hdone
            exact @InPair.intro _ n s k [] _ _ _ _ _ _ hopener hfront hafter hdone
          · have hpair : n.InPair (s.run [opener]) k' front e ys := hpair
            exact .inr ⟨k', by simpa using hpair.extend [opener] (done :: rest)⟩

end Nesting

end RubyTree
