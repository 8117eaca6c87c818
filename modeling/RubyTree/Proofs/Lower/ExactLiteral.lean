import RubyTree.Proofs.Literal.NumberText
import RubyTree.Proofs.Lower.Depth
import RubyTree.Proofs.Lower.Shape

/-!
# Leaves of Exact Numbers

Integers and rationals are the numbers whose leaves keep their exact value. A
rational is an integer or a decimal with a letter at its end, so each leaf holds
one of three forms of literal, and what lowering makes of it is the value of
that literal, whatever else the leaf may hold after its position.

A sign that is put in front of a literal without one multiplies its value.

## Main definitions

* `ExactLiteral`: The literals, with the tag and the text of their leaves.
* `ExactLiteral.times`: The lowered leaf of a multiple of the value.
* `ExactLiteral.withSign`: The literal with another sign.

## Theorems

* `lower_leaf`: A leaf is lowered to the value of its literal.
* `lowered_withSign`: A sign multiplies the value.
-/

namespace RubyTree

namespace NumberText

open LowerM
open Raw (node)

/-- A literal whose value is exact. -/
inductive ExactLiteral where
  | integer (l : IntegerLiteral)
  | whole (l : IntegerLiteral)
  | decimal (l : DecimalLiteral)

namespace ExactLiteral

/-- The tag of the leaf. -/
def tag : ExactLiteral → String
  | integer _ => "@int"
  | whole _ | decimal _ => "@rational"

/-- The text of the leaf. -/
def text : ExactLiteral → List Char
  | integer l => l.text
  | whole l => l.text ++ ['r']
  | decimal l => l.text ++ ['r']

def sign : ExactLiteral → Sign
  | integer l | whole l => l.sign
  | decimal l => l.sign

/-- The same literal with another sign. -/
def withSign (s : Sign) : ExactLiteral → ExactLiteral
  | integer l => integer { l with sign := s }
  | whole l => whole { l with sign := s }
  | decimal l => decimal { l with sign := s }

/-- Whether there are not too many digits. -/
def Accepted : ExactLiteral → Prop
  | integer l | whole l => l.figures.Accepted
  | decimal l => l.whole.Accepted ∧ l.fraction.Accepted

instance (l : ExactLiteral) : Decidable l.Accepted :=
  match l with
  | integer l | whole l => inferInstanceAs (Decidable l.figures.Accepted)
  | decimal l => inferInstanceAs (Decidable (l.whole.Accepted ∧ l.fraction.Accepted))

/-- The lowered leaf of so many times the value. -/
def times (k : Int) (line : Option Raw) : ExactLiteral → Tree
  | integer l => .placed line "int" [.int (k * l.value)]
  | whole l => .placed line "rational" [.leaf (.atom (.rational (k * l.value)))]
  | decimal l => .placed line "rational" [.leaf (.atom (.rational (k * l.value)))]

/-- What lowering makes of that leaf. -/
def lowered (k : Int) (line : Option Raw) (l : ExactLiteral) : LowerM Tree :=
  if l.Accepted then return l.times k line else throw .noValue

/-- A number that is read, if it can be, and put into a node. -/
theorem ofExcept_bind_pure {α : Type} {p : Prop} [Decidable p] (a : α) (build : α → Tree) :
    (LowerM.ofExcept (if p then .ok a else .error .noValue) >>= fun x => pure (build x)) =
      if p then pure (build a) else throw .noValue := by
  split <;> rfl

/-- A leaf is lowered to the value of its literal. -/
theorem lower_leaf (l : ExactLiteral) (place : Raw) (more : List Raw) :
    lower (node l.tag (.str (String.ofList l.text) :: place :: more)) =
      l.lowered 1 place.positionLine? := by
  have htext (cs : List Char) :
      literalText (.str (String.ofList cs) :: place :: more) = pure cs := by
    show (pure (String.ofList cs).toList : LowerM (List Char)) = pure cs
    rw [String.toList_ofList]
  rw [lower_node]
  -- The suffix of a rational literal is dropped before its digits are read.
  cases l with
  | integer l =>
    show lowerInteger _ = _
    unfold lowerInteger
    rw [text, htext, pure_bind, l.integerLiteral_text, ofExcept_bind_pure]
    simp only [lowered, Accepted, times, Int.one_mul]
    rfl
  | whole l =>
    show lowerRational _ = _
    unfold lowerRational
    rw [text, htext, pure_bind, List.dropLast_concat, l.rationalLiteral_text, ofExcept_bind_pure]
    simp only [lowered, Accepted, times, Int.cast_one, one_mul]
    rfl
  | decimal l =>
    show lowerRational _ = _
    unfold lowerRational
    rw [text, htext, pure_bind, List.dropLast_concat, l.rationalLiteral_text, ofExcept_bind_pure]
    simp only [lowered, Accepted, times, Int.cast_one, one_mul]
    rfl

variable {l : ExactLiteral}

/-- A sign in front of a text without one is the sign of the literal. -/
theorem text_withSign (h : l.sign = .absent) (s : Sign) :
    (l.withSign s).text = s.text ++ l.text := by
  cases l with
  | integer l =>
    have hsign : l.sign = .absent := h
    simp [withSign, text, IntegerLiteral.text, hsign, Sign.text]
  | whole l =>
    have hsign : l.sign = .absent := h
    simp [withSign, text, IntegerLiteral.text, hsign, Sign.text]
  | decimal l =>
    have hsign : l.sign = .absent := h
    simp [withSign, text, DecimalLiteral.text, hsign, Sign.text]

theorem tag_withSign (s : Sign) : (l.withSign s).tag = l.tag := by
  cases l <;> rfl

/-- The sign multiplies the value. -/
theorem lowered_withSign (h : l.sign = .absent) (s : Sign) (line : Option Raw) :
    (l.withSign s).lowered 1 line = l.lowered s.factor line := by
  cases l with
  | integer l =>
    have hsign : l.sign = .absent := h
    simp [withSign, lowered, times, Accepted, IntegerLiteral.value, hsign, Sign.factor]
  | whole l =>
    have hsign : l.sign = .absent := h
    simp [withSign, lowered, times, Accepted, IntegerLiteral.value, hsign, Sign.factor]
  | decimal l =>
    have hsign : l.sign = .absent := h
    have hmagnitude : DecimalLiteral.magnitude { l with sign := s } = l.magnitude := rfl
    simp [withSign, lowered, times, Accepted, DecimalLiteral.value, hsign, hmagnitude, Sign.factor,
      mul_div_assoc]

end ExactLiteral

end NumberText

end RubyTree
