import RubyTree.Literal.Number
import RubyTree.Lower.Field
import RubyTree.Text.Digit

/-!
# Names, Keywords and Numbers

The tokens that stand for themselves: variables, constants, labels, keywords,
back-references and number literals, with the line they were scanned at.

## Main definitions

* `lowerName`: A variable or an operator.
* `lowerConstant`, `lowerScopedConstant`, `lowerTopConstant`: Constants.
* `lowerKeyword`: A keyword as a value.
* `lowerLabel`, `lowerBackReference`: Labels and back-references.
* `lowerInteger`, `lowerFloat`, `lowerRational`, `lowerImaginary`: Number
  literals.
-/

namespace RubyTree

namespace LowerM

/-- The line of a token with these fields. -/
def tokenLine (fs : Fields) : Option Raw :=
  (fs.get 1).positionLine?

/-- The name of a token with these fields. -/
def tokenName (fs : Fields) : LowerM String :=
  return (← require fs.head?).display

/-- A token that is a name of the given kind. -/
def lowerName (tag : String) (fs : Fields) : LowerM Tree :=
  return .placed (tokenLine fs) tag [.sym (← tokenName fs)]

/-- A constant by itself. -/
def lowerConstant (fs : Fields) : LowerM Tree :=
  return .placed (tokenLine fs) "const" [.null, .sym (← tokenName fs)]

/-- A constant in another one. -/
def lowerScopedConstant (go : Visit) (fs : Fields) : LowerM Tree :=
  return .bare "const" [← go (fs.get 0), .sym (← nameOf (fs.get 1))]

/-- A constant at the top. -/
def lowerTopConstant (fs : Fields) : LowerM Tree :=
  let name := fs.get 0
  return .placed name.line? "const" [.bare "cbase" [], .sym (← nameOf name)]

/-- A label is the symbol without its colon. -/
def lowerLabel (fs : Fields) : LowerM Tree :=
  return .placed (tokenLine fs) "sym" [.sym (← clippedName (fs.get 0))]

/-- A keyword that is a value. The file and the line are known here, all others
    are nodes of their own, tagged with what the token holds. -/
def lowerKeyword (fs : Fields) : LowerM Tree := do
  let line := tokenLine fs
  let word := fs.get 0
  match word.text? with
  | some "__FILE__" => return .placed line "str" [.str (← read).filename]
  | some "__LINE__" => return .placed line "int" [.leaf (line.getD .null)]
  | some word => return .placed line word []
  | none => return .node word { line } []

/-- A back-reference by a number, if it consists of digits, or else by a name. -/
def reference (line : Option Raw) (isFigure : Char → Bool) (cs : List Char) (name : String) :
    LowerM Tree := do
  if !cs.isEmpty && cs.all isFigure then
    match Numeral.readInt? 10 cs with
    | some n => return .placed line "nth_ref" [.int n]
    | none => throw .noValue
  return .placed line "back_ref" [.sym name]

/-- A back-reference is a number or the name of a special variable. In binary
    text only ASCII digits count. -/
def lowerBackReference (fs : Fields) : LowerM Tree := do
  match fs.get 0 with
  | .atom (.octets bs) =>
    let cs := bs.tail.map fun b => Char.ofNat b.toNat
    reference (tokenLine fs) Char.isDigit cs (Text.quotedOctets bs.tail)
  | _ =>
    let cs := (← literalText fs).tail
    reference (tokenLine fs) Text.isDigit cs (String.ofList cs)

def lowerInteger (fs : Fields) : LowerM Tree := do
  let n ← ofExcept (integerLiteral (← literalText fs))
  return .placed (tokenLine fs) "int" [.int n]

def lowerFloat (fs : Fields) : LowerM Tree := do
  let x ← ofExcept (floatLiteral (← literalText fs))
  return .placed (tokenLine fs) "float" [.leaf (.atom (.real x))]

/-- A rational, without the letter at its end. -/
def lowerRational (fs : Fields) : LowerM Tree := do
  let q ← ofExcept (rationalLiteral (← literalText fs).dropLast)
  return .placed (tokenLine fs) "rational" [.leaf (.atom (.rational q))]

/-- An imaginary number, without the letter at its end. -/
def lowerImaginary (fs : Fields) : LowerM Tree := do
  let x ← ofExcept (realLiteral (← literalText fs).dropLast)
  let im ← ofExcept (imaginaryPart x)
  return .placed (tokenLine fs) "complex" [.leaf (.atom (.complex (.ofFields false 0) im))]

end LowerM

end RubyTree
