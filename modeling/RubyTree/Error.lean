import RubyTree.Number.Shortest
import RubyTree.Raw
import RubyTree.Text.Blank

/-!
# Causes of Failure

Everything that can go wrong, by cause. Four families are told apart: the Ruby
source is not valid, the recorder that runs Ruby failed, the events or the raw
tree broke an invariant, and a text or number has no value. A field of the
wrong kind has no description of its own, since it can only come from a raw
tree that no recorder writes.

## Main definitions

* `Error`: The causes.
* `Error.text`: The description of a cause, without place or detail.
* `Error.message`: The full description.

## Theorems

* `bind_eq_ok`, `bind_eq_error`: How a step after another one comes to its end.
-/

namespace RubyTree

/-- Why a result could not be produced. -/
inductive Error where
  /-- The source is not valid Ruby. -/
  | invalidSource (text : String) (line : Option Int) (filename : Option String)
  /-- The interpreter could not be started. -/
  | notStarted (ruby detail : String)
  /-- The interpreter ran out of time. -/
  | timedOut (limit : Option Binary64)
  /-- The interpreter ended with a status other than zero. -/
  | exited (status : Int) (output : String)
  /-- The event log breaks its grammar at this line. -/
  | malformedLog (line : Nat)
  /-- An event refers to one that has not been recorded. -/
  | unknownEvent (id : Nat)
  /-- No event completed a program. -/
  | noProgram
  /-- A literal was closed that none was open for. -/
  | unbalancedDelimiter (token : Raw) (line : Int)
  /-- A clause was completed without an operator to start it. -/
  | missingOperator
  /-- A clause was completed whose operator starts none. -/
  | unexpectedOperator (operator : String)
  /-- A capture was completed without its arrow. -/
  | missingArrow (found : String)
  /-- A construct was completed that no keyword opened. -/
  | noOpenConstruct
  /-- A value stands where a node is due. -/
  | notANode
  /-- A node has a tag that nothing produces. -/
  | unknownTag (tag : String)
  /-- A call has an operator that is none. -/
  | unknownCallOperator (operator : Raw)
  /-- A text is not a number, a number is too long to be written, or a code
      point is past the last one. -/
  | noValue
  /-- An escape names half of a surrogate pair. -/
  | surrogate
  /-- Octets are not UTF-8. -/
  | badOctets
  /-- A quoted text in the event log has a bad escape or a control character. -/
  | badQuotedText
  /-- A number is too large for a double. -/
  | tooLarge
  /-- A field is missing or of the wrong kind. -/
  | shape
  deriving Repr

namespace Error

/-- Literal content whose escapes do not make up UTF-8. -/
def invalidContent (octets : List UInt8) : Error :=
  .invalidSource ("invalid byte sequence in string literal: " ++ Text.quotedOctets octets) none none

/-- The description of a cause, without the line or the interpreter's output. -/
def text : Error → String
  | invalidSource text _ _ => text
  | notStarted ruby detail => "could not start Ruby interpreter " ++ ruby ++ ": " ++ detail
  | timedOut limit => "Ripper timed out after " ++ (limit.map Binary64.print).getD "None" ++ "s"
  | exited status _ => "Ripper exited with status " ++ toString status
  | malformedLog line => "malformed Ripper event log at line " ++ toString line
  | unknownEvent id => "event refers to unknown event #" ++ toString id
  | noProgram => "Ripper parse failed."
  | unbalancedDelimiter token line =>
    "unbalanced delimiter " ++ token.quoted ++ " at line " ++ toString line
  | missingOperator => "Expected 'in' or '=>' on the operator stack, found nothing"
  | unexpectedOperator operator => "Expected 'in' or '=>', got " ++ Text.quoted operator
  | missingArrow found => "Expected '=>' on the operator stack, found " ++ Text.quoted found
  | noOpenConstruct => "comment stack is empty"
  | notANode => "expected a raw node"
  | unknownTag tag => "no handler for raw node " ++ Text.quoted tag
  | unknownCallOperator operator => "unknown call operator " ++ operator.quoted
  | noValue => "not a value"
  | surrogate => "half of a surrogate pair"
  | badOctets => "not UTF-8"
  | badQuotedText => "not a quoted text"
  | tooLarge => "too large for a double"
  | shape => "a field is missing or of the wrong kind"

/-- The output an interpreter left, if that is how it failed. -/
def output : Error → String
  | exited _ output => output
  | _ => ""

/-- The full description: with the line of invalid source, and with what the
    interpreter wrote before it gave up. -/
def message (e : Error) : String :=
  match e with
  | invalidSource text (some line) _ => text ++ " at line " ++ toString line
  | exited _ output =>
    let detail := Text.trim output
    if detail == "" then e.text else e.text ++ ": " ++ detail
  | _ => e.text

end Error

section Steps

variable {α β : Type} {r : Except Error α} {f : α → Except Error β}

theorem bind_eq_ok {v : β} : r.bind f = .ok v ↔ ∃ u, r = .ok u ∧ f u = .ok v := by
  cases r <;> simp [Except.bind]

theorem bind_eq_error {e : Error} :
    r.bind f = .error e ↔ r = .error e ∨ ∃ u, r = .ok u ∧ f u = .error e := by
  cases r <;> simp [Except.bind]

end Steps

end RubyTree
