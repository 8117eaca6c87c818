import RubyTree.Error

/-!
# Comments Before a Construct

Comments document the construct whose keyword follows them. They are collected
in a buffer; a keyword that opens a construct puts the buffer on a stack, and
the construct takes it back when it is complete. Comments that are in the buffer
at that moment belonged to the body, and are dropped.

## Main definitions

* `Comments`: The buffer and the open constructs, each with its keyword.
* `Comments.add`, `Comments.discard`: Changes to the buffer.
* `Comments.enter`, `Comments.leave`: A construct is opened and completed.
-/

namespace RubyTree

/-- Comment text not yet claimed, and the open constructs, innermost first. -/
structure Comments (κ : Type) where
  buffer : String := ""
  stack : List (κ × String) := []

namespace Comments

variable {κ : Type}

/-- More comment text. -/
def add (c : Comments κ) (text : String) : Comments κ :=
  { c with buffer := c.buffer ++ text }

/-- Forgets the comments in the buffer. -/
def discard (c : Comments κ) : Comments κ :=
  { c with buffer := "" }

/-- Opens a construct, which the comments in the buffer document. -/
def enter (c : Comments κ) (keyword : κ) : Comments κ :=
  { buffer := "", stack := (keyword, c.buffer) :: c.stack }

/-- Completes the innermost construct: its keyword and its comments. -/
def leave (c : Comments κ) : Except Error ((κ × String) × Comments κ) :=
  match c.stack with
  | [] => throw .noOpenConstruct
  | top :: stack => return (top, { buffer := "", stack })

/-- How many constructs are open. -/
def depth (c : Comments κ) : Nat :=
  c.stack.length

end Comments

end RubyTree
