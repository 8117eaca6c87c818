import RubyTree.Build.Replay
import RubyTree.Log.Reader
import RubyTree.Lower.Process
import RubyTree.Tree.Shared

/-!
# Programs

The way from an event log to a syntax tree: the log is read, its events are
replayed into a raw tree, the raw tree is lowered, and lines are filled in. Each
program starts with a fresh builder and a fresh scope.

## Main definitions

* `programOfRaw`: The syntax tree of a raw tree.
* `programOfLog`: The syntax tree of an event log.
-/

namespace RubyTree

/-- The syntax tree of a raw tree, absent for a program without statements. -/
def programOfRaw (options : Options) (r : Raw) : Except Error (Option Tree) :=
  ((LowerM.lowerProgram r).runIn options {}).1.map fun t => t.map Tree.fillShared

/-- The syntax tree of the source whose events a log records. -/
def programOfLog (options : Options) (line : Int) (log : String) :
    Except Error (Option Tree) := do
  let events ← readLog log
  programOfRaw options (← (rawTree options.filename line events).1)

end RubyTree
