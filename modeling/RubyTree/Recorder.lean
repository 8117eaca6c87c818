import RubyTree.Error
import RubyTree.Settings
import RubyTree.Text.Utf8

/-!
# The Recorder

The recorder is a Ruby program that reads source from its input and prints the
event log. Running it is left to the caller; here is what it is given, and what
the way it ended means.

## Main definitions

* `Recorder.command`: The command line.
* `Recorder.input`: What the recorder reads.
* `Recorder.Outcome`: How a run ended.
* `Recorder.Outcome.log`: The log of a run.
-/

namespace RubyTree

namespace Recorder

/-- The command line: the interpreter, the recorder, and the name and first line
    of the source. -/
def command (settings : Settings) (script filename : String) (line : Int) : List String :=
  [settings.ruby, script, filename, toString line]

/-- The source as the recorder reads it. -/
def input (source : String) : List UInt8 :=
  Text.Utf8.encode source.toList

/-- How a run of the recorder ended. -/
inductive Outcome where
  /-- It ended with a status and left output and complaints. -/
  | ended (status : Int) (output complaints : List UInt8)
  /-- It could not be started. -/
  | notStarted (detail : String)
  /-- It ran out of time. -/
  | timedOut

/-- The log a run left. Complaints matter only if the run failed. -/
def Outcome.log (settings : Settings) : Outcome → Except Error String
  | notStarted detail => throw (.notStarted settings.ruby detail)
  | timedOut => throw (.timedOut settings.timeout)
  | ended status output complaints =>
    if status != 0 then
      throw (.exited status (String.ofList (Text.Utf8.decodeLossy complaints)))
    else
      match Text.Utf8.decode output with
      | some cs => return String.ofList cs
      | none => throw .badOctets

end Recorder

end RubyTree
