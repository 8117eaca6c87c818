import RubyTree.Number.Numeral

/-!
# Settings

How the recorder is run and how its events are read. Each setting has a default,
can be given as a text, and can be overridden.

## Main definitions

* `Settings`: The interpreter, its time limit, and numbered parameters.
* `Settings.ofTexts`: Settings from texts that may be missing.
* `Overrides`, `Settings.override`: Changes to some of the settings.
-/

namespace RubyTree

/-- How the recorder is run and how its events are read. -/
structure Settings where
  ruby : String := "ruby"
  /-- In seconds; absent if there is no limit. -/
  timeout : Option Binary64 := some (.ofQuotient false 60 1)
  numberedParams : Bool := true
  deriving DecidableEq, Repr

/-- Changes to some of the settings. -/
structure Overrides where
  ruby : Option String := none
  timeout : Option Binary64 := none
  numberedParams : Option Bool := none
  deriving DecidableEq, Repr

namespace Settings

/-- The interpreter a text names; a blank text names the default. -/
def readRuby : Option String → String
  | none => "ruby"
  | some t => if Text.trim t == "" then "ruby" else Text.trim t

/-- The time limit a text names. A text that is no number means the default,
    and a number that is not positive means no limit. -/
def readTimeout : Option String → Option Binary64
  | none => ({} : Settings).timeout
  | some t =>
    match Numeral.readSpacedReal? (Text.trim t).toList with
    | none => ({} : Settings).timeout
    | some x => if x.isPositive then some x else none

/-- Texts that switch a setting off. -/
def offTexts : List String :=
  ["0", "false", "no", "off"]

/-- A switch is on unless a text switches it off. -/
def readSwitch : Option String → Bool
  | none => true
  | some t => !offTexts.contains (Text.lowerAscii (Text.trim t))

/-- Settings from the texts for the interpreter, the time limit and numbered
    parameters. -/
def ofTexts (ruby timeout numberedParams : Option String) : Settings :=
  { ruby := readRuby ruby
    timeout := readTimeout timeout
    numberedParams := readSwitch numberedParams }

/-- The settings with changes; a setting without one stays. -/
def override (s : Settings) (o : Overrides) : Settings :=
  { ruby := o.ruby.getD s.ruby
    timeout := o.timeout.or s.timeout
    numberedParams := o.numberedParams.getD s.numberedParams }

end Settings

namespace Overrides

/-- Whether nothing is changed. -/
def isEmpty (o : Overrides) : Bool :=
  o.ruby.isNone && o.timeout.isNone && o.numberedParams.isNone

end Overrides

end RubyTree
