import RubyTree.Log.Reader

/-!
# Writing the Event Log

The other side of the log: how the recorder writes what it records. An event is
one line, `#1 name 2:3(args)`, and the arguments are divided by commas with
nothing around them. A number is written in base ten, a reference with `#` in
front, a text between quotes, a symbol as a text after a colon.

How a character inside quotes is spelled is left open. A quote, a backslash and
a control character have to be escaped, everything else may stand for itself or
be escaped, by a letter if it has one, by its code unit, or by the two units of a
surrogate pair. Whatever a recorder chooses, reading gives the character back, so
everything below is about any `Spelling`.

Not everything can be recorded. Literals denote numbers and binary texts that no
event carries, a name has to be one, and numbers are bounded by how many digits
are written out.

## Main definitions

* `HexDigit`, `CodeUnit`: Hexadecimal digits in either case, four of them.
* `Spells`: The spellings a character may have between quotes.
* `Spelling`: A spelling for every character.
* `Spelling.standard`: The one that escapes only what it must.
* `writeArg`, `writeArgs`, `writeEvent`, `writeLog`: The text of a log.
* `Arg.isRecorded`, `Event.isRecorded`: What a recorder can write.
-/

namespace RubyTree

namespace Log

/-- The letters that name a character after a backslash. -/
def letter? : Char → Option Char
  | '"' => some '"'
  | '\\' => some '\\'
  | '/' => some '/'
  | '\x08' => some 'b'
  | '\x0c' => some 'f'
  | '\n' => some 'n'
  | '\r' => some 'r'
  | '\t' => some 't'
  | _ => none

/-- A hexadecimal digit and its value. -/
def HexDigit (value : Nat) (c : Char) : Prop :=
  value < 16 ∧ (c = Nat.digitChar value ∨ c = (Nat.digitChar value).toUpper)

/-- Four hexadecimal digits and the code unit they name. -/
inductive CodeUnit : Nat → List Char → Prop where
  | mk {x y z w : Nat} {a b c d : Char} (ha : HexDigit x a) (hb : HexDigit y b)
      (hc : HexDigit z c) (hd : HexDigit w d) :
      CodeUnit (16 * (16 * (16 * x + y) + z) + w) [a, b, c, d]

/-- What may stand between quotes for a character. -/
inductive Spells : Char → List Char → Prop where
  | plain {c : Char} (quote : c ≠ '"') (backslash : c ≠ '\\') (control : 0x20 ≤ c.toNat) :
      Spells c [c]
  | letter {c l : Char} (h : letter? c = some l) : Spells c ['\\', l]
  | unit {c : Char} {ds : List Char} (h : CodeUnit c.toNat ds) : Spells c ('\\' :: 'u' :: ds)
  | pair {c : Char} {high low : Nat} {ds es : List Char} (hhigh : 0xD800 ≤ high ∧ high < 0xDC00)
      (hlow : 0xDC00 ≤ low ∧ low < 0xE000)
      (h : c.toNat = 0x10000 + 0x400 * (high - 0xD800) + (low - 0xDC00))
      (hds : CodeUnit high ds) (hes : CodeUnit low es) :
      Spells c ('\\' :: 'u' :: ds ++ '\\' :: 'u' :: es)

/-- A way to write every character between quotes. -/
structure Spelling where
  spell : Char → List Char
  valid : ∀ c, Spells c (spell c)

/-- The number `n` as four hexadecimal digits. -/
def fourDigits (n : Nat) : List Char :=
  [n / 4096 % 16, n / 256 % 16, n / 16 % 16, n % 16].map Nat.digitChar

theorem codeUnit_fourDigits {n : Nat} (h : n < 65536) : CodeUnit n (fourDigits n) := by
  have hsum : n = 16 * (16 * (16 * (n / 4096 % 16) + n / 256 % 16) + n / 16 % 16) + n % 16 := by
    omega
  have hdigit (k : Nat) : HexDigit (k % 16) (Nat.digitChar (k % 16)) :=
    ⟨Nat.mod_lt k (by decide), .inl rfl⟩
  have hunit := CodeUnit.mk (hdigit (n / 4096)) (hdigit (n / 256)) (hdigit (n / 16)) (hdigit n)
  rw [← hsum] at hunit
  exact hunit

namespace Spelling

/-- Letters where there are any, code units for the other control characters,
    and nothing else escaped but quotes and backslashes. -/
def standardSpell (c : Char) : List Char :=
  if c = '/' then [c]
  else match letter? c with
    | some l => ['\\', l]
    | none => if c.toNat < 0x20 then '\\' :: 'u' :: fourDigits c.toNat else [c]

theorem spells_standardSpell (c : Char) : Spells c (standardSpell c) := by
  unfold standardSpell
  by_cases hslash : c = '/'
  · subst hslash
    exact .plain (by decide) (by decide) (by decide)
  · rw [if_neg hslash]
    cases hletter : letter? c with
    | some l => exact .letter hletter
    | none =>
      -- A control character without a letter can only be spelled by its number.
      dsimp only
      by_cases hcontrol : c.toNat < 0x20
      · rw [if_pos hcontrol]
        exact .unit (codeUnit_fourDigits (by omega))
      · rw [if_neg hcontrol]
        refine .plain ?_ ?_ (by omega)
        · rintro rfl
          exact absurd hletter (by decide)
        · rintro rfl
          exact absurd hletter (by decide)

/-- The spelling that escapes only what it must. -/
def standard : Spelling where
  spell := standardSpell
  valid := spells_standardSpell

end Spelling

/-- A text between quotes. -/
def writeQuoted (s : Spelling) (text : String) : List Char :=
  '"' :: (text.toList.flatMap s.spell ++ ['"'])

def writeInt (i : Int) : List Char :=
  if i < 0 then '-' :: Nat.toDigits 10 i.natAbs else Nat.toDigits 10 i.natAbs

/-- A value without parts. Of those that cannot be recorded nothing is written. -/
def writeAtom (s : Spelling) : Atom → List Char
  | .null => ['n', 'i', 'l']
  | .bool true => ['t', 'r', 'u', 'e']
  | .bool false => ['f', 'a', 'l', 's', 'e']
  | .int i => writeInt i
  | .str text => writeQuoted s text
  | .sym name => ':' :: writeQuoted s name
  | _ => []

mutual

def writeArg (s : Spelling) : Arg → List Char
  | .atom a => writeAtom s a
  | .ref id => '#' :: Nat.toDigits 10 id
  | .list items => '[' :: (writeArgs s items ++ [']'])

/-- Arguments with commas between them. -/
def writeArgs (s : Spelling) : List Arg → List Char
  | [] => []
  | arg :: args => writeArg s arg ++ writeMoreArgs s args

/-- Arguments with a comma before each. -/
def writeMoreArgs (s : Spelling) : List Arg → List Char
  | [] => []
  | arg :: args => ',' :: (writeArg s arg ++ writeMoreArgs s args)

end

/-- An event and the end of its line. -/
def writeEvent (s : Spelling) (e : Event) : List Char :=
  '#' :: (Nat.toDigits 10 e.id ++ ' ' :: (e.name.toList ++ ' ' :: (Nat.toDigits 10 e.line ++
    ':' :: (Nat.toDigits 10 e.column ++ '(' :: (writeArgs s e.args ++ [')', '\n'])))))

/-- The events in order, one per line. -/
def writeLog (s : Spelling) (events : List Event) : String :=
  String.ofList (events.flatMap (writeEvent s))

/-- Letters, digits and underscores, with no digit in front, after at most one `@`. -/
def isEventName (name : String) : Bool :=
  match name.toList with
  | '@' :: c :: cs => isStart c && cs.all isInner
  | c :: cs => isStart c && cs.all isInner
  | [] => false
where
  isStart (c : Char) : Bool := c.isAlpha || c = '_'
  isInner (c : Char) : Bool := c.isAlphanum || c = '_'

end Log

namespace Atom

/-- The atoms that an event can carry. -/
def isRecorded : Atom → Bool
  | null | bool _ | str _ | sym _ => true
  | int i => Numeral.isWritable i.natAbs
  | _ => false

end Atom

namespace Arg

mutual

/-- Whether an argument is made of atoms and references that can be written. -/
def isRecorded : Arg → Bool
  | atom a => a.isRecorded
  | ref id => Numeral.isWritable id
  | list items => areRecorded items

def areRecorded : List Arg → Bool
  | [] => true
  | arg :: args => isRecorded arg && areRecorded args

end

end Arg

namespace Event

/-- Whether an event can be written: its name is one, its numbers have few
    enough digits, and so do those in its arguments. -/
def isRecorded (e : Event) : Bool :=
  Log.isEventName e.name && Numeral.isWritable e.id && Numeral.isWritable e.line &&
    Numeral.isWritable e.column && Arg.areRecorded e.args

end Event

end RubyTree
