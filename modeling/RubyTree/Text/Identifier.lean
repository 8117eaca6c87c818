/-!
# Starts of Identifiers

The characters that a name of the event log or a named group may start with:
the letters of ASCII and the underscore. What may follow differs, so each kind
of name says that itself.

## Main definitions

* `startsIdentifier`: A letter or an underscore.
-/

namespace RubyTree

namespace Text

/-- A letter of ASCII or an underscore. -/
def startsIdentifier (c : Char) : Bool :=
  ('A' ≤ c && c ≤ 'Z') || ('a' ≤ c && c ≤ 'z') || c = '_'

end Text

end RubyTree
