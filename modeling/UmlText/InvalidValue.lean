/-!
# Invalid values

A value handed to an authoring call may lie outside its domain whatever the state of the
diagram is: a color that does not read as one, an alias with a forbidden character, a text
that is blank.  `InvalidValue` lists these causes, and `InvalidValue.message` is the one
place that words them.
-/

namespace UmlText

/-- Why a text is not accepted as an alias. -/
inductive AliasFlaw where
  /-- There is no character at all. -/
  | empty
  /-- The first character is not an ASCII letter. -/
  | badStart (found : Char)
  /-- A later character is none of ASCII letter, ASCII digit, underscore and dot. -/
  | badChar (found : Char)
  /-- The text begins like an alias that the library makes itself. -/
  | reserved
  deriving DecidableEq, Repr

/-- The wording of a flaw, as it follows the rejected text. -/
def AliasFlaw.message : AliasFlaw → String
  | .empty => "must not be empty"
  | .badStart c => "must start with an ASCII letter, found '" ++ c.toString ++ "'"
  | .badChar c => "contains invalid character: '" ++ c.toString ++ "'"
  | .reserved => "the '__' prefix is reserved for generated aliases"

/-- A value that lies outside its domain. -/
inductive InvalidValue where
  /-- The text is no color. -/
  | badColor (value : String)
  /-- The text is no alias. -/
  | badAlias (value : String) (flaw : AliasFlaw)
  /-- The text, or the list, has nothing in it. -/
  | empty (what : String)
  /-- The text does not fit on one line. -/
  | lineBreak (what : String)
  /-- The number lies outside an interval. -/
  | outOfRange (what : String) (value least greatest : Nat)
  /-- The option could not show anywhere in the diagram. -/
  | ineffective (option target reason : String)
  deriving DecidableEq, Repr

/-- The wording of a number that lies outside its interval. -/
def outOfRangeMessage (what : String) (value least greatest : Nat) : String :=
  what ++ " out of range: " ++ toString value ++ " (allowed " ++ toString least ++ "..=" ++
    toString greatest ++ ")"

/-- The wording of an invalid value. -/
def InvalidValue.message : InvalidValue → String
  | .badColor value =>
      "invalid color '" ++ value ++ "': expected #RGB, #RRGGBB, #RRGGBBAA or a color name"
  | .badAlias value flaw => "invalid alias '" ++ value ++ "': " ++ flaw.message
  | .empty what => what ++ " must not be empty"
  | .lineBreak what => what ++ " must fit on a single line"
  | .outOfRange what value least greatest => outOfRangeMessage what value least greatest
  | .ineffective option target reason =>
      "option '" ++ option ++ "' has no effect on " ++ target ++ ": " ++ reason

end UmlText
