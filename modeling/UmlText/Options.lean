import UmlText.InvalidValue

/-!
# Layout options

The options say how the lines of a diagram become a text: how wide one step of indentation
is, whether the text is wrapped in its envelope, whether the last line break is kept.  They
have no say in which lines there are.
-/

namespace UmlText

/-- How the lines of a diagram become a text. -/
structure Options where
  /-- The number of spaces for one step of nesting. -/
  indent : Nat := 2
  /-- Whether the opening and the closing line of the envelope are written. -/
  wrap : Bool := true
  /-- Whether the text ends with a line break. -/
  trailingNewline : Bool := true
  deriving DecidableEq, Repr

/-- Why options are refused. -/
inductive OptionsError where
  /-- The text that should hold the options cannot be read. -/
  | unreadable
  /-- A number lies outside its interval. -/
  | outOfRange (what : String) (value least greatest : Nat)
  deriving DecidableEq, Repr

/-- The wording of a refusal; a text that cannot be read has none. -/
def OptionsError.message? : OptionsError → Option String
  | .unreadable => none
  | .outOfRange what value least greatest => some (outOfRangeMessage what value least greatest)

namespace Options

/-- The widest step of indentation that checked options have. -/
def maxIndent : Nat :=
  8

/-- Accepts the options whose indentation is not too wide. -/
def validate (o : Options) : Except OptionsError Options :=
  if o.indent ≤ maxIndent then .ok o
  else .error (.outOfRange "indent" o.indent 0 maxIndent)

/-- The options with another indentation, cut down to the widest one. -/
def withIndent (o : Options) (indent : Nat) : Options :=
  { o with indent := min indent maxIndent }

end Options

end UmlText
