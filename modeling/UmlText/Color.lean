import UmlText.InvalidValue
import UmlText.Text.Blank

/-!
# Colors

A color is a *single* color, or two single colors joined by one of the separators `|`, `/`,
`\` and `-`.  A single color is three, six or eight hexadecimal digits, or a word of ASCII
letters; whether a word names a color is left to the tool that draws the diagram.  A caller
may write a `#` in front and blanks around it; the value is kept without them.
-/

namespace UmlText

/-- The digits of a color given by its components. -/
def isHexDigit (c : Char) : Bool :=
  c.isDigit || ('a' ≤ c && c ≤ 'f') || ('A' ≤ c && c ≤ 'F')

/-- A single color: components of one or two digits each, or a word. -/
def isSingleColor (chars : List Char) : Bool :=
  (chars.all isHexDigit && [3, 6, 8].contains chars.length) ||
    (!chars.isEmpty && chars.all Char.isAlpha)

/-- The characters that join the two colors of a gradient. -/
def isGradientSeparator (c : Char) : Bool :=
  ['|', '/', '\\', '-'].contains c

/-- What may stand after the `#` of a color: what precedes the first separator is a single
color, and what follows it, if there is a separator, is one too. -/
def isColorBody (chars : List Char) : Bool :=
  isSingleColor (chars.takeWhile fun c => !isGradientSeparator c) &&
    match chars.dropWhile fun c => !isGradientSeparator c with
    | [] => true
    | _ :: second => isSingleColor second

/-- A color of a diagram, without its `#`. -/
structure Color where
  /-- The digits or the words, and the separator between them. -/
  body : String
  /-- The body has the form of a color. -/
  wellFormed : isColorBody body.toList = true
  deriving DecidableEq

namespace Color

/-- A list of characters without the `#` in front, if there is one. -/
def withoutHash : List Char → List Char
  | '#' :: rest => rest
  | chars => chars

/-- Reads a caller's text as a color: blanks around it and one `#` in front are dropped. -/
def parse (text : String) : Except InvalidValue Color :=
  if h : isColorBody (withoutHash (trim text.toList)) = true then
    .ok ⟨String.ofList (withoutHash (trim text.toList)), by simpa using h⟩
  else .error (.badColor text)

/-- The color as it is shown: the `#` stands in front. -/
def display (c : Color) : String :=
  "#" ++ c.body

@[ext] theorem ext {a b : Color} (h : a.body = b.body) : a = b := by
  cases a
  cases b
  simp_all

end Color

end UmlText
