import UmlText.Color

/-!
# Lines, directions and sides

The small vocabularies that several kinds of diagram share, each with the word it is written
as, and the style of a link: a color, a way of drawing the line, a thickness, all optional.
-/

namespace UmlText

/-- How a line is drawn. -/
inductive LineStyle where
  | solid
  | dashed
  | dotted
  | bold
  | hidden
  deriving DecidableEq, Repr

/-- The word for a way of drawing a line. -/
def LineStyle.keyword : LineStyle → String
  | .solid => "plain"
  | .dashed => "dashed"
  | .dotted => "dotted"
  | .bold => "bold"
  | .hidden => "hidden"

/-- The direction in which a link should leave its first end. -/
inductive Direction where
  | up
  | down
  | left
  | right
  deriving DecidableEq, Repr

/-- The word for a direction. -/
def Direction.keyword : Direction → String
  | .up => "up"
  | .down => "down"
  | .left => "left"
  | .right => "right"

/-- The side of an element at which a note stands. -/
inductive Side where
  | left
  | right
  | top
  | bottom
  deriving DecidableEq, Repr

/-- The word for a side. -/
def Side.keyword : Side → String
  | .left => "left"
  | .right => "right"
  | .top => "top"
  | .bottom => "bottom"

/-- The style of a link; what is not given is left to the tool that draws the diagram. -/
structure LinkStyle where
  /-- The color of the line. -/
  color : Option Color := none
  /-- How the line is drawn. -/
  line : Option LineStyle := none
  /-- The thickness of the line. -/
  thickness : Option Nat := none
  deriving DecidableEq

/-- The modifiers that are given, in the order in which they are written. -/
def LinkStyle.modifiers (style : LinkStyle) : List String :=
  (style.color.map Color.display).toList ++
    (style.line.map LineStyle.keyword).toList ++
    (style.thickness.map fun n => "thickness=" ++ toString n).toList

/-- The modifiers in square brackets; nothing where none is given. -/
def LinkStyle.text (style : LinkStyle) : String :=
  match style.modifiers with
  | [] => ""
  | modifiers => "[" ++ String.intercalate "," modifiers ++ "]"

/-- A color that may be missing, as it follows something on its line. -/
def colorSuffix (color : Option Color) : String :=
  match color with
  | none => ""
  | some color => " " ++ color.display

end UmlText
