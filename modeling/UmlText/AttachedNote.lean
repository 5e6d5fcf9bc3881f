import UmlText.Alias
import UmlText.Layout
import UmlText.Style

/-!
# Notes at elements

State charts and class diagrams attach a note to a side of one of their elements.  The
element is given by its name in a call and by its alias in a tree.
-/

namespace UmlText

/-- A note at a side of an element. -/
structure AttachedNote (Name : Type) where
  side : Side
  target : Name
  text : String
  color : Option Color := none
  deriving DecidableEq

/-- The lines of a note at an element. -/
def AttachedNote.lines (depth : Nat) (n : AttachedNote Alias) : List Line :=
  noteLines depth
    ("note " ++ n.side.keyword ++ " of " ++ n.target.name ++ colorSuffix n.color)
    n.text
    "end note"

end UmlText
