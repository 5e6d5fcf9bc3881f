import UmlText.Diagram
import UmlText.Proofs.Activity.Calls
import UmlText.Proofs.ClassDiagram.Calls
import UmlText.Proofs.Sequence.Calls
import UmlText.Proofs.StateChart.Calls

/-!
# The readings of the four kinds
-/

namespace UmlText.Kind

/-- How programs of each kind of diagram are read. -/
abbrev reading : (kind : Kind) → Reading kind.dialect
  | .activity => Activity.reading
  | .sequence => Sequence.reading
  | .state => StateChart.reading
  | .class => ClassDiagram.reading

/-- How the open scopes of each kind hold what is read. -/
abbrev realization : (kind : Kind) → Realization kind.reading
  | .activity => Activity.realization
  | .sequence => Sequence.realization
  | .state => StateChart.realization
  | .class => ClassDiagram.realization

/-- What is found in the trees of each kind. -/
abbrev inventory : (kind : Kind) → Inventory kind.reading
  | .activity => Activity.inventory
  | .sequence => Sequence.inventory
  | .state => StateChart.inventory
  | .class => ClassDiagram.inventory

theorem sound : ∀ kind : Kind, kind.realization.Sound kind.inventory
  | .activity => Activity.sound
  | .sequence => Sequence.sound
  | .state => StateChart.sound
  | .class => ClassDiagram.sound

theorem faithful : ∀ kind : Kind, kind.realization.Faithful
  | .activity => Activity.faithful
  | .sequence => Sequence.faithful
  | .state => StateChart.faithful
  | .class => ClassDiagram.faithful

end UmlText.Kind
