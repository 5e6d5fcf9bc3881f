import UmlText.Diagram
import UmlText.Options.Json
import UmlText.Proofs.Activity.Acceptance
import UmlText.Proofs.Activity.DocumentOrder
import UmlText.Proofs.Activity.Joins
import UmlText.Proofs.Activity.Lanes
import UmlText.Proofs.Activity.ReadBack
import UmlText.Proofs.ClassDiagram.Identifiers
import UmlText.Proofs.ClassDiagram.Members
import UmlText.Proofs.ClassDiagram.Relations
import UmlText.Proofs.Colors
import UmlText.Proofs.Export
import UmlText.Proofs.Failure
import UmlText.Proofs.Generated
import UmlText.Proofs.Layouts
import UmlText.Proofs.LineCount
import UmlText.Proofs.Ownership
import UmlText.Proofs.Refinement
import UmlText.Proofs.Registered
import UmlText.Proofs.Rollback
import UmlText.Proofs.Scopes
import UmlText.Proofs.Sequence.Acceptance
import UmlText.Proofs.Sequence.Activations
import UmlText.Proofs.Sequence.Brackets
import UmlText.Proofs.Sequence.ReadBack
import UmlText.Proofs.Sequence.Walk
import UmlText.Proofs.StateChart.ReadBack
import UmlText.Proofs.StateChart.Regions
import UmlText.Proofs.Text.Bodies
import UmlText.Proofs.Text.Inertness
import UmlText.Proofs.Tokens
