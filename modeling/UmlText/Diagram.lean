import UmlText.Activity.Calls
import UmlText.ClassDiagram.Calls
import UmlText.Program
import UmlText.Sequence.Calls
import UmlText.Settings
import UmlText.StateChart.Calls

/-!
# Diagrams and their text

There are four kinds of diagrams, each with its dialect.  A `Diagram` is finished: it has a
name, its settings and a tree of its kind, and `Diagram.render` writes it as a text.  A
`Draft` is a diagram that is still being built.

The lines of a diagram do not depend on the options of its layout; the options only decide
whether the two lines of the envelope are put around them.
-/

namespace UmlText

/-- The kinds of diagrams. -/
inductive Kind where
  | activity
  | sequence
  | state
  | «class»
  deriving DecidableEq, Repr

/-- The dialect of a kind. -/
abbrev Kind.dialect : Kind → Dialect
  | .activity => Activity.dialect
  | .sequence => Sequence.dialect
  | .state => StateChart.dialect
  | .class => ClassDiagram.dialect

/-- A finished diagram. -/
structure Diagram where
  kind : Kind
  /-- The name on the first line of the envelope. -/
  name : Option String := none
  settings : Settings := {}
  nodes : List kind.dialect.Node

namespace Diagram

/-- The lines of a diagram, without its envelope. -/
def lines (d : Diagram) : List Line :=
  d.settings.preamble ++ d.kind.dialect.lines d.nodes ++ d.settings.epilogue

/-- The first line of the envelope. -/
def opening (d : Diagram) : Line :=
  ⟨0, match d.name with
    | none => "@startuml"
    | some name => "@startuml " ++ name⟩

/-- The last line of the envelope. -/
def closing : Line :=
  ⟨0, "@enduml"⟩

/-- The lines of a diagram in their envelope, if there is to be one. -/
def wrapped (d : Diagram) (o : Options) : List Line :=
  if o.wrap then d.opening :: d.lines ++ [closing] else d.lines

/-- The text of a diagram whose tree is consistent. -/
def render (d : Diagram) (o : Options) : Except ExportError String :=
  (d.kind.dialect.check d.nodes).map fun _ => layout o (d.wrapped o)

/-- What the journal says of a diagram that was written. -/
def renderEvent (d : Diagram) (text : String) : Event :=
  .exported d.kind.dialect.name text.utf8ByteSize

end Diagram

/-- A diagram that is being built. -/
structure Draft (kind : Kind) where
  name : Option String := none
  settings : Settings := {}
  engine : Engine kind.dialect.toGrammar := {}

namespace Draft

/-- An empty draft with a name. -/
def named (kind : Kind) (name : String) : Except InvalidValue (Draft kind) :=
  (singleLine "diagram name" name).map fun name => { name := some name }

/-- The finished diagram, and the engine with what its journal says of that. -/
def finish {kind : Kind} (d : Draft kind) :
    Except BuildError Diagram × Engine kind.dialect.toGrammar :=
  let (result, engine) := Engine.finish.run d.engine
  (result.map fun nodes => { kind, name := d.name, settings := d.settings, nodes }, engine)

end Draft

end UmlText
