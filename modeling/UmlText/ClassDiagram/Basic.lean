import UmlText.AttachedNote

/-!
# Class diagrams

A class diagram declares classes, with their members, and relations between them; notes are
attached to classes or stand alone.  Packages hold further elements.

The ends of a relation are given by names in a call and by aliases in a tree, so the type of
a relation is parameterized by what names a class.
-/

namespace UmlText.ClassDiagram

/-- What a class-like element is. -/
inductive ClassKind where
  | plain
  | abstractClass
  | interface
  | enumeration
  | annotationType
  | entity
  deriving DecidableEq, Repr

/-- The words for a kind of class. -/
def ClassKind.keyword : ClassKind → String
  | .plain => "class"
  | .abstractClass => "abstract class"
  | .interface => "interface"
  | .enumeration => "enum"
  | .annotationType => "annotation"
  | .entity => "entity"

/-- Who may use a member. -/
inductive Visibility where
  | everyone
  | itself
  | heirs
  | package
  deriving DecidableEq, Repr

/-- The mark for a visibility. -/
def Visibility.marker : Visibility → Char
  | .everyone => '+'
  | .itself => '-'
  | .heirs => '#'
  | .package => '~'

/-- A modifier of a member. -/
inductive Modifier where
  | isStatic
  | isAbstract
  deriving DecidableEq, Repr

/-- The word for a modifier, in its braces. -/
def Modifier.keyword : Modifier → String
  | .isStatic => "\x7bstatic\x7d"
  | .isAbstract => "\x7babstract\x7d"

/-- A member of a class. -/
structure Member where
  text : String
  visibility : Option Visibility := none
  modifier : Option Modifier := none
  deriving DecidableEq

/-- A class. -/
structure Class where
  kind : ClassKind := .plain
  id : Alias
  /-- The name that is shown, where it is not the alias. -/
  display : Option String := none
  /-- The parameters of a generic class. -/
  generic : Option String := none
  stereotype : Option String := none
  color : Option Color := none
  members : List Member := []
  deriving DecidableEq

/-- The shape in which a package is drawn. -/
inductive PackageKind where
  | package
  | nameSpace
  | rectangle
  | frame
  | folder
  | node
  | cloud
  | database
  deriving DecidableEq, Repr

/-- The word for a kind of package. -/
def PackageKind.keyword : PackageKind → String
  | .package => "package"
  | .nameSpace => "namespace"
  | .rectangle => "rectangle"
  | .frame => "frame"
  | .folder => "folder"
  | .node => "node"
  | .cloud => "cloud"
  | .database => "database"

/-- What is written on the first line of a package. -/
structure PackageHead where
  kind : PackageKind := .package
  name : String
  stereotype : Option String := none
  color : Option Color := none
  deriving DecidableEq

/-- How two classes are related. -/
inductive RelationKind where
  | extension
  | implementation
  | composition
  | aggregation
  | association
  | directed
  | dependency
  | link
  deriving DecidableEq, Repr

/-- The head at the first class. -/
def RelationKind.sourceHead : RelationKind → String
  | .extension | .implementation => "<|"
  | .composition => "*"
  | .aggregation => "o"
  | .association | .directed | .dependency | .link => ""

/-- The character the line is made of. -/
def RelationKind.dash : RelationKind → String
  | .extension | .composition | .aggregation | .association | .directed => "-"
  | .implementation | .dependency | .link => "."

/-- The head at the second class. -/
def RelationKind.targetHead : RelationKind → String
  | .directed | .dependency => ">"
  | .extension | .implementation | .composition | .aggregation | .association | .link => ""

/-- Where the arrow beside the label of a relation points. -/
inductive LabelArrow where
  | forward
  | backward
  deriving DecidableEq, Repr

/-- A relation between two classes. -/
structure Relation (Name : Type) where
  source : Name
  target : Name
  kind : RelationKind
  sourceMultiplicity : Option String := none
  targetMultiplicity : Option String := none
  label : Option String := none
  labelArrow : Option LabelArrow := none
  direction : Option Direction := none
  color : Option Color := none
  deriving DecidableEq

/-- An element of a class diagram. -/
inductive Node where
  | «class» (c : Class)
  | package (head : PackageHead) (body : List Node)
  | relation (r : Relation Alias)
  | note (n : AttachedNote Alias)
  /-- A note that is attached to nothing. -/
  | floatingNote (text : String) (color : Option Color)

/-- The kind of an element, as errors name it. -/
def Node.kind : Node → String
  | .class c => c.kind.keyword
  | .package head _ => head.kind.keyword
  | .relation _ => "relation"
  | .note _ => "note"
  | .floatingNote .. => "note"

end UmlText.ClassDiagram
