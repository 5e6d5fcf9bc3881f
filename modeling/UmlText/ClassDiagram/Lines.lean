import UmlText.ClassDiagram.Basic
import UmlText.Survey

/-!
# The written form of class diagrams

A class is written as its declaration, with its members in braces where it has any.  A note
that is attached to nothing needs a name in the text: such notes are numbered in the order
of the document, so the lines of an element depend on how many of them stand before it.
-/

namespace UmlText.ClassDiagram

/-- The kind under which classes are declared. -/
def classKind : String :=
  "class"

mutual

/-- What is found in an element that stands inside `depth` packages. -/
def Node.survey (depth : Nat) : Node → List Finding
  | .class c => [.declared classKind c.id]
  | .package _ body => .entered (depth + 1) :: surveyNodes (depth + 1) body
  | .relation r =>
      [.referred "relation" classKind r.source, .referred "relation" classKind r.target]
  | .note n => [.referred "note" classKind n.target]
  | .floatingNote .. => []

/-- What is found in the elements of a list. -/
def surveyNodes (depth : Nat) : List Node → List Finding
  | [] => []
  | node :: rest => node.survey depth ++ surveyNodes depth rest

end

/-- What is found in a whole tree. -/
def survey (nodes : List Node) : List Finding :=
  .entered 0 :: surveyNodes 0 nodes

/-- Accepts the consistent trees: nesting and classes are examined first, then the
references. -/
def check (nodes : List Node) : Except ExportError Unit :=
  Finding.check Finding.isNoReference (survey nodes)

mutual

/-- How many notes in an element are attached to nothing. -/
def Node.floatingNotes : Node → Nat
  | .floatingNote .. => 1
  | .package _ body => floatingNotesIn body
  | .class _ | .relation _ | .note _ => 0

/-- How many notes in a list of elements are attached to nothing. -/
def floatingNotesIn : List Node → Nat
  | [] => 0
  | node :: rest => node.floatingNotes + floatingNotesIn rest

end

/-- The name of a note that is attached to nothing, from its number. -/
def floatingNoteName (number : Nat) : String :=
  "__n" ++ toString number

/-- A stereotype in its brackets. -/
def stereotypeSuffix (stereotype : Option String) : String :=
  match stereotype with
  | none => ""
  | some stereotype => " <<" ++ escape .stereotype stereotype ++ ">>"

/-- The declaration of a class, without its members. -/
def Class.line (c : Class) : String :=
  c.kind.keyword ++ " " ++
    (match c.display with
      | none => ""
      | some display => "\"" ++ escape .quoted display ++ "\" as ") ++
    c.id.name ++
    (match c.generic with
      | none => ""
      | some generic => "<" ++ escape .stereotype generic ++ ">") ++
    stereotypeSuffix c.stereotype ++ colorSuffix c.color

/-- The line of a member. -/
def Member.line (m : Member) : String :=
  (match m.modifier with
    | none => ""
    | some modifier => modifier.keyword ++ " ") ++
    (match m.visibility with
      | none => ""
      | some visibility => visibility.marker.toString) ++
    escape .member m.text

/-- The lines of a class. -/
def Class.lines (depth : Nat) (c : Class) : List Line :=
  if c.members.isEmpty then [⟨depth, c.line⟩]
  else
    ⟨depth, c.line ++ " \x7b"⟩ :: c.members.map (fun m => ⟨depth + 1, m.line⟩) ++
      [⟨depth, "\x7d"⟩]

/-- The first line of a package. -/
def PackageHead.line (head : PackageHead) : String :=
  head.kind.keyword ++ " \"" ++ escape .quoted head.name ++ "\"" ++
    stereotypeSuffix head.stereotype ++ colorSuffix head.color ++ " \x7b"

/-- A multiplicity in its quotes, before what follows it. -/
def multiplicity (text : Option String) : String :=
  match text with
  | none => ""
  | some text => "\"" ++ escape .quoted text ++ "\" "

/-- The line between the two classes of a relation, with the heads at its ends. -/
def Relation.sign {Name : Type} (r : Relation Name) : String :=
  r.kind.sourceHead ++ r.kind.dash ++
    (match r.color with
      | none => ""
      | some color => "[" ++ color.display ++ "]") ++
    (match r.direction with
      | none => ""
      | some direction => direction.keyword) ++
    r.kind.dash ++ r.kind.targetHead

/-- The label of a relation and the arrow beside it; without a label there is no arrow. -/
def relationLabel (label : Option String) (arrow : Option LabelArrow) : String :=
  match label, arrow with
  | none, _ => ""
  | some label, none => " : " ++ escape .label label
  | some label, some .forward => " : " ++ escape .label label ++ " >"
  | some label, some .backward => " : < " ++ escape .label label

/-- The line of a relation. -/
def Relation.line (r : Relation Alias) : String :=
  r.source.name ++ " " ++ multiplicity r.sourceMultiplicity ++ r.sign ++ " " ++
    multiplicity r.targetMultiplicity ++ r.target.name ++ relationLabel r.label r.labelArrow

/-- The lines of the note with the given number among those that are attached to nothing. -/
def floatingNoteLines
    (depth number : Nat)
    (text : String)
    (color : Option Color) : List Line :=
  let name := floatingNoteName number
  if isMultiline text then
    enclosedLines depth ("note as " ++ name ++ colorSuffix color) text "end note"
  else
    [⟨depth, "note \"" ++ escape .quoted text ++ "\" as " ++ name ++ colorSuffix color⟩]

mutual

/-- The lines of an element that is nested `depth` steps; the notes before it that are
attached to nothing have the numbers up to `numbered`. -/
def Node.lines (depth numbered : Nat) : Node → List Line
  | .class c => c.lines depth
  | .package head body =>
      ⟨depth, head.line⟩ :: linesFrom (depth + 1) numbered body ++ [⟨depth, "\x7d"⟩]
  | .relation r => [⟨depth, r.line⟩]
  | .note n => n.lines depth
  | .floatingNote text color => floatingNoteLines depth (numbered + 1) text color

/-- The lines of the elements of a list. -/
def linesFrom (depth numbered : Nat) : List Node → List Line
  | [] => []
  | node :: rest =>
      node.lines depth numbered ++ linesFrom depth (numbered + node.floatingNotes) rest

end

/-- The lines of a whole tree. -/
def linesOf (nodes : List Node) : List Line :=
  linesFrom 0 0 nodes

end UmlText.ClassDiagram
