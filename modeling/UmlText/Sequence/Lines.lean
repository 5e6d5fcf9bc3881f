import UmlText.Layout
import UmlText.Sequence.Basic
import UmlText.Survey

/-!
# The written form of sequence diagrams

A block is written as its first section under the word for the block, every further section
under `else`, and `end`; a box as its title, its participants and `end box`.  The survey of
a tree counts the blocks around an element, and the declarations of the whole tree are
examined before anything else.
-/

namespace UmlText.Sequence

/-- The kind under which participants are declared. -/
def participantKind : String :=
  "participant"

/-- A reference of an element to participants, one finding for each. -/
def mentions (node : String) (participants : List Alias) : List Finding :=
  participants.map (.referred node participantKind)

/-- The participants that the place of a note names. -/
def NotePlace.participants {End : Type} : NotePlace End → List End
  | .leftOf p | .rightOf p => [p]
  | .covering ps => ps
  | .across => []

mutual

/-- What is found in an element that stands inside `depth` blocks. -/
def Node.survey (depth : Nat) : Node → List Finding
  | .participant p | .create p => [.declared participantKind p.id]
  | .message m => mentions "message" (m.source.toList ++ m.target.toList)
  | .note n => mentions "note" n.place.participants
  | .ref ps _ => mentions "ref" ps
  | .activate p _ => mentions "activate" [p]
  | .deactivate p => mentions "deactivate" [p]
  | .destroy p => mentions "destroy" [p]
  | .block _ sections => .entered (depth + 1) :: surveySections (depth + 1) sections
  | .box _ _ ps => ps.map fun p => .declared participantKind p.id
  | .reply _ | .divider _ | .delay _ | .space _ | .autonumber _ => []

/-- What is found in the elements of a list. -/
def surveyNodes (depth : Nat) : List Node → List Finding
  | [] => []
  | node :: rest => node.survey depth ++ surveyNodes depth rest

/-- What is found in the sections of a block. -/
def surveySections (depth : Nat) : List (Option String × List Node) → List Finding
  | [] => []
  | (_, body) :: rest => surveyNodes depth body ++ surveySections depth rest

end

/-- Accepts the consistent trees: the declarations are examined first, then the nesting of
blocks and the references, in the order of the document. -/
def check (nodes : List Node) : Except ExportError Unit :=
  Finding.check Finding.isDeclaration (surveyNodes 0 nodes)

/-- The declaration of a participant. -/
def Participant.line (p : Participant) : String :=
  p.kind.keyword ++ " " ++
    (match p.display with
      | none => ""
      | some display => "\"" ++ escape .quoted display ++ "\" as ") ++
    p.id.name ++
    (match p.order with
      | none => ""
      | some order => " order " ++ toString order) ++
    colorSuffix p.color

/-- The head at the left end of an arrow. -/
def ArrowHead.left : ArrowHead → String
  | .filled => "<"
  | .thin => "<<"
  | .lost => "x"
  | .upperHalf => "/"
  | .lowerHalf => "\\"
  | .circle => "o<"

/-- The head at the right end of an arrow. -/
def ArrowHead.right : ArrowHead → String
  | .filled => ">"
  | .thin => ">>"
  | .lost => "x"
  | .upperHalf => "\\"
  | .lowerHalf => "/"
  | .circle => ">o"

/-- The arrow of a message. -/
def Arrow.sign (a : Arrow) : String :=
  (if a.bidirectional then a.head.left else "") ++ "-" ++
    (match a.color with
      | none => ""
      | some color => "[" ++ color.display ++ "]") ++
    (if a.dotted then "-" else "") ++
    a.head.right

/-- The line of a message. -/
def Message.line (m : Message Alias) : String :=
  (match m.source with
    | none => "["
    | some source => source.name ++ " ") ++
    m.arrow.sign ++
    (match m.target with
      | none => "]"
      | some target => " " ++ target.name) ++
    (match m.activation with
      | none => ""
      | some activation => " " ++ activation.sign) ++
    labelled " : " m.text

/-- Names with commas between them. -/
def commaList (participants : List Alias) : String :=
  String.intercalate ", " (participants.map Alias.name)

/-- The place of a note, as it follows the word for the note. -/
def NotePlace.suffix : NotePlace Alias → String
  | .leftOf p => " left of " ++ p.name
  | .rightOf p => " right of " ++ p.name
  | .covering ps => " over " ++ commaList ps
  | .across => " across"

/-- The lines of a note. -/
def Note.lines (depth : Nat) (n : Note Alias) : List Line :=
  noteLines depth (n.shape.keyword ++ n.place.suffix ++ colorSuffix n.color) n.text
    ("end " ++ n.shape.keyword)

/-- The line of a numbering; the first number has to be written where a step follows it. -/
def Autonumber.line : Autonumber → String
  | .start first step format =>
      "autonumber" ++
        (if first.isSome || step.isSome then " " ++ toString (first.getD 1) else "") ++
        (match step with
          | none => ""
          | some step => " " ++ toString step) ++
        (match format with
          | none => ""
          | some format => " \"" ++ escape .format format ++ "\"")
  | .stop => "autonumber stop"
  | .resume => "autonumber resume"

/-- The first line of a box. -/
def boxOpening (title : Option String) (color : Option Color) : String :=
  "box" ++
    (match title with
      | none => ""
      | some title => " \"" ++ escape .quoted title ++ "\"") ++
    colorSuffix color

mutual

/-- The lines of an element that is nested `depth` steps. -/
def Node.lines (depth : Nat) : Node → List Line
  | .participant p => [⟨depth, p.line⟩]
  | .create p => [⟨depth, "create " ++ p.line⟩]
  | .message m => [⟨depth, m.line⟩]
  | .reply text => [⟨depth, "return" ++ labelled " " text⟩]
  | .note n => n.lines depth
  | .ref ps text => noteLines depth ("ref over " ++ commaList ps) text "end ref"
  | .activate p color => [⟨depth, "activate " ++ p.name ++ colorSuffix color⟩]
  | .deactivate p => [⟨depth, "deactivate " ++ p.name⟩]
  | .destroy p => [⟨depth, "destroy " ++ p.name⟩]
  | .block kind sections => sectionLines depth kind.keyword sections ++ [⟨depth, "end"⟩]
  | .box title color ps =>
      ⟨depth, boxOpening title color⟩ :: ps.map (fun p => ⟨depth + 1, p.line⟩) ++
        [⟨depth, "end box"⟩]
  | .divider text => [⟨depth, "== " ++ escape .label text ++ " =="⟩]
  | .delay none => [⟨depth, "..."⟩]
  | .delay (some text) => [⟨depth, "..." ++ escape .label text ++ "..."⟩]
  | .space none => [⟨depth, "|||"⟩]
  | .space (some pixels) => [⟨depth, "||" ++ toString pixels ++ "||"⟩]
  | .autonumber n => [⟨depth, n.line⟩]

/-- The lines of the elements of a list. -/
def linesOf (depth : Nat) : List Node → List Line
  | [] => []
  | node :: rest => node.lines depth ++ linesOf depth rest

/-- The lines of sections, the first of them under the given word. -/
def sectionLines (depth : Nat) (keyword : String) :
    List (Option String × List Node) → List Line
  | [] => []
  | (label, body) :: rest =>
      ⟨depth, keyword ++ labelled " " label⟩ :: linesOf (depth + 1) body ++
        sectionLines depth "else" rest

end

end UmlText.Sequence
