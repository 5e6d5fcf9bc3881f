import UmlText.Alias
import UmlText.Style

/-!
# Sequence diagrams

A sequence diagram declares participants and lists, along one line of time, the messages
between them, notes, activations and marks on the line itself.  Blocks hold further elements
in one or more sections; boxes hold participants only.

An end of a message, the place of a note and the participants of a reference are given by
names in a call and by aliases in a tree, so the types of these are parameterized by what an
end is.

`participants` walks through a tree with a list of pending lists of its own in place of
recursion, so that it does not depend on how deep a tree is.
-/

namespace UmlText.Sequence

/-- The symbol by which a participant is drawn. -/
inductive ParticipantKind where
  | participant
  | actor
  | boundary
  | control
  | entity
  | database
  | collections
  | queue
  deriving DecidableEq, Repr

/-- The word for a kind of participant. -/
def ParticipantKind.keyword : ParticipantKind → String
  | .participant => "participant"
  | .actor => "actor"
  | .boundary => "boundary"
  | .control => "control"
  | .entity => "entity"
  | .database => "database"
  | .collections => "collections"
  | .queue => "queue"

/-- A participant of the diagram. -/
structure Participant where
  kind : ParticipantKind := .participant
  id : Alias
  /-- The name that is shown, where it is not the alias. -/
  display : Option String := none
  color : Option Color := none
  /-- The place of the participant among all of them. -/
  order : Option Int := none
  deriving DecidableEq

/-- The head of an arrow. -/
inductive ArrowHead where
  | filled
  | thin
  | lost
  | upperHalf
  | lowerHalf
  | circle
  deriving DecidableEq, Repr

/-- The arrow of a message. -/
structure Arrow where
  dotted : Bool := false
  head : ArrowHead := .filled
  /-- Whether both ends have a head. -/
  bidirectional : Bool := false
  color : Option Color := none
  deriving DecidableEq

/-- What a message does to the activity of its ends. -/
inductive Activation where
  | activateTarget
  | deactivateSource
  | createTarget
  | destroyTarget
  deriving DecidableEq, Repr

/-- The sign for an activation. -/
def Activation.sign : Activation → String
  | .activateTarget => "++"
  | .deactivateSource => "--"
  | .createTarget => "**"
  | .destroyTarget => "!!"

/-- A message; a missing end is the border of the diagram. -/
structure Message (End : Type) where
  source : Option End
  target : Option End
  text : Option String := none
  arrow : Arrow := {}
  activation : Option Activation := none
  deriving DecidableEq

/-- Where a note stands. -/
inductive NotePlace (End : Type) where
  | leftOf (participant : End)
  | rightOf (participant : End)
  | covering (participants : List End)
  | across
  deriving DecidableEq

/-- The shape in which a note is drawn. -/
inductive NoteShape where
  | plain
  | hexagon
  | rectangle
  deriving DecidableEq, Repr

/-- The word for a shape. -/
def NoteShape.keyword : NoteShape → String
  | .plain => "note"
  | .hexagon => "hnote"
  | .rectangle => "rnote"

/-- A note. -/
structure Note (End : Type) where
  place : NotePlace End
  text : String
  shape : NoteShape := .plain
  color : Option Color := none
  deriving DecidableEq

/-- What a block says about the elements inside it. -/
inductive BlockKind where
  | alt
  | opt
  | loop
  | par
  | exit
  | critical
  | group
  deriving DecidableEq, Repr

/-- The word for a kind of block. -/
def BlockKind.keyword : BlockKind → String
  | .alt => "alt"
  | .opt => "opt"
  | .loop => "loop"
  | .par => "par"
  | .exit => "break"
  | .critical => "critical"
  | .group => "group"

/-- The kinds of blocks that may have several sections. -/
def BlockKind.hasSections : BlockKind → Bool
  | .alt | .par | .critical | .group => true
  | .opt | .loop | .exit => false

/-- The numbering of messages. -/
inductive Autonumber where
  | start (first : Option Nat) (step : Option Nat) (format : Option String)
  | stop
  | resume
  deriving DecidableEq, Repr

/-- An element of a sequence diagram. -/
inductive Node where
  | participant (p : Participant)
  /-- A participant that comes into being at this moment. -/
  | create (p : Participant)
  | message (m : Message Alias)
  /-- The answer to the message that began the latest open activation. -/
  | reply (text : Option String)
  | note (n : Note Alias)
  /-- A reference to another diagram. -/
  | ref (participants : List Alias) (text : String)
  | activate (participant : Alias) (color : Option Color)
  | deactivate (participant : Alias)
  | destroy (participant : Alias)
  | block (kind : BlockKind) (sections : List (Option String × List Node))
  | box (title : Option String) (color : Option Color) (participants : List Participant)
  | divider (text : String)
  | delay (text : Option String)
  | space (pixels : Option Nat)
  | autonumber (n : Autonumber)

/-- The kind of an element, as errors name it. -/
def Node.kind : Node → String
  | .participant _ => "participant"
  | .create _ => "create"
  | .message _ => "message"
  | .reply _ => "return"
  | .note _ => "note"
  | .ref .. => "ref"
  | .activate .. => "activate"
  | .deactivate _ => "deactivate"
  | .destroy _ => "destroy"
  | .block kind _ => kind.keyword
  | .box .. => "box"
  | .divider _ => "divider"
  | .delay _ => "delay"
  | .space _ => "space"
  | .autonumber _ => "autonumber"

/-- The participants that an element declares itself, outside the sections of a block. -/
def Node.ownParticipants : Node → List Participant
  | .participant p | .create p => [p]
  | .box _ _ participants => participants
  | _ => []

/-- The lists of children of an element. -/
def Node.sections : Node → List (List Node)
  | .block _ sections => sections.map Prod.snd
  | _ => []

mutual

/-- How much of a walk an element takes: itself and all lists inside it. -/
def Node.weight : Node → Nat
  | .block _ sections => 1 + weightOfSections sections
  | _ => 1

/-- How much of a walk a list of elements takes; its end counts too. -/
def weightOf : List Node → Nat
  | [] => 1
  | node :: rest => node.weight + weightOf rest

/-- How much of a walk the sections of a block take. -/
def weightOfSections : List (Option String × List Node) → Nat
  | [] => 0
  | (_, body) :: rest => weightOf body + weightOfSections rest

end

/-- How much of a walk several lists of elements take. -/
def weightOfLists : List (List Node) → Nat
  | [] => 0
  | nodes :: rest => weightOf nodes + weightOfLists rest

theorem weightOfLists_append (first second : List (List Node)) :
    weightOfLists (first ++ second) = weightOfLists first + weightOfLists second := by
  induction first with
  | nil => simp [weightOfLists]
  | cons nodes rest ih =>
    rw [List.cons_append, weightOfLists, weightOfLists, ih]
    omega

theorem weightOfSections_eq (sections : List (Option String × List Node)) :
    weightOfSections sections = weightOfLists (sections.map Prod.snd) := by
  induction sections with
  | nil => rfl
  | cons s rest ih =>
    obtain ⟨label, body⟩ := s
    simp [weightOfSections, weightOfLists, ih]

theorem Node.weight_eq (node : Node) :
    node.weight = 1 + weightOfLists node.sections := by
  cases node <;> simp [Node.weight, Node.sections, weightOfSections_eq, weightOfLists]

/-- The participants of the pending lists, the first list first.  The lists inside an
element are walked through before the rest of its own list. -/
def participantsIn : List (List Node) → List Participant
  | [] => []
  | [] :: pending => participantsIn pending
  | (node :: rest) :: pending =>
      node.ownParticipants ++ participantsIn (node.sections ++ rest :: pending)
termination_by pending => weightOfLists pending
decreasing_by
  · simp [weightOf, weightOfLists]
  · simp [weightOf, weightOfLists, weightOfLists_append, Node.weight_eq]
    omega

/-- The participants of a tree, in the order in which they are declared. -/
def participants (nodes : List Node) : List Participant :=
  participantsIn [nodes]

end UmlText.Sequence
