import UmlText.Alias
import UmlText.Style

/-!
# Activity diagrams

An activity diagram is a list of elements that follow each other: actions and the arrows
between them, points where the flow starts or ends, jumps, swimlanes, notes; and the
constructs that hold lists of elements of their own, decisions, switches, loops, parallel
branches, partitions, groups.

The type of a decision leaves no room for a second `else`, or for a branch behind it: what
follows the first branch is a chain of conditional branches that an `else` can only end.
-/

namespace UmlText.Activity

/-- A place where the flow starts, ends or is cut off. -/
inductive Point where
  | start
  | stop
  | finish
  | kill
  | detach
  | leaveLoop
  deriving DecidableEq, Repr

/-- The word for a point. -/
def Point.keyword : Point → String
  | .start => "start"
  | .stop => "stop"
  | .finish => "end"
  | .kill => "kill"
  | .detach => "detach"
  | .leaveLoop => "break"

/-- The shape in which an action is drawn. -/
inductive Shape where
  | plain
  | task
  | receive
  | send
  | slant
  | document
  | brace
  deriving DecidableEq, Repr

/-- The character that ends an action and gives its shape. -/
def Shape.terminator : Shape → Char
  | .plain => ';'
  | .task => '|'
  | .receive => '<'
  | .send => '>'
  | .slant => '/'
  | .document => ']'
  | .brace => '\x7d'

/-- An action. -/
structure ActionBox where
  text : String
  color : Option Color := none
  shape : Shape := .plain
  deriving DecidableEq

/-- The condition of a branch, and the label of the edge that leads into it. -/
structure Guard where
  condition : String
  label : Option String := none
  deriving DecidableEq

/-- The first and the last line of a loop that tests its condition at the start. -/
structure WhileHead where
  condition : String
  /-- The label of the edge into the body. -/
  isLabel : Option String := none
  /-- The label of the edge out of the loop. -/
  exitLabel : Option String := none
  deriving DecidableEq

/-- The first and the last line of a loop that tests its condition at the end. -/
structure RepeatHead where
  condition : String
  /-- An action at the very start of the loop. -/
  start : Option String := none
  /-- The label of the edge back to the start. -/
  isLabel : Option String := none
  /-- The label of the edge out of the loop. -/
  notLabel : Option String := none
  deriving DecidableEq

/-- How the branches of a fork come together. -/
inductive ForkEnd where
  /-- They wait for each other. -/
  | fork
  /-- They do not wait. -/
  | merge
  /-- They wait, and the bar has a label. -/
  | join (label : String)
  deriving DecidableEq, Repr

/-- Whether parallel branches come together again. -/
inductive ParallelKind where
  | fork (ending : ForkEnd)
  | split
  deriving DecidableEq, Repr

/-- A switch to a lane; its color and its label are those of the lane. -/
structure Swimlane where
  name : String
  color : Option Color := none
  label : Option String := none
  deriving DecidableEq

/-- The side of the flow on which a note stands. -/
inductive NoteSide where
  | left
  | right
  deriving DecidableEq, Repr

/-- The word for a side. -/
def NoteSide.keyword : NoteSide → String
  | .left => "left"
  | .right => "right"

/-- A note. -/
structure Note where
  side : NoteSide
  text : String
  /-- Whether the note stands alone instead of at the element before it. -/
  floating : Bool := false
  color : Option Color := none
  deriving DecidableEq

/-- The label and the style of the arrow to the next element. -/
structure Arrow where
  label : Option String := none
  style : LinkStyle := {}
  deriving DecidableEq

mutual

/-- An element of an activity diagram. -/
inductive Node where
  | point (p : Point)
  | action (a : ActionBox)
  | decision (guard : Guard) (body : List Node) (rest : Alternatives)
  | switch (test : String) (cases : List (String × List Node))
  | whileLoop (head : WhileHead) (body : List Node)
  | repeatLoop (head : RepeatHead) (body : List Node) (backward : Option String)
  | parallel (kind : ParallelKind) (branches : List (List Node))
  | partition (name : String) (color : Option Color) (body : List Node)
  | group (name : String) (body : List Node)
  | swimlane (lane : Swimlane)
  | connector (name : String)
  | label (target : Alias)
  | goto (target : Alias)
  | note (n : Note)
  | arrow (a : Arrow)

/-- What follows the first branch of a decision. -/
inductive Alternatives where
  /-- Nothing: the decision ends. -/
  | nothing
  /-- Another conditional branch, and what follows it. -/
  | elseif (guard : Guard) (body : List Node) (rest : Alternatives)
  /-- The last branch, which has no condition. -/
  | otherwise (label : Option String) (body : List Node)

end

/-- The kind of an element, as errors name it. -/
def Node.kind : Node → String
  | .point p => p.keyword
  | .action _ => "action"
  | .decision .. => "if"
  | .switch .. => "switch"
  | .whileLoop .. => "while"
  | .repeatLoop .. => "repeat"
  | .parallel (.fork _) _ => "fork"
  | .parallel .split _ => "split"
  | .partition .. => "partition"
  | .group .. => "group"
  | .swimlane _ => "swimlane"
  | .connector _ => "connector"
  | .label _ => "label"
  | .goto _ => "goto"
  | .note _ => "note"
  | .arrow _ => "arrow"

/-- How many branches there are behind the first one. -/
def Alternatives.count : Alternatives → Nat
  | .nothing => 0
  | .elseif _ _ rest => rest.count + 1
  | .otherwise .. => 1

/-- How many branches a decision has, the first and the last one included. -/
def Node.branchCount? : Node → Option Nat
  | .decision _ _ rest => some (rest.count + 1)
  | _ => none

end UmlText.Activity
