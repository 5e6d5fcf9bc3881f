import UmlText.Engine.Grammar
import UmlText.Sequence.Basic
import UmlText.Text.Check

/-!
# Open constructs of sequence diagrams

A block that is open has at least one section, and new elements go to the end of its last
one.  A box takes participants only, and a block takes no box.
-/

namespace UmlText.Sequence

/-- A call that opens a construct, with what is written on the construct's own lines. -/
inductive Opening where
  | block (kind : BlockKind) (label : Option String)
  | box (title : Option String) (color : Option Color)
  deriving DecidableEq

/-- A construct that is open; the last section of a block is held apart from the finished
ones. -/
inductive Scope where
  | block
      (kind : BlockKind)
      (finished : List (Option String × List Node))
      (label : Option String)
      (body : List Node)
  | box (title : Option String) (color : Option Color) (participants : List Participant)

/-- The scope a call opens, if its texts are accepted. -/
def Opening.scope : Opening → Except InvalidValue Scope
  | .block kind label => do
      let label ← optionally (singleLine "group label") label
      return .block kind [] label []
  | .box title color => do
      let title ← optionally (singleLine "box title") title
      return .box title color []

namespace Scope

/-- The kind of a scope, as errors name it. -/
def kind : Scope → String
  | .block kind .. => kind.keyword
  | .box .. => "box"

/-- What a box expects inside it. -/
def boxContent : String :=
  "participants only"

/-- What is expected instead of the second scope inside the first. -/
def obstacle : Scope → Scope → Option String
  | .box .., _ => some boxContent
  | .block .., .box .. => some "messages, notes and nested groups"
  | .block .., .block .. => none

/-- The scope with an element as its last child. -/
def push : Scope → Node → Except Misuse Scope
  | .block kind finished label body, node => .ok (.block kind finished label (body ++ [node]))
  | .box title color participants, .participant p => .ok (.box title color (participants ++ [p]))
  | .box .., node => .error (.misplaced node.kind "box" boxContent)

/-- The element that a closed scope becomes. -/
def toNode : Scope → Node
  | .block kind finished label body => .block kind (finished ++ [(label, body)])
  | .box title color participants => .box title color participants

/-- Starts another section of a block; `none` where the scope has one section only, or is a
box. -/
def startSection (label : Option String) : Scope → Option (Except Fault Scope)
  | .block kind finished last body =>
      if kind.hasSections then some (.ok (.block kind (finished ++ [(last, body)]) label []))
      else none
  | .box .. => none

end Scope

/-- The participants with an open activation, the latest one last; each activation counts. -/
abbrev Activations := List Alias

/-- The grammar of sequence diagrams. -/
abbrev grammar : Grammar where
  name := "sequence"
  Node := Node
  Scope := Scope
  Context := Activations
  nodeKind := Node.kind
  scopeKind := Scope.kind
  isLoop := fun _ => false
  rootObstacle := fun _ => none
  obstacle := Scope.obstacle
  push := Scope.push
  adopt := fun outer inner => outer.push inner.toNode
  toNode := fun scope => .ok scope.toNode
  emptyContext := []

end UmlText.Sequence
