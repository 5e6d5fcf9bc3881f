import UmlText.Engine.Grammar
import UmlText.StateChart.Basic

/-!
# Open composite states

A composite state that is open has at least one region, and new elements go to the end of
its last one.  Another region is started only when the last one has something in it, and all
regions are kept apart by the same separator.
-/

namespace UmlText.StateChart

/-- A composite state that is open; its last region is held apart from the finished ones. -/
structure Scope where
  state : State
  /-- The separator of the regions, once there is more than one. -/
  separator : Option Separator := none
  finished : List (List Node) := []
  body : List Node := []

namespace Scope

/-- The kind of a scope, as errors name it. -/
def kind (_ : Scope) : String :=
  "state"

/-- The scope with an element as its last child. -/
def add (scope : Scope) (node : Node) : Scope :=
  { scope with body := scope.body ++ [node] }

/-- The scope with another region. -/
def startRegion (scope : Scope) (separator : Separator) : Except Fault Scope :=
  if scope.body.isEmpty then
    .error (.misuse
      (.misplaced "region" scope.kind "content in the current region first"))
  else if scope.separator.any fun given => given ≠ separator then
    .error (.invalid (.ineffective "region separator" "composite state"
      "all regions of one state share the first separator"))
  else
    .ok { scope with
      separator := some separator
      finished := scope.finished ++ [scope.body]
      body := [] }

/-- The element that a closed scope becomes. -/
def toNode (scope : Scope) : Node :=
  .composite scope.state (scope.separator.getD .horizontal) (scope.finished ++ [scope.body])

end Scope

/-- The grammar of state charts. -/
abbrev grammar : Grammar where
  name := "state"
  Node := Node
  Scope := Scope
  Context := Unit
  nodeKind := Node.kind
  scopeKind := Scope.kind
  isLoop := fun _ => false
  rootObstacle := fun _ => none
  obstacle := fun _ _ => none
  push := fun scope node => .ok (scope.add node)
  adopt := fun outer inner => .ok (outer.add inner.toNode)
  toNode := fun scope => .ok scope.toNode
  emptyContext := ()

end UmlText.StateChart
