import UmlText.Activity.Lines
import UmlText.Activity.Scope
import UmlText.Dialect

/-!
# Calls of activity diagrams

The calls that add an element to the innermost scope, and the clauses of a scope: a further
branch of a decision, a case of a switch, the edge back to the start of a loop, the way in
which a fork ends.  Every call checks its texts first and then whether it has a place in the
diagram.

A jump label is declared by the call that places it, and only jumps to labels placed before
are accepted; a lane is known once it was used, and has its color and label from its first
use.
-/

namespace UmlText.Activity

/-- A call that opens no scope. -/
inductive Call where
  | point (p : Point)
  | action (a : ActionBox)
  | arrow (a : Arrow)
  | note (n : Note)
  | connector (name : String)
  | label (name : String)
  | goto (name : String)
  | swimlane (lane : Swimlane)
  /-- Starts another conditional branch of a decision. -/
  | elseif (guard : Guard)
  /-- Starts the last branch of a decision. -/
  | otherwise (label : Option String)
  /-- Starts a case of a switch. -/
  | case (label : String)
  /-- Gives the action on the edge back to the start of a loop. -/
  | backward (text : String)
  /-- Lets the branches of a fork come together without waiting. -/
  | endMerge
  /-- Gives the bar at the end of a fork a label. -/
  | endJoin (label : String)
  deriving DecidableEq

/-- The kind under which jump labels are declared. -/
def labelKind : String :=
  "label"

open UmlText.Action

/-- Places a point; a loop is left only where there is one. -/
def placePoint (p : Point) : Action grammar Unit := do
  let e ← get
  if p = .leaveLoop ∧ (e.enclosing? Scope.isLoop).isNone then
    refuse (.breakOutsideLoop e.innermostKind)
  append (.point p)

/-- Switches to a lane. -/
def placeSwimlane (lane : Swimlane) : Action grammar Unit := do
  let name ← valid (singleLine "swimlane name" lane.name)
  let label ← valid (optionally (freeText "swimlane label") lane.label)
  let tooLate (option : String) : InvalidValue :=
    .ineffective option "swimlane" "lane options only apply where the lane is first used"
  if name ∈ (← get).context then
    if lane.color.isSome then throw (.invalid (tooLate "color"))
    if label.isSome then throw (.invalid (tooLate "label"))
    append (.swimlane { name })
  else
    append (.swimlane { name, color := lane.color, label })
    remember fun (lanes : Lanes) => lanes ++ [name]

/-- Says how the innermost fork ends. -/
def setEnding (ending : ForkEnd) : Action grammar Unit :=
  mark "end style" "a 'fork'" (Scope.setEnding ending)

/-- What a call does, and the alias it answers with. -/
def Call.perform : Call → Action grammar (Option Alias)
  | .point p => do
      placePoint p
      return none
  | .action a => do
      let text ← valid (freeText "action text" a.text)
      append (.action { a with text })
      return none
  | .arrow a => do
      let label ← valid (optionally (freeText "arrow label") a.label)
      append (.arrow { a with label })
      return none
  | .note n => do
      let text ← valid (freeText "note text" n.text)
      append (.note { n with text })
      return none
  | .connector name => do
      let name ← valid (singleLine "connector name" name)
      append (.connector name)
      return none
  | .label name => do
      let target ← valid (Alias.parse name)
      declare target labelKind
      append (.label target)
      return some target
  | .goto name => do
      let target ← resolve name labelKind
      append (.goto target)
      return none
  | .swimlane lane => do
      placeSwimlane lane
      return none
  | .elseif guard => do
      let guard ← valid guard.check
      mark "elseif" "an 'if'" (Scope.addElseif guard)
      return none
  | .otherwise text => do
      let text ← valid (optionally (freeText "branch label") text)
      mark "else" "an 'if'" (Scope.addOtherwise text)
      return none
  | .case text => do
      let text ← valid (freeText "case label" text)
      mark "case" "a 'switch'" (Scope.addCase text)
      return none
  | .backward text => do
      let text ← valid (freeText "backward action" text)
      mark "backward" "a 'repeat'" (Scope.setBackward text)
      return none
  | .endMerge => do
      setEnding .merge
      return none
  | .endJoin text => do
      let text ← valid (singleLine "join label" text)
      setEnding (.join text)
      return none

/-- Activity diagrams. -/
abbrev dialect : Dialect where
  toGrammar := grammar
  Call := Call
  Opening := Opening
  perform := Call.perform
  scopeOf opening := do
    let scope ← Action.valid opening.scope
    return (scope, none)
  check := check
  lines := linesOf 0

end UmlText.Activity
