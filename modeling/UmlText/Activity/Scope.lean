import UmlText.Activity.Basic
import UmlText.Engine.Grammar
import UmlText.Text.Check

/-!
# Open constructs of activity diagrams

A construct that is open has the children it was given so far.  Where a construct has
several lists of children, a new child goes to the end of the last one; a decision starts
with one branch and a loop with one body, but a switch has no case at first, and parallel
branches are scopes of their own, so that an element can go neither into an empty switch nor
between two branches.

The action on the edge back to the start of a loop is the last thing inside the loop:
nothing is accepted after it.

A scope also has *clauses*, which add no element but change where the next one goes, or what
is written on the lines of the construct: a further branch of a decision, a case of a
switch, the edge back to the start of a loop, the way a fork ends.  A clause answers `none`
for the scopes that have no such clause.
-/

namespace UmlText.Activity

/-- A call that opens a construct, with what is written on the construct's own lines. -/
inductive Opening where
  | decision (guard : Guard)
  | switch (test : String)
  | whileLoop (head : WhileHead)
  | repeatLoop (head : RepeatHead)
  | fork
  | split
  | branch
  | partition (name : String) (color : Option Color)
  | group (name : String)
  deriving DecidableEq

/-- A construct that is open. -/
inductive Scope where
  | decision (guard : Guard) (body : List Node) (rest : Alternatives)
  | switch (test : String) (cases : List (String × List Node))
  | whileLoop (head : WhileHead) (body : List Node)
  | repeatLoop (head : RepeatHead) (body : List Node) (backward : Option String)
  | fork (ending : Option ForkEnd) (branches : List (List Node))
  | split (branches : List (List Node))
  | branch (body : List Node)
  | partition (name : String) (color : Option Color) (body : List Node)
  | group (name : String) (body : List Node)

/-- Checks a condition and the label of the edge that leads into its branch. -/
def Guard.check (guard : Guard) : Except InvalidValue Guard := do
  let condition ← freeText "condition" guard.condition
  let label ← optionally (freeText "branch label") guard.label
  return { condition, label }

/-- The scope a call opens, if its texts are accepted. -/
def Opening.scope : Opening → Except InvalidValue Scope
  | .decision guard => do
      let guard ← guard.check
      return .decision guard [] .nothing
  | .switch test => do
      let test ← freeText "switch test" test
      return .switch test []
  | .whileLoop head => do
      let condition ← freeText "condition" head.condition
      let isLabel ← optionally (freeText "loop label") head.isLabel
      let exitLabel ← optionally (freeText "loop label") head.exitLabel
      return .whileLoop { condition, isLabel, exitLabel } []
  | .repeatLoop head => do
      let condition ← freeText "condition" head.condition
      let start ← optionally (freeText "repeat start action") head.start
      let isLabel ← optionally (freeText "loop label") head.isLabel
      let notLabel ← optionally (freeText "loop label") head.notLabel
      return .repeatLoop { condition, start, isLabel, notLabel } [] none
  | .fork => return .fork none []
  | .split => return .split []
  | .branch => return .branch []
  | .partition name color => do
      let name ← singleLine "partition name" name
      return .partition name color []
  | .group name => do
      let name ← singleLine "group name" name
      return .group name []

namespace Scope

/-- The kind of a scope, as errors name it. -/
def kind : Scope → String
  | .decision .. => "if"
  | .switch .. => "switch"
  | .whileLoop .. => "while"
  | .repeatLoop .. => "repeat"
  | .fork .. => "fork"
  | .split _ => "split"
  | .branch _ => "branch"
  | .partition .. => "partition"
  | .group .. => "group"

/-- The scopes that a `break` leaves. -/
def isLoop : Scope → Bool
  | .whileLoop .. | .repeatLoop .. => true
  | _ => false

/-- The scopes that hold parallel branches, and nothing else. -/
def isParallel : Scope → Bool
  | .fork .. | .split _ => true
  | _ => false

/-- The scopes that are one of several parallel branches. -/
def isBranch : Scope → Bool
  | .branch _ => true
  | _ => false

/-- What a branch expects around it. -/
def branchPlace : String :=
  "a 'fork' or 'split' around each 'branch'"

/-- What is expected instead of an element, when the scope does not take one now. -/
def expectation : Scope → Option String
  | .switch _ [] => some "a 'case' first"
  | .repeatLoop _ _ (some _) => some "nothing after 'backward'"
  | .fork .. | .split _ => some "a 'branch'"
  | _ => none

/-- What is expected instead of the scope at the root. -/
def rootObstacle (scope : Scope) : Option String :=
  if scope.isBranch then some branchPlace else none

/-- What is expected instead of the second scope inside the first. -/
def obstacle (outer inner : Scope) : Option String :=
  if inner.isBranch then (if outer.isParallel then none else some branchPlace)
  else outer.expectation

end Scope

/-- The branches behind the first one of a decision, with an element at the end of the last
one; `none` when there is none of them. -/
def Alternatives.push (node : Node) : Alternatives → Option Alternatives
  | .nothing => none
  | .elseif guard body rest =>
      match rest.push node with
      | none => some (.elseif guard (body ++ [node]) rest)
      | some rest => some (.elseif guard body rest)
  | .otherwise label body => some (.otherwise label (body ++ [node]))

/-- Whether the last branch of a decision has no condition. -/
def Alternatives.isClosed : Alternatives → Bool
  | .nothing => false
  | .elseif _ _ rest => rest.isClosed
  | .otherwise .. => true

/-- The branches of a decision followed by more of them; nothing follows the last branch. -/
def Alternatives.extend : Alternatives → Alternatives → Alternatives
  | .nothing, more => more
  | .elseif guard body rest, more => .elseif guard body (rest.extend more)
  | .otherwise label body, _ => .otherwise label body

/-- The cases of a switch, with an element at the end of the last one. -/
def pushCase (node : Node) : List (String × List Node) → List (String × List Node)
  | [] => []
  | [(label, body)] => [(label, body ++ [node])]
  | case :: rest => case :: pushCase node rest

namespace Scope

/-- The scope with an element as its last child, if it takes one. -/
def add (scope : Scope) (node : Node) : Scope :=
  match scope with
  | .decision guard body rest =>
      match rest.push node with
      | none => .decision guard (body ++ [node]) rest
      | some rest => .decision guard body rest
  | .switch test cases => .switch test (pushCase node cases)
  | .whileLoop head body => .whileLoop head (body ++ [node])
  | .repeatLoop head body backward => .repeatLoop head (body ++ [node]) backward
  | .branch body => .branch (body ++ [node])
  | .partition name color body => .partition name color (body ++ [node])
  | .group name body => .group name (body ++ [node])
  | .fork ending branches => .fork ending branches
  | .split branches => .split branches

/-- The scope with an element as its last child. -/
def push (scope : Scope) (node : Node) : Except Misuse Scope :=
  match scope.expectation with
  | some expected => .error (.misplaced node.kind scope.kind expected)
  | none => .ok (scope.add node)

/-- The element that a closed scope becomes; a branch is no element of its own. -/
def toNode : Scope → Except Misuse Node
  | .decision guard body rest => .ok (.decision guard body rest)
  | .switch test cases => .ok (.switch test cases)
  | .whileLoop head body => .ok (.whileLoop head body)
  | .repeatLoop head body backward => .ok (.repeatLoop head body backward)
  | .fork ending branches => .ok (.parallel (.fork (ending.getD .fork)) branches)
  | .split branches => .ok (.parallel .split branches)
  | .branch _ => .error (.misplaced "branch" rootKind branchPlace)
  | .partition name color body => .ok (.partition name color body)
  | .group name body => .ok (.group name body)

/-- The outer scope with a closed scope as its last child. -/
def adopt (outer inner : Scope) : Except Misuse Scope :=
  match outer, inner with
  | .fork ending branches, .branch body => .ok (.fork ending (branches ++ [body]))
  | .split branches, .branch body => .ok (.split (branches ++ [body]))
  | outer, inner =>
      match outer.obstacle inner with
      | some expected => .error (.misplaced inner.kind outer.kind expected)
      | none => do outer.push (← inner.toNode)

/-- Starts another conditional branch of a decision. -/
def addElseif (guard : Guard) : Scope → Option (Except Fault Scope)
  | .decision first body rest =>
      if rest.isClosed then some (.error (.misuse .branchAfterElse))
      else some (.ok (.decision first body (rest.extend (.elseif guard [] .nothing))))
  | _ => none

/-- Starts the last branch of a decision. -/
def addOtherwise (label : Option String) : Scope → Option (Except Fault Scope)
  | .decision first body rest =>
      if rest.isClosed then some (.error (.misuse .secondElse))
      else some (.ok (.decision first body (rest.extend (.otherwise label []))))
  | _ => none

/-- Starts a case of a switch. -/
def addCase (label : String) : Scope → Option (Except Fault Scope)
  | .switch test cases => some (.ok (.switch test (cases ++ [(label, [])])))
  | _ => none

/-- Gives a loop the action on its edge back to the start. -/
def setBackward (text : String) : Scope → Option (Except Fault Scope)
  | .repeatLoop head body given =>
      if given.isSome then some (.error (.misuse (.repeatedClause "backward" "repeat")))
      else some (.ok (.repeatLoop head body (some text)))
  | _ => none

/-- Says how a fork ends; a split ends in one way only. -/
def setEnding (ending : ForkEnd) : Scope → Option (Except Fault Scope)
  | .fork given branches =>
      if given.isSome then some (.error (.misuse (.repeatedClause "end style" "fork")))
      else some (.ok (.fork (some ending) branches))
  | .split _ =>
      some (.error (.invalid
        (.ineffective "end style" "split" "a split always closes with 'end split'")))
  | _ => none

end Scope

/-- The names of the lanes of a diagram, in the order of their first use. -/
abbrev Lanes := List String

/-- The grammar of activity diagrams. -/
abbrev grammar : Grammar where
  name := "activity"
  Node := Node
  Scope := Scope
  Context := Lanes
  nodeKind := Node.kind
  scopeKind := Scope.kind
  isLoop := Scope.isLoop
  rootObstacle := Scope.rootObstacle
  obstacle := Scope.obstacle
  push := Scope.push
  adopt := Scope.adopt
  toNode := Scope.toNode
  emptyContext := []

end UmlText.Activity
