import UmlText.Dialect
import UmlText.Engine.Naming
import UmlText.StateChart.Lines
import UmlText.StateChart.Scope

/-!
# Calls of state charts

A state is declared by the call that places it; a composite state already when it is opened,
so that its own elements can refer to it.  Transitions and notes refer to states declared
before.
-/

namespace UmlText.StateChart

/-- A state as a call describes it. -/
structure StateCall where
  name : String
  givenAlias : Option String := none
  kind : StateKind := .plain
  description : List String := []
  color : Option Color := none
  deriving DecidableEq

/-- A call that opens no scope. -/
inductive Call where
  | state (s : StateCall)
  | transition (t : Transition String)
  | note (n : AttachedNote String)
  /-- Starts another region of a composite state. -/
  | region (separator : Separator)
  deriving DecidableEq

open UmlText.Action

/-- Checks the lines of a description. -/
def checkDescription : List String → Except InvalidValue (List String)
  | [] => .ok []
  | text :: rest => do
      let text ← singleLine "state description" text
      let rest ← checkDescription rest
      return text :: rest

/-- Declares a state. -/
def StateCall.declare (s : StateCall) : Action grammar State := do
  let name ← valid (singleLine "state name" s.name)
  let description ← valid (checkDescription s.description)
  let (a, display) ← chooseAlias name s.givenAlias "s"
  Action.declare a stateKind
  return { id := a, display, kind := s.kind, description, color := s.color }

/-- Declares a composite state and opens it. -/
def StateCall.openComposite (s : StateCall) : Action grammar (Scope × Option Alias) := do
  if s.kind ≠ .plain then
    throw (.invalid (.ineffective "pseudo-state kind" "composite state"
      "only plain states can hold nested states"))
  let state ← s.declare
  return ({ state }, some state.id)

/-- An end of a transition. -/
def resolveEndpoint : Endpoint String → Action grammar (Endpoint Alias)
  | .terminal => return .terminal
  | .history => return .history
  | .deepHistory => return .deepHistory
  | .state name => return .state (← resolve name stateKind)

/-- What a call does, and the alias it answers with. -/
def Call.perform : Call → Action grammar (Option Alias)
  | .state s => do
      let s ← s.declare
      append (.state s)
      return some s.id
  | .transition t => do
      let source ← resolveEndpoint t.source
      let target ← resolveEndpoint t.target
      let label ← valid (optionally (freeText "transition label") t.label)
      append (.transition { source, target, label, direction := t.direction, style := t.style })
      return none
  | .note n => do
      let target ← resolve n.target stateKind
      let text ← valid (freeText "note text" n.text)
      append (.note { n with target, text })
      return none
  | .region separator => do
      mark "region" "a composite state" fun scope => some (scope.startRegion separator)
      return none

/-- State charts. -/
abbrev dialect : Dialect where
  toGrammar := grammar
  Call := Call
  Opening := StateCall
  perform := Call.perform
  scopeOf := StateCall.openComposite
  check := check
  lines := linesOf 0

end UmlText.StateChart
