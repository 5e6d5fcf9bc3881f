import UmlText.AttachedNote

/-!
# State charts

A state chart declares states and the transitions between them, and attaches notes to
states.  A composite state holds further elements in one or more regions, which run side by
side.

An end of a transition is a state or one of three marks; a state is given by its name in a
call and by its alias in a tree, so the type of an end is parameterized by what names a
state.
-/

namespace UmlText.StateChart

/-- What a state is there for; all but plain ones are drawn as a symbol. -/
inductive StateKind where
  | plain
  | choice
  | fork
  | join
  | finish
  | history
  | deepHistory
  | entryPoint
  | exitPoint
  | inputPin
  | outputPin
  deriving DecidableEq, Repr

/-- The stereotype that asks for the symbol of a kind. -/
def StateKind.stereotype : StateKind → Option String
  | .plain => none
  | .choice => some "choice"
  | .fork => some "fork"
  | .join => some "join"
  | .finish => some "end"
  | .history => some "history"
  | .deepHistory => some "history*"
  | .entryPoint => some "entryPoint"
  | .exitPoint => some "exitPoint"
  | .inputPin => some "inputPin"
  | .outputPin => some "outputPin"

/-- A state. -/
structure State where
  id : Alias
  /-- The name that is shown, where it is not the alias. -/
  display : Option String := none
  kind : StateKind := .plain
  /-- The lines that are shown inside the state. -/
  description : List String := []
  color : Option Color := none
  deriving DecidableEq

/-- How two regions of a composite state are kept apart. -/
inductive Separator where
  | horizontal
  | vertical
  deriving DecidableEq, Repr

/-- The sign for a separator. -/
def Separator.sign : Separator → String
  | .horizontal => "--"
  | .vertical => "||"

/-- An end of a transition. -/
inductive Endpoint (Name : Type) where
  /-- The start of the chart, or its end. -/
  | terminal
  | history
  | deepHistory
  | state (name : Name)
  deriving DecidableEq

/-- A transition from one end to the other. -/
structure Transition (Name : Type) where
  source : Endpoint Name
  target : Endpoint Name
  label : Option String := none
  direction : Option Direction := none
  style : LinkStyle := {}
  deriving DecidableEq

/-- An element of a state chart. -/
inductive Node where
  | state (s : State)
  | composite (s : State) (separator : Separator) (regions : List (List Node))
  | transition (t : Transition Alias)
  | note (n : AttachedNote Alias)

/-- The kind of an element, as errors name it. -/
def Node.kind : Node → String
  | .state _ => "state"
  | .composite .. => "composite state"
  | .transition _ => "transition"
  | .note _ => "note"

/-- Reads an end of a transition: the three marks have a spelling of their own, and every
other text names a state. -/
def Endpoint.ofName (text : String) : Endpoint String :=
  if text = "[*]" then .terminal
  else if text = "[H]" then .history
  else if text = "[H*]" then .deepHistory
  else .state text

end UmlText.StateChart
