import UmlText.Engine.Grammar
import UmlText.Engine.Registry
import UmlText.Journal

/-!
# The engine

An `Engine` holds the state of a build:

* the elements at the root, and the open scopes as a stack of frames;
* the registry of aliases, and what the grammar wants to remember of the whole diagram;
* the number of calls made so far, and the number of the call that failed, if one did;
* the journal.

A scope that was opened is named by a `Token`.
-/

namespace UmlText

/-- The name of an open scope: its place in the stack, the number of its opening among all
openings of its engine, and its kind. -/
structure Token where
  /-- How many scopes were open around it. -/
  depth : Nat
  /-- The number of its opening; the first one is 1. -/
  serial : Nat
  /-- The kind of the scope. -/
  kind : String
  deriving DecidableEq, Repr

/-- An open scope, with the number of its opening and the call that opened it. -/
structure Frame (G : Grammar) where
  scope : G.Scope
  serial : Nat
  openedAt : Nat

/-- The state of a build. -/
structure Engine (G : Grammar) where
  /-- The elements outside every scope, in order. -/
  root : List G.Node := []
  /-- The open scopes, the innermost one first. -/
  stack : List (Frame G) := []
  /-- The declared aliases. -/
  registry : Registry := {}
  /-- What is remembered of the whole diagram. -/
  context : G.Context := G.emptyContext
  /-- How many calls were made. -/
  calls : Nat := 0
  /-- How many scopes were opened. -/
  openings : Nat := 0
  /-- The call that made the build fail. -/
  failedAt : Option Nat := none
  /-- What happened so far, the latest event first. -/
  journal : List Event := []

namespace Engine

variable {G : Grammar}

/-- How many scopes are open. -/
def depth (e : Engine G) : Nat :=
  e.stack.length

/-- The kind of the innermost scope. -/
def innermostKind (e : Engine G) : String :=
  match e.stack with
  | [] => rootKind
  | frame :: _ => G.scopeKind frame.scope

/-- The first scope with a property, from the innermost one outward. -/
def enclosing? (e : Engine G) (wanted : G.Scope → Bool) : Option G.Scope :=
  (e.stack.map Frame.scope).find? wanted

/-- The engine with one more event in its journal. -/
def record (e : Engine G) (event : Event) : Engine G :=
  { e with journal := event :: e.journal }

end Engine

end UmlText
