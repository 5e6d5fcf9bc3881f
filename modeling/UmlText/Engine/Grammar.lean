import UmlText.Engine.Error

/-!
# Grammars

A diagram is built from its beginning to its end.  The constructs that are open at a moment
are the *scopes*; each of them collects its children until it is closed and becomes one
element of the scope around it.  A `Grammar` says what elements and scopes there are and
which of them goes into which.  The answers are given in the words of the errors: a scope
that may not be opened is met with what is expected instead.
-/

namespace UmlText

/-- The kind that stands for the root where a scope is asked for. -/
def rootKind : String :=
  "diagram"

/-- How many scopes may be open at once. -/
def maxDepth : Nat :=
  64

/-- What the engine has to know of a kind of diagram. -/
structure Grammar where
  /-- The name of the kind of diagram. -/
  name : String
  /-- A finished element, with everything inside it. -/
  Node : Type
  /-- A construct that is open, with the children it has so far. -/
  Scope : Type
  /-- What is remembered of the whole diagram. -/
  Context : Type
  /-- The kind of an element, as errors name it. -/
  nodeKind : Node → String
  /-- The kind of a scope, as errors name it. -/
  scopeKind : Scope → String
  /-- Whether a `break` inside the scope leaves it. -/
  isLoop : Scope → Bool
  /-- What is expected instead, when the scope may not be opened at the root. -/
  rootObstacle : Scope → Option String
  /-- What is expected instead, when the second scope may not be opened inside the first. -/
  obstacle : Scope → Scope → Option String
  /-- The scope with an element as its last child. -/
  push : Scope → Node → Except Misuse Scope
  /-- The scope with a closed scope as its last child. -/
  adopt : Scope → Scope → Except Misuse Scope
  /-- The element that a closed scope becomes. -/
  toNode : Scope → Except Misuse Node
  /-- What is remembered of an empty diagram. -/
  emptyContext : Context

/-- A scope with more elements as its last children. -/
def Grammar.fill (G : Grammar) (scope : G.Scope) : List G.Node → Except Misuse G.Scope
  | [] => .ok scope
  | node :: rest => do G.fill (← G.push scope node) rest

end UmlText
