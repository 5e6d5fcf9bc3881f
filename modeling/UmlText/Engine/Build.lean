import UmlText.Engine.Action

/-!
# Builds

A `Build` is what a caller sees: calls, one after another.  Every call has a number.  The
first failure is permanent: afterwards every call fails as abandoned, changes nothing and is
not counted.

A scope whose body has failed is not closed but discarded, with everything that was opened
inside it; that too makes the build fail, even where no call did.
-/

namespace UmlText

/-- What a caller sees of calls. -/
abbrev Build (G : Grammar) := Attempt (Engine G) BuildError

namespace Engine

variable {G : Grammar}

/-- One call.  It is counted, and its failure is the failure of the build; after a failed
build it is not even counted. -/
def step {α : Type} (action : Action G α) : Build G α := fun e =>
  match e.failedAt with
  | some call => (.error (.abandoned call), e)
  | none =>
      match action.run { e with calls := e.calls + 1 } with
      | (.ok value, after) => (.ok value, after)
      | (.error fault, after) =>
          let call := e.calls + 1
          let error := fault.atCall call
          (.error error, { after.record (.failed call G.name error) with failedAt := some call })

/-- The call that makes a scope and opens it. -/
def enter {α : Type} (make : Action G (G.Scope × α)) : Build G (Token × α) :=
  step do
    let (scope, value) ← make
    let token ← Action.openScope scope
    return (token, value)

/-- The call that closes the scope of a token. -/
def close (token : Token) : Build G Unit :=
  step (Action.closeScope token)

/-- Drops the scope of a token with everything inside it.  This too makes the build fail, at
the last call made. -/
def discard (token : Token) (e : Engine G) : Engine G :=
  { e.record (.discarded token.kind token.depth) with
    stack := e.stack.drop (e.stack.length - token.depth)
    failedAt := some (e.failedAt.getD e.calls) }

/-- The elements at the root, once no scope is open any more. -/
def finish : Build G (List G.Node) := fun e =>
  match e.failedAt, e.stack with
  | some call, _ => (.error (.abandoned call), e)
  | none, frame :: _ =>
      (.error (.unclosed (G.scopeKind frame.scope) frame.openedAt e.depth), e)
  | none, [] => (.ok e.root, e.record (.finished G.name e.root.length e.calls))

end Engine

end UmlText
