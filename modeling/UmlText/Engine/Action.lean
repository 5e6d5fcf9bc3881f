import UmlText.Attempt
import UmlText.Engine.Basic

/-!
# Actions

An `Action` is what happens inside one call: checks, questions to the registry, and at most
one change of the tree, which comes last.  An action may fail with a `Fault`.  What it
changed before stays changed, which can show in the registry and in the context, but not in
the tree.

A scope is closed by its token, and only the token of the innermost scope will do.
-/

namespace UmlText

/-- What happens inside one call. -/
abbrev Action (G : Grammar) := Attempt (Engine G) Fault

namespace Action

variable {G : Grammar}

/-- Fails with a misuse. -/
def refuse {α : Type} (what : Misuse) : Action G α :=
  throw (.misuse what)

/-- The value of a check, or its failure. -/
def valid {α : Type} (check : Except InvalidValue α) : Action G α :=
  match check with
  | .ok value => pure value
  | .error what => throw (.invalid what)

/-- The value of a change of the diagram, or its refusal. -/
def allowed {α : Type} (change : Except Misuse α) : Action G α :=
  match change with
  | .ok value => pure value
  | .error what => throw (.misuse what)

/-- Fails because something has no place in the innermost scope. -/
def misplaced {α : Type} (what expected : String) : Action G α := do
  refuse (.misplaced what (← get).innermostKind expected)

/-- Hands an element to the innermost scope, or to the root. -/
def append (node : G.Node) : Action G Unit := do
  let e ← get
  set (e.record (.appended e.calls (G.nodeKind node) e.innermostKind))
  match e.stack with
  | [] => modify fun e => { e with root := e.root ++ [node] }
  | frame :: outer =>
      let scope ← allowed (G.push frame.scope node)
      modify fun e => { e with stack := { frame with scope } :: outer }

/-- What is expected instead, when a scope may not be opened now. -/
def obstacle? (e : Engine G) (scope : G.Scope) : Option String :=
  match e.stack with
  | [] => G.rootObstacle scope
  | frame :: _ => G.obstacle frame.scope scope

/-- Opens a scope inside the innermost one. -/
def openScope (scope : G.Scope) : Action G Token := do
  let e ← get
  match obstacle? e scope with
  | some expected => misplaced (G.scopeKind scope) expected
  | none =>
      if maxDepth ≤ e.depth then refuse (.tooDeep (e.depth + 1) maxDepth)
      else
        let token : Token := ⟨e.depth, e.openings + 1, G.scopeKind scope⟩
        set { e.record (.opened e.calls token.kind token.depth) with
          openings := token.serial
          stack := ⟨scope, token.serial, e.calls⟩ :: e.stack }
        return token

/-- Closes the scope of a token, which has to be the innermost one. -/
def closeScope (token : Token) : Action G Unit := do
  let e ← get
  match e.stack with
  | [] => refuse (.closeWithoutOpen token.kind)
  | frame :: outer =>
      if frame.serial ≠ token.serial then
        refuse (.closeOutOfOrder token.kind (G.scopeKind frame.scope))
      else
        set { e.record (.closed e.calls token.kind token.depth) with stack := outer }
        match outer with
        | [] =>
            let node ← allowed (G.toNode frame.scope)
            modify fun e => { e with root := e.root ++ [node] }
        | parent :: rest =>
            let scope ← allowed (G.adopt parent.scope frame.scope)
            modify fun e => { e with stack := { parent with scope } :: rest }

/-- Changes the innermost scope by a clause of its own; `clause` answers `none` for the
scopes that have no such clause. -/
def mark
    (what expected : String)
    (clause : G.Scope → Option (Except Fault G.Scope)) : Action G Unit := do
  match (← get).stack with
  | [] => misplaced what expected
  | frame :: outer =>
      match clause frame.scope with
      | none => misplaced what expected
      | some (.error fault) => throw fault
      | some (.ok scope) => modify fun e => { e with stack := { frame with scope } :: outer }

/-- Declares an alias for an element of the given kind. -/
def declare (a : Alias) (kind : String) : Action G Unit := do
  let registry ← allowed ((← get).registry.declare a kind)
  modify fun e => { e with registry }

/-- The declared alias with this name, if its element is of the expected kind. -/
def resolve (name kind : String) : Action G Alias := do
  allowed ((← get).registry.resolve name kind)

/-- A new alias with the given stem. -/
def generate (stem : String) : Action G Alias := do
  let (a, registry) := (← get).registry.generate stem
  modify fun e => { e with registry }
  return a

/-- Changes what is remembered of the whole diagram. -/
def remember (change : G.Context → G.Context) : Action G Unit :=
  modify fun e => { e with context := change e.context }

end Action

end UmlText
