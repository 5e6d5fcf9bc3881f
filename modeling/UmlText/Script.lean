import UmlText.Program

/-!
# Scripts

A *script* is a program that may also call the engine itself: it appends elements it has
made by hand, opens scopes without saying where they end, and holds the tokens of the open
scopes under names of its own, so that it can close them in any order and see what the
engine makes of it.
-/

namespace UmlText

namespace Session

variable {G : Grammar}

/-- The token held under a name; a name that holds none stands for the token of no scope. -/
def token (s : Session G) (name : String) : Token :=
  (s.tokens.lookup name).getD ⟨0, 0, name⟩

/-- Holds a token under a name. -/
def hold (s : Session G) (name : String) (token : Token) : Session G :=
  { s with tokens := (name, token) :: s.tokens }

/-- Gives up the token held under a name. -/
def release (s : Session G) (name : String) : Session G :=
  { s with tokens := s.tokens.filter fun entry => entry.1 ≠ name }

end Session

/-- A call of the engine itself. -/
inductive EngineCall (G : Grammar) where
  /-- Appends an element. -/
  | leaf (node : G.Node)
  /-- Opens a scope and holds its token under a name. -/
  | openScope (scope : G.Scope) (name : String)
  /-- Closes the scope whose token is held under a name, and gives the token up. -/
  | close (name : String)
  /-- Closes with a token of another engine, which nested the scope in itself this many
  times. -/
  | closeForeign (scope : G.Scope) (openings : Nat)
  /-- Declares an alias. -/
  | declare (a : Alias) (kind : String)
  /-- Asks for a declared alias. -/
  | resolve (name kind : String)
  /-- Generates an alias. -/
  | generate (stem : String)
  /-- Asks which kind of element has an alias; this is no numbered call. -/
  | kindOf (name : String)
  /-- Asks for the innermost scope of a kind, or for the innermost loop; no numbered call. -/
  | enclosing (kind : Option String)

namespace EngineCall

variable {G : Grammar}

/-- Opens a scope inside itself several times and answers with the last token, if there is
one. -/
def nest (scope : G.Scope) : Nat → Build G (Option Token)
  | 0 => return none
  | n + 1 => do
      let outer ← Engine.step (Action.openScope scope)
      return (← nest scope n).orElse fun _ => some outer

/-- Makes a call of the engine. -/
def perform (call : EngineCall G) (s : Session G) : Except BuildError Reply × Session G :=
  match call with
  | .leaf node => s.build (Engine.step (Action.append node) >>= fun _ => return .done)
  | .openScope scope name =>
      match s.build (Engine.step (Action.openScope scope)) with
      | (.ok token, after) => (.ok (.token token), after.hold name token)
      | (.error error, after) => (.error error, after)
  | .close name =>
      (s.release name).build (Engine.close (s.token name) >>= fun _ => return .done)
  | .closeForeign scope openings =>
      -- the two engines write into the same journal
      let other : Session G := { engine := { journal := s.engine.journal } }
      let (result, after) := other.build (nest scope openings)
      let shared := { s with engine := { s.engine with journal := after.engine.journal } }
      match result with
      | .error error => (.error error, shared)
      | .ok token => shared.build (Engine.close (token.getD ⟨0, 0, ""⟩) >>= fun _ => return .done)
  | .declare a kind =>
      s.build (Engine.step (Action.declare a kind) >>= fun _ => return .done)
  | .resolve name kind =>
      s.build (Engine.step (Action.resolve name kind) >>= fun a => return .named a)
  | .generate stem =>
      s.build (Engine.step (Action.generate stem) >>= fun a => return .named a)
  | .kindOf name => (.ok (.kind (s.engine.registry.kindOf? name)), s)
  | .enclosing kind =>
      let wanted : G.Scope → Bool :=
        match kind with
        | none => G.isLoop
        | some kind => fun scope => G.scopeKind scope = kind
      (.ok (.kind ((s.engine.enclosing? wanted).map G.scopeKind)), s)

end EngineCall

/-- A call of a script. -/
inductive ScriptCall (d : Dialect) where
  /-- A call of the dialect. -/
  | authoring (call : d.Call)
  /-- A call of the engine. -/
  | engine (call : EngineCall d.toGrammar)
  /-- A value, or a scope, that was refused before the call was made. -/
  | refused (why : Fault)

/-- A call of a script that opens a scope. -/
inductive ScriptOpening (d : Dialect) where
  /-- A call of the dialect. -/
  | authoring (opening : d.Opening)
  /-- A scope made inside the call, or refused there. -/
  | engine (scope : Except Fault d.Scope)

/-- A program that may call the engine itself. -/
abbrev Script (d : Dialect) :=
  Program (ScriptCall d) (ScriptOpening d)

/-- The meaning of scripts. -/
def Dialect.scripting (d : Dialect) :
    Meaning d.toGrammar (ScriptCall d) (ScriptOpening d) where
  perform
    | .authoring call, s => s.build (d.callBuild call)
    | .engine call, s => call.perform s
    | .refused why, s => (.error (why.atCall 0), s)
  scopeOf
    | .authoring opening => d.openingAction opening
    | .engine (.ok scope) => return (scope, .done)
    | .engine (.error why) => throw why.beforeCalls

end UmlText
