import UmlText.Dialect
import UmlText.Engine.Build

/-!
# Programs of calls

A program is a list of calls in which a call that opens a scope holds the program of its
body.  The scope is closed when its body has run to the end, and it is dropped, together
with everything opened inside it, when the body fails.  A call that fails ends the list it
stands in, and so the body around it, unless its failure is *caught*; then the list goes on,
although every later call of a failed build fails as well.

Running a program gives a `Report` of every call that was made, with the state it left
behind.

What the single calls of a program are, and what they do, is a parameter, the `Meaning` of
the program.  The programs of this module are the `Authoring` programs: their calls are
those of a dialect, or values that were refused before any call was made.
-/

namespace UmlText

/-- A call with the body it may hold. -/
inductive Program (Leaf Opening : Type) where
  /-- A call without a body. -/
  | call (leaf : Leaf) (caught : Bool)
  /-- A call that opens a scope for its body. -/
  | scope (opening : Opening) (caught : Bool) (body : List (Program Leaf Opening))

/-- Whether the failure of the call lets its list go on. -/
def Program.caught {Leaf Opening : Type} : Program Leaf Opening → Bool
  | .call _ caught => caught
  | .scope _ caught _ => caught

/-- What a call that succeeds answers. -/
inductive Reply where
  /-- Nothing. -/
  | done
  /-- The alias of an element. -/
  | named (a : Alias)
  /-- The token of an open scope. -/
  | token (t : Token)
  /-- A kind, if there is one. -/
  | kind (k : Option String)
  deriving DecidableEq

/-- The answer of a call that may make an alias. -/
def Reply.ofAlias? : Option Alias → Reply
  | none => .done
  | some a => .named a

/-- The state of a run: the engine, and the tokens that are held under a name. -/
structure Session (G : Grammar) where
  engine : Engine G := {}
  tokens : List (String × Token) := []

/-- What happened at a call, the calls in its body included. -/
structure Report (G : Grammar) where
  /-- The answer or the failure of the call. -/
  result : Except BuildError Reply
  /-- The state that the call left behind. -/
  after : Session G
  /-- The calls of its body that were made. -/
  inner : List (Report G)

/-- What happened at a list of calls. -/
structure Run (G : Grammar) where
  /-- The calls that were made. -/
  reports : List (Report G)
  /-- The failure that ended the list, if one did. -/
  result : Except BuildError Unit
  /-- The state in the end. -/
  after : Session G

/-- The meaning of the single calls of a program. -/
structure Meaning (G : Grammar) (Leaf Opening : Type) where
  /-- A call without a body. -/
  perform : Leaf → Session G → Except BuildError Reply × Session G
  /-- The scope that a call opens, and what the call answers in the end. -/
  scopeOf : Opening → Action G (G.Scope × Reply)

namespace Session

variable {G : Grammar}

/-- Makes calls of the engine in a session. -/
def build {α : Type} (s : Session G) (calls : Build G α) : Except BuildError α × Session G :=
  let (result, engine) := calls.run s.engine
  (result, { s with engine })

end Session

namespace Program

variable {G : Grammar} {Leaf Opening : Type}

mutual

/-- Makes a call, and the calls of its body. -/
def run (m : Meaning G Leaf Opening) (s : Session G) : Program Leaf Opening → Report G
  | .call leaf _ =>
      let (result, after) := m.perform leaf s
      ⟨result, after, []⟩
  | .scope opening _ body =>
      match s.build (Engine.enter (m.scopeOf opening)) with
      | (.error error, after) => ⟨.error error, after, []⟩
      | (.ok (token, reply), opened) =>
          let inside := runAll m opened body
          match inside.result with
          | .ok () =>
              let (closed, after) := inside.after.build (Engine.close token)
              ⟨closed.map fun _ => reply, after, inside.reports⟩
          | .error error =>
              let after := { inside.after with engine := inside.after.engine.discard token }
              ⟨.error error, after, inside.reports⟩

/-- Makes the calls of a list up to the first failure that is not caught. -/
def runAll (m : Meaning G Leaf Opening) (s : Session G) : List (Program Leaf Opening) → Run G
  | [] => ⟨[], .ok (), s⟩
  | p :: rest =>
      let report := run m s p
      match report.result, p.caught with
      | .error error, false => ⟨[report], .error error, report.after⟩
      | _, _ =>
          let later := runAll m report.after rest
          ⟨report :: later.reports, later.result, later.after⟩

end

end Program

/-- A program of the calls of a dialect, or of values refused before the call was made. -/
abbrev Authoring (d : Dialect) :=
  Program (Except InvalidValue d.Call) d.Opening

namespace Dialect

/-- One call of the dialect. -/
def callBuild (d : Dialect) (call : d.Call) : Build d.toGrammar Reply :=
  Engine.step do
    return .ofAlias? (← d.perform call)

/-- The scope that a call of the dialect opens. -/
def openingAction (d : Dialect) (opening : d.Opening) :
    Action d.toGrammar (d.Scope × Reply) := do
  let (scope, a) ← d.scopeOf opening
  return (scope, .ofAlias? a)

/-- The meaning of authoring programs. -/
def authoring (d : Dialect) : Meaning d.toGrammar (Except InvalidValue d.Call) d.Opening where
  perform
    | .ok call, s => s.build (d.callBuild call)
    | .error what, s => (.error (.invalid what), s)
  scopeOf := d.openingAction

end Dialect

end UmlText
