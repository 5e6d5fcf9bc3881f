import UmlText.Engine.Error

/-!
# The journal

A build keeps a journal of what happened to its tree, one `Event` for each element that was
handed to a scope, for each scope that was opened, closed or dropped, for each call that
failed, and for the finished diagram and its text.  `Event.text` is the line a reader of the
journal sees: the level, what happened, then the details as `key=value`.
-/

namespace UmlText

/-- Something that happened during a build or to its result. -/
inductive Event where
  /-- An element is handed to a scope, which may still refuse it. -/
  | appended (call : Nat) (node scope : String)
  /-- A scope is opened; `depth` scopes are open around it. -/
  | opened (call : Nat) (scope : String) (depth : Nat)
  /-- A scope is closed; `depth` scopes were open around it when it was opened. -/
  | closed (call : Nat) (scope : String) (depth : Nat)
  /-- A scope is dropped with everything inside it. -/
  | discarded (scope : String) (depth : Nat)
  /-- A call fails. -/
  | failed (call : Nat) (diagram : String) (error : BuildError)
  /-- The diagram is finished. -/
  | finished (diagram : String) (nodes calls : Nat)
  /-- The diagram is written as a text of this many bytes. -/
  | exported (diagram : String) (bytes : Nat)
  deriving DecidableEq

/-- One detail of an event. -/
def detail (key value : String) : String :=
  " " ++ key ++ "=" ++ value

/-- The line of the journal for an event. -/
def Event.text : Event → String
  | .appended call node scope =>
      "TRACE Append node" ++ detail "call" (toString call) ++ detail "node" node ++
        detail "scope" scope
  | .opened call scope depth =>
      "DEBUG Open scope" ++ detail "call" (toString call) ++ detail "scope" scope ++
        detail "depth" (toString depth)
  | .closed call scope depth =>
      "DEBUG Close scope" ++ detail "call" (toString call) ++ detail "scope" scope ++
        detail "depth" (toString depth)
  | .discarded scope depth =>
      "DEBUG Discard scope" ++ detail "scope" scope ++ detail "depth" (toString depth)
  | .failed call diagram error =>
      "DEBUG Builder call failed" ++ detail "call" (toString call) ++ detail "kind" diagram ++
        detail "error" error.message
  | .finished diagram nodes calls =>
      "DEBUG Diagram finalized" ++ detail "kind" diagram ++ detail "nodes" (toString nodes) ++
        detail "calls" (toString calls)
  | .exported diagram bytes =>
      "INFO Exported PlantUML diagram" ++ detail "kind" diagram ++ detail "bytes" (toString bytes)

end UmlText
