import UmlText.StateChart.Basic
import UmlText.Survey

/-!
# The written form of state charts

A state is written as its declaration, followed by one line for each line of its
description; the description of a composite state stands behind its closing brace.  A
separator stands between two regions, as deep as the regions themselves.
-/

namespace UmlText.StateChart

/-- The kind under which states are declared. -/
def stateKind : String :=
  "state"

/-- The states that an end of a transition names. -/
def Endpoint.states {Name : Type} : Endpoint Name → List Name
  | .state name => [name]
  | .terminal | .history | .deepHistory => []

mutual

/-- What is found in an element that stands inside `depth` composite states.  The states
inside a composite state come before the composite state itself. -/
def Node.survey (depth : Nat) : Node → List Finding
  | .state s => [.declared stateKind s.id]
  | .composite s _ regions =>
      surveyRegions (depth + 1) regions ++ [.declared stateKind s.id]
  | .transition t =>
      (t.source.states ++ t.target.states).map (.referred "transition" stateKind)
  | .note n => [.referred "note" stateKind n.target]

/-- What is found in the elements of a list. -/
def surveyNodes (depth : Nat) : List Node → List Finding
  | [] => []
  | node :: rest => node.survey depth ++ surveyNodes depth rest

/-- What is found in the regions of a composite state. -/
def surveyRegions (depth : Nat) : List (List Node) → List Finding
  | [] => []
  | body :: rest => .entered depth :: surveyNodes depth body ++ surveyRegions depth rest

end

/-- What is found in a whole tree. -/
def survey (nodes : List Node) : List Finding :=
  .entered 0 :: surveyNodes 0 nodes

/-- Accepts the consistent trees: nesting and states are examined first, then the
references. -/
def check (nodes : List Node) : Except ExportError Unit :=
  Finding.check Finding.isNoReference (survey nodes)

/-- The declaration of a state. -/
def State.line (s : State) : String :=
  "state " ++
    (match s.display with
      | none => ""
      | some display => "\"" ++ escape .quoted display ++ "\" as ") ++
    s.id.name ++
    (match s.kind.stereotype with
      | none => ""
      | some stereotype => " <<" ++ stereotype ++ ">>") ++
    colorSuffix s.color

/-- The lines of the description of a state. -/
def State.descriptionLines (depth : Nat) (s : State) : List Line :=
  s.description.map fun text => ⟨depth, s.id.name ++ " : " ++ escape .label text⟩

/-- An end of a transition as it is written. -/
def Endpoint.sign : Endpoint Alias → String
  | .terminal => "[*]"
  | .history => "[H]"
  | .deepHistory => "[H*]"
  | .state a => a.name

/-- The line of a transition. -/
def Transition.line (t : Transition Alias) : String :=
  t.source.sign ++ " -" ++ t.style.text ++
    (match t.direction with
      | none => ""
      | some direction => direction.keyword) ++
    "-> " ++ t.target.sign ++ labelled " : " t.label

mutual

/-- The lines of an element that is nested `depth` steps. -/
def Node.lines (depth : Nat) : Node → List Line
  | .state s => ⟨depth, s.line⟩ :: s.descriptionLines depth
  | .composite s separator regions =>
      ⟨depth, s.line ++ " \x7b"⟩ :: regionLines (depth + 1) separator regions ++
        ⟨depth, "\x7d"⟩ :: s.descriptionLines depth
  | .transition t => [⟨depth, t.line⟩]
  | .note n => n.lines depth

/-- The lines of the elements of a list. -/
def linesOf (depth : Nat) : List Node → List Line
  | [] => []
  | node :: rest => node.lines depth ++ linesOf depth rest

/-- The lines of regions; a separator stands between two of them. -/
def regionLines (depth : Nat) (separator : Separator) : List (List Node) → List Line
  | [] => []
  | body :: rest =>
      linesOf depth body ++
        (if rest.isEmpty then [] else [⟨depth, separator.sign⟩]) ++
        regionLines depth separator rest

end

end UmlText.StateChart
