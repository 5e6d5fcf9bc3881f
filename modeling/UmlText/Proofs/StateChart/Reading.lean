import UmlText.Proofs.Naming
import UmlText.StateChart.Calls

/-!
# Reading programs of state charts

A composite state is divided into regions by its clauses, and the elements in front of the
first clause are a region too.  All clauses of one state are the same separator.
-/

namespace UmlText.StateChart

/-- The state that a call makes from its texts. -/
def StateCall.read (generated : Nat) (s : StateCall) : Option (State × Nat) :=
  (readNaming "s" s.name s.givenAlias generated).map fun ((a, display), generated) =>
    ({ id := a, display, kind := s.kind, description := s.description, color := s.color },
      generated)

/-- An end of a transition. -/
def Endpoint.read : Endpoint String → Option (Endpoint Alias)
  | .terminal => some .terminal
  | .history => some .history
  | .deepHistory => some .deepHistory
  | .state name => (Alias.ofName? name).map .state

/-- What a call contributes after so many generated aliases, and how many there are then. -/
def Call.read (generated : Nat) : Call → Option (Item Node Separator × Nat)
  | .state s => (s.read generated).map fun (s, generated) => (.element (.state s), generated)
  | .transition t => do
      let source ← t.source.read
      let target ← t.target.read
      return (.element (.transition { t with source, target }), generated)
  | .note n => do
      let target ← Alias.ofName? n.target
      return (.element (.note { n with target }), generated)
  | .region separator => some (.clause separator, generated)

/-- The separator of the regions behind the first one. -/
def separatorOf? (sections : List (Separator × List Node)) : Option Separator :=
  (sections.map Prod.fst).head?

/-- What a composite state contributes, from the elements in front of its first clause and
the sections behind it. -/
def State.construct
    (body : List Node)
    (sections : List (Separator × List Node))
    (s : State) : Option (Item Node Separator) :=
  if ∀ separator ∈ sections.map Prod.fst, some separator = separatorOf? sections then
    some (.element (.composite s ((separatorOf? sections).getD .horizontal)
      (body :: sections.map Prod.snd)))
  else none

/-- How programs of state charts are read. -/
abbrev reading : Reading dialect where
  Clause := Separator
  Head := State
  call := Call.read
  opening generated s := s.read generated
  construct s items := s.construct (Item.split items).1 (Item.split items).2

end UmlText.StateChart
