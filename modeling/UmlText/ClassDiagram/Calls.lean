import UmlText.ClassDiagram.Lines
import UmlText.ClassDiagram.Scope
import UmlText.Dialect
import UmlText.Engine.Naming

/-!
# Calls of class diagrams

A class is declared by the call that places it; relations and attached notes refer to
classes declared before.  The arrow beside the label of a relation is refused where there is
no label.
-/

namespace UmlText.ClassDiagram

/-- A class as a call describes it. -/
structure ClassCall where
  name : String
  givenAlias : Option String := none
  kind : ClassKind := .plain
  generic : Option String := none
  stereotype : Option String := none
  color : Option Color := none
  members : List Member := []
  deriving DecidableEq

/-- A call that opens no scope. -/
inductive Call where
  | «class» (c : ClassCall)
  | relation (r : Relation String)
  | note (n : AttachedNote String)
  | floatingNote (text : String) (color : Option Color)
  deriving DecidableEq

open UmlText.Action

/-- Checks the texts of members. -/
def checkMembers : List Member → Except InvalidValue (List Member)
  | [] => .ok []
  | m :: rest => do
      let text ← singleLine "class member" m.text
      let rest ← checkMembers rest
      return { m with text } :: rest

/-- Declares a class. -/
def ClassCall.declare (c : ClassCall) : Action grammar Class := do
  let name ← valid (singleLine "class name" c.name)
  let generic ← valid (optionally (singleLine "generic parameter") c.generic)
  let stereotype ← valid (optionally (singleLine "stereotype") c.stereotype)
  let members ← valid (checkMembers c.members)
  let (a, display) ← chooseAlias name c.givenAlias "c"
  Action.declare a classKind
  return { kind := c.kind, id := a, display, generic, stereotype, color := c.color, members }

/-- Checks the texts of a relation, and that an arrow stands beside a label. -/
def Relation.check {Name : Type} (r : Relation Name) : Except InvalidValue (Relation Name) := do
  let label ← optionally (singleLine "relation label") r.label
  if label.isNone ∧ r.labelArrow.isSome then
    throw (.ineffective "label arrow" "unlabeled relation"
      "the arrow is drawn next to the label")
  let sourceMultiplicity ← optionally (singleLine "multiplicity") r.sourceMultiplicity
  let targetMultiplicity ← optionally (singleLine "multiplicity") r.targetMultiplicity
  return { r with label, sourceMultiplicity, targetMultiplicity }

/-- What a call does, and the alias it answers with. -/
def Call.perform : Call → Action grammar (Option Alias)
  | .class c => do
      let c ← c.declare
      append (.class c)
      return some c.id
  | .relation r => do
      let source ← resolve r.source classKind
      let target ← resolve r.target classKind
      let r ← valid r.check
      append (.relation { r with source, target })
      return none
  | .note n => do
      let target ← resolve n.target classKind
      let text ← valid (freeText "note text" n.text)
      append (.note { n with target, text })
      return none
  | .floatingNote text color => do
      let text ← valid (freeText "note text" text)
      append (.floatingNote text color)
      return none

/-- Class diagrams. -/
abbrev dialect : Dialect where
  toGrammar := grammar
  Call := Call
  Opening := PackageHead
  perform := Call.perform
  scopeOf head := do
    let scope ← Action.valid head.scope
    return (scope, none)
  check := check
  lines := linesOf

end UmlText.ClassDiagram
