import UmlText.Dialect
import UmlText.Engine.Naming
import UmlText.Sequence.Lines
import UmlText.Sequence.Scope

/-!
# Calls of sequence diagrams

Participants are declared by the calls that place them, and every call that names one
resolves the name first.  The open activations are remembered from call to call, because a
return ends the latest of them and is refused where there is none.
-/

namespace UmlText.Sequence

/-- A participant as a call describes it. -/
structure ParticipantCall where
  name : String
  givenAlias : Option String := none
  kind : ParticipantKind := .participant
  color : Option Color := none
  order : Option Int := none
  deriving DecidableEq

/-- A call that opens no scope. -/
inductive Call where
  | participant (p : ParticipantCall)
  | create (p : ParticipantCall)
  | message (m : Message String)
  | reply (text : Option String)
  | note (n : Note String)
  | ref (participants : List String) (text : String)
  | activate (participant : String) (color : Option Color)
  | deactivate (participant : String)
  | destroy (participant : String)
  | divider (text : String)
  | delay (text : Option String)
  | space (pixels : Option Nat)
  | autonumber (n : Autonumber)
  /-- Starts another section of a block. -/
  | otherwise (label : Option String)
  deriving DecidableEq

/-- The largest number of pixels by which participants can be moved apart in time. -/
def maxSpace : Nat :=
  10000

/-- The largest step of a numbering. -/
def maxStep : Nat :=
  4294967295

namespace Activations

/-- Ends the latest activation of a participant, if it has one. -/
def deactivate (active : Activations) (participant : Alias) : Activations :=
  (active.reverse.erase participant).reverse

/-- Ends all activations of a participant. -/
def destroy (active : Activations) (participant : Alias) : Activations :=
  active.filter fun a => a ≠ participant

/-- The open activations after a message. -/
def afterMessage (active : Activations) (m : Message Alias) : Activations :=
  match m.activation, m.source, m.target with
  | some .activateTarget, _, some target => active ++ [target]
  | some .deactivateSource, some source, _ => active.deactivate source
  | some .destroyTarget, _, some target => active.destroy target
  | _, _, _ => active

end Activations

open UmlText.Action

/-- The participant with this name. -/
def resolveParticipant (name : String) : Action grammar Alias :=
  resolve name participantKind

/-- The participants with these names. -/
def resolveAll : List String → Action grammar (List Alias)
  | [] => return []
  | name :: rest => do
      let a ← resolveParticipant name
      return a :: (← resolveAll rest)

/-- An end of a message. -/
def resolveEnd : Option String → Action grammar (Option Alias)
  | none => return none
  | some name => return some (← resolveParticipant name)

/-- Declares a participant. -/
def ParticipantCall.declare (p : ParticipantCall) : Action grammar Participant := do
  let name ← valid (singleLine "participant name" p.name)
  let (a, display) ← chooseAlias name p.givenAlias "p"
  Action.declare a participantKind
  return { kind := p.kind, id := a, display, color := p.color, order := p.order }

/-- Checks that a message has an end inside the diagram, and that its activation is that of
an end inside the diagram. -/
def Message.checkEnds (m : Message Alias) : Except InvalidValue Unit :=
  let ineffective (option reason : String) : Except InvalidValue Unit :=
    .error (.ineffective option "message" reason)
  match m.source, m.target, m.activation with
  | none, none, _ => ineffective "border" "at least one end must be a participant"
  | none, _, some .deactivateSource =>
      ineffective "activation" "the source is the diagram border"
  | _, none, some .activateTarget
  | _, none, some .createTarget
  | _, none, some .destroyTarget => ineffective "activation" "the target is the diagram border"
  | _, _, _ => .ok ()

/-- The place of a note, which names one or two participants where it stands over them. -/
def resolvePlace : NotePlace String → Action grammar (NotePlace Alias)
  | .leftOf name => return .leftOf (← resolveParticipant name)
  | .rightOf name => return .rightOf (← resolveParticipant name)
  | .covering names => do
      if names.isEmpty || 2 < names.length then
        throw (.invalid (.outOfRange "note participants" names.length 1 2))
      return .covering (← resolveAll names)
  | .across => return .across

/-- Checks the number of pixels of a space. -/
def checkSpace : Option Nat → Except InvalidValue Unit
  | none => .ok ()
  | some pixels =>
      if 1 ≤ pixels ∧ pixels ≤ maxSpace then .ok ()
      else .error (.outOfRange "space" pixels 1 maxSpace)

/-- Checks the step and the format of a numbering. -/
def Autonumber.check : Autonumber → Except InvalidValue Unit
  | .start _ step format =>
      if step = some 0 then .error (.outOfRange "autonumber step" 0 1 maxStep)
      else (optionally (singleLine "autonumber format") format).map fun _ => ()
  | .stop | .resume => .ok ()

/-- Changes the open activations. -/
def rememberOpen (change : Activations → Activations) : Action grammar Unit :=
  remember change

/-- What a call does, and the alias it answers with. -/
def Call.perform : Call → Action grammar (Option Alias)
  | .participant p => do
      let p ← p.declare
      append (.participant p)
      return some p.id
  | .create p => do
      let p ← p.declare
      append (.create p)
      return some p.id
  | .message m => do
      let source ← resolveEnd m.source
      let target ← resolveEnd m.target
      let resolved : Message Alias :=
        { source, target, arrow := m.arrow, activation := m.activation }
      valid resolved.checkEnds
      let text ← valid (optionally (freeText "message text") m.text)
      rememberOpen fun active => active.afterMessage resolved
      append (.message { resolved with text })
      return none
  | .reply text => do
      let text ← valid (optionally (freeText "return text") text)
      if (← get).context.isEmpty then Action.misplaced "return" "an active participant"
      append (.reply text)
      rememberOpen fun active => active.dropLast
      return none
  | .note n => do
      let place ← resolvePlace n.place
      let text ← valid (freeText "note text" n.text)
      append (.note { place, text, shape := n.shape, color := n.color })
      return none
  | .ref names text => do
      if names.isEmpty then throw (.invalid (.empty "ref participant list"))
      let participants ← resolveAll names
      let text ← valid (freeText "ref text" text)
      append (.ref participants text)
      return none
  | .activate name color => do
      let p ← resolveParticipant name
      rememberOpen fun active => active ++ [p]
      append (.activate p color)
      return none
  | .deactivate name => do
      let p ← resolveParticipant name
      rememberOpen fun active => active.deactivate p
      append (.deactivate p)
      return none
  | .destroy name => do
      let p ← resolveParticipant name
      rememberOpen fun active => active.destroy p
      append (.destroy p)
      return none
  | .divider text => do
      let text ← valid (singleLine "divider text" text)
      append (.divider text)
      return none
  | .delay text => do
      let text ← valid (optionally (singleLine "delay text") text)
      append (.delay text)
      return none
  | .space pixels => do
      valid (checkSpace pixels)
      append (.space pixels)
      return none
  | .autonumber n => do
      valid n.check
      append (.autonumber n)
      return none
  | .otherwise label => do
      let label ← valid (optionally (singleLine "else label") label)
      mark "else" "'alt', 'par', 'critical' or 'group'" (Scope.startSection label)
      return none

/-- Sequence diagrams. -/
abbrev dialect : Dialect where
  toGrammar := grammar
  Call := Call
  Opening := Opening
  perform := Call.perform
  scopeOf opening := do
    let scope ← Action.valid opening.scope
    return (scope, none)
  check := check
  lines := linesOf 0

end UmlText.Sequence
