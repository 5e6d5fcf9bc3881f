import UmlText.Proofs.Naming
import UmlText.Sequence.Calls

/-!
# Reading programs of sequence diagrams

A block is divided into sections by its clauses, and the elements in front of the first
clause are a section too; a box has participants in it and nothing else.
-/

namespace UmlText.Sequence

/-- The label of a further section of a block. -/
abbrev Clause :=
  Option String

/-- The participants that a call makes from its texts. -/
def ParticipantCall.read (generated : Nat) (p : ParticipantCall) : Option (Participant × Nat) :=
  (readNaming "p" p.name p.givenAlias generated).map fun ((a, display), generated) =>
    ({ kind := p.kind, id := a, display, color := p.color, order := p.order }, generated)

/-- An end of a message. -/
def readEnd : Option String → Option (Option Alias)
  | none => some none
  | some name => (Alias.ofName? name).map some

/-- The place of a note. -/
def NotePlace.read : NotePlace String → Option (NotePlace Alias)
  | .leftOf name => (Alias.ofName? name).map .leftOf
  | .rightOf name => (Alias.ofName? name).map .rightOf
  | .covering names => (names.mapM Alias.ofName?).map .covering
  | .across => some .across

/-- What a call contributes that declares no participant. -/
def Call.item : Call → Option (Item Node Clause)
  | .participant _ | .create _ => none
  | .message m => do
      let source ← readEnd m.source
      let target ← readEnd m.target
      return .element (.message { m with source, target })
  | .reply text => some (.element (.reply text))
  | .note n => do
      let place ← n.place.read
      return .element (.note { n with place })
  | .ref names text => do
      let participants ← names.mapM Alias.ofName?
      return .element (.ref participants text)
  | .activate name color => (Alias.ofName? name).map fun a => .element (.activate a color)
  | .deactivate name => (Alias.ofName? name).map fun a => .element (.deactivate a)
  | .destroy name => (Alias.ofName? name).map fun a => .element (.destroy a)
  | .divider text => some (.element (.divider text))
  | .delay text => some (.element (.delay text))
  | .space pixels => some (.element (.space pixels))
  | .autonumber n => some (.element (.autonumber n))
  | .otherwise label => some (.clause label)

/-- What a call contributes after so many generated aliases, and how many there are then. -/
def Call.read (generated : Nat) : Call → Option (Item Node Clause × Nat)
  | .participant p =>
      (p.read generated).map fun (p, generated) => (.element (.participant p), generated)
  | .create p => (p.read generated).map fun (p, generated) => (.element (.create p), generated)
  | call => call.item.map fun item => (item, generated)

/-- Elements that are all participants, as a list of participants. -/
def participants? : List Node → Option (List Participant)
  | [] => some []
  | .participant p :: rest => (participants? rest).map (p :: ·)
  | _ :: _ => none

/-- What a construct contributes, from the elements in front of its first clause and the
sections behind it. -/
def Opening.construct (body : List Node) (sections : List (Clause × List Node)) :
    Opening → Option (Item Node Clause)
  | .block kind label =>
      if kind.hasSections = true ∨ sections = [] then
        some (.element (.block kind ((label, body) :: sections)))
      else none
  | .box title color =>
      if sections = [] then (participants? body).map fun ps => .element (.box title color ps)
      else none

/-- How programs of sequence diagrams are read. -/
abbrev reading : Reading dialect where
  Clause := Clause
  Head := Opening
  call := Call.read
  opening generated opening := some (opening, generated)
  construct opening items := opening.construct (Item.split items).1 (Item.split items).2

theorem participants?_append
    (p : Participant)
    (nodes : List Node) :
    participants? (nodes ++ [.participant p]) = (participants? nodes).map (· ++ [p]) := by
  induction nodes with
  | nil => rfl
  | cons node rest ih =>
      cases node with
      | participant q =>
          simp only [List.cons_append, participants?, ih]
          cases participants? rest <;> rfl
      | _ => rfl

end UmlText.Sequence
