import Mathlib.Tactic.MkIffOfInductiveProp
import UmlText.Proofs.Plans
import UmlText.Proofs.Sequence.Stretches

/-!
# Which calls of a sequence diagram are in order

Whether a call of a sequence diagram is in order at its moment is said here without an
engine, one rule for each field of `Admissible`: its texts and numbers alone, the aliases
that the calls before it have introduced, the blocks around it, and the stretches of
activity that are open.

The body of a box is written through a handle that offers participants and nothing else.
-/

namespace UmlText.Sequence

/-- The participant that a call introduces. -/
def Call.introduced? : Call → Option ParticipantCall
  | .participant p | .create p => some p
  | _ => none

/-- The handles through which bodies are written: a box offers participants only. -/
def handles : Plan.Handles dialect where
  call
    | some (.box ..), .participant _ => true
    | some (.box ..), _ => false
    | _, _ => true
  scope
    | some (.box ..), _ => false
    | _, _ => true

namespace ParticipantCall

/-- Whether an alias is generated for the participant. -/
def isUnnamed (p : ParticipantCall) : Bool :=
  p.givenAlias.isNone && !isBareName p.name

/-- The alias of the participant: the given one, or else its name where that can be an
alias, or else the next one of the generated aliases. -/
def aliasName (generated : Nat) (p : ParticipantCall) : String :=
  match p.givenAlias with
  | some given => given
  | none =>
      if isBareName p.name then p.name else (Alias.generated "p" (generated + 1)).name

/-- How many aliases are generated once the participant is introduced. -/
def generatedAfter (generated : Nat) (p : ParticipantCall) : Nat :=
  if p.isUnnamed then generated + 1 else generated

end ParticipantCall

/-- The alias that a call introduces, if any, when so many were generated before. -/
def Call.newAliases (generated : Nat) (c : Call) : List String :=
  match c.introduced? with
  | none => []
  | some p => [p.aliasName generated]

/-- How many aliases are generated once the call is made. -/
def Call.generatedAfter (generated : Nat) (c : Call) : Nat :=
  match c.introduced? with
  | none => generated
  | some p => p.generatedAfter generated

/-- The aliases that calls introduce when so many were generated before. -/
def aliasesFrom (generated : Nat) : List Call → List String
  | [] => []
  | c :: rest => c.newAliases generated ++ aliasesFrom (c.generatedAfter generated) rest

/-- How many aliases are generated behind calls when so many were generated before. -/
def generatedFrom (generated : Nat) (calls : List Call) : Nat :=
  calls.foldl Call.generatedAfter generated

/-- The names of the participants that a call refers to. -/
def Call.references : Call → List String
  | .message m => m.source.toList ++ m.target.toList
  | .note n => n.place.participants
  | .ref names _ => names
  | .activate name _ | .deactivate name | .destroy name => [name]
  | _ => []

/-- The texts of a call are accepted; names of participants that are referred to are not
checked on their own. -/
def Call.Accepted : Call → Prop
  | .participant p | .create p => IsVisible p.name ∧ FitsOneLine p.name
  | .message m => ∀ t ∈ m.text, IsVisible t
  | .reply text => ∀ t ∈ text, IsVisible t
  | .note n => IsVisible n.text
  | .ref _ text => IsVisible text
  | .divider text => IsVisible text ∧ FitsOneLine text
  | .delay text | .otherwise text | .autonumber (.start _ _ text) =>
      ∀ t ∈ text, IsVisible t ∧ FitsOneLine t
  | .activate .. | .deactivate _ | .destroy _ | .space _ | .autonumber _ => True

/-- The texts of a construct's own lines are accepted. -/
def Opening.Accepted : Opening → Prop
  | .block _ text | .box text _ => ∀ t ∈ text, IsVisible t ∧ FitsOneLine t

/-- The texts of a numbered call are accepted. -/
def Accepted : Plan.Deed dialect → Prop
  | .call c => c.Accepted
  | .enter opening => opening.Accepted
  | .leave => True

/-- The call is in order at its moment. -/
@[mk_iff] structure Admissible (m : Plan.Moment dialect) : Prop where
  /-- Every text passes its check. -/
  texts : Accepted m.deed
  /-- A note over participants names one or two of them. -/
  note_names : ∀ n, m.deed = .call (.note n) →
    ∀ names, n.place = .covering names → names.length = 1 ∨ names.length = 2
  /-- A reference names at least one participant. -/
  ref_names : ∀ names text, m.deed = .call (.ref names text) → names ≠ []
  /-- A space has a number of pixels in its range, or none. -/
  space_range : ∀ pixels, m.deed = .call (.space (some pixels)) → 1 ≤ pixels ∧ pixels ≤ maxSpace
  /-- The step of a numbering is not zero. -/
  step_positive : ∀ first format, m.deed ≠ .call (.autonumber (.start first (some 0) format))
  /-- An alias that is given can be one. -/
  alias_valid : ∀ c, m.deed = .call c → ∀ p, c.introduced? = some p →
    ∀ given, p.givenAlias = some given → aliasFlaw? given.toList = none
  /-- The alias of a participant is not that of an earlier one. -/
  alias_new : ∀ c, m.deed = .call c → ∀ p, c.introduced? = some p →
    p.aliasName (generatedFrom 0 m.before) ∉ aliasesFrom 0 m.before
  /-- Every participant that is referred to was introduced by an earlier call, anywhere. -/
  known : ∀ c, m.deed = .call c → ∀ name ∈ c.references, name ∈ aliasesFrom 0 m.before
  /-- A message does not go from border to border. -/
  inside : ∀ msg, m.deed = .call (.message msg) → msg.source ≠ none ∨ msg.target ≠ none
  /-- The mark that ends the activity of the source needs a source. -/
  source_inside : ∀ msg, m.deed = .call (.message msg) →
    msg.activation = some .deactivateSource → msg.source ≠ none
  /-- The marks that activate, create or destroy the target need a target. -/
  target_inside : ∀ msg, m.deed = .call (.message msg) →
    msg.activation = some .activateTarget ∨ msg.activation = some .createTarget ∨
      msg.activation = some .destroyTarget → msg.target ≠ none
  /-- Another section starts directly inside a block that may have several. -/
  else_inside : ∀ text, m.deed = .call (.otherwise text) →
    ∃ kind label, (Plan.openings m.around).head? = some (.block kind label) ∧
      kind ∈ [.alt, .par, .critical, .group]
  /-- No box is opened inside a block. -/
  box_outside : ∀ title color, m.deed = .enter (.box title color) →
    ∀ kind label, .block kind label ∉ Plan.openings m.around
  /-- No more scopes are open than may be open at once. -/
  shallow : ∀ opening, m.deed = .enter opening → m.around.length + 1 ≤ maxDepth
  /-- A return finds a stretch of activity that is not closed. -/
  return_open : ∀ text, m.deed = .call (.reply text) →
    ∃ s ∈ stretches m.before, s.closed = false

/-- A message has an end inside the diagram, and its mark is that of an end inside the
diagram. -/
def Message.EndsInside {End : Type} (m : Message End) : Prop :=
  (m.source ≠ none ∨ m.target ≠ none) ∧
    (m.activation = some .deactivateSource → m.source ≠ none) ∧
    (m.activation = some .activateTarget ∨ m.activation = some .createTarget ∨
      m.activation = some .destroyTarget → m.target ≠ none)

/-- A participant can be introduced behind these calls, whatever its name is. -/
def ParticipantCall.IsNew (before : List Call) (p : ParticipantCall) : Prop :=
  (∀ given ∈ p.givenAlias, aliasFlaw? given.toList = none) ∧
    p.aliasName (generatedFrom 0 before) ∉ aliasesFrom 0 before

/-- The participants with these names were introduced. -/
def Known (before : List Call) (names : List String) : Prop :=
  ∀ name ∈ names, name ∈ aliasesFrom 0 before

/-- The call has a place where it is made, whatever its texts are. -/
def Call.Placed (around : List Opening) (before : List Call) : Call → Prop
  | .participant p | .create p => p.IsNew before
  | .message m => Known before (m.source.toList ++ m.target.toList) ∧ m.EndsInside
  | .reply _ => ∃ s ∈ stretches before, s.closed = false
  | .note n =>
      (∀ names, n.place = .covering names → names.length = 1 ∨ names.length = 2) ∧
        Known before n.place.participants
  | .ref names _ => names ≠ [] ∧ Known before names
  | .activate name _ | .deactivate name | .destroy name => Known before [name]
  | .space pixels => ∀ n ∈ pixels, 1 ≤ n ∧ n ≤ maxSpace
  | .autonumber n => ∀ first format, n ≠ .start first (some 0) format
  | .otherwise _ =>
      ∃ kind label, around.head? = some (.block kind label) ∧ kind.hasSections = true
  | .divider _ | .delay _ => True

section Rules

variable {around : List (Plan.Enclosure dialect)} {before : List Call} {c : Call}

theorem generatedFrom_concat (generated : Nat) :
    generatedFrom generated (before ++ [c]) =
      c.generatedAfter (generatedFrom generated before) := by
  unfold generatedFrom
  rw [List.foldl_append]
  rfl

theorem aliasesFrom_concat (generated : Nat) :
    aliasesFrom generated (before ++ [c]) =
      aliasesFrom generated before ++ c.newAliases (generatedFrom generated before) := by
  induction before generalizing generated with
  | nil => exact List.append_nil _
  | cons first rest ih =>
      rw [List.cons_append, aliasesFrom, ih, aliasesFrom, List.append_assoc]
      rfl

/-- A call introduces one alias at most. -/
theorem newAliases_reverse (generated : Nat) :
    (c.newAliases generated).reverse = c.newAliases generated := by
  unfold Call.newAliases
  cases c.introduced? <;> rfl

theorem hasSections_iff {kind : BlockKind} :
    kind.hasSections = true ↔ kind ∈ [.alt, .par, .critical, .group] := by
  cases kind <;> decide

/-- A call without a body is in order when its texts are accepted and it has a place. -/
theorem admissible_call_iff :
    Admissible ⟨.call c, around, before⟩ ↔
      c.Accepted ∧ c.Placed (Plan.openings around) before := by
  cases c <;>
    simp [admissible_iff, Accepted, Call.introduced?, Call.references, Call.Placed,
      Known, ParticipantCall.IsNew, Message.EndsInside, hasSections_iff]

/-- A construct may be entered when its texts are accepted, when it is not too deep, and
when it is no box inside a block. -/
theorem admissible_enter_iff {opening : Opening} :
    Admissible ⟨.enter opening, around, before⟩ ↔
      opening.Accepted ∧ around.length + 1 ≤ maxDepth ∧
        ∀ title color, opening = .box title color →
          ∀ kind label, .block kind label ∉ Plan.openings around := by
  cases opening <;> simp [admissible_iff, Accepted, and_comm]

/-- A construct may always be left. -/
theorem admissible_leave : Admissible ⟨.leave, around, before⟩ := by
  simp [admissible_iff, Accepted]

end Rules

end UmlText.Sequence
