import Mathlib.Tactic.MkIffOfInductiveProp
import UmlText.Proofs.Activity.Calls
import UmlText.Proofs.Plans

/-!
# Which calls of an activity diagram are in order

Whether a call of an activity diagram is in order at its moment is said here without an
engine, one rule for each field of `Fits`.  The rules about the construct around a call look
at the calls that stand directly in it before this one, those about labels and lanes at all
calls that come earlier.

A body is written through a *handle*, which offers only the calls that belong into the body:
further branches inside a decision, cases inside a switch, and inside a fork or split
nothing but branches and the way it ends.
-/

namespace UmlText.Activity

/-- The calls that change a construct instead of putting something into it. -/
def Call.isMarker : Call → Bool
  | .elseif _ | .otherwise _ | .case _ | .backward _ | .endMerge | .endJoin _ => true
  | _ => false

/-- The calls that say how a fork ends. -/
def Call.isEnding : Call → Bool
  | .endMerge | .endJoin _ => true
  | _ => false

/-- The constructs that a `break` leaves. -/
def Opening.isLoop : Opening → Bool
  | .whileLoop _ | .repeatLoop _ => true
  | _ => false

/-- The texts of a call are accepted; the name of a jump is not checked on its own. -/
def Call.Accepted : Call → Prop
  | .point _ | .goto _ | .endMerge => True
  | .action a => IsVisible a.text
  | .arrow a => ∀ t ∈ a.label, IsVisible t
  | .note n => IsVisible n.text
  | .connector name => IsVisible name ∧ FitsOneLine name
  | .label name => aliasFlaw? name.toList = none
  | .swimlane lane =>
      (IsVisible lane.name ∧ FitsOneLine lane.name) ∧ ∀ t ∈ lane.label, IsVisible t
  | .elseif guard => guard.Accepted
  | .otherwise text => ∀ t ∈ text, IsVisible t
  | .case text => IsVisible text
  | .backward text => IsVisible text
  | .endJoin text => IsVisible text ∧ FitsOneLine text

/-- The texts of a numbered call are accepted. -/
def Accepted : Plan.Deed dialect → Prop
  | .call c => c.Accepted
  | .enter opening => opening.Accepted
  | .leave => True

/-- The calls that put an element or a construct into the construct around them. -/
def IsChild : Plan.Deed dialect → Prop
  | .call c => c.isMarker = false
  | .enter _ => True
  | .leave => False

section Earlier

variable (enc : Plan.Enclosure dialect)

/-- The last branch of a decision has been started. -/
def HasElse : Prop :=
  ∃ label, .otherwise label ∈ enc.earlier

/-- A case of a switch has been started. -/
def HasCase : Prop :=
  ∃ label, .case label ∈ enc.earlier

/-- The edge back to the start of a loop has been given. -/
def HasBackward : Prop :=
  ∃ text, .backward text ∈ enc.earlier

/-- The way in which a fork ends has been given. -/
def HasEnding : Prop :=
  ∃ c ∈ enc.earlier, c.isEnding = true

end Earlier

/-- The call is in order at its moment. -/
@[mk_iff] structure Fits (m : Plan.Moment dialect) : Prop where
  /-- Every text passes its check. -/
  texts : Accepted m.deed
  /-- No more scopes are open than may be open at once. -/
  shallow : ∀ opening, m.deed = .enter opening → m.around.length + 1 ≤ maxDepth
  /-- A `break` lies inside a loop, at any distance. -/
  leaves_loop : m.deed = .call (.point .leaveLoop) → ∃ enc ∈ m.around, enc.opening.isLoop = true
  /-- The name of a label is not that of an earlier label. -/
  label_new : ∀ name, m.deed = .call (.label name) → Call.label name ∉ m.before
  /-- A jump goes to an earlier label. -/
  goto_known : ∀ name, m.deed = .call (.goto name) → Call.label name ∈ m.before
  /-- Directly inside a switch, a child comes after a case. -/
  after_case : IsChild m.deed →
    ∀ test enc, m.around.head? = some enc → enc.opening = .switch test → HasCase enc
  /-- Directly inside a loop that tests at the end, no child comes after the edge back. -/
  before_backward : IsChild m.deed →
    ∀ head enc, m.around.head? = some enc → enc.opening = .repeatLoop head → ¬HasBackward enc
  /-- Such a loop has at most one edge back. -/
  one_backward : ∀ text, m.deed = .call (.backward text) →
    ∀ enc, m.around.head? = some enc → ¬HasBackward enc
  /-- A loop that tests at the start has none. -/
  no_backward : ∀ text, m.deed = .call (.backward text) →
    ∀ enc, m.around.head? = some enc → ∀ head, enc.opening ≠ .whileLoop head
  /-- A decision has at most one `else`. -/
  one_else : ∀ label, m.deed = .call (.otherwise label) →
    ∀ enc, m.around.head? = some enc → ¬HasElse enc
  /-- No further condition comes after the `else` of a decision. -/
  elseif_before_else : ∀ guard, m.deed = .call (.elseif guard) →
    ∀ enc, m.around.head? = some enc → ¬HasElse enc
  /-- A fork ends in at most one way. -/
  one_ending : ∀ c, m.deed = .call c → c.isEnding = true →
    ∀ enc, m.around.head? = some enc → ¬HasEnding enc
  /-- For a split no way to end is given. -/
  no_ending : ∀ c, m.deed = .call c → c.isEnding = true →
    ∀ enc, m.around.head? = some enc → enc.opening ≠ .split
  /-- A lane has its color and its label from its first use. -/
  lane_options : ∀ lane, m.deed = .call (.swimlane lane) →
    (∃ first, Call.swimlane first ∈ m.before ∧ first.name = lane.name) →
    lane.color = none ∧ lane.label = none

/-- The handles through which bodies are written. -/
inductive Handle where
  /-- The root, a branch, a partition or a group. -/
  | sequential
  | decision
  | switch
  | loop
  | parallel
  deriving DecidableEq

/-- The handle for the body of a construct. -/
def Opening.handle : Opening → Handle
  | .decision _ => .decision
  | .switch _ => .switch
  | .whileLoop _ | .repeatLoop _ => .loop
  | .fork | .split => .parallel
  | .branch | .partition .. | .group _ => .sequential

/-- The handle for what is written directly inside a construct, or at the root. -/
def handleIn : Option Opening → Handle
  | none => .sequential
  | some opening => opening.handle

namespace Handle

/-- The calls without a body that a handle offers. -/
def offersCall (h : Handle) : Call → Bool
  | .elseif _ | .otherwise _ => h = .decision
  | .case _ => h = .switch
  | .backward _ => h = .loop
  | .endMerge | .endJoin _ => h = .parallel
  | _ => h ≠ .parallel

/-- The constructs that a handle offers. -/
def offersConstruct (h : Handle) : Opening → Bool
  | .branch => h = .parallel
  | _ => h ≠ .parallel

end Handle

/-- What is offered inside a construct, and at the root. -/
def handles : Plan.Handles dialect where
  call place := (handleIn place).offersCall
  scope place := (handleIn place).offersConstruct

end UmlText.Activity
