import Mathlib.Data.List.Basic
import UmlText.Proofs.Contexts
import UmlText.Proofs.Sequence.Calls

/-!
# Stretches of activity

A participant is active for a *stretch*, which one call or message opens and a later one
closes.  The stretches of a diagram can be written down without an engine, from the calls
alone and in the order in which they are opened: a closing call closes the latest open
stretch of its participant, the end of a participant closes all of its stretches, and a
return closes the latest open one of all.

The engine remembers nothing but the participants of the stretches that are open.
-/

namespace UmlText.Sequence

/-- A stretch of activity of the participant with this alias. -/
structure Stretch where
  participant : String
  closed : Bool := false
  deriving DecidableEq

namespace Stretch

/-- Closes the first open stretch of a participant with a property. -/
def closeFirst (wanted : String → Bool) : List Stretch → List Stretch
  | [] => []
  | s :: rest =>
      if !s.closed && wanted s.participant then { s with closed := true } :: rest
      else s :: closeFirst wanted rest

/-- Closes the latest open stretch of a participant with a property. -/
def closeLatest (wanted : String → Bool) (all : List Stretch) : List Stretch :=
  (closeFirst wanted all.reverse).reverse

/-- Closes all stretches of a participant. -/
def closeAll (participant : String) (all : List Stretch) : List Stretch :=
  all.map fun s => if s.participant = participant then { s with closed := true } else s

/-- The participants of the open stretches; each stretch counts. -/
def openOf (all : List Stretch) : List String :=
  (all.filter fun s => !s.closed).map participant

end Stretch

/-- What a call does to the activity of participants. -/
inductive Pulse where
  /-- A stretch of the participant is opened. -/
  | opens (participant : String)
  /-- The latest open stretch of the participant is closed. -/
  | closes (participant : String)
  /-- All stretches of the participant are closed. -/
  | ends (participant : String)
  /-- The latest open stretch of all is closed. -/
  | returns
  deriving DecidableEq

namespace Pulse

/-- The stretches after a pulse. -/
def apply : Pulse → List Stretch → List Stretch
  | .opens participant, all => all ++ [{ participant }]
  | .closes participant, all => Stretch.closeLatest (fun p => p = participant) all
  | .ends participant, all => Stretch.closeAll participant all
  | .returns, all => Stretch.closeLatest (fun _ => true) all

/-- The participants of the open stretches after a pulse. -/
def onOpen : Pulse → List String → List String
  | .opens participant, active => active ++ [participant]
  | .closes participant, active => (active.reverse.erase participant).reverse
  | .ends participant, active => active.filter fun p => p ≠ participant
  | .returns, active => active.dropLast

end Pulse

/-- What the mark of a message does to the activity of its ends. -/
def Message.pulse? (m : Message String) : Option Pulse :=
  match m.activation, m.source, m.target with
  | some .activateTarget, _, some target => some (.opens target)
  | some .deactivateSource, some source, _ => some (.closes source)
  | some .destroyTarget, _, some target => some (.ends target)
  | _, _, _ => none

/-- What a call does to the activity of participants, if anything. -/
def Call.pulse? : Call → Option Pulse
  | .message m => m.pulse?
  | .reply _ => some .returns
  | .activate name _ => some (.opens name)
  | .deactivate name => some (.closes name)
  | .destroy name => some (.ends name)
  | _ => none

/-- The stretches after one more call. -/
def Call.stretchesAfter (all : List Stretch) (c : Call) : List Stretch :=
  match c.pulse? with
  | none => all
  | some pulse => pulse.apply all

/-- The stretches that these calls have opened, in the order of their openings. -/
def stretches (calls : List Call) : List Stretch :=
  calls.foldl Call.stretchesAfter []

/-- The participants of the open stretches after one more call. -/
def Call.openAfter (active : List String) (c : Call) : List String :=
  match c.pulse? with
  | none => active
  | some pulse => pulse.onOpen active

namespace Stretch

variable {all : List Stretch}

theorem openOf_append (first second : List Stretch) :
    openOf (first ++ second) = openOf first ++ openOf second := by
  unfold openOf
  rw [List.filter_append, List.map_append]

theorem openOf_reverse : openOf all.reverse = (openOf all).reverse := by
  unfold openOf
  rw [List.filter_reverse, List.map_reverse]

theorem openOf_cons (s : Stretch) :
    openOf (s :: all) = if s.closed then openOf all else s.participant :: openOf all := by
  cases hs : s.closed <;> simp [openOf, hs]

/-- Closing the first stretch takes its participant away. -/
theorem openOf_closeFirst (wanted : String → Bool) :
    openOf (closeFirst wanted all) = (openOf all).eraseP wanted := by
  induction all with
  | nil => rfl
  | cons s rest ih =>
      rw [closeFirst, openOf_cons]
      cases hclosed : s.closed with
      | true => simpa [openOf_cons, hclosed] using ih
      | false =>
          cases hwanted : wanted s.participant with
          | true => simp [openOf_cons, hwanted]
          | false => simpa [openOf_cons, hclosed, hwanted] using ih

theorem eraseP_true (names : List String) : names.eraseP (fun _ => true) = names.tail := by
  cases names <;> rfl

theorem openOf_closeLatest (wanted : String → Bool) :
    openOf (closeLatest wanted all) = ((openOf all).reverse.eraseP wanted).reverse := by
  rw [closeLatest, openOf_reverse, openOf_closeFirst, openOf_reverse]

theorem openOf_closeAll (participant : String) :
    openOf (closeAll participant all) = (openOf all).filter fun p => p ≠ participant := by
  induction all with
  | nil => rfl
  | cons s rest ih =>
      have hcons : closeAll participant (s :: rest) =
          (if s.participant = participant then { s with closed := true } else s) ::
            closeAll participant rest := rfl
      rw [hcons, openOf_cons, openOf_cons, ih]
      by_cases hs : s.participant = participant
      · cases hclosed : s.closed <;> simp [hs]
      · cases hclosed : s.closed <;> simp [hs, hclosed]

/-- Some stretch is open when a participant of an open one is left. -/
theorem openOf_ne_nil_iff : openOf all ≠ [] ↔ ∃ s ∈ all, s.closed = false := by
  simp [openOf, List.filter_eq_nil_iff]

end Stretch

/-- What a pulse does to the participants of the open stretches follows from what it does to
the stretches. -/
theorem Pulse.openOf_apply (pulse : Pulse) (all : List Stretch) :
    Stretch.openOf (pulse.apply all) = pulse.onOpen (Stretch.openOf all) := by
  cases pulse with
  | opens participant => exact Stretch.openOf_append all [{ participant }]
  | closes participant =>
      rw [apply, Stretch.openOf_closeLatest, onOpen, List.erase_eq_eraseP']
      rfl
  | ends participant => exact Stretch.openOf_closeAll participant
  | returns =>
      rw [apply, Stretch.openOf_closeLatest, onOpen, Stretch.eraseP_true, List.tail_reverse,
        List.reverse_reverse]

theorem openOf_stretches_concat (calls : List Call) (c : Call) :
    Stretch.openOf (stretches (calls ++ [c])) = c.openAfter (Stretch.openOf (stretches calls)) := by
  unfold stretches
  rw [List.foldl_append]
  change Stretch.openOf (Call.stretchesAfter _ c) = _
  unfold Call.stretchesAfter Call.openAfter
  cases c.pulse? with
  | none => rfl
  | some pulse => exact pulse.openOf_apply _

section Calls

open UmlText.Action

variable {e : Engine grammar} {active : Activations}

theorem map_name_deactivate (a : Alias) :
    (active.deactivate a).map Alias.name =
      ((active.map Alias.name).reverse.erase a.name).reverse := by
  rw [Activations.deactivate, List.map_reverse, List.map_erase fun _ _ => Alias.ext,
    List.map_reverse]

theorem map_name_destroy (a : Alias) :
    (active.destroy a).map Alias.name =
      (active.map Alias.name).filter fun p => p ≠ a.name := by
  rw [Activations.destroy, List.filter_map]
  congr 2
  funext b
  simp [Alias.ext_iff]

/-- An end of a message keeps its name. -/
theorem name_of_readEnd
    {name : Option String}
    {result : Option Alias}
    (h : readEnd name = some result) :
    name = result.map Alias.name := by
  cases name with
  | none =>
      cases h
      rfl
  | some name =>
      obtain ⟨a, ha, rfl⟩ := Option.map_eq_some_iff.mp h
      rw [Option.map_some, Alias.name_of_ofName? ha]

/-- What the mark of a message does to the open activations is its pulse. -/
theorem map_name_afterMessage
    {m : Message String}
    {source target : Option Alias}
    (hsource : readEnd m.source = some source)
    (htarget : readEnd m.target = some target) :
    (active.afterMessage { source, target, arrow := m.arrow, activation := m.activation }).map
      Alias.name = (Call.message m).openAfter (active.map Alias.name) := by
  obtain ⟨sourceName, targetName, text, arrow, activation⟩ := m
  obtain rfl : sourceName = source.map Alias.name := name_of_readEnd hsource
  obtain rfl : targetName = target.map Alias.name := name_of_readEnd htarget
  unfold Activations.afterMessage Call.openAfter Call.pulse? Message.pulse?
  cases activation with
  | none => rfl
  | some activation =>
      cases activation with
      | activateTarget => cases target <;> simp [Pulse.onOpen]
      | deactivateSource => cases source <;> simp [Pulse.onOpen, map_name_deactivate]
      | createTarget => rfl
      | destroyTarget => cases target <;> simp [Pulse.onOpen, map_name_destroy]

/-- A call that names one participant and changes the open activations. -/
theorem ends_named_context
    (node : Alias → Node)
    (change : Alias → Activations → Activations)
    (pulse : Pulse)
    {name : String}
    (hchange : ∀ a, a.name = name → ∀ active,
      (change a active).map Alias.name = pulse.onOpen (active.map Alias.name)) :
    (do
      let p ← resolveParticipant name
      rememberOpen (change p)
      append (node p)
      return none : Action grammar (Option Alias)).Ends e
      (fun _ e' => e'.context.map Alias.name = pulse.onOpen (e.context.map Alias.name))
      (fun _ _ => True) := by
  rw [resolveParticipant, Attempt.ends_bind]
  refine (ends_resolve_of_reading name participantKind).mono ?_ fun _ _ _ => trivial
  rintro a _ ⟨ha, _, rfl⟩
  rw [rememberOpen, Attempt.ends_bind, ends_remember, Attempt.ends_bind]
  refine (keepsContext_append (G := grammar) (node a) _).mono ?_ fun _ _ _ => trivial
  intro _ e' hcontext
  rw [Attempt.ends_pure, hcontext]
  exact hchange a (Alias.name_of_ofName? ha) _

theorem keepsContext_declare (p : ParticipantCall) : KeepsContext p.declare :=
  (keepsContext_valid _).bind fun _ => (keepsContext_chooseAlias _ _ _).bind fun _ =>
    (Action.keepsContext_declare _ _).bind fun _ => keepsContext_pure _

theorem keepsContext_resolveAll : ∀ names : List String, KeepsContext (resolveAll names)
  | [] => keepsContext_pure []
  | name :: rest => (keepsContext_resolve name participantKind).bind fun _ =>
      (keepsContext_resolveAll rest).bind fun _ => keepsContext_pure _

theorem keepsContext_resolvePlace (place : NotePlace String) :
    KeepsContext (resolvePlace place) := by
  cases place with
  | leftOf name => exact (keepsContext_resolve name _).bind fun _ => keepsContext_pure _
  | rightOf name => exact (keepsContext_resolve name _).bind fun _ => keepsContext_pure _
  | covering names =>
      rw [resolvePlace]
      split
      · exact (keepsContext_throw _).bind fun _ => (keepsContext_resolveAll names).bind fun _ =>
          keepsContext_pure _
      · exact (keepsContext_resolveAll names).bind fun _ => keepsContext_pure _
  | across => exact keepsContext_pure _

theorem keepsContext_ref (names : List String) (text : String) :
    KeepsContext (Call.perform (.ref names text)) := by
  have hwritten : KeepsContext (do
      let covered ← resolveAll names
      let text ← valid (freeText "ref text" text)
      append (.ref covered text)
      return none : Action grammar (Option Alias)) :=
    (keepsContext_resolveAll names).bind fun _ => (keepsContext_valid _).bind fun _ =>
      keepsContext_append_pure (G := grammar) _ _
  rw [Call.perform]
  split
  · exact (keepsContext_throw _).bind fun _ => hwritten
  · exact hwritten

/-- A call without a pulse leaves alone what is remembered. -/
theorem ends_context_of_keeps
    {c : Call}
    (hkeeps : KeepsContext c.perform)
    (hpulse : c.pulse? = none) :
    c.perform.Ends e
      (fun _ e' => e'.context.map Alias.name = c.openAfter (e.context.map Alias.name))
      (fun _ _ => True) := by
  refine (hkeeps e).mono ?_ fun _ _ _ => trivial
  intro _ e' hcontext
  rw [hcontext, Call.openAfter, hpulse]

theorem ends_message_context (m : Message String) :
    (Call.perform (.message m)).Ends e
      (fun _ e' => e'.context.map Alias.name =
        (Call.message m).openAfter (e.context.map Alias.name))
      (fun _ _ => True) := by
  rw [Call.perform, Attempt.ends_bind]
  refine (ends_resolveEnd m.source).mono ?_ fun _ _ _ => trivial
  rintro source _ ⟨hsource, _, rfl⟩
  rw [Attempt.ends_bind]
  refine (ends_resolveEnd m.target).mono ?_ fun _ _ _ => trivial
  rintro target _ ⟨htarget, _, rfl⟩
  simp only [Attempt.ends_bind, ends_valid, rememberOpen, ends_remember, Attempt.ends_pure]
  refine ⟨fun _ _ => ⟨fun text _ => ?_, fun _ _ => trivial⟩, fun _ _ => trivial⟩
  refine (keepsContext_append (G := grammar) _ _).mono ?_ fun _ _ _ => trivial
  intro _ e' hcontext
  rw [hcontext]
  exact map_name_afterMessage hsource htarget

/-- A return takes away the latest one of the open activations. -/
theorem ends_reply_context (text : Option String) :
    (Call.perform (.reply text)).Ends e
      (fun _ e' => e'.context.map Alias.name =
        (Call.reply text).openAfter (e.context.map Alias.name))
      (fun _ _ => True) := by
  simp only [Call.perform, Attempt.ends_bind, ends_valid, Attempt.ends_get, Attempt.ends_ite,
    ends_misplaced, rememberOpen, ends_remember, Attempt.ends_pure]
  refine ⟨fun _ _ => ⟨fun _ => trivial, fun _ => ?_⟩, fun _ _ => trivial⟩
  refine (keepsContext_append (G := grammar) _ _).mono ?_ fun _ _ _ => trivial
  intro _ e' hcontext
  rw [hcontext]
  exact List.map_dropLast

/-- The engine remembers the participants of the stretches that are open. -/
theorem ends_perform_context (c : Call) (e : Engine grammar) :
    c.perform.Ends e
      (fun _ e' => e'.context.map Alias.name = c.openAfter (e.context.map Alias.name))
      (fun _ _ => True) := by
  have hchild (node : Node) (answer : Option Alias) :=
    keepsContext_append_pure (G := grammar) node answer
  cases c with
  | participant p =>
      exact ends_context_of_keeps ((keepsContext_declare p).bind fun _ => hchild _ _) rfl
  | create p =>
      exact ends_context_of_keeps ((keepsContext_declare p).bind fun _ => hchild _ _) rfl
  | message m => exact ends_message_context m
  | reply text => exact ends_reply_context text
  | note n =>
      exact ends_context_of_keeps ((keepsContext_resolvePlace n.place).bind fun _ =>
        (keepsContext_valid _).bind fun _ => hchild _ _) rfl
  | ref names text => exact ends_context_of_keeps (keepsContext_ref names text) rfl
  | activate name color =>
      refine ends_named_context (.activate · color) (fun a active => active ++ [a]) (.opens name) ?_
      rintro a rfl active
      exact List.map_append
  | deactivate name =>
      refine ends_named_context .deactivate (fun a active => active.deactivate a) (.closes name) ?_
      rintro a rfl active
      exact map_name_deactivate a
  | destroy name =>
      refine ends_named_context .destroy (fun a active => active.destroy a) (.ends name) ?_
      rintro a rfl active
      exact map_name_destroy a
  | otherwise label =>
      exact ends_context_of_keeps ((keepsContext_valid _).bind fun _ =>
        keepsContext_mark_pure (G := grammar) _ _ _ _) rfl
  | divider text | delay text | space pixels | autonumber n =>
      exact ends_context_of_keeps ((keepsContext_valid _).bind fun _ => hchild _ _) rfl

end Calls

end UmlText.Sequence
