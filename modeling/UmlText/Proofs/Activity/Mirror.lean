import UmlText.Proofs.Activity.Moments
import UmlText.Proofs.Nesting

/-!
# Moments and the engine

An engine *mirrors* the surroundings of a moment when its open scopes are the constructs
around the moment, each in the state in which the calls before have left it, and when its
registry and its lanes are those of the earlier calls.  What the engine looks at to decide
about a call can then be read off the moment, and the changes of an open scope follow the
calls that stand in it.
-/

namespace UmlText.Activity

open UmlText.Action

/-- The open scope is the construct, in the state in which the calls before have left it. -/
def Stands (enc : Plan.Enclosure dialect) (scope : Scope) : Prop :=
  match enc.opening with
  | .decision _ =>
      ∃ guard body rest, scope = .decision guard body rest ∧ (rest.isClosed = true ↔ HasElse enc)
  | .switch _ => ∃ test cases, scope = .switch test cases ∧ (cases ≠ [] ↔ HasCase enc)
  | .whileLoop _ => ∃ head body, scope = .whileLoop head body
  | .repeatLoop _ =>
      ∃ head body backward, scope = .repeatLoop head body backward ∧
        (backward ≠ none ↔ HasBackward enc)
  | .fork => ∃ ending branches, scope = .fork ending branches ∧ (ending ≠ none ↔ HasEnding enc)
  | .split => ∃ branches, scope = .split branches
  | .branch => ∃ body, scope = .branch body
  | .partition .. => ∃ name color body, scope = .partition name color body
  | .group _ => ∃ name body, scope = .group name body

/-- The open scopes are the constructs, the innermost one first. -/
abbrev Standing : List (Plan.Enclosure dialect) → List (Frame grammar) → Prop :=
  List.Forall₂ fun enc frame => Stands enc frame.scope

/-- The engine has come to where a call finds these constructs around it, and these calls
before it. -/
structure Mirrors
    (around : List (Plan.Enclosure dialect))
    (before : List Call)
    (e : Engine grammar) : Prop where
  standing : Standing around e.stack
  labels : ∀ name, (∃ a ∈ e.registry.aliases, a.name = name) ↔ Call.label name ∈ before
  kinds : ∀ entry ∈ e.registry.entries, entry.2 = labelKind
  lanes : ∀ name, name ∈ e.context ↔ ∃ lane, Call.swimlane lane ∈ before ∧ lane.name = name
  nested : Nested (d := dialect) e.stack
  unfailed : e.failedAt = none

/-- The handle through which the innermost body is written. -/
def handleOf (around : List (Plan.Enclosure dialect)) : Handle :=
  handleIn (Plan.openings around).head?

/-- The innermost construct, if it is a switch or a loop, takes a child. -/
def TakesChild (around : List (Plan.Enclosure dialect)) : Prop :=
  (∀ test enc, around.head? = some enc → enc.opening = .switch test → HasCase enc) ∧
    ∀ head enc, around.head? = some enc → enc.opening = .repeatLoop head → ¬HasBackward enc

section Standing

variable {enc : Plan.Enclosure dialect} {scope scope' : Scope} {c : Call}
variable {around : List (Plan.Enclosure dialect)} {stack : List (Frame grammar)}

/-- A construct is opened in the state in which no call has been made in it. -/
theorem stands_holding (opening : Opening) :
    Stands ⟨opening, []⟩ (opening.holding [] []) := by
  cases opening with
  | decision guard =>
      exact ⟨_, _, _, rfl, by simp [HasElse, alternativesOf, Alternatives.isClosed]⟩
  | switch test => exact ⟨_, _, rfl, by simp [HasCase, casesOf]⟩
  | whileLoop head => exact ⟨_, _, rfl⟩
  | repeatLoop head => exact ⟨_, _, _, rfl, by simp [HasBackward, backwardOf]⟩
  | fork => exact ⟨_, _, rfl, by simp [HasEnding, endingOf]⟩
  | split => exact ⟨_, rfl⟩
  | branch => exact ⟨_, rfl⟩
  | partition name color => exact ⟨_, _, _, rfl⟩
  | group name => exact ⟨_, _, rfl⟩

/-- A construct is a loop when its open scope is one. -/
theorem isLoop_of_stands (h : Stands enc scope) : scope.isLoop = enc.opening.isLoop := by
  obtain ⟨opening, earlier⟩ := enc
  cases opening with
  | decision guard =>
      obtain ⟨_, _, _, rfl, _⟩ := h
      rfl
  | switch test =>
      obtain ⟨_, _, rfl, _⟩ := h
      rfl
  | whileLoop head =>
      obtain ⟨_, _, rfl⟩ := h
      rfl
  | repeatLoop head =>
      obtain ⟨_, _, _, rfl, _⟩ := h
      rfl
  | fork =>
      obtain ⟨_, _, rfl, _⟩ := h
      rfl
  | split =>
      obtain ⟨_, rfl⟩ := h
      rfl
  | branch =>
      obtain ⟨_, rfl⟩ := h
      rfl
  | partition name color =>
      obtain ⟨_, _, _, rfl⟩ := h
      rfl
  | group name =>
      obtain ⟨_, _, rfl⟩ := h
      rfl

/-- There is a loop among the open scopes when there is one among the constructs. -/
theorem exists_isLoop_iff (h : Standing around stack) :
    (∃ frame ∈ stack, frame.scope.isLoop = true) ↔
      ∃ enc ∈ around, enc.opening.isLoop = true := by
  induction h with
  | nil => simp
  | cons hstands _ ih => simp only [List.mem_cons, exists_eq_or_imp, ih, isLoop_of_stands hstands]

/-- A construct that is not parallel takes a child where its open scope does. -/
theorem expectation_eq_none_iff
    (h : Stands enc scope)
    (hhandle : enc.opening.handle ≠ .parallel) :
    scope.expectation = none ↔ TakesChild (enc :: around) := by
  obtain ⟨opening, earlier⟩ := enc
  cases opening with
  | decision guard =>
      obtain ⟨_, _, _, rfl, _⟩ := h
      simp [Scope.expectation, TakesChild]
  | switch test =>
      obtain ⟨_, cases, rfl, hcase⟩ := h
      have htakes : TakesChild (⟨.switch test, earlier⟩ :: around) ↔ cases ≠ [] := by
        simp [TakesChild, hcase]
      rw [htakes]
      cases cases <;> simp [Scope.expectation]
  | whileLoop head =>
      obtain ⟨_, _, rfl⟩ := h
      simp [Scope.expectation, TakesChild]
  | repeatLoop head =>
      obtain ⟨_, _, backward, rfl, hbackward⟩ := h
      have htakes : TakesChild (⟨.repeatLoop head, earlier⟩ :: around) ↔ backward = none := by
        simp [TakesChild, ← hbackward]
      rw [htakes]
      cases backward <;> simp [Scope.expectation]
  | fork => exact absurd rfl hhandle
  | split => exact absurd rfl hhandle
  | branch =>
      obtain ⟨_, rfl⟩ := h
      simp [Scope.expectation, TakesChild]
  | partition name color =>
      obtain ⟨_, _, _, rfl⟩ := h
      simp [Scope.expectation, TakesChild]
  | group name =>
      obtain ⟨_, _, rfl⟩ := h
      simp [Scope.expectation, TakesChild]

/-- An element is taken where the innermost construct takes a child. -/
theorem push_iff_takesChild
    (h : Standing around stack)
    (hhandle : handleOf around ≠ .parallel)
    (node : Node) :
    (∀ (frame : Frame grammar) outer, stack = frame :: outer →
      ∃ scope, Scope.push frame.scope node = .ok scope) ↔ TakesChild around := by
  cases h with
  | nil => simp [TakesChild]
  | cons hstands _ =>
      rw [← expectation_eq_none_iff hstands hhandle]
      constructor
      · intro hpush
        obtain ⟨scope, hscope⟩ := hpush _ _ rfl
        exact (Scope.push_eq_ok_iff.mp hscope).1
      · rintro hclear _ _ ⟨⟩
        exact ⟨_, Scope.push_eq_ok_iff.mpr ⟨hclear, rfl⟩⟩

theorem isClosed_push
    {node : Node} :
    ∀ {rest rest' : Alternatives}, rest.push node = some rest' → rest'.isClosed = rest.isClosed
  | .nothing, _, h => by cases h
  | .elseif guard body rest, _, h => by
      unfold Alternatives.push at h
      cases hrest : rest.push node with
      | none =>
          rw [hrest] at h
          cases h
          rfl
      | some pushed =>
          rw [hrest] at h
          cases h
          have hpushed := isClosed_push hrest
          exact hpushed
  | .otherwise label body, _, h => by
      cases h
      rfl

theorem isClosed_extend (more : Alternatives) :
    ∀ rest : Alternatives, rest.isClosed = false →
      (rest.extend more).isClosed = more.isClosed
  | .nothing, _ => rfl
  | .elseif _ _ rest, h => isClosed_extend more rest h

theorem pushCase_ne_nil_iff {node : Node} {cases : List (String × List Node)} :
    pushCase node cases ≠ [] ↔ cases ≠ [] := by
  match cases with
  | [] => simp [pushCase]
  | [(label, body)] => simp [pushCase]
  | first :: second :: rest => simp [pushCase]

/-- An element leaves the construct in the state in which it was. -/
theorem stands_add
    (h : Stands enc scope)
    (node : Node) :
    Stands enc (scope.add node) := by
  obtain ⟨opening, earlier⟩ := enc
  cases opening with
  | decision guard =>
      obtain ⟨first, body, rest, rfl, hclosed⟩ := h
      simp only [Scope.add]
      cases hrest : rest.push node with
      | none => exact ⟨first, _, rest, rfl, hclosed⟩
      | some pushed =>
          refine ⟨first, body, pushed, rfl, ?_⟩
          rw [isClosed_push hrest]
          exact hclosed
  | switch test =>
      obtain ⟨_, cases, rfl, hcase⟩ := h
      exact ⟨_, _, rfl, pushCase_ne_nil_iff.trans hcase⟩
  | whileLoop head =>
      obtain ⟨_, _, rfl⟩ := h
      exact ⟨_, _, rfl⟩
  | repeatLoop head =>
      obtain ⟨_, _, _, rfl, hbackward⟩ := h
      exact ⟨_, _, _, rfl, hbackward⟩
  | fork =>
      obtain ⟨_, _, rfl, hending⟩ := h
      exact ⟨_, _, rfl, hending⟩
  | split =>
      obtain ⟨_, rfl⟩ := h
      exact ⟨_, rfl⟩
  | branch =>
      obtain ⟨_, rfl⟩ := h
      exact ⟨_, rfl⟩
  | partition name color =>
      obtain ⟨_, _, _, rfl⟩ := h
      exact ⟨_, _, _, rfl⟩
  | group name =>
      obtain ⟨_, _, rfl⟩ := h
      exact ⟨_, _, rfl⟩

/-- A construct that was closed leaves the one around it in the state in which it was. -/
theorem stands_adopt
    {inner : Scope}
    (h : Stands enc scope)
    (hadopt : scope.adopt inner = .ok scope') :
    Stands enc scope' := by
  cases hbranch : inner.isBranch with
  | false =>
      obtain ⟨node, _, hpush⟩ := (Scope.adopt_eq_ok_iff hbranch).mp hadopt
      obtain ⟨_, rfl⟩ := Scope.push_eq_ok_iff.mp hpush
      exact stands_add h node
  | true =>
      cases inner <;> cases hbranch
      obtain ⟨opening, earlier⟩ := enc
      rcases Scope.adopt_branch_eq_ok_iff.mp hadopt with
        ⟨ending, branches, rfl, rfl⟩ | ⟨branches, rfl, rfl⟩
      · cases opening with
        | fork =>
            obtain ⟨_, _, hscope, hending⟩ := h
            cases hscope
            exact ⟨ending, _, rfl, hending⟩
        | _ => simp [Stands] at h
      · cases opening with
        | split => exact ⟨_, rfl⟩
        | _ => simp [Stands] at h

/-- A call that is no marker does not change the state of the construct it stands in. -/
theorem stands_append_of_not_isMarker
    (h : Stands enc scope)
    (hmarker : c.isMarker = false) :
    Stands { enc with earlier := enc.earlier ++ [c] } scope := by
  obtain ⟨opening, earlier⟩ := enc
  have hsame : ∀ marker : Call, marker.isMarker = true →
      (marker ∈ earlier ++ [c] ↔ marker ∈ earlier) := by
    intro marker hmark
    have hne : marker ≠ c := by
      rintro rfl
      rw [hmark] at hmarker
      cases hmarker
    simp [hne]
  cases opening with
  | decision guard =>
      obtain ⟨_, _, _, hscope, hclosed⟩ := h
      refine ⟨_, _, _, hscope, hclosed.trans ?_⟩
      exact exists_congr fun label => (hsame (.otherwise label) rfl).symm
  | switch test =>
      obtain ⟨_, _, hscope, hcase⟩ := h
      refine ⟨_, _, hscope, hcase.trans ?_⟩
      exact exists_congr fun label => (hsame (.case label) rfl).symm
  | repeatLoop head =>
      obtain ⟨_, _, _, hscope, hbackward⟩ := h
      refine ⟨_, _, _, hscope, hbackward.trans ?_⟩
      exact exists_congr fun text => (hsame (.backward text) rfl).symm
  | fork =>
      obtain ⟨_, _, hscope, hending⟩ := h
      refine ⟨_, _, hscope, hending.trans ?_⟩
      refine exists_congr fun marker => ?_
      constructor
      · rintro ⟨hmem, hend⟩
        exact ⟨List.mem_append_left _ hmem, hend⟩
      · rintro ⟨hmem, hend⟩
        refine ⟨(hsame marker ?_).mp hmem, hend⟩
        cases marker <;> first | rfl | cases hend
  | _ => exact h

theorem exists_element_of_not_isMarker
    {item : Item Node Clause}
    (hitem : c.item = some item)
    (hmarker : c.isMarker = false) :
    ∃ node, item = .element node := by
  cases c with
  | label name =>
      obtain ⟨a, _, rfl⟩ := Option.map_eq_some_iff.mp hitem
      exact ⟨_, rfl⟩
  | goto name =>
      obtain ⟨a, _, rfl⟩ := Option.map_eq_some_iff.mp hitem
      exact ⟨_, rfl⟩
  | elseif | otherwise | case | backward | endMerge | endJoin => cases hmarker
  | _ =>
      cases hitem
      exact ⟨_, rfl⟩

/-- What a call puts into a construct, or changes in it, brings it into the state that the
call leaves behind. -/
theorem stands_of_grows
    {item : Item Node Clause}
    (h : Stands enc scope)
    (hitem : c.item = some item)
    (hgrows : realization.Grows item scope scope') :
    Stands { enc with earlier := enc.earlier ++ [c] } scope' := by
  cases hmarker : c.isMarker with
  | false =>
      obtain ⟨node, rfl⟩ := exists_element_of_not_isMarker hitem hmarker
      obtain ⟨_, rfl⟩ := Scope.push_eq_ok_iff.mp hgrows
      exact stands_append_of_not_isMarker (stands_add h node) hmarker
  | true =>
      obtain ⟨opening, earlier⟩ := enc
      cases c with
      | elseif guard =>
          cases hitem
          obtain ⟨first, body, rest, rfl, hopen, rfl⟩ := Scope.addElseif_eq_ok_iff.mp hgrows
          cases opening with
          | decision _ =>
              obtain ⟨_, _, _, hscope, hclosed⟩ := h
              cases hscope
              rw [hopen] at hclosed
              refine ⟨first, body, _, rfl, ?_⟩
              rw [isClosed_extend _ rest hopen]
              simpa [HasElse, Alternatives.isClosed] using hclosed
          | _ => simp [Stands] at h
      | otherwise label =>
          cases hitem
          obtain ⟨first, body, rest, rfl, hopen, rfl⟩ := Scope.addOtherwise_eq_ok_iff.mp hgrows
          cases opening with
          | decision _ =>
              refine ⟨first, body, _, rfl, ?_⟩
              rw [isClosed_extend _ rest hopen]
              exact ⟨fun _ => ⟨label, by simp⟩, fun _ => rfl⟩
          | _ => simp [Stands] at h
      | case label =>
          cases hitem
          obtain ⟨test, cases, rfl, rfl⟩ := Scope.addCase_eq_ok_iff.mp hgrows
          cases opening with
          | switch _ => exact ⟨test, _, rfl, fun _ => ⟨label, by simp⟩, fun _ => by simp⟩
          | _ => simp [Stands] at h
      | backward text =>
          cases hitem
          obtain ⟨head, body, rfl, rfl⟩ := Scope.setBackward_eq_ok_iff.mp hgrows
          cases opening with
          | repeatLoop _ => exact ⟨head, body, _, rfl, fun _ => ⟨text, by simp⟩, fun _ => by simp⟩
          | _ => simp [Stands] at h
      | endMerge =>
          cases hitem
          obtain ⟨branches, rfl, rfl⟩ := Scope.setEnding_eq_ok_iff.mp hgrows
          cases opening with
          | fork => exact ⟨_, branches, rfl, fun _ => ⟨.endMerge, by simp, rfl⟩, fun _ => by simp⟩
          | _ => simp [Stands] at h
      | endJoin label =>
          cases hitem
          obtain ⟨branches, rfl, rfl⟩ := Scope.setEnding_eq_ok_iff.mp hgrows
          cases opening with
          | fork =>
              exact ⟨_, branches, rfl, fun _ => ⟨.endJoin label, by simp, rfl⟩, fun _ => by simp⟩
          | _ => simp [Stands] at h
      | _ => cases hmarker

end Standing

end UmlText.Activity
