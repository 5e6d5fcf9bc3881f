import UmlText.Proofs.Activity.Verdicts
import UmlText.Proofs.Contexts

/-!
# Steps of a run

A numbered call that is made in an engine that mirrors its moment either passes, and then
the engine mirrors what the next call finds, or it is stopped because it does not fit.  A
call without a body is one more call in the innermost construct, a call that enters a
construct makes it the innermost one, and a call that leaves it gives back the construct
around it; leaving a construct never fails.  The lanes are changed by the call that switches
to one, and by no other call.
-/

namespace UmlText.Activity

open UmlText.Action

variable {around : List (Plan.Enclosure dialect)} {before : List Call}
variable {e e' : Engine grammar} {c : Call}

section Lanes

/-- The known lanes once a lane is used. -/
def withLane (lanes : Lanes) : Option String → Lanes
  | none => lanes
  | some name => if name ∈ lanes then lanes else lanes ++ [name]

theorem mem_withLane_iff
    {lanes : Lanes}
    {lane? : Option String}
    {name : String} :
    name ∈ withLane lanes lane? ↔ name ∈ lanes ∨ lane? = some name := by
  cases lane? with
  | none => simp [withLane]
  | some used =>
      rw [withLane, Option.some.injEq]
      split
      · next hknown =>
          constructor
          · exact .inl
          · rintro (hmem | rfl)
            · exact hmem
            · exact hknown
      · rw [List.mem_append, List.mem_singleton, eq_comm]

/-- The lane that a call switches to. -/
def Call.lane? : Call → Option String
  | .swimlane lane => some lane.name
  | _ => none

theorem Call.lane?_eq_some_iff {name : String} :
    c.lane? = some name ↔ ∃ lane, c = .swimlane lane ∧ lane.name = name := by
  cases c <;> simp [Call.lane?]

/-- What a call that has succeeded has checked against the open scopes and the known lanes,
and which lanes are known then. -/
structure Obeyed (c : Call) (e e' : Engine grammar) : Prop where
  inLoop : c = .point .leaveLoop → ∃ frame ∈ e.stack, frame.scope.isLoop = true
  options : ∀ lane, c = .swimlane lane → lane.name ∈ e.context →
    lane.color = none ∧ lane.label = none
  lanes : e'.context = withLane e.context c.lane?

theorem keepsContext_point (p : Point) : KeepsContext (placePoint p) := by
  intro e
  simp only [placePoint, Attempt.ends_bind, Attempt.ends_get, Attempt.ends_ite, ends_refuse]
  exact ⟨fun _ => trivial, fun _ => keepsContext_append (G := grammar) (.point p) e⟩

/-- Only a call that switches to a lane changes the lanes. -/
theorem keepsContext_perform (hlane : ∀ lane, c ≠ .swimlane lane) : KeepsContext c.perform := by
  have hchild (node : Node) (answer : Option Alias) :=
    keepsContext_append_pure (G := grammar) node answer
  have hmark (what expected : String) (clause : Scope → Option (Except Fault Scope)) :=
    keepsContext_mark_pure (G := grammar) what expected clause (none : Option Alias)
  cases c with
  | point p => exact (keepsContext_point p).bind fun _ => keepsContext_pure none
  | action a => exact (keepsContext_valid _).bind fun _ => hchild _ _
  | arrow a => exact (keepsContext_valid _).bind fun _ => hchild _ _
  | note n => exact (keepsContext_valid _).bind fun _ => hchild _ _
  | connector name => exact (keepsContext_valid _).bind fun _ => hchild _ _
  | label name =>
      exact (keepsContext_valid _).bind fun a =>
        (keepsContext_declare a labelKind).bind fun _ => hchild _ _
  | goto name => exact (keepsContext_resolve name labelKind).bind fun _ => hchild _ _
  | swimlane lane => exact absurd rfl (hlane lane)
  | elseif guard => exact (keepsContext_valid _).bind fun _ => hmark _ _ _
  | otherwise label => exact (keepsContext_valid _).bind fun _ => hmark _ _ _
  | case label => exact (keepsContext_valid _).bind fun _ => hmark _ _ _
  | backward text => exact (keepsContext_valid _).bind fun _ => hmark _ _ _
  | endMerge => exact hmark _ _ _
  | endJoin label => exact (keepsContext_valid _).bind fun _ => hmark _ _ _

theorem ends_point_obeyed (p : Point) :
    (Call.perform (.point p)).Ends e (fun _ e' => Obeyed (.point p) e e') (fun _ _ => True) := by
  have hloop : ¬(e.enclosing? Scope.isLoop).isNone = true →
      ∃ frame ∈ e.stack, frame.scope.isLoop = true := by
    intro h
    simpa [Engine.enclosing?] using h
  simp only [Call.perform, placePoint, Attempt.ends_bind, Attempt.ends_get, Attempt.ends_ite,
    ends_refuse, Attempt.ends_pure]
  refine ⟨fun _ => trivial, fun hplace => ?_⟩
  refine (keepsContext_append (G := grammar) (.point p) e).mono ?_ fun _ _ _ => trivial
  intro _ e' hcontext
  refine ⟨fun hp => hloop fun hnone => ?_, (fun _ hc => by cases hc), hcontext⟩
  cases hp
  exact hplace ⟨rfl, hnone⟩

theorem ends_swimlane_obeyed (lane : Swimlane) :
    (Call.perform (.swimlane lane)).Ends e (fun _ e' => Obeyed (.swimlane lane) e e')
      (fun _ _ => True) := by
  simp only [Call.perform, placeSwimlane, Attempt.ends_bind, ends_valid, Attempt.ends_pure,
    Attempt.ends_ite, Attempt.ends_get, Attempt.ends_throw, ends_remember,
    singleLine_eq_ok_iff, optionally_freeText_eq_ok_iff]
  refine ⟨?_, fun _ _ => trivial⟩
  rintro _ ⟨_, _, rfl⟩
  refine ⟨?_, fun _ _ => trivial⟩
  rintro _ ⟨_, rfl⟩
  refine ⟨fun hknown => ⟨fun _ => trivial, fun hcolor => ⟨fun _ => trivial, fun hlabel => ?_⟩⟩,
    fun hnew => ?_⟩
  · refine (keepsContext_append (G := grammar) _ e).mono ?_ fun _ _ _ => trivial
    intro _ e' hcontext
    refine ⟨(fun hc => by cases hc), ?_, ?_⟩
    · rintro _ ⟨⟩ _
      simpa using And.intro hcolor hlabel
    · simp [withLane, Call.lane?, hknown, hcontext]
  · refine (keepsContext_append (G := grammar) _ e).mono ?_ fun _ _ _ => trivial
    intro _ e' hcontext
    refine ⟨(fun hc => by cases hc), ?_, ?_⟩
    · rintro _ ⟨⟩ hmem
      exact absurd hmem hnew
    · simp [withLane, Call.lane?, hnew, hcontext]

theorem ends_perform_obeyed (c : Call) (e : Engine grammar) :
    c.perform.Ends e (fun _ e' => Obeyed c e e') (fun _ _ => True) := by
  cases c with
  | point p => exact ends_point_obeyed p
  | swimlane lane => exact ends_swimlane_obeyed lane
  | _ =>
      refine (keepsContext_perform (fun _ hc => by cases hc) e).mono ?_ fun _ _ _ => trivial
      intro _ e' hcontext
      exact ⟨(fun hc => by cases hc), (fun _ hc => by cases hc), hcontext⟩

end Lanes

section Steps

/-- Counting a call changes nothing that the call finds. -/
theorem Mirrors.counted (h : Mirrors around before e) : Mirrors around before e.counted :=
  ⟨h.standing, h.labels, h.kinds, h.lanes, h.nested, h.unfailed⟩

/-- What an engine mirrors behind the same calls depends on its scopes alone, if it still
knows the same. -/
theorem Mirrors.of_standing
    {around' : List (Plan.Enclosure dialect)}
    (h : Mirrors around before e)
    (hstanding : Standing around' e'.stack)
    (hnested : Nested (d := dialect) e'.stack)
    (hregistry : e'.registry = e.registry)
    (hcontext : e'.context = e.context)
    (hnone : e'.failedAt = none) :
    Mirrors around' before e' :=
  ⟨hstanding, hregistry ▸ h.labels, hregistry ▸ h.kinds, hcontext ▸ h.lanes, hnested, hnone⟩

theorem exists_declaration_iff
    {item : Item Node Clause}
    (hitem : c.item = some item)
    (depth : Nat)
    (name : String) :
    (∃ a ∈ Finding.declarations (inventory.item depth item), a.name = name) ↔
      c = .label name := by
  cases c with
  | label given =>
      obtain ⟨a, ha, rfl⟩ := Option.map_eq_some_iff.mp hitem
      have hname : a.name = given := Alias.name_of_ofName? ha
      simp [Node.survey, Finding.declarations, Finding.declaration?, hname]
  | goto given =>
      obtain ⟨a, ha, rfl⟩ := Option.map_eq_some_iff.mp hitem
      simp [Node.survey, Finding.declarations, Finding.declaration?]
  | _ =>
      cases hitem
      simp [Node.survey, Clause.survey, Finding.declarations, Finding.declaration?]

/-- The constructs stand as the call leaves them when the tree has taken what it is read as.
-/
theorem standing_of_takes
    {item : Item Node Clause}
    (hstanding : Standing around e.stack)
    (hitem : c.item = some item)
    (htakes : realization.Takes item e e') :
    Standing (Plan.noted [c] around) e'.stack := by
  unfold Realization.Takes at htakes
  generalize e.stack = stack at hstanding htakes
  cases hstanding with
  | nil =>
      obtain ⟨hstack', _⟩ := htakes
      rw [hstack']
      exact .nil
  | cons hstands hrest =>
      obtain ⟨_, scope, hgrows, hstack'⟩ := htakes
      rw [hstack']
      exact .cons (stands_of_grows hstands hitem hgrows) hrest

/-- A call that has done what it is read as leaves an engine that mirrors the next moment. -/
theorem Mirrors.performed
    (hmirrors : Mirrors around before e)
    (hperformed : realization.Performed inventory c e e')
    (hlanes : e'.context = withLane e.context c.lane?) :
    Mirrors (Plan.noted [c] around) (before ++ [c]) e' := by
  obtain ⟨⟨item, hread, htakes, hbooks⟩, hcounts⟩ := hperformed
  obtain ⟨item', hitem, hpair⟩ := Option.map_eq_some_iff.mp hread
  obtain rfl : item' = item := congrArg Prod.fst hpair
  refine ⟨standing_of_takes hmirrors.standing hitem htakes, fun name => ?_, fun entry hmem => ?_,
    fun name => ?_, settled.nested_of_takes htakes hmirrors.nested,
    hcounts.failedAt.trans hmirrors.unfailed⟩
  · rw [(hbooks 0).aliases]
    simp only [List.mem_append, or_and_right, exists_or, exists_declaration_iff hitem,
      hmirrors.labels, List.mem_singleton]
    rw [or_comm, eq_comm]
  · rw [(hbooks 0).entries] at hmem
    rcases List.mem_append.mp hmem with hnew | hold
    · obtain ⟨a, _, rfl⟩ := List.mem_map.mp hnew
      rfl
    · exact hmirrors.kinds entry hold
  · rw [hlanes, mem_withLane_iff, hmirrors.lanes, Call.lane?_eq_some_iff]
    simp only [List.mem_append, List.mem_singleton, or_and_right, exists_or, eq_comm]

/-- A call without a body passes or is stopped. -/
theorem ends_call
    (hmirrors : Mirrors around before e)
    (hoffers : handles.call (Plan.openings around).head? c = true) :
    (dialect.callBuild c).Ends e
      (fun _ e' => Plan.Passed Fits Mirrors [⟨.call c, around, before⟩] (Plan.noted [c] around)
        (before ++ [c]) e e')
      (fun _ e' => Plan.Stopped Fits [⟨.call c, around, before⟩] e e') := by
  have hcounted := hmirrors.counted
  have hperformed := perform_ends c e.counted
  have hobeyed := ends_perform_obeyed c e.counted
  have hdecided := Attempt.Ends.of_succeeds_iff (perform_succeeds_iff hcounted hoffers)
  unfold Dialect.callBuild
  rw [Engine.ends_step_of_unfailed _ hmirrors.unfailed]
  simp only [Attempt.ends_bind, Attempt.ends_pure]
  refine ((hperformed.and hobeyed).and hdecided).mono ?_ ?_
  · rintro _ e' ⟨⟨hdone, hkept⟩, hfits⟩
    exact Plan.passed_singleton hfits (hcounted.performed hdone hkept.lanes) hdone.counts.calls
  · rintro fault after ⟨_, hunfit⟩
    exact Plan.stopped_singleton hunfit rfl

/-- A construct that the handle offers has a place where the construct around it takes a
child. -/
theorem obstacle_eq_none_iff
    {opening : Opening}
    (hstanding : Standing around e.stack)
    (hoffers : handles.scope (Plan.openings around).head? opening = true) :
    obstacle? e (opening.holding [] []) = none ↔ TakesChild around := by
  unfold obstacle?
  generalize e.stack = stack at hstanding
  cases hstanding with
  | nil =>
      have hroot : Scope.rootObstacle (opening.holding [] []) = none := by
        cases opening with
        | branch => cases hoffers
        | _ => rfl
      simp [TakesChild, hroot]
  | @cons enc frame around outer hstands _ =>
      change Scope.obstacle frame.scope (opening.holding [] []) = none ↔ _
      cases hbranch : (opening.holding [] []).isBranch with
      | true =>
          -- a branch stands in a fork or split, where it always has a place
          have hhandle : enc.opening.handle = .parallel := by
            cases opening <;> cases hbranch
            exact of_decide_eq_true hoffers
          obtain ⟨parallel, earlier⟩ := enc
          have hplace : Scope.obstacle frame.scope (opening.holding [] []) = none := by
            rw [Scope.obstacle, hbranch, if_pos rfl]
            cases parallel <;> cases hhandle
            · obtain ⟨_, _, hscope, _⟩ := hstands
              rw [hscope]
              rfl
            · obtain ⟨_, hscope⟩ := hstands
              rw [hscope]
              rfl
          rw [hplace]
          cases parallel <;> cases hhandle <;> simp [TakesChild]
      | false =>
          have hhandle : enc.opening.handle ≠ .parallel := by
            cases opening with
            | branch => cases hbranch
            | _ => exact of_decide_eq_true hoffers
          rw [← expectation_eq_none_iff hstands hhandle, Scope.obstacle, hbranch]
          rfl

/-- A construct is entered or the call is stopped. -/
theorem ends_enter
    {opening : Opening}
    (hmirrors : Mirrors around before e)
    (hoffers : handles.scope (Plan.openings around).head? opening = true) :
    (Engine.enter (dialect.openingAction opening)).Ends e
      (fun _ e' => Plan.Passed Fits Mirrors [⟨.enter opening, around, before⟩]
        (⟨opening, []⟩ :: around) before e e')
      (fun _ e' => Plan.Stopped Fits [⟨.enter opening, around, before⟩] e e') := by
  have hplace := obstacle_eq_none_iff hmirrors.standing hoffers
  have hdepth := hmirrors.standing.length_eq
  refine (ends_enter_checked (d := dialect) rfl).mono ?_ ?_
  · rintro _ e' ⟨_, scope, hscope, hclear, hshallow, hstacked⟩
    obtain ⟨haccepted, rfl⟩ := Opening.scope_eq_ok_iff.mp hscope
    obtain ⟨serial, openedAt, hstack⟩ := hstacked.stack
    have hfits : Fits ⟨.enter opening, around, before⟩ :=
      fits_enter_iff.mpr ⟨haccepted, hdepth ▸ hshallow, hplace.mp hclear⟩
    refine Plan.passed_singleton hfits (hmirrors.of_standing ?_ ?_ hstacked.registry
      hstacked.context hstacked.failedAt) hstacked.calls
    · rw [hstack]
      exact .cons (stands_holding opening) hmirrors.standing
    · rw [hstack]
      exact Realization.nested_cons hclear hmirrors.nested
  · rintro _ e' ⟨_, hrefused⟩
    obtain ⟨hfailed, hdeep⟩ := hrefused hmirrors.unfailed
    refine Plan.stopped_singleton ?_ hfailed
    rw [fits_enter_iff]
    rintro ⟨haccepted, hshallow, htakes⟩
    have hlength := hdeep _ (Opening.scope_eq_ok_iff.mpr ⟨haccepted, rfl⟩) (hplace.mpr htakes)
    omega

/-- The innermost construct can be left, and gives back the construct around it. -/
theorem ends_leave
    {enc : Plan.Enclosure dialect}
    {token : Token}
    (hmirrors : Mirrors (enc :: around) before e)
    (hserial : ∀ frame outer, e.stack = frame :: outer → frame.serial = token.serial) :
    (Engine.close token).Ends e
      (fun _ e' => Plan.Passed Fits Mirrors [⟨.leave, around, before⟩] around before e e')
      (fun _ _ => False) := by
  obtain ⟨frame, outer, _, _, hstack⟩ := List.forall₂_cons_left_iff.mp hmirrors.standing
  have hcloses := settled.closes_innermost hmirrors.nested hmirrors.unfailed hstack
    (hserial frame outer hstack)
  refine (hcloses.and (ends_close_context (G := grammar) token e)).mono ?_ fun _ _ h => h.1
  rintro _ e' ⟨⟨hclosed, hnested⟩, hcontext⟩
  have hstanding := Plan.forall₂_of_closed hmirrors.standing (fun _ _ _ _ => stands_adopt) hclosed
  exact Plan.passed_singleton fits_leave (hmirrors.of_standing hstanding hnested hclosed.registry
    hcontext hclosed.failedAt) hclosed.calls

/-- Whether a call of an activity diagram succeeds is told by its moment. -/
theorem judges : Plan.Judges handles Fits Mirrors where
  call := ends_call
  enter := ends_enter
  leave := ends_leave

end Steps

end UmlText.Activity
