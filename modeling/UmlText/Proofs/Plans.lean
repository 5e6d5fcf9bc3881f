import Mathlib.Data.List.Forall2
import UmlText.Proofs.Refinement

/-!
# Plans

A *plan* is a program of calls none of whose failures is caught.  It can be looked at
without an engine: each of its numbered calls has its `Moment`, with the scopes around it,
the calls that stand directly in each of them before this one, and all calls that come
before, wherever they stand.

A dialect *judges* its calls when it can be said at each moment whether a call is in order,
and when exactly the calls that are in order succeed.  Then a plan is run to its end exactly
when every call of it is in order; and otherwise the call that fails is the first one that
is not.  The run follows the plan: as long as calls succeed, the engine is as the next
moment says.
-/

namespace UmlText

/-- A program of calls in which the first failure ends everything. -/
inductive Plan (d : Dialect) where
  /-- A call without a body. -/
  | call (c : d.Call)
  /-- A scope and the plan of its body. -/
  | scope (opening : d.Opening) (body : List (Plan d))

namespace Plan

variable {d : Dialect}

mutual

/-- The plan as a program none of whose failures is caught. -/
def program : Plan d → Authoring d
  | .call c => .call (.ok c) false
  | .scope opening body => .scope opening false (programOf body)

/-- The plans of a list as programs. -/
def programOf : List (Plan d) → List (Authoring d)
  | [] => []
  | p :: rest => p.program :: programOf rest

end

mutual

/-- The calls without a body in a plan, in the order of the program. -/
def calls : Plan d → List d.Call
  | .call c => [c]
  | .scope _ body => callsOf body

/-- The calls without a body in a list of plans. -/
def callsOf : List (Plan d) → List d.Call
  | [] => []
  | p :: rest => p.calls ++ callsOf rest

end

/-- The calls of a plan that stand directly in the body around it. -/
def ownCalls : Plan d → List d.Call
  | .call c => [c]
  | .scope .. => []

/-- A numbered call: one without a body, or one of the two ends of a scope. -/
inductive Deed (d : Dialect) where
  | call (c : d.Call)
  | enter (opening : d.Opening)
  | leave

/-- A scope around a call, with the calls that stand directly in it before. -/
structure Enclosure (d : Dialect) where
  opening : d.Opening
  earlier : List d.Call := []

/-- A numbered call of a plan, with what surrounds it and what precedes it. -/
structure Moment (d : Dialect) where
  deed : Deed d
  /-- The scopes around the call, the innermost one first. -/
  around : List (Enclosure d)
  /-- The calls without a body that come before, wherever they stand. -/
  before : List d.Call

/-- The scopes around a call, without what stands in them. -/
def openings (around : List (Enclosure d)) : List d.Opening :=
  around.map Enclosure.opening

/-- The scopes around a call once more calls stand directly in the innermost one. -/
def noted (calls : List d.Call) : List (Enclosure d) → List (Enclosure d)
  | [] => []
  | enc :: outer => { enc with earlier := enc.earlier ++ calls } :: outer

mutual

/-- The moments of a plan, in the order of its calls. -/
def moments (around : List (Enclosure d)) (before : List d.Call) : Plan d → List (Moment d)
  | .call c => [⟨.call c, around, before⟩]
  | .scope opening body =>
      ⟨.enter opening, around, before⟩ :: momentsOf (⟨opening, []⟩ :: around) before body ++
        [⟨.leave, around, before ++ callsOf body⟩]

/-- The moments of the plans of a list, one plan after the other. -/
def momentsOf (around : List (Enclosure d)) (before : List d.Call) :
    List (Plan d) → List (Moment d)
  | [] => []
  | p :: rest =>
      p.moments around before ++ momentsOf (noted p.ownCalls around) (before ++ p.calls) rest

end

section Surroundings

variable {around : List (Enclosure d)}

@[simp] theorem noted_nil : noted [] around = around := by
  cases around with
  | nil => rfl
  | cons enc outer => simp [noted]

@[simp] theorem noted_noted (first second : List d.Call) :
    noted second (noted first around) = noted (first ++ second) around := by
  cases around with
  | nil => rfl
  | cons enc outer => simp [noted]

/-- The scopes around a call stay the same while calls stand in them. -/
@[simp] theorem openings_noted (calls : List d.Call) :
    openings (noted calls around) = openings around := by
  cases around <;> rfl

end Surroundings

/-- What the bodies of scopes offer, and what is offered where no scope is open. -/
structure Handles (d : Dialect) where
  /-- The calls without a body that are offered directly inside a scope. -/
  call : Option d.Opening → d.Call → Bool
  /-- The scopes that are offered directly inside a scope. -/
  scope : Option d.Opening → d.Opening → Bool

mutual

/-- Whether a plan is written with what is offered where it stands. -/
def isOffered (h : Handles d) (place : Option d.Opening) : Plan d → Bool
  | .call c => h.call place c
  | .scope opening body => h.scope place opening && areOffered h (some opening) body

/-- Whether all plans of a list are written with what is offered where they stand. -/
def areOffered (h : Handles d) (place : Option d.Opening) : List (Plan d) → Bool
  | [] => true
  | p :: rest => p.isOffered h place && areOffered h place rest

end

theorem caught_program (p : Plan d) : p.program.caught = false := by
  cases p <;> rfl

/-- The calls at these moments were all in order and were made, and the engine is as it has
to be inside these scopes and behind these calls. -/
structure Passed
    (InOrder : Moment d → Prop)
    (Mirrors : List (Enclosure d) → List d.Call → Engine d.toGrammar → Prop)
    (moments : List (Moment d))
    (around : List (Enclosure d))
    (before : List d.Call)
    (e e' : Engine d.toGrammar) : Prop where
  inOrder : ∀ m ∈ moments, InOrder m
  mirrors : Mirrors around before e'
  calls : e'.calls = e.calls + moments.length

/-- Of the calls at these moments the first one that is not in order has failed. -/
def Stopped
    (InOrder : Moment d → Prop)
    (moments : List (Moment d))
    (e e' : Engine d.toGrammar) : Prop :=
  ∃ first m rest, moments = first ++ m :: rest ∧ (∀ m' ∈ first, InOrder m') ∧ ¬InOrder m ∧
    e'.failedAt = some (e.calls + first.length + 1)

section Outcomes

variable {InOrder : Moment d → Prop}
variable {Mirrors : List (Enclosure d) → List d.Call → Engine d.toGrammar → Prop}
variable {around around' : List (Enclosure d)} {before before' : List d.Call}
variable {moments more : List (Moment d)} {e e₁ e' : Engine d.toGrammar}

theorem stopped_singleton
    {m : Moment d}
    (hnot : ¬InOrder m)
    (hfailed : e'.failedAt = some (e.calls + 1)) :
    Stopped InOrder [m] e e' :=
  ⟨[], m, [], rfl, by simp, hnot, hfailed⟩

theorem passed_singleton
    {m : Moment d}
    (hm : InOrder m)
    (hmirrors : Mirrors around before e')
    (hcalls : e'.calls = e.calls + 1) :
    Passed InOrder Mirrors [m] around before e e' := by
  refine ⟨fun m' hmem => ?_, hmirrors, hcalls⟩
  rw [List.mem_singleton.mp hmem]
  exact hm

theorem passed_nil (h : Mirrors around before e) : Passed InOrder Mirrors [] around before e e :=
  ⟨by simp, h, rfl⟩

theorem Passed.append
    (h : Passed InOrder Mirrors moments around before e e₁)
    (hmore : Passed InOrder Mirrors more around' before' e₁ e') :
    Passed InOrder Mirrors (moments ++ more) around' before' e e' := by
  refine ⟨fun m hmem => ?_, hmore.mirrors, ?_⟩
  · rcases List.mem_append.mp hmem with hmem | hmem
    · exact h.inOrder m hmem
    · exact hmore.inOrder m hmem
  · rw [hmore.calls, h.calls, List.length_append]
    omega

theorem Passed.stopped
    (h : Passed InOrder Mirrors moments around before e e₁)
    (hmore : Stopped InOrder more e₁ e') :
    Stopped InOrder (moments ++ more) e e' := by
  obtain ⟨first, m, rest, rfl, hfirst, hnot, hfailed⟩ := hmore
  refine ⟨moments ++ first, m, rest, ?_, fun m' hmem => ?_, hnot, ?_⟩
  · rw [List.append_assoc]
  · rcases List.mem_append.mp hmem with hmem | hmem
    · exact h.inOrder m' hmem
    · exact hfirst m' hmem
  · rw [hfailed, h.calls, List.length_append, Nat.add_assoc e.calls]

theorem Stopped.append (h : Stopped InOrder moments e e') :
    Stopped InOrder (moments ++ more) e e' := by
  obtain ⟨first, m, rest, rfl, hfirst, hnot, hfailed⟩ := h
  refine ⟨first, m, rest ++ more, ?_, hfirst, hnot, hfailed⟩
  rw [List.append_assoc, List.cons_append]

/-- A scope that is dropped behind a failure leaves the number of the failed call. -/
theorem Stopped.discard
    (h : Stopped InOrder moments e e')
    (token : Token) :
    Stopped InOrder moments e (e'.discard token) := by
  obtain ⟨first, m, rest, hmoments, hfirst, hnot, hfailed⟩ := h
  refine ⟨first, m, rest, hmoments, hfirst, hnot, ?_⟩
  simp [Engine.discard, hfailed]

end Outcomes

/-- Where the scopes around a call correspond to the open scopes one by one, they still do
so when the innermost one is closed, if a scope that adopts another one keeps what it
corresponds to. -/
theorem forall₂_of_closed
    {β : Type}
    {R : β → d.Scope → Prop}
    {e e' : Engine d.toGrammar}
    {token : Token}
    {inner : β}
    {around : List β}
    (h : List.Forall₂ (fun b (frame : Frame d.toGrammar) => R b frame.scope) (inner :: around)
      e.stack)
    (hadopts : ∀ b outer closed scope, R b outer → d.adopt outer closed = .ok scope → R b scope)
    (hclosed : Closed token e e') :
    List.Forall₂ (fun b (frame : Frame d.toGrammar) => R b frame.scope) around e'.stack := by
  obtain ⟨frame, outer, hstack, _, houter⟩ := hclosed.closed
  rw [hstack] at h
  obtain ⟨_, hrest⟩ := List.forall₂_cons.mp h
  cases hrest with
  | nil =>
      obtain ⟨_, _, hstack', _⟩ := houter
      rw [hstack']
      exact .nil
  | cons hparent hrest =>
      obtain ⟨_, hadopt, hstack', _⟩ := houter
      rw [hstack']
      exact .cons (hadopts _ _ _ _ hparent hadopt) hrest

/-- A call succeeds exactly when it is in order at its moment, and then the engine is as the
next moment says. -/
structure Judges
    (handles : Handles d)
    (InOrder : Moment d → Prop)
    (Mirrors : List (Enclosure d) → List d.Call → Engine d.toGrammar → Prop) : Prop where
  call : ∀ {around before e c}, Mirrors around before e →
    handles.call (openings around).head? c = true →
    (d.callBuild c).Ends e
      (fun _ e' => Passed InOrder Mirrors [⟨.call c, around, before⟩] (noted [c] around)
        (before ++ [c]) e e')
      (fun _ e' => Stopped InOrder [⟨.call c, around, before⟩] e e')
  enter : ∀ {around before e opening}, Mirrors around before e →
    handles.scope (openings around).head? opening = true →
    (Engine.enter (d.openingAction opening)).Ends e
      (fun _ e' => Passed InOrder Mirrors [⟨.enter opening, around, before⟩]
        (⟨opening, []⟩ :: around) before e e')
      (fun _ e' => Stopped InOrder [⟨.enter opening, around, before⟩] e e')
  leave : ∀ {enc around before e token}, Mirrors (enc :: around) before e →
    (∀ frame outer, e.stack = frame :: outer → frame.serial = token.serial) →
    (Engine.close token).Ends e
      (fun _ e' => Passed InOrder Mirrors [⟨.leave, around, before⟩] around before e e')
      (fun _ _ => False)

namespace Judges

variable {r : Reading d} {z : Realization r} {v : Inventory r}
variable {handles : Handles d} {InOrder : Moment d → Prop}
variable {Mirrors : List (Enclosure d) → List d.Call → Engine d.toGrammar → Prop}

/-- A body that has run without a flaw leaves its scope the innermost one. -/
theorem serial_of_allFlawless
    (hsound : z.Sound v)
    (hfaithful : z.Faithful)
    {opening : d.Opening}
    {token : Token}
    {e : Engine d.toGrammar}
    {s : Session d.toGrammar}
    {body : List (Authoring d)}
    (hentered : Entered z v opening token e s.engine)
    (hflawless : Report.allFlawless (Program.runAll d.authoring s body).reports = true) :
    ∀ frame outer, (Program.runAll d.authoring s body).after.engine.stack = frame :: outer →
      frame.serial = token.serial := by
  obtain ⟨scope, head, _, hstack, _, hholds, _⟩ := hentered.opened
  have hcarried := Realization.runAll_carries hsound hfaithful body s hentered.failedAt hflawless
  obtain ⟨items, _, htakes⟩ := hcarried.taken
  obtain ⟨_, scope', _, hstack'⟩ := htakes.of_frame hfaithful hstack hholds
  intro frame outer hcons
  rw [hstack'] at hcons
  cases hcons
  rfl

mutual

/-- A call with its body passes without a flaw, or is stopped where a call is not in order.
-/
theorem run_passes_or_stops
    (hjudges : Judges handles InOrder Mirrors)
    (hsound : z.Sound v)
    (hfaithful : z.Faithful) :
    ∀ (p : Plan d) (s : Session d.toGrammar) (around : List (Enclosure d))
      (before : List d.Call),
      Mirrors around before s.engine → p.isOffered handles (openings around).head? = true →
      let report := Program.run d.authoring s p.program
      (report.flawless = true ∧
        Passed InOrder Mirrors (p.moments around before) (noted p.ownCalls around)
          (before ++ p.calls) s.engine report.after.engine) ∨
      ((∃ error, report.result = .error error) ∧
        Stopped InOrder (p.moments around before) s.engine report.after.engine)
  | .call c, s, around, before, hmirrors, hoffered => by
      intro report
      have hends := hjudges.call hmirrors hoffered
      have hreport : report = ⟨((d.callBuild c).run s.engine).1,
          { s with engine := ((d.callBuild c).run s.engine).2 }, []⟩ := rfl
      rw [hreport]
      rcases hrun : (d.callBuild c).run s.engine with ⟨error | reply, after⟩
      · exact .inr ⟨⟨error, rfl⟩, hends.of_error hrun⟩
      · exact .inl ⟨rfl, hends.of_ok hrun⟩
  | .scope opening body, s, around, before, hmirrors, hoffered => by
      obtain ⟨hoffers, hbody⟩ := Bool.and_eq_true_iff.mp hoffered
      have henters := (hjudges.enter hmirrors hoffers).and (hsound.ends_enter opening)
      have hmoments : (Plan.scope opening body).moments around before =
          [⟨.enter opening, around, before⟩] ++
            (momentsOf (⟨opening, []⟩ :: around) before body ++
              [⟨.leave, around, before ++ callsOf body⟩]) := by
        simp [moments]
      rw [hmoments, program, ownCalls, noted_nil, calls]
      rcases henter : (Engine.enter (d.openingAction opening)).run s.engine with
        ⟨error | ⟨token, reply⟩, opened⟩
      · -- the scope was not entered
        rw [Program.run_scope_of_error henter]
        exact .inr ⟨⟨error, rfl⟩, (henters.of_error henter).1.append⟩
      obtain ⟨hpassed, _, hentered⟩ := henters.of_ok henter
      rcases runAll_passes_or_stops hjudges hsound hfaithful body { s with engine := opened }
        (⟨opening, []⟩ :: around) before hpassed.mirrors hbody with
        ⟨hflawless, hinside⟩ | ⟨⟨error, herror⟩, hstopped⟩
      · -- the body has run to its end, and the scope can be left
        have hok := Program.result_of_allFlawless hflawless
        rw [Program.run_scope_of_ok henter rfl hok]
        have hserial := serial_of_allFlawless hsound hfaithful hentered hflawless
        have hleaves := hjudges.leave hinside.mirrors hserial
        obtain ⟨⟨⟩, closed, hclose, hleft⟩ := hleaves.exists_ok
        rw [hclose]
        refine .inl ⟨?_, hpassed.append (hinside.append hleft)⟩
        exact Report.flawless_iff.mpr ⟨⟨reply, rfl⟩, hflawless⟩
      · -- the body was stopped, and the scope is dropped
        rw [Program.run_scope_of_failed henter rfl herror]
        exact .inr ⟨⟨error, rfl⟩, hpassed.stopped (hstopped.append.discard token)⟩

/-- A list of calls passes without a flaw, or is stopped where a call is not in order. -/
theorem runAll_passes_or_stops
    (hjudges : Judges handles InOrder Mirrors)
    (hsound : z.Sound v)
    (hfaithful : z.Faithful) :
    ∀ (ps : List (Plan d)) (s : Session d.toGrammar) (around : List (Enclosure d))
      (before : List d.Call),
      Mirrors around before s.engine → areOffered handles (openings around).head? ps = true →
      let run := Program.runAll d.authoring s (programOf ps)
      (Report.allFlawless run.reports = true ∧
        Passed InOrder Mirrors (momentsOf around before ps) (noted (ps.flatMap ownCalls) around)
          (before ++ callsOf ps) s.engine run.after.engine) ∨
      ((∃ error, run.result = .error error) ∧
        Stopped InOrder (momentsOf around before ps) s.engine run.after.engine)
  | [], s, around, before, hmirrors, _ => by
      refine .inl ⟨rfl, ?_⟩
      rw [List.flatMap_nil, noted_nil, callsOf, List.append_nil]
      exact passed_nil hmirrors
  | p :: rest, s, around, before, hmirrors, hoffered => by
      obtain ⟨hfirst, hrest⟩ := Bool.and_eq_true_iff.mp hoffered
      rw [programOf, momentsOf]
      rcases run_passes_or_stops hjudges hsound hfaithful p s around before hmirrors hfirst with
        ⟨hflawless, hpassed⟩ | ⟨⟨error, herror⟩, hstopped⟩
      · obtain ⟨hok, _⟩ := Report.flawless_iff.mp hflawless
        rw [Program.runAll_cons_of_goes_on rfl (.inl hok)]
        rw [← openings_noted p.ownCalls] at hrest
        rcases runAll_passes_or_stops hjudges hsound hfaithful rest
          (Program.run d.authoring s p.program).after (noted p.ownCalls around)
          (before ++ p.calls) hpassed.mirrors hrest with
          ⟨hflawless', hpassed'⟩ | ⟨herror, hstopped⟩
        · refine .inl ⟨Bool.and_eq_true_iff.mpr ⟨hflawless, hflawless'⟩, ?_⟩
          rw [noted_noted, List.append_assoc] at hpassed'
          exact hpassed.append hpassed'
        · exact .inr ⟨herror, hpassed.stopped hstopped⟩
      · -- the failure is not caught, and so the list ends with it
        rw [Program.runAll_cons_of_error rfl herror p.caught_program]
        exact .inr ⟨⟨error, rfl⟩, hstopped.append⟩

end

/-- A plan runs without a flaw exactly when every call of it is in order; otherwise the call
that fails is the first one that is not in order. -/
theorem allFlawless_iff
    (hjudges : Judges handles InOrder Mirrors)
    (hsound : z.Sound v)
    (hfaithful : z.Faithful)
    (hnew : Mirrors [] [] {})
    (plan : List (Plan d))
    (hoffered : areOffered handles none plan = true) :
    let run := Program.runAll d.authoring {} (programOf plan)
    (Report.allFlawless run.reports = true ↔ ∀ m ∈ momentsOf [] [] plan, InOrder m) ∧
    ((∃ m ∈ momentsOf [] [] plan, ¬InOrder m) →
      ∃ first m rest, momentsOf [] [] plan = first ++ m :: rest ∧
        (∀ m' ∈ first, InOrder m') ∧ ¬InOrder m ∧
        run.after.engine.failedAt = some (first.length + 1)) := by
  intro run
  rcases runAll_passes_or_stops hjudges hsound hfaithful plan {} [] [] hnew hoffered with
    ⟨hflawless, hpassed⟩ | ⟨⟨error, herror⟩, hstopped⟩
  · refine ⟨iff_of_true hflawless hpassed.inOrder, ?_⟩
    rintro ⟨m, hmem, hnot⟩
    exact absurd (hpassed.inOrder m hmem) hnot
  · obtain ⟨first, m, rest, hmoments, hfirst, hnot, hfailed⟩ := hstopped
    refine ⟨iff_of_false ?_ ?_, fun _ => ?_⟩
    · intro hflawless
      rw [Program.result_of_allFlawless hflawless] at herror
      cases herror
    · intro hall
      exact hnot (hall m (by simp [hmoments]))
    · refine ⟨first, m, rest, hmoments, hfirst, hnot, hfailed.trans ?_⟩
      change some (0 + first.length + 1) = _
      rw [Nat.zero_add]

end Judges

end Plan

end UmlText
