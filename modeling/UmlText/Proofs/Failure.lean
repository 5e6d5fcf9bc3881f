import UmlText.Proofs.Moves
import UmlText.Proofs.Turns

/-!
# A failure is permanent

A build fails once, at the first call that fails, or where a scope is dropped although no
call has failed; and it remembers the number of that call.  From then on every numbered call
is refused with that number and changes nothing, scopes are only dropped, and the diagram
cannot be finished.

The number that a misuse carries is that of the failing call, as long as the call has found
the misuse itself.  A scope that the caller makes inside the call that opens it may be
refused with a number of its own.
-/

namespace UmlText

namespace Engine

variable {G : Grammar} {e e₁ e₂ : Engine G} {k : Nat}

/-- The build has failed at the call `k`, and nothing has changed since then but that scopes
may have been dropped. -/
structure Frozen (k : Nat) (e e' : Engine G) : Prop where
  failedAt : e'.failedAt = some k
  calls : e'.calls = e.calls
  root : e'.root = e.root
  registry : e'.registry = e.registry
  context : e'.context = e.context
  stack : e'.stack <:+ e.stack

theorem Frozen.refl (h : e.failedAt = some k) : Frozen k e e :=
  ⟨h, rfl, rfl, rfl, rfl, List.suffix_refl _⟩

theorem frozen_withJournal
    (journal : List Event)
    (h : e.failedAt = some k) :
    Frozen k e (e.withJournal journal) :=
  ⟨h, rfl, rfl, rfl, rfl, List.suffix_refl _⟩

theorem Frozen.trans
    (h : Frozen k e e₁)
    (h' : Frozen k e₁ e₂) :
    Frozen k e e₂ :=
  ⟨h'.failedAt, h'.calls.trans h.calls, h'.root.trans h.root, h'.registry.trans h.registry,
    h'.context.trans h.context, h'.stack.trans h.stack⟩

/-- The diagram of a failed build cannot be finished. -/
theorem run_finish_of_failed (h : e.failedAt = some k) :
    Engine.finish.run e = (.error (.abandoned k), e) := by
  unfold Attempt.run finish
  rw [h]

theorem frozen_discard
    (token : Token)
    (h : e.failedAt = some k) :
    Frozen k e (e.discard token) := by
  refine ⟨?_, rfl, rfl, rfl, rfl, List.drop_suffix _ _⟩
  simp [discard, h]

end Engine

section Scripts

variable {d : Dialect}

/-- One turn of a script. -/
abbrev ScriptTurn (d : Dialect) :=
  Turn d.toGrammar (ScriptCall d) (ScriptOpening d)

namespace ScriptTurn

/-- The turn makes a numbered call. -/
def IsCall (t : ScriptTurn d) : Prop :=
  match t.act with
  | .perform call => (call.move? t.before).isSome
  | .enter _ => True
  | .close _ => True
  | .drop _ => False

/-- The turn opens a scope that the caller has failed to make. -/
def IsRefused (t : ScriptTurn d) : Prop :=
  ∃ why, t.act = .enter (.engine (.error why))

/-- The turn drops a scope. -/
def IsDrop (t : ScriptTurn d) : Prop :=
  ∃ token, t.act = .drop token

/-- The turn makes a build fail that has not failed yet: its call fails, or it drops a
scope. -/
def Fails (t : ScriptTurn d) : Prop :=
  (t.IsCall ∧ ∃ error, t.result d.scripting = .error error) ∨ t.IsDrop

/-- The number of the call that the turn makes, or of the last call before a scope is
dropped. -/
def index (t : ScriptTurn d) : Nat :=
  match t.act with
  | .drop _ => t.before.engine.calls
  | _ => t.before.engine.calls + 1

/-- What a turn does to a build that has not failed. -/
structure Settles (t : ScriptTurn d) : Prop where
  /-- A failure is recorded under the number of the last call. -/
  failed : t.Fails → (t.after d.scripting).engine.failedAt = some t.index ∧
    (t.after d.scripting).engine.calls = t.index
  /-- Nothing but a failure makes the build fail. -/
  passed : ¬t.Fails → (t.after d.scripting).engine.failedAt = none
  /-- A misuse carries the number of the call that has found it. -/
  numbered : t.IsCall → ¬t.IsRefused → ∀ number what,
    t.result d.scripting = .error (.misuse number what) → number = t.index

/-- What a turn does to a build that has failed at the call `k`. -/
structure Inert (k : Nat) (t : ScriptTurn d) : Prop where
  frozen : Engine.Frozen k t.before.engine (t.after d.scripting).engine
  /-- Every call is refused. -/
  abandoned : t.IsCall → t.result d.scripting = .error (.abandoned k)
  /-- Only a drop changes which scopes are open. -/
  stack : ¬t.IsDrop → (t.after d.scripting).engine.stack = t.before.engine.stack

section Cases

variable {t : ScriptTurn d}

theorem index_of_isCall (h : t.IsCall) : t.index = t.before.engine.calls + 1 := by
  obtain ⟨act, before⟩ := t
  cases act with
  | drop token => cases h
  | _ => rfl

theorem not_isDrop_of_isCall (h : t.IsCall) : ¬t.IsDrop := by
  rintro ⟨token, hact⟩
  unfold IsCall at h
  rw [hact] at h
  exact h

/-- A turn that makes a call is one step of the engine.  Its action leaves the counting to
the engine, and the numbering too unless it only hands on why a scope was refused. -/
theorem step_of_isCall
    (hd : d.LeavesNumbering)
    (h : t.IsCall) :
    ∃ (α : Type) (action : Action d.toGrammar α) (journal : List Event),
      let made := (Engine.step action).run (t.before.engine.withJournal journal)
      t.result d.scripting = made.1.map (fun _ => ()) ∧
      (t.after d.scripting).engine = made.2 ∧
      action.Uncounted ∧ (¬t.IsRefused → action.Unnumbered) := by
  obtain ⟨act, before⟩ := t
  cases act with
  | perform call =>
      obtain ⟨move, hmove⟩ := Option.isSome_iff_exists.mp h
      obtain ⟨journal, hresult, hengine⟩ := ScriptCall.perform_of_move hmove
      rw [move.build_eq] at hresult hengine
      have hunnumbered := move.unnumbered_action hd
      exact ⟨Reply, move.action, journal, congrArg (Except.map fun _ => ()) hresult, hengine,
        hunnumbered.uncounted, fun _ => hunnumbered⟩
  | enter opening =>
      refine ⟨_, _, before.engine.journal, rfl, rfl, ?_⟩
      match opening with
      | .authoring opening =>
          have hunnumbered := (hd.openingAction opening).opening
          exact ⟨hunnumbered.uncounted, fun _ => hunnumbered⟩
      | .engine (.ok scope) =>
          have hmade := Action.unnumbered_pure (G := d.toGrammar) (scope, Reply.done)
          exact ⟨hmade.opening.uncounted, fun _ => hmade.opening⟩
      | .engine (.error why) =>
          exact ⟨fun e => .refl e, fun h => absurd ⟨why, rfl⟩ h⟩
  | close token =>
      have hunnumbered := Action.unnumbered_closeScope (G := d.toGrammar) token
      refine ⟨Unit, Action.closeScope token, before.engine.journal, ?_, rfl,
        hunnumbered.uncounted, fun _ => hunnumbered⟩
      change ((Engine.close token).run before.engine).1 =
        ((Engine.close token).run before.engine).1.map fun _ => ()
      rcases ((Engine.close token).run before.engine).1 with _ | _ <;> rfl
  | drop token => cases h

/-- A turn that makes no call and drops no scope changes the journal at most. -/
theorem after_of_not_isCall
    (hcall : ¬t.IsCall)
    (hdrop : ¬t.IsDrop) :
    ∃ journal, (t.after d.scripting).engine = t.before.engine.withJournal journal := by
  obtain ⟨act, before⟩ := t
  cases act with
  | perform call =>
      have hmove : call.move? before = none := Option.not_isSome_iff_eq_none.mp hcall
      obtain ⟨journal, hafter⟩ := ScriptCall.perform_of_no_move hmove
      exact ⟨journal, congrArg Session.engine hafter⟩
  | drop token => exact absurd ⟨token, rfl⟩ hdrop
  | _ => exact absurd trivial hcall

/-- Dropping a scope makes a build fail that has not failed yet, at the last call made. -/
theorem settles_of_isDrop
    (hdrop : t.IsDrop)
    (hnone : t.before.engine.failedAt = none) :
    t.Settles := by
  obtain ⟨act, before⟩ := t
  obtain ⟨token, rfl⟩ := hdrop
  change before.engine.failedAt = none at hnone
  refine ⟨fun _ => ⟨?_, rfl⟩, fun h => absurd (.inr ⟨token, rfl⟩) h, fun h => ?_⟩
  · change some (before.engine.failedAt.getD before.engine.calls) = some before.engine.calls
    rw [hnone]
    rfl
  · cases h

/-- A call of a build that has not failed is counted, and makes it fail when it fails
itself. -/
theorem settles_of_isCall
    (hd : d.LeavesNumbering)
    (hcall : t.IsCall)
    (hnone : t.before.engine.failedAt = none) :
    t.Settles := by
  obtain ⟨α, action, journal, hresult, hengine, huncounted, hunnumbered⟩ := step_of_isCall hd hcall
  have hindex := index_of_isCall hcall
  have hends := huncounted.ends_step_of_unfailed (e := t.before.engine.withJournal journal) hnone
  rcases hrun : (Engine.step action).run (t.before.engine.withJournal journal) with
    ⟨error | value, after⟩
  · rw [hrun] at hresult hengine
    obtain ⟨hcalls, hfailed⟩ := hends.of_error hrun
    refine ⟨fun _ => ?_, fun h => absurd (.inl ⟨hcall, error, hresult⟩) h,
      fun _ hmade number what hmisuse => ?_⟩
    · rw [hengine, hindex]
      exact ⟨hfailed, hcalls⟩
    · rw [hresult] at hmisuse
      cases hmisuse
      rw [hindex]
      exact (hunnumbered hmade).number_of_step (e := t.before.engine.withJournal journal) hnone hrun
  · rw [hrun] at hresult hengine
    obtain ⟨hcalls, hfailed⟩ := hends.of_ok hrun
    have hpassed : ¬t.Fails := by
      rintro (⟨_, error, herror⟩ | hdrop)
      · rw [hresult] at herror
        cases herror
      · exact not_isDrop_of_isCall hcall hdrop
    refine ⟨fun h => absurd h hpassed, fun _ => ?_, fun _ _ number what hmisuse => ?_⟩
    · rw [hengine]
      exact hfailed
    · rw [hresult] at hmisuse
      cases hmisuse

/-- A build that has not failed fails at a turn exactly when the turn fails. -/
theorem settles
    (hd : d.LeavesNumbering)
    (hnone : t.before.engine.failedAt = none) :
    t.Settles := by
  by_cases hcall : t.IsCall
  · exact settles_of_isCall hd hcall hnone
  · by_cases hdrop : t.IsDrop
    · exact settles_of_isDrop hdrop hnone
    · obtain ⟨journal, hafter⟩ := after_of_not_isCall hcall hdrop
      refine ⟨?_, fun _ => ?_, fun h => absurd h hcall⟩
      · rintro (⟨h, _⟩ | h)
        · exact absurd h hcall
        · exact absurd h hdrop
      · rw [hafter]
        exact hnone

/-- After a failure every turn is inert. -/
theorem inert
    {k : Nat}
    (hd : d.LeavesNumbering)
    (hfailed : t.before.engine.failedAt = some k) :
    t.Inert k := by
  by_cases hcall : t.IsCall
  · obtain ⟨α, action, journal, hresult, hengine, _⟩ := step_of_isCall hd hcall
    rw [Engine.run_step_of_failed (e := t.before.engine.withJournal journal) action hfailed]
      at hresult hengine
    refine ⟨?_, fun _ => hresult, fun _ => ?_⟩
    · rw [hengine]
      exact Engine.frozen_withJournal journal hfailed
    · rw [hengine]
      rfl
  · by_cases hdrop : t.IsDrop
    · obtain ⟨act, before⟩ := t
      obtain ⟨token, rfl⟩ := hdrop
      exact ⟨Engine.frozen_discard token hfailed, fun h => absurd h hcall,
        fun h => absurd ⟨token, rfl⟩ h⟩
    · obtain ⟨journal, hafter⟩ := after_of_not_isCall hcall hdrop
      refine ⟨?_, fun h => absurd h hcall, fun _ => ?_⟩
      · rw [hafter]
        exact Engine.frozen_withJournal journal hfailed
      · rw [hafter]
        rfl

end Cases

end ScriptTurn

/-- Once a build has failed, a run changes nothing any more but that it drops scopes. -/
theorem Leads.frozen
    {s s' : Session d.toGrammar}
    {ts : List (ScriptTurn d)}
    {k : Nat}
    (hd : d.LeavesNumbering)
    (h : Leads d.scripting s ts s')
    (hfailed : s.engine.failedAt = some k) :
    Engine.Frozen k s.engine s'.engine ∧
      ∀ t ∈ ts, Engine.Frozen k s.engine t.before.engine ∧ t.Inert k := by
  induction ts generalizing s with
  | nil =>
      cases h
      exact ⟨.refl hfailed, fun t ht => by cases ht⟩
  | cons t rest ih =>
      obtain ⟨rfl, hrest⟩ := h
      have hinert : t.Inert k := ScriptTurn.inert hd hfailed
      obtain ⟨hend, hturns⟩ := ih hrest hinert.frozen.failedAt
      refine ⟨hinert.frozen.trans hend, fun t' ht' => ?_⟩
      rcases List.mem_cons.mp ht' with rfl | hmem
      · exact ⟨.refl hfailed, hinert⟩
      · obtain ⟨hfrozen, hinert'⟩ := hturns t' hmem
        exact ⟨hinert.frozen.trans hfrozen, hinert'⟩

end Scripts

namespace Kind

/-- The turns of a script lead through its run.  A build that has not failed fails where a
turn fails, at the number of the call; and from the session in which it has failed, however
it was reached, every turn is inert, and the diagram cannot be finished. -/
theorem failure_permanent_and_inert
    (kind : Kind)
    (s : Session kind.dialect.toGrammar)
    (script : List (Script kind.dialect)) :
    let m := kind.dialect.scripting
    let turns := Program.turnsAll m s script
    let after := (Program.runAll m s script).after
    Leads m s turns after ∧
    (∀ t ∈ turns, t.before.engine.failedAt = none → ScriptTurn.Settles t) ∧
    ∀ earlier later middle k, turns = earlier ++ later → Leads m s earlier middle →
      middle.engine.failedAt = some k →
        (∀ t ∈ later, Engine.Frozen k middle.engine t.before.engine ∧ ScriptTurn.Inert k t) ∧
        Engine.Frozen k middle.engine after.engine ∧
        Engine.finish.run after.engine = (.error (.abandoned k), after.engine) := by
  intro m turns after
  have hleads : Leads m s turns after := Program.leads_turnsAll script s
  refine ⟨hleads, fun t _ hnone => ScriptTurn.settles kind.leavesNumbering hnone, ?_⟩
  intro earlier later middle k hturns hearlier hfailed
  rw [hturns] at hleads
  obtain ⟨middle', hearlier', hlater⟩ := leads_append.mp hleads
  rw [hearlier.unique hearlier'] at hlater
  obtain ⟨hend, hinert⟩ := hlater.frozen kind.leavesNumbering hfailed
  exact ⟨hinert, hend, Engine.run_finish_of_failed hend.failedAt⟩

/-- A switch that cannot be made, because an element is put into it before its first case. -/
def refusedSwitch : ScriptOpening Kind.activity.dialect :=
  .engine (match Activity.grammar.fill (Activity.Scope.switch "t" []) [.point .stop] with
    | .ok scope => .ok scope
    | .error what => .error (.misuse what))

/-- Makes a scope inside the call that opens it, after a call of the engine that has failed
there and whose failure is hidden. -/
def reentered (last : Action Activity.grammar Activity.Scope) :
    Action Activity.grammar (Activity.Scope × Unit) := fun e =>
  let hidden := ((Engine.step (Action.resolve "a" Activity.labelKind)).run e).2
  (last >>= fun scope => pure (scope, ())).run hidden

/-- The error of a scope that the caller has failed to make carries the number 0, though the
failing call is the first one.  And where a scope is made with calls of the engine inside
the call that opens it, the number of their failure is overwritten, or a scope is opened
after it. -/
theorem failure_misnumbered_or_overwritten :
    let report := Program.run Kind.activity.dialect.scripting {} (.scope refusedSwitch false [])
    let refusing := reentered (throw (.invalid (.empty "name")))
    let making := reentered (pure (.fork none []))
    (report.result = .error (.misuse 0 (.misplaced "stop" "switch" "a 'case' first")) ∧
      report.after.engine.failedAt = some 1) ∧
    ((refusing.run (Engine.counted {})).2.failedAt = some 2 ∧
      ((Engine.enter refusing).run {}).2.failedAt = some 1) ∧
    ((making.run (Engine.counted {})).2.failedAt = some 2 ∧
      (making.run (Engine.counted {})).2.depth = 0 ∧
      ((Engine.enter making).run {}).2.depth = 1) :=
  ⟨⟨rfl, rfl⟩, ⟨rfl, rfl⟩, rfl, rfl, rfl⟩

end Kind

end UmlText
