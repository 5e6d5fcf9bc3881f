import UmlText.Proofs.Nesting
import UmlText.Proofs.Numbering
import UmlText.Script

/-!
# The numbered calls of a script

Most calls of a script make one numbered call of the engine, a `Move`; the others only ask,
or are refused before the engine is called at all.  What is proved of every move is thereby
known of every call of a script, whatever the script holds beside its engine.
-/

namespace UmlText

/-- An answer that is computed behind a call may as well be computed inside it. -/
theorem Engine.step_bind_pure
    {G : Grammar}
    {α β : Type}
    (action : Action G α)
    (answer : α → β) :
    (Engine.step action >>= fun value => pure (answer value)) =
      Engine.step (action >>= fun value => pure (answer value)) := by
  refine Attempt.ext fun e => ?_
  rw [Attempt.run_bind]
  cases h : e.failedAt with
  | some call => rw [run_step_of_failed _ h, run_step_of_failed _ h]
  | none =>
      rw [run_step _ h, run_step _ h, Attempt.run_bind]
      rcases action.run e.counted with ⟨_ | _, _⟩ <;> rfl

namespace Move

variable {d : Dialect}

/-- What happens inside a numbered call. -/
def action : Move d → Action d.toGrammar Reply
  | .leaf node => Action.append node >>= fun _ => return .done
  | .openScope scope => Action.openScope scope >>= fun token => return .token token
  | .close token => Action.closeScope token >>= fun _ => return .done
  | .declare a kind => Action.declare a kind >>= fun _ => return .done
  | .resolve name kind => Action.resolve name kind >>= fun a => return .named a
  | .generate stem => Action.generate stem >>= fun a => return .named a
  | .authoring call => d.perform call >>= fun a => return .ofAlias? a
  | .enter opening => d.openingAction opening >>= fun made =>
      Action.openScope made.1 >>= fun _ => return made.2

/-- A numbered call is one step. -/
theorem build_eq (move : Move d) : move.build = Engine.step move.action := by
  cases move with
  | authoring call => rfl
  | enter opening =>
      refine (Engine.step_bind_pure _ Prod.snd).trans (congrArg Engine.step ?_)
      simp only [bind_assoc, pure_bind]
      rfl
  | _ => exact Engine.step_bind_pure _ _

theorem unnumbered_action
    (hd : d.LeavesNumbering)
    (move : Move d) :
    Action.Unnumbered move.action := by
  cases move with
  | leaf node => exact Action.unnumbered_place node _
  | openScope scope => exact (Action.unnumbered_openScope scope).answering _
  | close token => exact (Action.unnumbered_closeScope token).answering _
  | declare a kind => exact (Action.unnumbered_declare a kind).answering _
  | resolve name kind => exact (Action.unnumbered_resolve name kind).answering _
  | generate stem => exact (Action.unnumbered_generate stem).answering _
  | authoring call => exact (hd.perform call).answering _
  | enter opening =>
      exact (hd.openingAction opening).bind fun made =>
        (Action.unnumbered_openScope made.1).answering _

/-- A call of a script that closes a scope leaves behind what the closing of an engine does.
-/
theorem after_close (token : Token) (e : Engine d.toGrammar) :
    ((Move.close token).build.run e).2 = ((Engine.close token).run e).2 := by
  rw [Move.build, Attempt.run_bind]
  rcases (Engine.close token).run e with ⟨_ | _, _⟩ <;> rfl

/-- A numbered call forgets no opening. -/
theorem openings_le
    (hd : d.LeavesNumbering)
    (move : Move d)
    (e : Engine d.toGrammar) :
    e.openings ≤ (move.build.run e).2.openings := by
  rw [build_eq]
  exact Attempt.ends_state_iff.mp ((move.unnumbered_action hd).ends_step_openings_le e)

end Move

/-- The numbered call that a call of the engine makes, if it makes one. -/
def EngineCall.move? {d : Dialect} (s : Session d.toGrammar) :
    EngineCall d.toGrammar → Option (Move d)
  | .leaf node => some (.leaf node)
  | .openScope scope _ => some (.openScope scope)
  | .close name => some (.close (s.token name))
  | .closeForeign scope openings =>
      match ((nest scope openings).run { journal := s.engine.journal }).1 with
      | .ok token => some (.close (token.getD ⟨0, 0, ""⟩))
      | .error _ => none
  | .declare a kind => some (.declare a kind)
  | .resolve name kind => some (.resolve name kind)
  | .generate stem => some (.generate stem)
  | .kindOf _ => none
  | .enclosing _ => none

/-- The numbered call that a call of a script makes, if it makes one. -/
def ScriptCall.move? {d : Dialect} (s : Session d.toGrammar) : ScriptCall d → Option (Move d)
  | .authoring call => some (.authoring call)
  | .engine call => call.move? s
  | .refused _ => none

/-- The state of a build with another journal. -/
def Engine.withJournal {G : Grammar} (e : Engine G) (journal : List Event) : Engine G :=
  { e with journal }

@[simp] theorem Engine.withJournal_journal
    {G : Grammar}
    (e : Engine G) :
    e.withJournal e.journal = e :=
  rfl

namespace ScriptCall

variable {d : Dialect} {s : Session d.toGrammar} {call : ScriptCall d}

/-- A call of a script that makes a numbered call answers as that call does.  Only the
journal may have grown before, by what another engine has written into it. -/
theorem perform_of_move
    {move : Move d}
    (h : call.move? s = some move) :
    ∃ journal, let made := move.build.run (s.engine.withJournal journal)
      (d.scripting.perform call s).1 = made.1 ∧
      (d.scripting.perform call s).2.engine = made.2 := by
  cases call with
  | authoring call =>
      cases h
      exact ⟨s.engine.journal, rfl, rfl⟩
  | refused why => cases h
  | engine call =>
      cases call with
      | openScope scope name =>
          cases h
          refine ⟨s.engine.journal, ?_⟩
          simp only [Dialect.scripting, EngineCall.perform, Session.build, Move.build,
            Attempt.run_bind, Engine.withJournal_journal]
          rcases (Engine.step (Action.openScope scope)).run s.engine with ⟨_ | _, _⟩ <;>
            exact ⟨rfl, rfl⟩
      | closeForeign scope openings =>
          simp only [ScriptCall.move?, EngineCall.move?] at h
          simp only [Dialect.scripting, EngineCall.perform, Session.build]
          rcases hnest : (EngineCall.nest scope openings).run { journal := s.engine.journal } with
            ⟨error | token, other⟩
          · rw [hnest] at h
            cases h
          · rw [hnest] at h
            cases h
            exact ⟨other.journal, rfl, rfl⟩
      | kindOf name => cases h
      | enclosing kind => cases h
      | _ =>
          cases h
          exact ⟨s.engine.journal, rfl, rfl⟩

/-- A call of a script that makes no numbered call leaves everything but the journal as it
is. -/
theorem perform_of_no_move (h : call.move? s = none) :
    ∃ journal, (d.scripting.perform call s).2 =
      { s with engine := s.engine.withJournal journal } := by
  cases call with
  | authoring call => cases h
  | refused why => exact ⟨s.engine.journal, rfl⟩
  | engine call =>
      cases call with
      | closeForeign scope openings =>
          simp only [ScriptCall.move?, EngineCall.move?] at h
          simp only [Dialect.scripting, EngineCall.perform, Session.build]
          rcases hnest : (EngineCall.nest scope openings).run { journal := s.engine.journal } with
            ⟨error | token, other⟩
          · exact ⟨other.journal, rfl⟩
          · rw [hnest] at h
            cases h
      | kindOf name => exact ⟨s.engine.journal, rfl⟩
      | enclosing kind => exact ⟨s.engine.journal, rfl⟩
      | _ => cases h

/-- A call of a script makes its numbered call, or leaves everything but the journal as it
is. -/
theorem engine_cases (call : ScriptCall d) (s : Session d.toGrammar) :
    (∃ journal, (d.scripting.perform call s).2.engine = s.engine.withJournal journal) ∨
      ∃ move journal, call.move? s = some move ∧
        (d.scripting.perform call s).2.engine =
          (move.build.run (s.engine.withJournal journal)).2 := by
  cases hmove : call.move? s with
  | none =>
      obtain ⟨journal, hafter⟩ := perform_of_no_move hmove
      exact .inl ⟨journal, congrArg Session.engine hafter⟩
  | some move =>
      obtain ⟨journal, _, hengine⟩ := perform_of_move hmove
      exact .inr ⟨move, journal, rfl, hengine⟩

/-- The tokens held behind a call were held before, or the call has opened their scope. -/
theorem held_of_perform
    {entry : String × Token}
    (h : entry ∈ (d.scripting.perform call s).2.tokens) :
    entry ∈ s.tokens ∨
      ∃ scope, call.move? s = some (.openScope scope) ∧
        (d.scripting.perform call s).1 = .ok (.token entry.2) := by
  cases call with
  | authoring call => exact .inl h
  | refused why => exact .inl h
  | engine call =>
      cases call with
      | openScope scope name =>
          simp only [Dialect.scripting, EngineCall.perform, Session.build] at h ⊢
          rcases hopen : (Engine.step (Action.openScope scope)).run s.engine with
            ⟨error | token, after⟩
          · rw [hopen] at h
            exact .inl h
          · rw [hopen] at h
            rcases List.mem_cons.mp h with rfl | hold
            · exact .inr ⟨scope, rfl, rfl⟩
            · exact .inl hold
      | close name => exact .inl (List.mem_filter.mp h).1
      | closeForeign scope openings =>
          simp only [Dialect.scripting, EngineCall.perform, Session.build] at h
          rcases hnest : (EngineCall.nest scope openings).run { journal := s.engine.journal } with
            ⟨error | token, other⟩ <;>
          · rw [hnest] at h
            exact .inl h
      | _ => exact .inl h

end ScriptCall

end UmlText
