import UmlText.Proofs.Failure

/-!
# What the turns of a script answer

A turn of a script takes one of four courses.  It leaves everything but the journal alone;
or the build has failed behind it; or it is one numbered call that succeeds; or it opens a
scope for a body.  Whatever numbered calls and openings carry on, as long as the build has
not failed, is carried on by every turn.
-/

namespace UmlText

variable {d : Dialect}

/-- No call of a script that is made without a body opens a scope for one. -/
theorem ScriptCall.move?_ne_enter
    {call : ScriptCall d}
    {s : Session d.toGrammar}
    {move : Move d}
    (h : call.move? s = some move) :
    ∀ opening, move ≠ .enter opening := by
  rintro opening rfl
  cases call with
  | authoring call => cases h
  | refused why => cases h
  | engine call =>
      cases call with
      | closeForeign scope openings =>
          simp only [ScriptCall.move?, EngineCall.move?] at h
          split at h <;> cases h
      | _ => cases h

/-- A call of a script that makes no numbered call answers with a kind, if it answers at
all. -/
theorem ScriptCall.answer_of_no_move
    {call : ScriptCall d}
    {s : Session d.toGrammar}
    (h : call.move? s = none)
    {reply : Reply}
    (hreply : (d.scripting.perform call s).1 = .ok reply) :
    ∃ kind, reply = .kind kind := by
  cases call with
  | authoring call => cases h
  | refused why => cases hreply
  | engine call =>
      cases call with
      | closeForeign scope openings =>
          simp only [ScriptCall.move?, EngineCall.move?] at h
          simp only [Dialect.scripting, EngineCall.perform, Session.build] at hreply
          rcases hnest : (EngineCall.nest scope openings).run { journal := s.engine.journal } with
            ⟨error | token, other⟩
          · rw [hnest] at hreply
            cases hreply
          · rw [hnest] at h
            cases h
      | kindOf name => exact ⟨_, (Except.ok.inj hreply).symm⟩
      | enclosing kind => exact ⟨_, (Except.ok.inj hreply).symm⟩
      | _ => cases h

namespace ScriptTurn

/-- What is answered in a turn that succeeds.  A scope that is opened for a body has a token
too, though the caller never sees it. -/
def answer? (t : ScriptTurn d) : Option Reply :=
  match t.act with
  | .perform call => (d.scripting.perform call t.before).1.toOption
  | .enter opening =>
      ((Engine.enter (d.scripting.scopeOf opening)).run t.before.engine).1.toOption.map
        fun entered => .token entered.1
  | .close token => ((Engine.close token).run t.before.engine).1.toOption.map fun _ => .done
  | .drop _ => none

/-- The numbered call that a turn makes, if it opens no scope for a body. -/
def move? (t : ScriptTurn d) : Option (Move d) :=
  match t.act with
  | .perform call => call.move? t.before
  | .close token => some (.close token)
  | .enter _ => none
  | .drop _ => none

/-- The build has failed neither before the turn nor behind it. -/
def Unfailed (t : ScriptTurn d) : Prop :=
  t.before.engine.failedAt = none ∧ (t.after d.scripting).engine.failedAt = none

/-- What becomes of a turn. -/
inductive Course (t : ScriptTurn d) : Prop
  /-- Nothing but the journal changes. -/
  | silent
      (journal : List Event)
      (hafter : (t.after d.scripting).engine = t.before.engine.withJournal journal)
      (hmove : t.move? = none)
      (hanswer : ∀ reply, t.answer? = some reply → ∃ kind, reply = .kind kind)
  /-- The build has failed. -/
  | failed
      (hfailed : (t.after d.scripting).engine.failedAt ≠ none)
      (hanswer : t.answer? = none)
  /-- A numbered call has succeeded. -/
  | moved
      (move : Move d)
      (journal : List Event)
      (reply : Reply)
      (hunfailed : t.Unfailed)
      (hmove : t.move? = some move)
      (hrun : move.build.run (t.before.engine.withJournal journal) =
        (.ok reply, (t.after d.scripting).engine))
      (hanswer : t.answer? = some reply)
  /-- A scope was opened for a body. -/
  | entered
      (opening : ScriptOpening d)
      (token : Token)
      (reply : Reply)
      (hunfailed : t.Unfailed)
      (hmove : t.move? = none)
      (hrun : (Engine.enter (d.scripting.scopeOf opening)).run t.before.engine =
        (.ok (token, reply), (t.after d.scripting).engine))
      (hanswer : t.answer? = some (.token token))

section Courses

variable {t : ScriptTurn d}

theorem failed_of_error
    (hd : d.LeavesNumbering)
    (hcall : t.IsCall)
    {error : BuildError}
    (h : t.result d.scripting = .error error) :
    (t.after d.scripting).engine.failedAt ≠ none := by
  cases hbefore : t.before.engine.failedAt with
  | none =>
      obtain ⟨hfailed, _⟩ := (settles hd hbefore).failed (.inl ⟨hcall, error, h⟩)
      simp [hfailed]
  | some k => simp [(inert hd hbefore).frozen.failedAt]

theorem unfailed_of_ok
    (hd : d.LeavesNumbering)
    (hcall : t.IsCall)
    (h : t.result d.scripting = .ok ()) :
    t.Unfailed := by
  cases hbefore : t.before.engine.failedAt with
  | none =>
      refine ⟨hbefore, (settles hd hbefore).passed ?_⟩
      rintro (⟨_, error, herror⟩ | hdrop)
      · cases h.symm.trans herror
      · exact not_isDrop_of_isCall hcall hdrop
  | some k => cases h.symm.trans ((inert hd hbefore).abandoned hcall)

/-- A turn that changes the journal alone leaves a build failed or unfailed. -/
theorem failed_or_unfailed_of_silent
    {journal : List Event}
    (hafter : (t.after d.scripting).engine = t.before.engine.withJournal journal) :
    (t.after d.scripting).engine.failedAt ≠ none ∨ t.Unfailed := by
  rw [Unfailed, hafter]
  by_cases hfailed : t.before.engine.failedAt = none
  · exact .inr ⟨hfailed, hfailed⟩
  · exact .inl hfailed

theorem move?_ne_enter
    {move : Move d}
    (h : t.move? = some move) :
    ∀ opening, move ≠ .enter opening := by
  obtain ⟨act, s⟩ := t
  cases act with
  | perform call => exact ScriptCall.move?_ne_enter h
  | close token =>
      rintro opening rfl
      cases h
  | _ => cases h

/-- A call without a body takes one of the courses. -/
theorem course_of_perform
    (hd : d.LeavesNumbering)
    (call : ScriptCall d)
    (s : Session d.toGrammar) :
    Course ⟨.perform call, s⟩ := by
  cases hmove : call.move? s with
  | none =>
      obtain ⟨journal, hafter⟩ := ScriptCall.perform_of_no_move hmove
      refine .silent journal (congrArg Session.engine hafter) hmove fun reply hreply => ?_
      rcases hresult : (d.scripting.perform call s).1 with error | answer
      · simp only [answer?, hresult] at hreply
        cases hreply
      · simp only [answer?, hresult] at hreply
        cases hreply
        exact ScriptCall.answer_of_no_move hmove hresult
  | some move =>
      obtain ⟨journal, hresult, hengine⟩ := ScriptCall.perform_of_move hmove
      have hcall : IsCall ⟨.perform call, s⟩ := Option.isSome_iff_exists.mpr ⟨move, hmove⟩
      rcases hrun : move.build.run (s.engine.withJournal journal) with ⟨error | reply, after⟩
      · rw [hrun] at hresult
        have herror : Turn.result d.scripting ⟨.perform call, s⟩ = .error error :=
          congrArg (Except.map fun _ => ()) hresult
        exact .failed (failed_of_error hd hcall herror) (congrArg Except.toOption hresult)
      · rw [hrun] at hresult hengine
        have hok : Turn.result d.scripting ⟨.perform call, s⟩ = .ok () :=
          congrArg (Except.map fun _ => ()) hresult
        exact .moved move journal reply (unfailed_of_ok hd hcall hok) hmove
          (hrun.trans (Prod.ext rfl hengine.symm)) (congrArg Except.toOption hresult)

/-- The opening of a scope for a body takes one of the courses. -/
theorem course_of_enter
    (hd : d.LeavesNumbering)
    (opening : ScriptOpening d)
    (s : Session d.toGrammar) :
    Course ⟨.enter opening, s⟩ := by
  rcases hrun : (Engine.enter (d.scripting.scopeOf opening)).run s.engine with
    ⟨error | ⟨token, reply⟩, after⟩
  · have hresult := congrArg Prod.fst hrun
    exact .failed (failed_of_error hd trivial (congrArg (Except.map fun _ => ()) hresult))
      (congrArg (fun made => made.toOption.map fun entered => Reply.token entered.1) hresult)
  · have hresult := congrArg Prod.fst hrun
    exact .entered opening token reply
      (unfailed_of_ok hd trivial (congrArg (Except.map fun _ => ()) hresult)) rfl
      (Prod.ext hresult rfl)
      (congrArg (fun made => made.toOption.map fun entered => Reply.token entered.1) hresult)

/-- The closing of a scope behind its body takes one of the courses. -/
theorem course_of_close
    (hd : d.LeavesNumbering)
    (token : Token)
    (s : Session d.toGrammar) :
    Course (d := d) ⟨.close token, s⟩ := by
  rcases hrun : (Engine.close token).run s.engine with ⟨error | ⟨⟩, after⟩
  · have hresult := congrArg Prod.fst hrun
    exact .failed (failed_of_error hd trivial hresult)
      (congrArg (fun made => made.toOption.map fun _ => Reply.done) hresult)
  · have hresult := congrArg Prod.fst hrun
    exact .moved (.close token) s.engine.journal .done (unfailed_of_ok hd trivial hresult) rfl
      (Attempt.run_bind_of_ok (Prod.ext hresult rfl))
      (congrArg (fun made => made.toOption.map fun _ => Reply.done) hresult)

/-- Every turn takes one of the courses. -/
theorem course
    (hd : d.LeavesNumbering)
    (t : ScriptTurn d) :
    t.Course := by
  obtain ⟨act, s⟩ := t
  cases act with
  | perform call => exact course_of_perform hd call s
  | enter opening => exact course_of_enter hd opening s
  | close token => exact course_of_close hd token s
  | drop token => exact .failed (Option.some_ne_none _) rfl

end Courses

end ScriptTurn

end UmlText
