import UmlText.Proofs.Authored
import UmlText.Proofs.Turns

/-!
# What is known of the calls made so far

At every turn of a run a certain list of calls has been made, at whatever nesting.  A
statement on that list and the engine holds all along a run in which no call has failed when
every single call, and every opening and closing of a scope, carries it on.
-/

namespace UmlText

variable {d : Dialect}

/-- The turns of authoring programs. -/
abbrev AuthoringTurn (d : Dialect) :=
  Turn d.toGrammar (Except InvalidValue d.Call) d.Opening

/-- The call without a body that is made in a turn.  Where a value was refused none is made.
-/
def Turn.call? (t : AuthoringTurn d) : Option d.Call :=
  match t.act with
  | .perform (.ok call) => some call
  | _ => none

/-- The calls without a body that are made in these turns, in order. -/
def callsOf (turns : List (AuthoringTurn d)) : List d.Call :=
  turns.filterMap Turn.call?

/-- The statement on the calls made and the engine is carried on by whatever a program does
in a build that has not failed, unless the build fails by it. -/
structure KeepsHistory (I : List d.Call → Engine d.toGrammar → Prop) : Prop where
  call : ∀ {before e}, e.failedAt = none → I before e → ∀ call : d.Call,
    (d.callBuild call).Ends e (fun _ e' => I (before ++ [call]) e')
      (fun _ e' => e'.failedAt ≠ none)
  enter : ∀ {before e}, e.failedAt = none → I before e → ∀ opening : d.Opening,
    (Engine.enter (d.openingAction opening)).Ends e (fun _ e' => I before e')
      (fun _ e' => e'.failedAt ≠ none)
  close : ∀ {before e}, e.failedAt = none → I before e → ∀ token,
    (Engine.close token).Ends e (fun _ e' => I before e') (fun _ e' => e'.failedAt ≠ none)

variable
  {I : List d.Call → Engine d.toGrammar → Prop}
  {before : List d.Call}
  {s s' : Session d.toGrammar}
  {t : AuthoringTurn d}
  {done : List (AuthoringTurn d)}

/-- No turn makes a build good again that has failed. -/
theorem unfailed_before_turn (h : (t.after d.authoring).engine.failedAt = none) :
    t.before.engine.failedAt = none := by
  obtain ⟨act, s⟩ := t
  cases hfailed : s.engine.failedAt with
  | none => rfl
  | some call =>
      have hstep : ∀ {α : Type} (action : Action d.toGrammar α),
          ((Engine.step action).run s.engine).2.failedAt ≠ none := by
        intro α action
        simp [Engine.run_step_of_failed action hfailed, hfailed]
      cases act with
      | perform leaf =>
          cases leaf with
          | error what => exact absurd (hfailed.symm.trans h) (by simp)
          | ok call => exact absurd h (hstep _)
      | enter opening => exact absurd h (hstep _)
      | close token => exact absurd h (hstep _)
      | drop token => cases h

/-- What one turn carries on. -/
theorem KeepsHistory.after_turn
    (hkeeps : KeepsHistory I)
    (h : I before t.before.engine)
    (hnone : (t.after d.authoring).engine.failedAt = none) :
    I (before ++ t.call?.toList) (t.after d.authoring).engine := by
  have hbefore := unfailed_before_turn hnone
  obtain ⟨act, s⟩ := t
  cases act with
  | perform leaf =>
      cases leaf with
      | error what =>
          rw [Turn.call?, Option.toList_none, List.append_nil]
          exact h
      | ok call => exact (hkeeps.call hbefore h call).of_unfailed hnone
  | enter opening =>
      rw [Turn.call?, Option.toList_none, List.append_nil]
      exact (hkeeps.enter hbefore h opening).of_unfailed hnone
  | close token =>
      rw [Turn.call?, Option.toList_none, List.append_nil]
      exact (hkeeps.close hbefore h token).of_unfailed hnone
  | drop token => cases hnone

/-- No turns make a build good again that has failed. -/
theorem unfailed_before_turns
    (hleads : Leads d.authoring s done s')
    (hnone : s'.engine.failedAt = none) :
    s.engine.failedAt = none := by
  induction done generalizing s with
  | nil =>
      obtain rfl := hleads
      exact hnone
  | cons t rest ih =>
      obtain ⟨rfl, hrest⟩ := hleads
      exact unfailed_before_turn (ih hrest)

/-- What all the turns of a run carry on, in so far as no call has failed. -/
theorem KeepsHistory.after_turns
    (hkeeps : KeepsHistory I)
    (hleads : Leads d.authoring s done s')
    (h : I before s.engine)
    (hnone : s'.engine.failedAt = none) :
    I (before ++ callsOf done) s'.engine := by
  induction done generalizing before s with
  | nil =>
      obtain rfl := hleads
      rw [callsOf, List.filterMap_nil, List.append_nil]
      exact h
  | cons t rest ih =>
      obtain ⟨rfl, hrest⟩ := hleads
      have hturn := hkeeps.after_turn h (unfailed_before_turns hrest hnone)
      have hcalls : callsOf (t :: rest) = t.call?.toList ++ callsOf rest := by
        rw [callsOf, List.filterMap_cons]
        cases t.call? <;> rfl
      rw [hcalls, ← List.append_assoc]
      exact ih hrest hturn

end UmlText
