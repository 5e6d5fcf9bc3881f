import UmlText.Proofs.Realization

/-!
# What the calls of a build do

A call of a build is one step: it is counted, and when it fails the build has failed.  The
three sorts of calls that a program makes are described here by what they leave behind: a
call of the dialect, the call that opens a scope, and the call that closes it.
-/

namespace UmlText

/-- A scope was opened: it is the innermost one now, and nothing else has changed in the
tree. -/
structure Entered
    {d : Dialect}
    {r : Reading d}
    (z : Realization r)
    (v : Inventory r)
    (opening : d.Opening)
    (token : Token)
    (e e' : Engine d.toGrammar) : Prop where
  opened : ∃ scope head,
    Action.obstacle? e scope = none ∧
    e'.stack = ⟨scope, token.serial, e.calls + 1⟩ :: e.stack ∧
    r.opening e.registry.generated opening = some (head, e'.registry.generated) ∧
    z.Holds head [] scope ∧
    ∀ depth, Books v.kind (depth + 1) (v.scope depth scope) e e'
  token_depth : token.depth = e.stack.length
  shallow : e.stack.length < maxDepth
  serial : token.serial = e.openings + 1
  root : e'.root = e.root
  calls : e'.calls = e.calls + 1
  openings : e'.openings = e.openings + 1
  failedAt : e'.failedAt = none

/-- The scope is the innermost one now; nothing else that a call finds has changed. -/
structure Stacked {d : Dialect} (scope : d.Scope) (e e' : Engine d.toGrammar) : Prop where
  stack : ∃ serial openedAt, e'.stack = ⟨scope, serial, openedAt⟩ :: e.stack
  root : e'.root = e.root
  registry : e'.registry = e.registry
  context : e'.context = e.context
  calls : e'.calls = e.calls + 1
  failedAt : e'.failedAt = none

/-- The innermost scope was closed: it has become the last element of the scope around it,
or of the root. -/
structure Closed
    {d : Dialect}
    (token : Token)
    (e e' : Engine d.toGrammar) : Prop where
  closed : ∃ frame outer, e.stack = frame :: outer ∧ frame.serial = token.serial ∧
    match outer with
    | [] => ∃ node, d.toNode frame.scope = .ok node ∧ e'.stack = [] ∧ e'.root = e.root ++ [node]
    | parent :: rest =>
        ∃ scope, d.adopt parent.scope frame.scope = .ok scope ∧
          e'.stack = { parent with scope } :: rest ∧ e'.root = e.root
  registry : e'.registry = e.registry
  calls : e'.calls = e.calls + 1
  openings : e'.openings = e.openings
  failedAt : e'.failedAt = none

namespace Realization.Sound

variable {d : Dialect} {r : Reading d} {z : Realization r} {v : Inventory r}
variable {e : Engine d.toGrammar}

/-- A call of the dialect does what its reading says, or fails and leaves the tree alone. -/
theorem ends_callBuild
    (hsound : z.Sound v)
    (call : d.Call) :
    (d.callBuild call).Ends e
      (fun _ e' => e.failedAt = none ∧ z.Performed v call e.counted e')
      (fun _ e' => e'.failedAt ≠ none ∧ e.SameTree e') := by
  unfold Dialect.callBuild
  rw [Engine.ends_step]
  refine ⟨fun _ hfailed => ?_, fun hnone => ?_⟩
  · exact ⟨by simp [hfailed], rfl, rfl⟩
  · simp only [Attempt.ends_bind, Attempt.ends_pure]
    refine (hsound.call call e.counted).mono ?_ ?_
    · intro _ _ h
      exact ⟨hnone, h⟩
    · intro fault after h
      exact ⟨by simp [Engine.failed], h.root, h.stack⟩

/-- The call that opens a scope opens what its reading says, or fails and leaves the tree
alone. -/
theorem ends_enter
    (hsound : z.Sound v)
    (opening : d.Opening) :
    (Engine.enter (d.openingAction opening)).Ends e
      (fun result e' => e.failedAt = none ∧ Entered z v opening result.1 e e')
      (fun _ e' => e'.failedAt ≠ none ∧ e.SameTree e') := by
  unfold Engine.enter Dialect.openingAction
  rw [Engine.ends_step]
  refine ⟨fun _ hfailed => ?_, fun hnone => ?_⟩
  · exact ⟨by simp [hfailed], rfl, rfl⟩
  simp only [Attempt.ends_bind, Attempt.ends_pure]
  refine (hsound.opening opening e.counted).mono ?_ ?_
  · rintro ⟨scope, a⟩ e₁ ⟨⟨head, hread, hholds⟩, hbooked, htree, hcounts⟩
    rw [Action.ends_openScope]
    have hdepth : e₁.depth = e.stack.length := by
      unfold Engine.depth
      rw [htree.stack]
      rfl
    have hobstacle : Action.obstacle? e₁ scope = Action.obstacle? e scope := by
      unfold Action.obstacle?
      rw [htree.stack]
      rfl
    refine ⟨fun _ _ => ?_, fun _ _ => ?_, fun hclear hshallow => ⟨hnone, ?_⟩⟩
    · exact ⟨by simp [Engine.failed], htree.root, htree.stack⟩
    · exact ⟨by simp [Engine.failed], htree.root, htree.stack⟩
    · have hcalls : e₁.calls = e.calls + 1 := hcounts.calls
      have hopenings : e₁.openings = e.openings := hcounts.openings
      refine ⟨⟨scope, head, hobstacle ▸ hclear, ?_, hread, hholds, fun depth => ?_⟩, hdepth,
        hdepth ▸ hshallow, ?_, htree.root, hcalls, ?_, ?_⟩
      · change _ :: e₁.stack = _
        rw [htree.stack, hcalls]
        rfl
      · obtain ⟨hentries, hdistinct, hfresh, hplain, hknown, hbound⟩ := hbooked depth
        exact ⟨hentries, hdistinct, hfresh, hplain, hknown, hbound⟩
      · rw [hopenings]
      · change e₁.openings + 1 = _
        rw [hopenings]
      · exact hcounts.failedAt.trans hnone
  · intro fault after h
    exact ⟨by simp [Engine.failed], h.root, h.stack⟩

end Realization.Sound

/-- A call that closes a scope closes the innermost one, or makes the build fail. -/
theorem ends_close
    {d : Dialect}
    {e : Engine d.toGrammar}
    (token : Token) :
    (Engine.close token).Ends e
      (fun _ e' => e.failedAt = none ∧ Closed token e e') (fun _ e' => e'.failedAt ≠ none) := by
  unfold Engine.close
  rw [Engine.ends_step]
  refine ⟨fun _ hfailed => by simp [hfailed], fun hnone => ?_⟩
  rw [Action.ends_closeScope]
  refine ⟨fun _ => by simp [Engine.failed], fun frame outer hstack => ?_⟩
  refine ⟨fun _ => by simp [Engine.failed], fun hserial => ?_⟩
  refine ⟨fun houter => ⟨fun node hnode => ?_, fun _ _ => by simp [Engine.failed]⟩,
    fun parent rest houter => ⟨fun scope hadopt => ?_, fun _ _ => by simp [Engine.failed]⟩⟩
  · subst houter
    exact ⟨hnone, ⟨frame, [], hstack, hserial, node, hnode, rfl, rfl⟩, rfl, rfl, rfl, hnone⟩
  · subst houter
    exact ⟨hnone, ⟨frame, parent :: rest, hstack, hserial, scope, hadopt, rfl, rfl⟩, rfl, rfl, rfl,
      hnone⟩

/-- A scope that is only checked before it is opened: it becomes the innermost one if it
passes the check and has a place that is not too deep, and else the call fails. -/
theorem ends_enter_checked
    {d : Dialect}
    {e : Engine d.toGrammar}
    {opening : d.Opening}
    {check : Except InvalidValue d.Scope}
    (hopening : d.scopeOf opening = do
      let scope ← Action.valid check
      return (scope, none)) :
    (Engine.enter (d.openingAction opening)).Ends e
      (fun _ e' => e.failedAt = none ∧ ∃ scope, check = .ok scope ∧
        Action.obstacle? e scope = none ∧ e.stack.length < maxDepth ∧ Stacked scope e e')
      (fun _ e' => e'.failedAt ≠ none ∧ (e.failedAt = none →
        e'.failedAt = some (e.calls + 1) ∧
          ∀ scope, check = .ok scope → Action.obstacle? e scope = none →
            maxDepth ≤ e.stack.length)) := by
  unfold Engine.enter Dialect.openingAction
  rw [hopening, Engine.ends_step]
  refine ⟨fun call hfailed => ?_, fun hnone => ?_⟩
  · exact ⟨by simp [hfailed], fun hnone => by simp [hfailed] at hnone⟩
  simp only [Attempt.ends_bind, Attempt.ends_pure, Action.ends_valid]
  refine ⟨fun scope hscope => ?_, fun what hwhat => ?_⟩
  · rw [Action.ends_openScope]
    refine ⟨fun expected hobstacle => ?_, fun _ hdeep => ?_, fun hclear hshallow => ?_⟩
    · refine ⟨by simp [Engine.failed], fun _ => ⟨rfl, fun made hmade hclear => ?_⟩⟩
      obtain rfl : scope = made := Except.ok.inj (hscope.symm.trans hmade)
      exact absurd (hobstacle.symm.trans hclear) (by simp)
    · exact ⟨by simp [Engine.failed], fun _ => ⟨rfl, fun _ _ _ => hdeep⟩⟩
    · exact ⟨hnone, scope, hscope, hclear, hshallow, ⟨_, _, rfl⟩, rfl, rfl, rfl, rfl, hnone⟩
  · refine ⟨by simp [Engine.failed], fun _ => ⟨rfl, fun scope hscope => ?_⟩⟩
    rw [hwhat] at hscope
    cases hscope

end UmlText
