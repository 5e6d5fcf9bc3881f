import UmlText.Proofs.Builds
import UmlText.Proofs.Kinds

/-!
# Open scopes fit each other

Closing a scope takes it off the stack before it is handed to the scope around it, and that
scope may refuse it.  It never does: every open scope has a place in the one around it from
the moment it is opened, and what happens inside a scope never changes where the scope
itself has a place.  So a call that fails leaves the tree as it was, and the innermost scope
can always be closed.
-/

namespace UmlText

/-- One numbered call of an engine: a call of the engine itself, or a call of the dialect. -/
inductive Move (d : Dialect) where
  /-- Appends an element. -/
  | leaf (node : d.Node)
  /-- Opens a scope. -/
  | openScope (scope : d.Scope)
  /-- Closes the scope of a token. -/
  | close (token : Token)
  /-- Declares an alias. -/
  | declare (a : Alias) (kind : String)
  /-- Asks for a declared alias. -/
  | resolve (name kind : String)
  /-- Generates an alias. -/
  | generate (stem : String)
  /-- A call of the dialect that opens no scope. -/
  | authoring (call : d.Call)
  /-- A call of the dialect that opens a scope. -/
  | enter (opening : d.Opening)

/-- What a numbered call does. -/
def Move.build {d : Dialect} : Move d → Build d.toGrammar Reply
  | .leaf node => Engine.step (Action.append node) >>= fun _ => return .done
  | .openScope scope => Engine.step (Action.openScope scope) >>= fun token => return .token token
  | .close token => Engine.close token >>= fun _ => return .done
  | .declare a kind => Engine.step (Action.declare a kind) >>= fun _ => return .done
  | .resolve name kind => Engine.step (Action.resolve name kind) >>= fun a => return .named a
  | .generate stem => Engine.step (Action.generate stem) >>= fun a => return .named a
  | .authoring call => d.callBuild call
  | .enter opening => Engine.enter (d.openingAction opening) >>= fun opened => return opened.2

/-- The states of a build that any sequence of numbered calls leads to. -/
inductive Reachable {d : Dialect} : Engine d.toGrammar → Prop where
  | new : Reachable {}
  | call {e : Engine d.toGrammar} (move : Move d) (h : Reachable e) :
      Reachable (move.build.run e).2

/-- Every scope has a place in the scope around it, and the outermost one at the root. -/
def Nested {d : Dialect} : List (Frame d.toGrammar) → Prop
  | [] => True
  | [frame] => d.rootObstacle frame.scope = none
  | frame :: outer :: rest =>
      d.obstacle outer.scope frame.scope = none ∧ Nested (outer :: rest)

namespace Realization

variable {d : Dialect} {r : Reading d}

/-- A scope has the same place whatever is put into it, and is taken wherever it has a
place. -/
structure Settled (z : Realization r) : Prop where
  root : ∀ {item scope scope'}, z.Grows item scope scope' →
    d.rootObstacle scope' = d.rootObstacle scope
  inner : ∀ {item scope scope'}, z.Grows item scope scope' →
    ∀ outer, d.obstacle outer scope' = d.obstacle outer scope
  grows : ∀ {outer inner outer'}, d.adopt outer inner = .ok outer' →
    ∃ item, z.Grows item outer outer'
  adopts : ∀ {outer inner}, d.obstacle outer inner = none →
    ∃ outer', d.adopt outer inner = .ok outer'
  becomes : ∀ {scope}, d.rootObstacle scope = none → ∃ node, d.toNode scope = .ok node

section Moves

variable {z : Realization r} {v : Inventory r} {e e' : Engine d.toGrammar}

/-- A scope in which something was put stands where it stood. -/
theorem Settled.nested_of_grows
    (hsettled : z.Settled)
    {item : r.Item}
    {frame : Frame d.toGrammar}
    {outer : List (Frame d.toGrammar)}
    {scope : d.Scope}
    (hgrows : z.Grows item frame.scope scope)
    (h : Nested (frame :: outer)) :
    Nested ({ frame with scope } :: outer) := by
  cases outer with
  | nil =>
      change d.rootObstacle scope = none
      rw [hsettled.root hgrows]
      exact h
  | cons parent rest =>
      obtain ⟨hfits, hrest⟩ := h
      refine ⟨?_, hrest⟩
      change d.obstacle parent.scope scope = none
      rw [hsettled.inner hgrows]
      exact hfits

theorem Settled.nested_of_takes
    (hsettled : z.Settled)
    {item : r.Item}
    (htakes : z.Takes item e e')
    (h : Nested e.stack) :
    Nested e'.stack := by
  unfold Takes at htakes
  cases hstack : e.stack with
  | nil =>
      rw [hstack] at htakes
      obtain ⟨hstack', _⟩ := htakes
      rw [hstack']
      trivial
  | cons frame outer =>
      rw [hstack] at htakes h
      obtain ⟨_, scope, hgrows, hstack'⟩ := htakes
      rw [hstack']
      exact hsettled.nested_of_grows hgrows h

/-- A scope that has a place among the open scopes may be opened there. -/
theorem nested_cons
    {frame : Frame d.toGrammar}
    (hobstacle : Action.obstacle? e frame.scope = none)
    (h : Nested e.stack) :
    Nested (frame :: e.stack) := by
  unfold Action.obstacle? at hobstacle
  cases hstack : e.stack with
  | nil =>
      rw [hstack] at hobstacle
      exact hobstacle
  | cons parent rest =>
      rw [hstack] at hobstacle h
      exact ⟨hobstacle, h⟩

/-- Closing a scope only fails where the token is not that of the innermost scope. -/
theorem Settled.ends_closeScope
    (hsettled : z.Settled)
    (token : Token)
    (h : Nested e.stack) :
    (Action.closeScope token : Action d.toGrammar Unit).Ends e
      (fun _ e' => Nested e'.stack)
      (fun _ e' => e.SameTree e' ∧
        ∀ frame outer, e.stack = frame :: outer → frame.serial ≠ token.serial) := by
  rw [Action.ends_closeScope]
  refine ⟨fun hstack => ⟨⟨rfl, rfl⟩, ?_⟩, fun frame outer hstack => ⟨fun hserial => ?_,
    fun hserial => ⟨?_, ?_⟩⟩⟩
  · intro frame outer hcons
    rw [hstack] at hcons
    cases hcons
  · refine ⟨⟨rfl, rfl⟩, ?_⟩
    intro frame' outer' hcons
    rw [hstack] at hcons
    cases hcons
    exact hserial
  · -- the outermost scope becomes an element of the root
    rintro rfl
    rw [hstack] at h
    obtain ⟨node, hnode⟩ := hsettled.becomes h
    refine ⟨fun _ _ => trivial, fun what hwhat => ?_⟩
    rw [hnode] at hwhat
    cases hwhat
  · -- any other scope becomes a child of the one around it
    rintro parent rest rfl
    rw [hstack] at h
    obtain ⟨hfits, hrest⟩ := h
    obtain ⟨scope', hadopt⟩ := hsettled.adopts hfits
    refine ⟨fun scope hscope => ?_, fun what hwhat => ?_⟩
    · obtain ⟨item, hgrows⟩ := hsettled.grows hscope
      exact hsettled.nested_of_grows hgrows hrest
    · rw [hadopt] at hwhat
      cases hwhat

/-- The token of the innermost scope closes it. -/
theorem Settled.closes_innermost
    (hsettled : z.Settled)
    (hnested : Nested e.stack)
    (hnone : e.failedAt = none)
    {frame : Frame d.toGrammar}
    {outer : List (Frame d.toGrammar)}
    (hstack : e.stack = frame :: outer)
    {token : Token}
    (hserial : frame.serial = token.serial) :
    (Engine.close token).Ends e (fun _ e' => Closed token e e' ∧ Nested e'.stack)
      (fun _ _ => False) := by
  have hkept : (Engine.close token).Ends e (fun _ e' => Nested e'.stack) (fun _ _ => False) := by
    rw [Engine.close, Engine.ends_step_of_unfailed _ hnone]
    refine (hsettled.ends_closeScope (e := e.counted) token hnested).mono (fun _ _ h => h) ?_
    exact fun _ _ h => h.2 frame outer hstack hserial
  refine ((ends_close token).and hkept).mono ?_ fun _ _ h => h.2
  exact fun _ _ h => ⟨h.1.2, h.2⟩

/-- A step whose action leaves the tree alone where it fails does so itself. -/
theorem ends_step_of_sameTree
    {α : Type}
    {action : Action d.toGrammar α}
    {ok : α → Engine d.toGrammar → Prop}
    (h : action.Ends e.counted ok fun _ e' => e.SameTree e') :
    (Engine.step action).Ends e ok (fun _ e' => e.SameTree e') := by
  rw [Engine.ends_step]
  refine ⟨fun _ _ => ⟨rfl, rfl⟩, fun _ => ?_⟩
  refine h.mono (fun _ _ hok => hok) ?_
  intro _ _ htree
  exact ⟨htree.root, htree.stack⟩

/-- A numbered call keeps the open scopes in their places, or fails and leaves the tree
alone. -/
theorem Settled.ends_move
    (hsettled : z.Settled)
    (hsound : z.Sound v)
    (move : Move d)
    (h : Nested e.stack) :
    move.build.Ends e (fun _ e' => Nested e'.stack) (fun _ e' => e.SameTree e') := by
  cases move with
  | leaf node =>
      rw [Move.build, Attempt.ends_bind]
      refine ends_step_of_sameTree (ends_append_of_takes (z := z) ?_ ?_)
      · intro e' htakes _ _
        exact hsettled.nested_of_takes htakes h
      · intro _ e' htree
        exact ⟨htree.root, htree.stack⟩
  | openScope scope =>
      rw [Move.build, Attempt.ends_bind]
      refine ends_step_of_sameTree ?_
      rw [Action.ends_openScope]
      refine ⟨fun _ _ => ⟨rfl, rfl⟩, fun _ _ => ⟨rfl, rfl⟩, fun hobstacle _ => ?_⟩
      exact nested_cons (e := e.counted) hobstacle h
  | close token =>
      rw [Move.build, Attempt.ends_bind]
      refine ends_step_of_sameTree ?_
      refine (hsettled.ends_closeScope (e := e.counted) token h).mono (fun _ _ hok => hok) ?_
      intro _ e' hbad
      exact ⟨hbad.1.root, hbad.1.stack⟩
  | declare a kind =>
      rw [Move.build, Attempt.ends_bind]
      refine ends_step_of_sameTree ?_
      rw [Action.ends_declare]
      exact ⟨fun _ _ => h, fun _ _ => ⟨rfl, rfl⟩⟩
  | resolve name kind =>
      rw [Move.build, Attempt.ends_bind]
      refine ends_step_of_sameTree ?_
      rw [Action.ends_resolve]
      exact ⟨fun _ _ => h, fun _ _ => ⟨rfl, rfl⟩⟩
  | generate stem =>
      rw [Move.build, Attempt.ends_bind]
      refine ends_step_of_sameTree ?_
      rw [Action.ends_generate]
      exact h
  | authoring call =>
      refine (hsound.ends_callBuild call).mono ?_ fun _ _ hbad => hbad.2
      rintro _ e' ⟨_, ⟨item, _, htakes, _⟩, _⟩
      exact hsettled.nested_of_takes (e := e.counted) htakes h
  | enter opening =>
      rw [Move.build, Attempt.ends_bind]
      refine (hsound.ends_enter opening).mono ?_ fun _ _ hbad => hbad.2
      rintro ⟨token, reply⟩ e' ⟨_, hentered⟩
      obtain ⟨scope, _, hobstacle, hstack, _⟩ := hentered.opened
      change Nested e'.stack
      rw [hstack]
      exact nested_cons hobstacle h

/-- A numbered call keeps the open scopes in their places, whether it succeeds or not. -/
theorem Settled.nested_run
    (hsettled : z.Settled)
    (hsound : z.Sound v)
    (h : Nested e.stack)
    (move : Move d) :
    Nested (move.build.run e).2.stack := by
  have hends := hsettled.ends_move hsound move h
  rcases hrun : move.build.run e with ⟨error | reply, after⟩
  · rw [(hends.of_error hrun).stack]
    exact h
  · exact hends.of_ok hrun

/-- The open scopes of every state that can be reached have places in each other. -/
theorem Settled.nested_of_reachable
    (hsettled : z.Settled)
    (hsound : z.Sound v)
    (h : Reachable e) :
    Nested e.stack := by
  induction h with
  | new => trivial
  | call move _ ih => exact hsettled.nested_run hsound ih move

end Moves

end Realization

namespace Activity

theorem settled : realization.Settled where
  root h := by
    change Scope.rootObstacle _ = Scope.rootObstacle _
    unfold Scope.rootObstacle
    rw [isBranch_of_grows h]
  inner h outer := by
    change Scope.obstacle _ _ = Scope.obstacle _ _
    unfold Scope.obstacle
    rw [isBranch_of_grows h]
  grows {outer inner outer'} h := by
    cases hbranch : inner.isBranch with
    | true =>
        cases inner <;> cases hbranch
        exact ⟨.clause (.branch _), h⟩
    | false =>
        obtain ⟨node, _, hpush⟩ := (Scope.adopt_eq_ok_iff hbranch).mp h
        exact ⟨.element node, hpush⟩
  adopts {outer inner} h := by
    cases hbranch : inner.isBranch with
    | true =>
        cases inner <;> cases hbranch
        cases outer with
        | fork ending branches => exact ⟨_, rfl⟩
        | split branches => exact ⟨_, rfl⟩
        | _ => cases h
    | false =>
        have hclear : outer.expectation = none := by
          change Scope.obstacle outer inner = none at h
          rw [Scope.obstacle, hbranch] at h
          exact h
        obtain ⟨node, hnode⟩ : ∃ node, inner.toNode = .ok node := by
          cases inner with
          | branch body => cases hbranch
          | _ => exact ⟨_, rfl⟩
        exact ⟨outer.add node,
          (Scope.adopt_eq_ok_iff hbranch).mpr
            ⟨node, hnode, Scope.push_eq_ok_iff.mpr ⟨hclear, rfl⟩⟩⟩
  becomes {scope} h := by
    cases scope with
    | branch body => cases h
    | _ => exact ⟨_, rfl⟩

end Activity

namespace Sequence

theorem settled : realization.Settled where
  root _ := rfl
  inner {item scope scope'} h outer := by
    cases item with
    | element node =>
        rcases Scope.push_eq_ok_iff.mp h with
          ⟨_, _, _, _, rfl, rfl⟩ | ⟨_, _, _, _, rfl, _, rfl⟩
        · cases outer <;> rfl
        · cases outer <;> rfl
    | clause label =>
        obtain ⟨_, _, _, _, rfl, _, rfl⟩ := Scope.startSection_eq_ok_iff.mp h
        cases outer <;> rfl
  grows h := ⟨.element _, h⟩
  adopts {outer inner} h := by
    cases outer with
    | block kind finished label body => exact ⟨_, rfl⟩
    | box title color ps => cases h
  becomes _ := ⟨_, rfl⟩

end Sequence

namespace StateChart

theorem settled : realization.Settled where
  root _ := rfl
  inner _ _ := rfl
  grows h := ⟨.element _, h⟩
  adopts _ := ⟨_, rfl⟩
  becomes _ := ⟨_, rfl⟩

end StateChart

namespace ClassDiagram

theorem settled : realization.Settled where
  root _ := rfl
  inner _ _ := rfl
  grows h := ⟨.element _, h⟩
  adopts _ := ⟨_, rfl⟩
  becomes _ := ⟨_, rfl⟩

end ClassDiagram

namespace Kind

theorem settled : ∀ kind : Kind, kind.realization.Settled
  | .activity => Activity.settled
  | .sequence => Sequence.settled
  | .state => StateChart.settled
  | .class => ClassDiagram.settled

/-- In a state that numbered calls have led to, a call that fails leaves the elements and
the open scopes as they were; and while the build has not failed, the token of the innermost
scope closes it, and the scope goes into the one around it or to the root. -/
theorem tree_unchanged_and_innermost_closes
    (kind : Kind)
    (e : Engine kind.dialect.toGrammar)
    (h : Reachable e) :
    (∀ (move : Move kind.dialect) error e', move.build.run e = (.error error, e') →
      e'.root = e.root ∧ e'.stack = e.stack) ∧
    (e.failedAt = none → ∀ frame outer, e.stack = frame :: outer →
      ∀ token : Token, token.serial = frame.serial →
        ∃ e', (Engine.close token).run e = (.ok (), e') ∧ Closed token e e') := by
  have hnested := kind.settled.nested_of_reachable kind.sound h
  constructor
  · intro move error e' hrun
    have htree := (kind.settled.ends_move kind.sound move hnested).of_error hrun
    exact ⟨htree.root, htree.stack⟩
  · intro hnone frame outer hstack token hserial
    have hcloses := kind.settled.closes_innermost hnested hnone hstack hserial.symm
    obtain ⟨⟨⟩, e', hrun, hclosed, _⟩ := hcloses.exists_ok
    exact ⟨e', hrun, hclosed⟩

/-- A state in which a fork is open; there is no place in it for an element. -/
def forkOpened : Engine Kind.activity.dialect.toGrammar :=
  ((Move.openScope (Activity.Scope.fork none [])).build.run {}).2

/-- A state in which a branch of the fork is open, too. -/
def branchOpened : Engine Kind.activity.dialect.toGrammar :=
  ((Move.openScope (Activity.Scope.branch [])).build.run forkOpened).2

theorem tree_unchanged_and_innermost_closes_of_forkOpened :
    Reachable forkOpened ∧
    (∃ error e', (Move.leaf (Activity.Node.point .stop)).build.run forkOpened =
        (.error error, e') ∧
      e'.root = forkOpened.root ∧ e'.stack = forkOpened.stack) ∧
    (∃ e', (Engine.close ⟨0, 1, "fork"⟩).run forkOpened = (.ok (), e') ∧
      Closed ⟨0, 1, "fork"⟩ forkOpened e') ∧
    Reachable branchOpened ∧ branchOpened.stack.length = 2 ∧
    ∃ e', (Engine.close ⟨1, 2, "branch"⟩).run branchOpened = (.ok (), e') ∧
      Closed ⟨1, 2, "branch"⟩ branchOpened e' := by
  have hfork : Reachable forkOpened := .call _ .new
  have hbranch : Reachable branchOpened := .call _ hfork
  obtain ⟨hunchanged, hcloses⟩ := tree_unchanged_and_innermost_closes .activity forkOpened hfork
  obtain ⟨_, hinner⟩ := tree_unchanged_and_innermost_closes .activity branchOpened hbranch
  exact ⟨hfork, ⟨_, _, rfl, hunchanged (.leaf (Activity.Node.point .stop)) _ _ rfl⟩,
    hcloses rfl _ _ rfl ⟨0, 1, "fork"⟩ rfl, hbranch, rfl,
    hinner rfl _ _ rfl ⟨1, 2, "branch"⟩ rfl⟩

end Kind

end UmlText
