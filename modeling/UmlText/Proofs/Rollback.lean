import UmlText.Proofs.Frames
import UmlText.Proofs.Runs

/-!
# A body that fails leaves no trace in the tree

When the body of a scope fails, the scope is dropped with everything inside it.  By then the
body may have opened scopes and left them open, hidden failures, and changed its own scope
at will.  But every call of a dialect changes the innermost scope alone, and a scope is
closed by its own token alone; so whatever happens inside a scope, the scopes around it and
the root stay as they are (`Engine.Above`).

This needs nothing to be known of the state in which the scope is opened.
-/

namespace UmlText

/-- The scope with this number stands on `base`, in a tree with this root, and all scopes to
come have greater numbers. -/
structure Engine.Above
    {G : Grammar}
    (serial : Nat)
    (base : List (Frame G))
    (root : List G.Node)
    (e : Engine G) : Prop where
  standing : Standing serial base e.stack
  root : e.root = root
  opened : serial ≤ e.openings

section Bodies

variable {d : Dialect} {r : Reading d} {z : Realization r} {v : Inventory r}
variable {serial : Nat} {base : List (Frame d.toGrammar)} {root : List d.Node}
variable {e e' : Engine d.toGrammar}

namespace Engine.Above

/-- A call that leaves the tree alone leaves everything around the scope alone. -/
theorem of_sameTree
    (h : e.Above serial base root)
    (htree : e.SameTree e')
    (hopenings : e.openings ≤ e'.openings) :
    e'.Above serial base root :=
  ⟨h.standing.of_sameFrames (.of_sameTree htree), htree.root.trans h.root,
    Nat.le_trans h.opened hopenings⟩

/-- What is taken inside the scope goes into the innermost scope, and not into the root. -/
theorem of_takes
    {item : r.Item}
    (h : e.Above serial base root)
    (htakes : z.Takes item e e')
    (hopenings : e'.openings = e.openings) :
    e'.Above serial base root := by
  have hstanding := h.standing.of_sameFrames (.of_takes htakes)
  unfold Realization.Takes at htakes
  cases hstack : e.stack with
  | nil =>
      have hlength := h.standing.length_lt
      rw [hstack] at hlength
      exact absurd hlength (Nat.not_lt_zero _)
  | cons frame outer =>
      rw [hstack] at htakes
      refine ⟨hstanding, htakes.1.trans h.root, ?_⟩
      rw [hopenings]
      exact h.opened

/-- A scope that is opened inside has a greater number, and lies deeper. -/
theorem of_entered
    {opening : d.Opening}
    {token : Token}
    (h : e.Above serial base root)
    (hentered : Entered z v opening token e e') :
    e'.Above serial base root ∧ serial < token.serial ∧ base.length < token.depth := by
  obtain ⟨scope, head, _, hstack, _⟩ := hentered.opened
  have hopened := h.opened
  have hserial := hentered.serial
  have hopenings := hentered.openings
  refine ⟨⟨?_, hentered.root.trans h.root, by omega⟩, by omega, ?_⟩
  · rw [hstack]
    refine h.standing.cons ?_
    change token.serial ≠ serial
    omega
  · rw [hentered.token_depth]
    exact h.standing.length_lt

/-- The token of a scope inside closes that scope, or fails, and in no case anything around.
-/
theorem close
    {token : Token}
    (h : e.Above serial base root)
    (htoken : token.serial ≠ serial) :
    ((Engine.close token).run e).2.Above serial base root := by
  refine Attempt.ends_state_iff.mp ?_
  unfold Engine.close
  rw [ends_step]
  refine ⟨fun _ _ => h, fun _ => ?_⟩
  rw [Action.ends_closeScope]
  refine ⟨fun _ => ⟨h.standing, h.root, h.opened⟩, fun frame outer hstack =>
    ⟨fun _ => ⟨h.standing, h.root, h.opened⟩, fun hserial => ?_⟩⟩
  have houter : Standing serial base outer := by
    have hstanding : Standing serial base (frame :: outer) := hstack ▸ h.standing
    exact hstanding.tail (hserial ▸ htoken)
  refine ⟨?_, ?_⟩
  · rintro rfl
    exact absurd houter.length_lt (Nat.not_lt_zero _)
  · rintro parent rest rfl
    refine ⟨fun scope _ => ⟨houter.of_sameFrames ⟨scope, rfl⟩, h.root, h.opened⟩,
      fun _ _ => ⟨houter, h.root, h.opened⟩⟩

/-- Dropping a scope that lies inside leaves everything around alone. -/
theorem discard
    {token : Token}
    (h : e.Above serial base root)
    (hdepth : base.length < token.depth) :
    (e.discard token).Above serial base root :=
  ⟨h.standing.drop hdepth, h.root, h.opened⟩

end Engine.Above

/-- Whatever a program does inside a scope, everything around the scope stays as it is. -/
theorem Realization.Sound.maintains_above
    (hsound : z.Sound v)
    (hd : d.LeavesNumbering) :
    Program.Maintains d.authoring (fun _ => True) (fun s => s.engine.Above serial base root)
      (fun token => serial < token.serial ∧ base.length < token.depth) where
  perform leaf s _ hs := by
    cases leaf with
    | error what => exact hs
    | ok call =>
        change ((d.callBuild call).run s.engine).2.Above serial base root
        have hopenings : s.engine.openings ≤ ((d.callBuild call).run s.engine).2.openings :=
          (Move.authoring call).openings_le hd s.engine
        have hends := hsound.ends_callBuild (e := s.engine) call
        rcases hrun : (d.callBuild call).run s.engine with ⟨error | reply, after⟩
        · rw [hrun] at hopenings
          exact hs.of_sameTree (hends.of_error hrun).2 hopenings
        · obtain ⟨_, ⟨item, _, htakes, _⟩, hcounts⟩ := hends.of_ok hrun
          exact Engine.Above.of_takes (e := s.engine.counted) ⟨hs.standing, hs.root, hs.opened⟩
            htakes hcounts.openings
  enter opening s hs := by
    have hopenings : (Engine.enter (d.openingAction opening)).Ends s.engine
        (fun _ e' => s.engine.openings ≤ e'.openings)
        (fun _ e' => s.engine.openings ≤ e'.openings) :=
      (hd.openingAction opening).opening.ends_step_openings_le s.engine
    refine ((hsound.ends_enter opening).and hopenings).mono ?_ ?_
    · rintro ⟨token, reply⟩ e ⟨⟨_, hentered⟩, _⟩
      exact hs.of_entered hentered
    · rintro _ e ⟨⟨_, htree⟩, hle⟩
      exact hs.of_sameTree htree hle
  close token s htoken hs := hs.close (Nat.ne_of_gt htoken.1)
  discard token s htoken hs := hs.discard htoken.2

end Bodies

/-- Once the scope of a call is open, whatever its body does, dropping the scope leaves the
tree as the call has found it: the root, and every scope that was open.  And when the body
fails, that is what happens. -/
theorem Kind.tree_restored_of_body_failed
    (kind : Kind)
    (s : Session kind.dialect.toGrammar)
    (opening : kind.dialect.Opening)
    (caught : Bool)
    (body : List (Authoring kind.dialect))
    (token : Token)
    (reply : Reply)
    (opened : Engine kind.dialect.toGrammar)
    (hopens : (Engine.enter (kind.dialect.openingAction opening)).run s.engine =
      (.ok (token, reply), opened)) :
    let m := kind.dialect.authoring
    let inside := Program.runAll m { s with engine := opened } body
    let dropped := inside.after.engine.discard token
    (dropped.root = s.engine.root ∧ dropped.stack = s.engine.stack) ∧
    ∀ error, inside.result = .error error →
      let report := Program.run m s (.scope opening caught body)
      report.result = .error error ∧ report.after.engine = dropped := by
  intro m inside dropped
  obtain ⟨_, hentered⟩ := (kind.sound.ends_enter opening).of_ok hopens
  have habove : inside.after.engine.Above token.serial s.engine.stack s.engine.root := by
    refine (kind.sound.maintains_above kind.leavesNumbering).runAll body _ (fun _ _ => trivial) ?_
    obtain ⟨scope, head, _, hstack, _⟩ := hentered.opened
    refine ⟨?_, hentered.root, ?_⟩
    · change Standing token.serial s.engine.stack opened.stack
      rw [hstack]
      exact .opened rfl
    · exact Nat.le_of_eq (hentered.serial.trans hentered.openings.symm)
  refine ⟨⟨habove.root, ?_⟩, fun error hbody => ?_⟩
  · change inside.after.engine.stack.drop (inside.after.engine.stack.length - token.depth) = _
    rw [hentered.token_depth]
    exact habove.standing.drop_base
  · intro report
    have hreport : report = _ := Program.run_scope_of_failed hopens rfl hbody
    rw [hreport]
    exact ⟨rfl, rfl⟩

/-- A partition that stands open with an action in it. -/
def Kind.filledPartition : Session Kind.activity.dialect.toGrammar where
  engine := {
    stack := [⟨.partition "p" none [.action { text := "a" }], 1, 1⟩]
    openings := 1
    calls := 2 }

/-- The body of a loop that leaves a fork open behind a jump to a label that is not there,
and then fails itself. -/
def Kind.bodyBehindFork : List (Authoring Kind.activity.dialect) :=
  [.call (.ok (.action { text := "b" })) false,
    .scope .fork true [.call (.ok (.goto "x")) true],
    .call (.ok (.action { text := "c" })) false]

theorem Kind.tree_restored_of_body_failed_of_bodyBehindFork :
    let m := Kind.activity.dialect.authoring
    let opening : Activity.Opening := .whileLoop { condition := "w" }
    ∃ opened : Engine Kind.activity.dialect.toGrammar,
      (Engine.enter (Kind.activity.dialect.openingAction opening)).run filledPartition.engine =
        (.ok (⟨1, 2, "while"⟩, .done), opened) ∧
      (Program.runAll m { filledPartition with engine := opened } bodyBehindFork).after.engine.depth
        = 3 ∧
      (Program.run m filledPartition (.scope opening false bodyBehindFork)).after.engine.stack =
        filledPartition.engine.stack := by
  refine ⟨_, rfl, by decide +kernel, ?_⟩
  obtain ⟨⟨_, hstack⟩, hfailed⟩ := tree_restored_of_body_failed .activity filledPartition
    (.whileLoop { condition := "w" }) false bodyBehindFork ⟨1, 2, "while"⟩ .done _ rfl
  rw [(hfailed (.abandoned 6) rfl).2]
  exact hstack

end UmlText
