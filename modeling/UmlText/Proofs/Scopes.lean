import UmlText.Proofs.Frames
import UmlText.Proofs.Runs

/-!
# What a scope leaves behind

A call that opens a scope for its body gives the open scopes back as it has found them in
three cases: it could not open its scope, its body has failed, or its body has run to the
end in a build that has not failed and with everything closed that was opened inside.  In
the one case that is left, where a body hides a failure or leaves a scope of its own open,
the closing call fails, and the scope stays open with all that is inside it.
-/

namespace UmlText

/-- The call uses no token of another engine. -/
def ScriptCall.IsOwn {d : Dialect} : ScriptCall d → Prop
  | .engine (.closeForeign ..) => False
  | _ => True

/-- A scope was opened inside the innermost one, under the token. -/
structure Opened {d : Dialect} (token : Token) (e e' : Engine d.toGrammar) : Prop where
  stack : ∃ frame, e'.stack = frame :: e.stack ∧ frame.serial = token.serial ∧
    Action.obstacle? e frame.scope = none
  depth : token.depth = e.stack.length
  serial : token.serial = e.openings + 1
  openings : e'.openings = e.openings + 1

/-- The open scopes have places in each other, and every token that is held is that of a
scope that was opened. -/
structure Session.Orderly {d : Dialect} (s : Session d.toGrammar) : Prop where
  nested : Nested s.engine.stack
  held : ∀ entry ∈ s.tokens, entry.2.serial ≤ s.engine.openings

/-- The scope of the token stands on `base`, and the session holds no token that would close
it. -/
structure Session.Inside
    {d : Dialect}
    (token : Token)
    (base : List (Frame d.toGrammar))
    (s : Session d.toGrammar) : Prop extends s.Orderly where
  standing : Standing token.serial base s.engine.stack
  positive : 0 < token.serial
  opened : token.serial ≤ s.engine.openings
  others : ∀ entry ∈ s.tokens, entry.2.serial ≠ token.serial

theorem Session.orderly_new {d : Dialect} : ({} : Session d.toGrammar).Orderly :=
  ⟨trivial, fun _ h => by cases h⟩

/-- The token under a name is one that is held, or that of no scope. -/
theorem Session.token_cases
    {G : Grammar}
    (s : Session G)
    (name : String) :
    (∃ entry ∈ s.tokens, s.token name = entry.2) ∨ (s.token name).serial = 0 := by
  unfold Session.token
  cases h : s.tokens.lookup name with
  | none => exact .inr rfl
  | some token =>
      obtain ⟨before, after, hsplit, _⟩ := List.lookup_eq_some_iff.mp h
      refine .inl ⟨(name, token), ?_, rfl⟩
      rw [hsplit]
      exact List.mem_append_right before (List.mem_cons_self ..)

theorem nested_tail
    {d : Dialect}
    {frame : Frame d.toGrammar}
    {outer : List (Frame d.toGrammar)}
    (h : Nested (frame :: outer)) :
    Nested outer := by
  cases outer with
  | nil => trivial
  | cons parent rest => exact h.2

theorem nested_drop
    {d : Dialect}
    {stack : List (Frame d.toGrammar)}
    (h : Nested stack)
    (n : Nat) :
    Nested (stack.drop n) := by
  induction n generalizing stack with
  | zero => exact h
  | succ n ih =>
      cases stack with
      | nil => trivial
      | cons frame outer => exact ih (nested_tail h)

section Scripts

variable {d : Dialect} {r : Reading d} {z : Realization r} {v : Inventory r}
variable {e : Engine d.toGrammar}

/-- The token of a scope that a call of the engine has opened. -/
theorem Move.serial_of_openScope
    {scope : d.Scope}
    {token : Token}
    {e' : Engine d.toGrammar}
    (h : (Move.openScope scope).build.run e = (.ok (.token token), e')) :
    token.serial = e.openings + 1 ∧ e'.openings = e.openings + 1 := by
  have hends : (Move.openScope scope).build.Ends e
      (fun reply e' => ∀ token, reply = .token token →
        token.serial = e.openings + 1 ∧ e'.openings = e.openings + 1)
      (fun _ _ => True) := by
    rw [Move.build, Attempt.ends_bind, Engine.ends_step]
    refine ⟨fun _ _ => trivial, fun _ => ?_⟩
    rw [Action.ends_openScope]
    refine ⟨fun _ _ => trivial, fun _ _ => trivial, fun _ _ token htoken => ?_⟩
    cases htoken
    exact ⟨rfl, rfl⟩
  exact hends.of_ok h token rfl

/-- The call that opens a scope for a body opens it under its token, or leaves the tree
alone. -/
theorem Realization.Sound.ends_enter_scripting
    (hsound : z.Sound v)
    (hd : d.LeavesNumbering)
    (opening : ScriptOpening d) :
    (Engine.enter (d.scripting.scopeOf opening)).Ends e
      (fun entered e' => Opened entered.1 e e')
      (fun _ e' => e.SameTree e' ∧ e.openings ≤ e'.openings) := by
  match opening with
  | .authoring opening =>
      have hends := hsound.ends_enter (e := e) opening
      have hopenings : (Engine.enter (d.openingAction opening)).Ends e
          (fun _ e' => e.openings ≤ e'.openings) (fun _ e' => e.openings ≤ e'.openings) :=
        (hd.openingAction opening).opening.ends_step_openings_le e
      refine (hends.and hopenings).mono ?_ ?_
      · rintro ⟨token, reply⟩ e' ⟨⟨_, hentered⟩, _⟩
        obtain ⟨scope, _, hobstacle, hstack, _⟩ := hentered.opened
        exact ⟨⟨_, hstack, rfl, hobstacle⟩, hentered.token_depth, hentered.serial,
          hentered.openings⟩
      · intro _ e' hbad
        exact ⟨hbad.1.2, hbad.2⟩
  | .engine (.ok scope) =>
      unfold Engine.enter
      rw [Engine.ends_step]
      refine ⟨fun _ _ => ⟨⟨rfl, rfl⟩, Nat.le_refl _⟩, fun _ => ?_⟩
      simp only [Dialect.scripting, pure_bind, Attempt.ends_bind, Attempt.ends_pure]
      rw [Action.ends_openScope]
      refine ⟨fun _ _ => ⟨⟨rfl, rfl⟩, Nat.le_refl _⟩, fun _ _ => ⟨⟨rfl, rfl⟩, Nat.le_refl _⟩,
        fun hobstacle _ => ?_⟩
      exact ⟨⟨_, rfl, rfl, hobstacle⟩, rfl, rfl, rfl⟩
  | .engine (.error why) =>
      unfold Engine.enter
      rw [Engine.ends_step]
      exact ⟨fun _ _ => ⟨⟨rfl, rfl⟩, Nat.le_refl _⟩, fun _ => ⟨⟨rfl, rfl⟩, Nat.le_refl _⟩⟩

variable {s : Session d.toGrammar}

/-- A token that is held behind a call was held before, or the call has opened its scope. -/
theorem ScriptCall.serial_of_perform
    {call : ScriptCall d}
    {entry : String × Token}
    (h : entry ∈ (d.scripting.perform call s).2.tokens) :
    entry ∈ s.tokens ∨ (entry.2.serial = s.engine.openings + 1 ∧
      (d.scripting.perform call s).2.engine.openings = s.engine.openings + 1) := by
  rcases held_of_perform h with hold | ⟨scope, hmove, hanswer⟩
  · exact .inl hold
  · obtain ⟨journal, hresult, hengine⟩ := perform_of_move hmove
    rw [hanswer] at hresult
    rw [hengine]
    exact .inr (Move.serial_of_openScope (e := s.engine.withJournal journal)
      (Prod.ext hresult.symm rfl))

/-- A call without a body forgets no opening. -/
theorem ScriptCall.openings_le
    (hd : d.LeavesNumbering)
    (call : ScriptCall d)
    (s : Session d.toGrammar) :
    s.engine.openings ≤ (d.scripting.perform call s).2.engine.openings := by
  rcases call.engine_cases s with ⟨journal, hengine⟩ | ⟨move, journal, _, hengine⟩
  · rw [hengine]
    exact Nat.le_refl _
  · rw [hengine]
    exact move.openings_le hd (s.engine.withJournal journal)

theorem Opened.nested
    {token : Token}
    {e' : Engine d.toGrammar}
    (h : Opened token e e')
    (hnested : Nested e.stack) :
    Nested e'.stack := by
  obtain ⟨frame, hstack, _, hobstacle⟩ := h.stack
  rw [hstack]
  exact Realization.nested_cons hobstacle hnested

/-- Scripts keep their sessions orderly. -/
theorem Realization.Settled.maintains_orderly
    (hsettled : z.Settled)
    (hsound : z.Sound v)
    (hd : d.LeavesNumbering) :
    Program.Maintains d.scripting (fun _ => True) Session.Orderly (fun _ => True) where
  perform call s _ hs := by
    refine ⟨?_, fun entry hentry => ?_⟩
    · rcases call.engine_cases s with ⟨journal, hengine⟩ | ⟨move, journal, _, hengine⟩
      · rw [hengine]
        exact hs.nested
      · rw [hengine]
        exact hsettled.nested_run hsound (e := s.engine.withJournal journal) hs.nested move
    · rcases ScriptCall.serial_of_perform hentry with hold | ⟨hserial, hopenings⟩
      · exact Nat.le_trans (hs.held entry hold) (call.openings_le hd s)
      · omega
  enter opening s hs := by
    refine (hsound.ends_enter_scripting hd opening).mono ?_ ?_
    · intro entered e hopened
      refine ⟨⟨hopened.nested hs.nested, fun entry hentry => ?_⟩, trivial⟩
      have hheld := hs.held entry hentry
      have hopenings := hopened.openings
      change entry.2.serial ≤ e.openings
      omega
    · intro _ e hbad
      refine ⟨?_, fun entry hentry => Nat.le_trans (hs.held entry hentry) hbad.2⟩
      change Nested e.stack
      rw [hbad.1.stack]
      exact hs.nested
  close token s _ hs := by
    rw [← Move.after_close]
    refine ⟨hsettled.nested_run hsound hs.nested (.close token), fun entry hentry => ?_⟩
    exact Nat.le_trans (hs.held entry hentry) ((Move.close token).openings_le hd s.engine)
  discard token s _ hs := ⟨nested_drop hs.nested _, hs.held⟩

variable {token : Token} {base : List (Frame d.toGrammar)}

/-- A scope that was just opened stands on the scopes that were open before. -/
theorem Session.Orderly.inside_of_opened
    (hs : s.Orderly)
    (h : Opened token s.engine e) :
    Session.Inside token s.engine.stack { s with engine := e } := by
  obtain ⟨frame, hstack, hframe, _⟩ := h.stack
  have hserial := h.serial
  have hopenings := h.openings
  refine ⟨⟨h.nested hs.nested, fun entry hentry => ?_⟩, ?_, ?_, ?_, fun entry hentry => ?_⟩
  · have hheld := hs.held entry hentry
    change entry.2.serial ≤ e.openings
    omega
  · change Standing token.serial s.engine.stack e.stack
    rw [hstack]
    exact .opened hframe
  · omega
  · change token.serial ≤ e.openings
    omega
  · have hheld := hs.held entry hentry
    omega

/-- A call of a script closes no scope but by a token that is held, or by that of no scope.
-/
theorem ScriptCall.serial_of_close
    {call : ScriptCall d}
    {closed : Token}
    (hown : call.IsOwn)
    (hmove : call.move? s = some (.close closed)) :
    (∃ entry ∈ s.tokens, closed = entry.2) ∨ closed.serial = 0 := by
  cases call with
  | authoring call => cases hmove
  | refused why => cases hmove
  | engine call =>
      cases call with
      | close name =>
          cases hmove
          exact s.token_cases name
      | closeForeign scope openings => cases hown
      | _ => cases hmove

/-- What is done inside a scope leaves it standing on the scopes around it. -/
theorem Realization.Settled.maintains_inside
    (hsettled : z.Settled)
    (hsound : z.Sound v)
    (hd : d.LeavesNumbering) :
    Program.Maintains d.scripting ScriptCall.IsOwn (Session.Inside token base)
      (fun inner => inner.serial ≠ token.serial ∧ base.length < inner.depth) := by
  have horderly := hsettled.maintains_orderly hsound hd
  refine ⟨?perform, ?enter, ?close, ?discard⟩
  case perform =>
    intro call s hown hs
    refine ⟨horderly.perform call s trivial hs.toOrderly, ?_, hs.positive,
      Nat.le_trans hs.opened (call.openings_le hd s), fun entry hentry => ?_⟩
    · rcases call.engine_cases s with ⟨journal, hengine⟩ | ⟨move, journal, hmove, hengine⟩
      · rw [hengine]
        exact hs.standing
      · have hshift := hsettled.shift hsound (e := s.engine.withJournal journal) hs.nested move
        rw [hengine]
        refine Standing.of_shift (e := s.engine.withJournal journal) hs.standing hshift hs.opened ?_
        rintro closed rfl
        rcases ScriptCall.serial_of_close hown hmove with ⟨entry, hentry, rfl⟩ | hzero
        · exact hs.others entry hentry
        · have hpositive := hs.positive
          omega
    · rcases ScriptCall.serial_of_perform hentry with hold | ⟨hserial, _⟩
      · exact hs.others entry hold
      · have hopened := hs.opened
        omega
  case enter =>
    intro opening s hs
    refine ((horderly.enter opening s hs.toOrderly).and
      (hsound.ends_enter_scripting hd opening)).mono ?_ ?_
    · intro entered e h
      obtain ⟨⟨hentered, _⟩, hopened⟩ := h
      obtain ⟨frame, hstack, hframe, _⟩ := hopened.stack
      have hserial := hopened.serial
      have hopenings := hopened.openings
      have hdepth := hopened.depth
      have hold := hs.opened
      have hlength := hs.standing.length_lt
      refine ⟨⟨hentered, ?_, hs.positive, ?_, hs.others⟩, ?_, ?_⟩
      · change Standing token.serial base e.stack
        rw [hstack]
        exact hs.standing.cons (by omega)
      · change token.serial ≤ e.openings
        omega
      · omega
      · omega
    · intro _ e h
      obtain ⟨hrefused, htree, hopenings⟩ := h
      refine ⟨hrefused, ?_, hs.positive, Nat.le_trans hs.opened hopenings, hs.others⟩
      exact hs.standing.of_sameFrames (.of_sameTree htree)
  case close =>
    intro inner s hinner hs
    have hshift := hsettled.shift hsound hs.nested (.close inner)
    have hopenings := (Move.close inner).openings_le hd s.engine
    rw [Move.after_close] at hshift hopenings
    refine ⟨horderly.close inner s trivial hs.toOrderly, ?_, hs.positive,
      Nat.le_trans hs.opened hopenings, hs.others⟩
    refine hs.standing.of_shift hshift hs.opened ?_
    rintro closed hmove
    cases hmove
    exact hinner.1
  case discard =>
    intro inner s hinner hs
    exact ⟨horderly.discard inner s trivial hs.toOrderly, hs.standing.drop hinner.2, hs.positive,
      hs.opened, hs.others⟩

/-- A closing call that fails at the end of a body leaves the scope standing; then the build
had failed before, or something was open inside the scope. -/
theorem Session.Inside.close_of_error
    (hs : s.Inside token base)
    (hsettled : z.Settled)
    (hsound : z.Sound v)
    {error : BuildError}
    (h : (Engine.close token).run s.engine = (.error error, e)) :
    ¬(s.engine.failedAt = none ∧ s.engine.depth = base.length + 1) ∧
      Standing token.serial base e.stack := by
  refine ⟨?_, ?_⟩
  · rintro ⟨hnone, hdepth⟩
    obtain ⟨frame, hstack, hserial⟩ := hs.standing.innermost hdepth
    exact (hsettled.closes_innermost hs.nested hnone hstack hserial).of_error h
  · have hshift := hsettled.ends_move hsound (.close token) hs.nested
    rw [Move.build, Attempt.ends_bind] at hshift
    exact hs.standing.of_sameFrames (.of_sameTree (hshift.of_error h))

/-- A closing call that succeeds at the end of a body gives back the scopes around. -/
theorem Session.Inside.close_of_ok
    (hs : s.Inside token base)
    (h : (Engine.close token).run s.engine = (.ok (), e)) :
    (s.engine.failedAt = none ∧ s.engine.depth = base.length + 1) ∧ SameFrames base e.stack := by
  obtain ⟨hnone, hclosed⟩ := (ends_close token).of_ok h
  obtain ⟨frame, outer, hstack, hserial, hsame⟩ := SameFrames.of_closed hclosed
  have hstanding := hs.standing
  rw [hstack] at hstanding
  rw [hstanding.eq_base hserial] at hstack hsame
  refine ⟨⟨hnone, ?_⟩, hsame⟩
  unfold Engine.depth
  rw [hstack]
  rfl

end Scripts

namespace Kind

/-- Whatever scripts do, their sessions are orderly. -/
theorem orderly_runAll
    (kind : Kind)
    (script : List (Script kind.dialect)) :
    (Program.runAll kind.dialect.scripting {} script).after.Orderly :=
  (kind.settled.maintains_orderly kind.sound kind.leavesNumbering).runAll script {}
    (fun _ _ => trivial) Session.orderly_new

/-- What a call with a body leaves behind, for each of its ways to end.  The scopes around
it are open again unless the body hides that the build has failed, or that something is
still open inside it; then the closing call fails, and the scope itself stands as well. -/
theorem scope_released_unless_body_hides
    (kind : Kind)
    (s : Session kind.dialect.toGrammar)
    (opening : ScriptOpening kind.dialect)
    (caught : Bool)
    (body : List (Script kind.dialect))
    (hs : s.Orderly)
    (hown : ∀ call ∈ Program.leavesOf body, call.IsOwn) :
    let m := kind.dialect.scripting
    let report := Program.run m s (.scope opening caught body)
    let stack := report.after.engine.stack
    (∀ error e, (Engine.enter (m.scopeOf opening)).run s.engine = (.error error, e) →
      stack = s.engine.stack) ∧
    ∀ token reply e, (Engine.enter (m.scopeOf opening)).run s.engine = (.ok (token, reply), e) →
      let inside := Program.runAll m { s with engine := e } body
      let clean := inside.after.engine.failedAt = none ∧
        inside.after.engine.depth = s.engine.depth + 1
      (∀ error, inside.result = .error error → stack = s.engine.stack) ∧
      (inside.result = .ok () → clean →
        report.result = .ok reply ∧ SameFrames s.engine.stack stack) ∧
      (inside.result = .ok () → ¬clean →
        (∃ error, report.result = .error error) ∧
          Standing token.serial s.engine.stack stack) := by
  intro m report stack
  have hends := kind.sound.ends_enter_scripting kind.leavesNumbering (e := s.engine) opening
  refine ⟨fun error e henter => ?refused, fun token reply e henter => ?opened⟩
  case refused =>
    have hreport : report = ⟨.error error, { s with engine := e }, []⟩ :=
      Program.run_scope_of_error henter
    have htree := (hends.of_error henter).1
    simp only [stack, hreport, htree.stack]
  case opened =>
    intro inside clean
    have hopened : Opened token s.engine e := hends.of_ok henter
    have hinside : Session.Inside token s.engine.stack inside.after :=
      (kind.settled.maintains_inside kind.sound kind.leavesNumbering).runAll body _ hown
        (hs.inside_of_opened hopened)
    refine ⟨fun error hbody => ?_, fun hbody hclean => ?_, fun hbody hhidden => ?_⟩
    · have hreport : report = _ := Program.run_scope_of_failed henter rfl hbody
      simp only [stack, hreport, Engine.discard, hopened.depth]
      exact hinside.standing.drop_base
    · rcases hclose : (Engine.close token).run inside.after.engine with ⟨error | _, closed⟩
      · exact absurd hclean (hinside.close_of_error kind.settled kind.sound hclose).1
      · have hreport : report = _ := Program.run_scope_of_closed henter rfl hbody hclose
        have hsame := (hinside.close_of_ok hclose).2
        simp only [stack, hreport]
        exact ⟨trivial, hsame⟩
    · rcases hclose : (Engine.close token).run inside.after.engine with ⟨error | _, closed⟩
      · have hreport : report = _ := Program.run_scope_of_unclosed henter rfl hbody hclose
        have hstanding := (hinside.close_of_error kind.settled kind.sound hclose).2
        simp only [stack, hreport]
        exact ⟨⟨error, rfl⟩, hstanding⟩
      · exact absurd (hinside.close_of_ok hclose).1 hhidden

/-- The body of a group that goes to a label that is not there, and hides that this has
failed. -/
def hidingBody : List (Script Kind.activity.dialect) :=
  [.call (.authoring (.goto "a")) true]

/-- The body of the group runs to its end, and yet the group stays open. -/
theorem scope_stands_behind_hidingBody :
    let before : Session Kind.activity.dialect.toGrammar := {}
    let report := Program.run Kind.activity.dialect.scripting before
      (.scope (.authoring (.group "g")) false hidingBody)
    before.engine.failedAt = none ∧ before.engine.depth = 0 ∧
      report.result = .error (.abandoned 2) ∧ report.after.engine.depth = 1 :=
  ⟨rfl, rfl, rfl, rfl⟩

/-- A session in which a script has opened a partition and holds its token. -/
def partitionHeld : Session Kind.activity.dialect.toGrammar :=
  (Program.runAll Kind.activity.dialect.scripting {}
    [.call (.engine (.openScope (Activity.Scope.partition "p" none []) "t")) false]).after

theorem scope_released_unless_body_hides_of_hidingBody :
    let before : Session Kind.activity.dialect.toGrammar := {}
    before.Orderly ∧ (∀ call ∈ Program.leavesOf hidingBody, call.IsOwn) ∧
      Standing 1 [] (Program.run Kind.activity.dialect.scripting before
        (.scope (.authoring (.group "g")) false hidingBody)).after.engine.stack ∧
      partitionHeld.Orderly ∧ partitionHeld.engine.depth = 1 ∧
      Standing 2 partitionHeld.engine.stack (Program.run Kind.activity.dialect.scripting
        partitionHeld (.scope (.authoring (.group "g")) false hidingBody)).after.engine.stack := by
  have hown : ∀ call ∈ Program.leavesOf hidingBody, call.IsOwn := by
    intro call hcall
    cases hcall with
    | head => trivial
    | tail _ h => cases h
  have hheld : partitionHeld.Orderly := orderly_runAll .activity _
  refine ⟨Session.orderly_new, hown, ?_, hheld, rfl, ?_⟩
  · obtain ⟨_, hopened⟩ := scope_released_unless_body_hides .activity {} (.authoring (.group "g"))
      false hidingBody Session.orderly_new hown
    obtain ⟨_, _, hhidden⟩ := hopened ⟨0, 1, "group"⟩ .done _ rfl
    exact (hhidden rfl (by decide +kernel)).2
  · obtain ⟨_, hopened⟩ := scope_released_unless_body_hides .activity partitionHeld
      (.authoring (.group "g")) false hidingBody hheld hown
    obtain ⟨_, _, hhidden⟩ := hopened ⟨1, 2, "group"⟩ .done _ rfl
    exact (hhidden rfl (by decide +kernel)).2

end Kind

end UmlText
