import UmlText.Proofs.Ends

/-!
# Runs of programs

The equations of a run, one for each way in which a call or a list of calls can end, and
what follows from them for every program: an invariant of the engine that every call keeps
is kept by a run, and a list of calls without a flaw runs to its end.
-/

namespace UmlText

namespace Report

variable {G : Grammar}

mutual

/-- Whether neither the call nor a call in its body has failed. -/
def flawless : Report G → Bool
  | ⟨result, _, inner⟩ => result.isOk && allFlawless inner

/-- Whether none of the calls has failed, nor a call in one of their bodies. -/
def allFlawless : List (Report G) → Bool
  | [] => true
  | report :: rest => report.flawless && allFlawless rest

end

/-- A report is flawless when the call has succeeded and so have those in its body. -/
theorem flawless_iff
    {report : Report G} :
    report.flawless = true ↔
      (∃ reply, report.result = .ok reply) ∧ allFlawless report.inner = true := by
  obtain ⟨result, after, inner⟩ := report
  cases result <;> simp [flawless, Except.isOk, Except.toBool]

end Report

namespace Program

variable {G : Grammar} {Leaf Opening : Type} {m : Meaning G Leaf Opening} {s : Session G}

section Equations

variable {opening : Opening} {caught : Bool} {body : List (Program Leaf Opening)}
variable {error : BuildError} {token : Token} {reply : Reply} {after opened : Engine G}

/-- A scope that is not opened leaves its body out. -/
theorem run_scope_of_error
    (h : (Engine.enter (m.scopeOf opening)).run s.engine = (.error error, after)) :
    run m s (.scope opening caught body) = ⟨.error error, { s with engine := after }, []⟩ := by
  simp only [run, Session.build, h]

/-- A scope whose body has run to the end is closed. -/
theorem run_scope_of_ok
    (h : (Engine.enter (m.scopeOf opening)).run s.engine = (.ok (token, reply), opened))
    {inside : Run G}
    (hinside : runAll m { s with engine := opened } body = inside)
    (hbody : inside.result = .ok ()) :
    run m s (.scope opening caught body) =
      ⟨((Engine.close token).run inside.after.engine).1.map fun _ => reply,
        { inside.after with engine := ((Engine.close token).run inside.after.engine).2 },
        inside.reports⟩ := by
  subst hinside
  simp only [run, Session.build, h, hbody]

/-- A scope that can be closed behind its body answers what its opening has promised. -/
theorem run_scope_of_closed
    (h : (Engine.enter (m.scopeOf opening)).run s.engine = (.ok (token, reply), opened))
    {inside : Run G}
    (hinside : runAll m { s with engine := opened } body = inside)
    (hbody : inside.result = .ok ())
    (hclose : (Engine.close token).run inside.after.engine = (.ok (), after)) :
    run m s (.scope opening caught body) =
      ⟨.ok reply, { inside.after with engine := after }, inside.reports⟩ := by
  rw [run_scope_of_ok h hinside hbody, hclose]
  rfl

/-- A scope that cannot be closed behind its body fails as the closing does. -/
theorem run_scope_of_unclosed
    (h : (Engine.enter (m.scopeOf opening)).run s.engine = (.ok (token, reply), opened))
    {inside : Run G}
    (hinside : runAll m { s with engine := opened } body = inside)
    (hbody : inside.result = .ok ())
    (hclose : (Engine.close token).run inside.after.engine = (.error error, after)) :
    run m s (.scope opening caught body) =
      ⟨.error error, { inside.after with engine := after }, inside.reports⟩ := by
  rw [run_scope_of_ok h hinside hbody, hclose]
  rfl

/-- A scope whose body has failed is dropped. -/
theorem run_scope_of_failed
    (h : (Engine.enter (m.scopeOf opening)).run s.engine = (.ok (token, reply), opened))
    {inside : Run G}
    (hinside : runAll m { s with engine := opened } body = inside)
    (hbody : inside.result = .error error) :
    run m s (.scope opening caught body) =
      ⟨.error error, { inside.after with engine := inside.after.engine.discard token },
        inside.reports⟩ := by
  subst hinside
  simp only [run, Session.build, h, hbody]

variable {p : Program Leaf Opening} {rest : List (Program Leaf Opening)} {report : Report G}

/-- A failure that is not caught ends its list. -/
theorem runAll_cons_of_error
    (hreport : run m s p = report)
    (herror : report.result = .error error)
    (hcaught : p.caught = false) :
    runAll m s (p :: rest) = ⟨[report], .error error, report.after⟩ := by
  subst hreport
  simp only [runAll, herror, hcaught]

/-- A list goes on behind a call that succeeds, and behind a failure that is caught. -/
theorem runAll_cons_of_goes_on
    (hreport : run m s p = report)
    (h : (∃ reply, report.result = .ok reply) ∨ p.caught = true) :
    runAll m s (p :: rest) =
      ⟨report :: (runAll m report.after rest).reports, (runAll m report.after rest).result,
        (runAll m report.after rest).after⟩ := by
  subst hreport
  rcases h with ⟨reply, hok⟩ | hcaught
  · simp only [runAll, hok]
  · rw [runAll]
    split
    · next hnot =>
        rw [hcaught] at hnot
        cases hnot
    · rfl

/-- A call either lets its list go on or ends it with a failure. -/
theorem goes_on_or_fails
    (report : Report G)
    (p : Program Leaf Opening) :
    ((∃ reply, report.result = .ok reply) ∨ p.caught = true) ∨
      ∃ error, report.result = .error error ∧ p.caught = false := by
  cases hresult : report.result with
  | ok reply => exact .inl (.inl ⟨reply, rfl⟩)
  | error error =>
      cases hcaught : p.caught with
      | true => exact .inl (.inr rfl)
      | false => exact .inr ⟨error, rfl, rfl⟩

/-- A list of calls has no flaw when its first call has none, and neither have the others
after it. -/
theorem allFlawless_runAll_cons :
    Report.allFlawless (runAll m s (p :: rest)).reports = true ↔
      (run m s p).flawless = true ∧
        Report.allFlawless (runAll m (run m s p).after rest).reports = true := by
  rcases goes_on_or_fails (run m s p) p with hgoes | ⟨error, herror, hcaught⟩
  · rw [runAll_cons_of_goes_on rfl hgoes]
    simp [Report.allFlawless]
  · have hflawed : (run m s p).flawless = false := by
      rw [Bool.eq_false_iff]
      intro hflawless
      obtain ⟨⟨reply, hok⟩, _⟩ := Report.flawless_iff.mp hflawless
      rw [herror] at hok
      cases hok
    rw [runAll_cons_of_error rfl herror hcaught]
    simp [Report.allFlawless, hflawed]

/-- A list of calls without a flaw runs to its end. -/
theorem result_of_allFlawless
    {ps : List (Program Leaf Opening)}
    (h : Report.allFlawless (runAll m s ps).reports = true) :
    (runAll m s ps).result = .ok () := by
  induction ps generalizing s with
  | nil => rfl
  | cons p rest ih =>
      obtain ⟨hfirst, hrest⟩ := allFlawless_runAll_cons.mp h
      obtain ⟨hok, _⟩ := Report.flawless_iff.mp hfirst
      rw [runAll_cons_of_goes_on rfl (.inl hok)]
      exact ih hrest

/-- A scope without a flaw was opened, its body has no flaw, and it was closed. -/
theorem of_flawless_scope
    (h : (run m s (.scope opening caught body)).flawless = true) :
    ∃ token reply opened closed,
      (Engine.enter (m.scopeOf opening)).run s.engine = (.ok (token, reply), opened) ∧
      Report.allFlawless (runAll m { s with engine := opened } body).reports = true ∧
      (Engine.close token).run (runAll m { s with engine := opened } body).after.engine =
        (.ok (), closed) ∧
      (run m s (.scope opening caught body)).after.engine = closed := by
  rcases henter : (Engine.enter (m.scopeOf opening)).run s.engine with
    ⟨error | ⟨token, reply⟩, opened⟩
  · rw [run_scope_of_error henter] at h
    cases h
  · cases hbody : (runAll m { s with engine := opened } body).result with
    | error error =>
        rw [run_scope_of_failed henter rfl hbody] at h
        cases h
    | ok =>
        rw [run_scope_of_ok henter rfl hbody] at h ⊢
        obtain ⟨⟨answer, hanswer⟩, hinner⟩ := Report.flawless_iff.mp h
        rcases hclose : (Engine.close token).run
          (runAll m { s with engine := opened } body).after.engine with ⟨error | ⟨⟩, closed⟩
        · rw [hclose] at hanswer
          cases hanswer
        · exact ⟨token, reply, opened, closed, rfl, hinner, hclose, rfl⟩

end Equations

mutual

/-- The calls without a body in a call and its body. -/
def leaves : Program Leaf Opening → List Leaf
  | .call leaf _ => [leaf]
  | .scope _ _ body => leavesOf body

/-- The calls without a body in a list of calls. -/
def leavesOf : List (Program Leaf Opening) → List Leaf
  | [] => []
  | p :: rest => p.leaves ++ leavesOf rest

end

/-- An invariant of sessions through the steps of a run, as long as the calls without a body
satisfy `P`.  The tokens of the scopes that are opened on the way satisfy `T`. -/
structure Maintains
    (m : Meaning G Leaf Opening)
    (P : Leaf → Prop)
    (I : Session G → Prop)
    (T : Token → Prop) : Prop where
  perform : ∀ leaf s, P leaf → I s → I (m.perform leaf s).2
  enter : ∀ opening s, I s →
    (Engine.enter (m.scopeOf opening)).Ends s.engine
      (fun entered e => I { s with engine := e } ∧ T entered.1)
      (fun _ e => I { s with engine := e })
  close : ∀ token s, T token → I s →
    I { s with engine := ((Engine.close token).run s.engine).2 }
  discard : ∀ token s, T token → I s → I { s with engine := s.engine.discard token }

section Invariants

variable {P : Leaf → Prop} {I : Session G → Prop} {T : Token → Prop}

mutual

/-- An invariant goes through a call with its body. -/
theorem Maintains.run
    (hmaintains : Maintains m P I T) :
    ∀ (p : Program Leaf Opening) (s : Session G),
      (∀ leaf ∈ p.leaves, P leaf) → I s → I (run m s p).after
  | .call leaf _, s, hleaves, hs => by
      have hleaf : P leaf := hleaves leaf (by simp [leaves])
      exact hmaintains.perform leaf s hleaf hs
  | .scope opening caught body, s, hleaves, hs => by
      have hends := hmaintains.enter opening s hs
      rcases henter : (Engine.enter (m.scopeOf opening)).run s.engine with
        ⟨error | ⟨token, reply⟩, opened⟩
      · rw [run_scope_of_error henter]
        exact hends.of_error henter
      · obtain ⟨hopened, htoken⟩ := hends.of_ok henter
        have hinside := Maintains.runAll hmaintains body { s with engine := opened } hleaves hopened
        cases hbody : (Program.runAll m { s with engine := opened } body).result with
        | ok =>
            rw [run_scope_of_ok henter rfl hbody]
            exact hmaintains.close token _ htoken hinside
        | error error =>
            rw [run_scope_of_failed henter rfl hbody]
            exact hmaintains.discard token _ htoken hinside

/-- An invariant goes through a list of calls. -/
theorem Maintains.runAll
    (hmaintains : Maintains m P I T) :
    ∀ (ps : List (Program Leaf Opening)) (s : Session G),
      (∀ leaf ∈ leavesOf ps, P leaf) → I s → I (runAll m s ps).after
  | [], _, _, hs => hs
  | p :: rest, s, hleaves, hs => by
      have hleavesFirst : ∀ leaf ∈ p.leaves, P leaf := by
        intro leaf hleaf
        exact hleaves leaf (List.mem_append_left _ hleaf)
      have hleavesRest : ∀ leaf ∈ leavesOf rest, P leaf := by
        intro leaf hleaf
        exact hleaves leaf (List.mem_append_right _ hleaf)
      have hfirst := Maintains.run hmaintains p s hleavesFirst hs
      rcases goes_on_or_fails (Program.run m s p) p with hgoes | ⟨error, herror, hcaught⟩
      · rw [runAll_cons_of_goes_on rfl hgoes]
        exact Maintains.runAll hmaintains rest _ hleavesRest hfirst
      · rw [runAll_cons_of_error rfl herror hcaught]
        exact hfirst

end

end Invariants

/-- What every single step of a run keeps, whatever the session holds beside its engine. -/
structure Keeps (m : Meaning G Leaf Opening) (I : Engine G → Prop) : Prop where
  perform : ∀ leaf (s : Session G), I s.engine → I (m.perform leaf s).2.engine
  enter : ∀ opening e, I e → I ((Engine.enter (m.scopeOf opening)).run e).2
  close : ∀ token e, I e → I ((Engine.close token).run e).2
  discard : ∀ token e, I e → I (e.discard token)

/-- An invariant that every step keeps is kept by a list of calls. -/
theorem Keeps.runAll
    {I : Engine G → Prop}
    (hkeeps : Keeps m I)
    (ps : List (Program Leaf Opening))
    (s : Session G)
    (hs : I s.engine) :
    I (runAll m s ps).after.engine := by
  have hmaintains : Maintains m (fun _ => True) (fun s => I s.engine) (fun _ => True) := by
    refine ⟨fun leaf s _ h => hkeeps.perform leaf s h, fun opening s h => ?_,
      fun token s _ h => hkeeps.close token s.engine h,
      fun token s _ h => hkeeps.discard token s.engine h⟩
    have hentered := Attempt.ends_state_iff.mpr (hkeeps.enter opening s.engine h)
    exact hentered.mono (fun _ _ h => ⟨h, trivial⟩) fun _ _ h => h
  exact hmaintains.runAll ps s (fun _ _ => trivial) hs

end Program

end UmlText
