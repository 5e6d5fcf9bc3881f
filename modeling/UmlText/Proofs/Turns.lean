import UmlText.Proofs.Runs

/-!
# The turns of a run

A run does one thing after another: it makes a call without a body, opens a scope, closes it
or drops it.  Each of these is a `Turn`.  The turns of a run, in order, lead from the
session it begins in to the one it ends in, through the sessions that its calls have found
and left behind.
-/

namespace UmlText

/-- One thing that a run does. -/
inductive Act (Leaf Opening : Type) where
  /-- Makes a call without a body. -/
  | perform (leaf : Leaf)
  /-- Opens the scope of a call. -/
  | enter (opening : Opening)
  /-- Closes a scope whose body has run to the end. -/
  | close (token : Token)
  /-- Drops a scope whose body has failed. -/
  | drop (token : Token)

/-- An act, and the session that it finds. -/
structure Turn (G : Grammar) (Leaf Opening : Type) where
  act : Act Leaf Opening
  before : Session G

variable {G : Grammar} {Leaf Opening : Type}

/-- What an act answers in a session, and the session it leaves behind.  Nothing is answered
when a scope is dropped. -/
def Act.take
    (m : Meaning G Leaf Opening)
    (s : Session G) :
    Act Leaf Opening → Except BuildError Unit × Session G
  | .perform leaf => ((m.perform leaf s).1.map fun _ => (), (m.perform leaf s).2)
  | .enter opening =>
      ((s.build (Engine.enter (m.scopeOf opening))).1.map fun _ => (),
        (s.build (Engine.enter (m.scopeOf opening))).2)
  | .close token => s.build (Engine.close token)
  | .drop token => (.ok (), { s with engine := s.engine.discard token })

namespace Turn

/-- What the act of a turn answers. -/
def result (m : Meaning G Leaf Opening) (t : Turn G Leaf Opening) : Except BuildError Unit :=
  (t.act.take m t.before).1

/-- The session that a turn leaves behind. -/
def after (m : Meaning G Leaf Opening) (t : Turn G Leaf Opening) : Session G :=
  (t.act.take m t.before).2

end Turn

/-- The turns lead from the first session to the second: each finds what the one before has
left. -/
def Leads (m : Meaning G Leaf Opening) :
    Session G → List (Turn G Leaf Opening) → Session G → Prop
  | s, [], s' => s' = s
  | s, t :: rest, s' => t.before = s ∧ Leads m (t.after m) rest s'

/-- The turns in which these acts are done one after another. -/
def turnsOfActs (m : Meaning G Leaf Opening) (s : Session G) :
    List (Act Leaf Opening) → List (Turn G Leaf Opening)
  | [] => []
  | act :: rest => ⟨act, s⟩ :: turnsOfActs m (act.take m s).2 rest

/-- The session that these acts lead to. -/
def afterActs (m : Meaning G Leaf Opening) (s : Session G) (acts : List (Act Leaf Opening)) :
    Session G :=
  acts.foldl (fun s act => (act.take m s).2) s

namespace Program

mutual

/-- The turns of a call with its body. -/
def turns (m : Meaning G Leaf Opening) (s : Session G) :
    Program Leaf Opening → List (Turn G Leaf Opening)
  | .call leaf _ => [⟨.perform leaf, s⟩]
  | .scope opening _ body =>
      ⟨.enter opening, s⟩ ::
        match s.build (Engine.enter (m.scopeOf opening)) with
        | (.error _, _) => []
        | (.ok (token, _), opened) =>
            let inside := runAll m opened body
            turnsAll m opened body ++
              match inside.result with
              | .ok () => [⟨.close token, inside.after⟩]
              | .error _ => [⟨.drop token, inside.after⟩]

/-- The turns of a list of calls, up to the first failure that is not caught. -/
def turnsAll (m : Meaning G Leaf Opening) (s : Session G) :
    List (Program Leaf Opening) → List (Turn G Leaf Opening)
  | [] => []
  | p :: rest =>
      let report := run m s p
      turns m s p ++
        match report.result, p.caught with
        | .error _, false => []
        | _, _ => turnsAll m report.after rest

end

end Program

section Leading

variable {m : Meaning G Leaf Opening} {s s' : Session G} {ts us : List (Turn G Leaf Opening)}

theorem leads_append :
    Leads m s (ts ++ us) s' ↔ ∃ middle, Leads m s ts middle ∧ Leads m middle us s' := by
  induction ts generalizing s with
  | nil =>
      constructor
      · intro h
        exact ⟨s, rfl, h⟩
      · rintro ⟨middle, rfl, h⟩
        exact h
  | cons t rest ih =>
      constructor
      · rintro ⟨hbefore, hrest⟩
        obtain ⟨middle, hfirst, hsecond⟩ := ih.mp hrest
        exact ⟨middle, ⟨hbefore, hfirst⟩, hsecond⟩
      · rintro ⟨middle, ⟨hbefore, hfirst⟩, hsecond⟩
        exact ⟨hbefore, ih.mpr ⟨middle, hfirst, hsecond⟩⟩

theorem leads_turnsOfActs
    (acts : List (Act Leaf Opening))
    (s : Session G) :
    Leads m s (turnsOfActs m s acts) (afterActs m s acts) := by
  induction acts generalizing s with
  | nil => rfl
  | cons act rest ih => exact ⟨rfl, ih (act.take m s).2⟩

/-- Turns lead to one session only. -/
theorem Leads.unique
    {s'' : Session G}
    (h : Leads m s ts s')
    (h' : Leads m s ts s'') :
    s'' = s' := by
  induction ts generalizing s with
  | nil => exact h'.trans h.symm
  | cons t rest ih => exact ih h.2 h'.2

/-- A statement on the turns so far and the session that they lead to holds all along when
every turn carries it on. -/
theorem Leads.carries
    {I : List (Turn G Leaf Opening) → Session G → Prop}
    (h : Leads m s ts s')
    (hstep : ∀ past t, I past t.before → I (past ++ [t]) (t.after m))
    (past : List (Turn G Leaf Opening))
    (hs : I past s) :
    I (past ++ ts) s' := by
  induction ts generalizing past s with
  | nil =>
      obtain rfl := h
      rw [List.append_nil]
      exact hs
  | cons t rest ih =>
      obtain ⟨rfl, hrest⟩ := h
      rw [List.append_cons]
      exact ih hrest (past ++ [t]) (hstep past t hs)

theorem Turn.after_enter
    {opening : Opening}
    {result : Except BuildError (Token × Reply)}
    {e : Engine G}
    (h : (Engine.enter (m.scopeOf opening)).run s.engine = (result, e)) :
    Turn.after m ⟨.enter opening, s⟩ = { s with engine := e } := by
  simp only [Turn.after, Act.take, Session.build, h]

/-- What is done in a scope lies between the turn that opens it and the turn that ends it. -/
theorem Leads.enclosed
    {opening : Opening}
    {entered : Token × Reply}
    {opened : Engine G}
    {t : Turn G Leaf Opening}
    (henter : (Engine.enter (m.scopeOf opening)).run s.engine = (.ok entered, opened))
    (hinside : Leads m { s with engine := opened } ts s')
    (hlast : t.before = s') :
    Leads m s (⟨.enter opening, s⟩ :: (ts ++ [t])) (t.after m) := by
  refine ⟨rfl, ?_⟩
  rw [Turn.after_enter henter]
  exact leads_append.mpr ⟨s', hinside, hlast, rfl⟩

namespace Program

section Equations

variable {opening : Opening} {caught : Bool} {body : List (Program Leaf Opening)}
variable {error : BuildError} {token : Token} {reply : Reply} {after opened : Engine G}

theorem turns_scope_of_error
    (h : (Engine.enter (m.scopeOf opening)).run s.engine = (.error error, after)) :
    turns m s (.scope opening caught body) = [⟨.enter opening, s⟩] := by
  simp only [turns, Session.build, h]

theorem turns_scope_of_ok
    (h : (Engine.enter (m.scopeOf opening)).run s.engine = (.ok (token, reply), opened))
    {inside : Run G}
    (hinside : runAll m { s with engine := opened } body = inside)
    (hbody : inside.result = .ok ()) :
    turns m s (.scope opening caught body) =
      ⟨.enter opening, s⟩ ::
        (turnsAll m { s with engine := opened } body ++ [⟨.close token, inside.after⟩]) := by
  subst hinside
  simp only [turns, Session.build, h, hbody]

theorem turns_scope_of_failed
    (h : (Engine.enter (m.scopeOf opening)).run s.engine = (.ok (token, reply), opened))
    {inside : Run G}
    (hinside : runAll m { s with engine := opened } body = inside)
    (hbody : inside.result = .error error) :
    turns m s (.scope opening caught body) =
      ⟨.enter opening, s⟩ ::
        (turnsAll m { s with engine := opened } body ++ [⟨.drop token, inside.after⟩]) := by
  subst hinside
  simp only [turns, Session.build, h, hbody]

variable {p : Program Leaf Opening} {rest : List (Program Leaf Opening)}

theorem turnsAll_cons_of_error
    (herror : (run m s p).result = .error error)
    (hcaught : p.caught = false) :
    turnsAll m s (p :: rest) = turns m s p := by
  simp only [turnsAll, herror, hcaught, List.append_nil]

theorem turnsAll_cons_of_goes_on
    (h : (∃ reply, (run m s p).result = .ok reply) ∨ p.caught = true) :
    turnsAll m s (p :: rest) = turns m s p ++ turnsAll m (run m s p).after rest := by
  rcases h with ⟨reply, hok⟩ | hcaught
  · simp only [turnsAll, hok]
  · rw [turnsAll]
    split
    · next hnot =>
        rw [hcaught] at hnot
        cases hnot
    · rfl

end Equations

mutual

/-- The turns of a call with its body lead through its run. -/
theorem leads_turns :
    ∀ (p : Program Leaf Opening) (s : Session G), Leads m s (turns m s p) (run m s p).after
  | .call leaf _, s => ⟨rfl, rfl⟩
  | .scope opening caught body, s => by
      rcases henter : (Engine.enter (m.scopeOf opening)).run s.engine with
        ⟨error | ⟨token, reply⟩, opened⟩
      · rw [run_scope_of_error henter, turns_scope_of_error henter]
        exact ⟨rfl, (Turn.after_enter henter).symm⟩
      · have hinside := leads_turnsAll body { s with engine := opened }
        cases hbody : (runAll m { s with engine := opened } body).result with
        | ok =>
            rw [run_scope_of_ok henter rfl hbody, turns_scope_of_ok henter rfl hbody]
            exact hinside.enclosed henter rfl
        | error error =>
            rw [run_scope_of_failed henter rfl hbody, turns_scope_of_failed henter rfl hbody]
            exact hinside.enclosed henter rfl

/-- The turns of a list of calls lead through its run. -/
theorem leads_turnsAll :
    ∀ (ps : List (Program Leaf Opening)) (s : Session G),
      Leads m s (turnsAll m s ps) (runAll m s ps).after
  | [], s => rfl
  | p :: rest, s => by
      have hfirst := leads_turns p s
      rcases goes_on_or_fails (run m s p) p with hgoes | ⟨error, herror, hcaught⟩
      · rw [runAll_cons_of_goes_on rfl hgoes, turnsAll_cons_of_goes_on hgoes]
        exact leads_append.mpr ⟨_, hfirst, leads_turnsAll rest _⟩
      · rw [runAll_cons_of_error rfl herror hcaught, turnsAll_cons_of_error herror hcaught]
        exact hfirst

end

/-- What every step of a run maintains, whatever token it uses, is found behind every turn.
-/
theorem Maintains.after_turn
    {I : Session G → Prop}
    (hmaintains : Maintains m (fun _ => True) I fun _ => True)
    {t : Turn G Leaf Opening}
    (h : I t.before) :
    I (t.after m) := by
  obtain ⟨act, s⟩ := t
  cases act with
  | perform leaf => exact hmaintains.perform leaf s trivial h
  | enter opening =>
      have hends :=
        (hmaintains.enter opening s h).mono (fun _ _ hopened => hopened.1) fun _ _ h => h
      exact (Attempt.ends_state_iff (P := fun e => I { s with engine := e })).mp hends
  | close token => exact hmaintains.close token s trivial h
  | drop token => exact hmaintains.discard token s trivial h

theorem Keeps.after_turn
    {I : Engine G → Prop}
    (hkeeps : Keeps m I)
    {t : Turn G Leaf Opening}
    (h : I t.before.engine) :
    I (t.after m).engine := by
  obtain ⟨act, s⟩ := t
  cases act with
  | perform leaf => exact hkeeps.perform leaf s h
  | enter opening => exact hkeeps.enter opening s.engine h
  | close token => exact hkeeps.close token s.engine h
  | drop token => exact hkeeps.discard token s.engine h

/-- What every step of a run keeps is found by every turn on the way. -/
theorem Keeps.before_turn
    {I : Engine G → Prop}
    (hkeeps : Keeps m I)
    (hleads : Leads m s ts s')
    (hs : I s.engine) :
    ∀ t ∈ ts, I t.before.engine := by
  induction ts generalizing s with
  | nil => exact fun t h => by cases h
  | cons first rest ih =>
      obtain ⟨rfl, hrest⟩ := hleads
      exact List.forall_mem_cons.mpr ⟨hs, ih hrest (hkeeps.after_turn hs)⟩

end Program

end Leading

end UmlText
