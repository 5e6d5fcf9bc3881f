import UmlText.Diagram
import UmlText.Proofs.Ends

/-!
# The numbering of calls

Calls are counted by `Engine.step` alone, which also records the call that made the build
fail and puts its number into the error.  What happens inside a call leaves all of this
alone: an action that is `Unnumbered` counts no call, records no failure and gives its fault
no number.

The operations of actions are unnumbered, and so is everything that is put together from
them, the calls of the four dialects included.
-/

namespace UmlText

/-- The fault has no number of a call of its own. -/
def Fault.IsPlain : Fault → Prop
  | .numbered .. => False
  | .misuse .. => True
  | .invalid .. => True

/-- A plain fault has the number of the call that it is the fault of. -/
theorem Fault.number_eq_of_isPlain
    {fault : Fault}
    {call number : Nat}
    {what : Misuse}
    (hplain : fault.IsPlain)
    (h : fault.atCall call = .misuse number what) :
    number = call := by
  cases fault with
  | misuse own =>
      cases h
      rfl
  | invalid own => cases h
  | numbered own misuse => cases hplain

namespace Engine

variable {G : Grammar}

/-- Two states of a build inside one call: no call was counted between them, no failure was
recorded, and no opening was forgotten. -/
structure SameCall (e e' : Engine G) : Prop where
  calls : e'.calls = e.calls
  failedAt : e'.failedAt = e.failedAt
  openings : e.openings ≤ e'.openings

theorem SameCall.refl (e : Engine G) : e.SameCall e :=
  ⟨rfl, rfl, Nat.le_refl _⟩

theorem SameCall.trans
    {e e₁ e₂ : Engine G}
    (h : e.SameCall e₁)
    (h' : e₁.SameCall e₂) :
    e.SameCall e₂ :=
  ⟨h'.calls.trans h.calls, h'.failedAt.trans h.failedAt, Nat.le_trans h.openings h'.openings⟩

end Engine

namespace Action

variable {G : Grammar} {α β : Type}

/-- The action leaves the numbering to the call it is part of. -/
def Unnumbered (a : Action G α) : Prop :=
  ∀ e, a.Ends e (fun _ e' => e.SameCall e') (fun fault e' => e.SameCall e' ∧ fault.IsPlain)

section Operations

theorem Unnumbered.bind
    {a : Action G α}
    {next : α → Action G β}
    (ha : Unnumbered a)
    (hnext : ∀ value, Unnumbered (next value)) :
    Unnumbered (a >>= next) := by
  intro e
  rw [Attempt.ends_bind]
  refine (ha e).mono ?_ fun _ _ hbad => hbad
  intro value e₁ hfirst
  refine (hnext value e₁).mono ?_ ?_
  · intro _ e₂ hsecond
    exact hfirst.trans hsecond
  · intro fault e₂ hsecond
    obtain ⟨hsame, hplain⟩ := hsecond
    exact ⟨hfirst.trans hsame, hplain⟩

theorem unnumbered_pure (value : α) : Unnumbered (pure value : Action G α) :=
  fun e => .refl e

/-- An action stays unnumbered when its answer is replaced. -/
theorem Unnumbered.answering
    {a : Action G α}
    (ha : Unnumbered a)
    (answer : α → β) :
    Unnumbered (a >>= fun value => pure (answer value)) :=
  ha.bind fun value => unnumbered_pure (answer value)

theorem unnumbered_throw
    {fault : Fault}
    (h : fault.IsPlain) :
    Unnumbered (throw fault : Action G α) :=
  fun e => ⟨.refl e, h⟩

theorem unnumbered_get : Unnumbered (get : Action G (Engine G)) :=
  fun e => .refl e

theorem unnumbered_ite
    {p : Prop}
    [Decidable p]
    {a b : Action G α}
    (ha : Unnumbered a)
    (hb : Unnumbered b) :
    Unnumbered (if p then a else b) := by
  by_cases h : p
  · rw [if_pos h]
    exact ha
  · rw [if_neg h]
    exact hb

theorem unnumbered_refuse (what : Misuse) : Unnumbered (refuse what : Action G α) :=
  unnumbered_throw trivial

theorem unnumbered_misplaced (what expected : String) :
    Unnumbered (misplaced what expected : Action G α) :=
  unnumbered_get.bind fun _ => unnumbered_refuse _

theorem unnumbered_invalid (what : InvalidValue) :
    Unnumbered (throw (.invalid what) : Action G α) :=
  unnumbered_throw trivial

/-- What follows a guard is made where the guard does not refuse. -/
theorem Unnumbered.guarded
    {p : Prop}
    [Decidable p]
    {what : InvalidValue}
    {a : Action G α}
    (ha : Unnumbered a) :
    Unnumbered (if p then (throw (.invalid what) : Action G PUnit) >>= fun _ => a else a) :=
  unnumbered_ite ((unnumbered_invalid what).bind fun _ => ha) ha

theorem unnumbered_valid (check : Except InvalidValue α) :
    Unnumbered (valid check : Action G α) := by
  cases check with
  | error what => exact unnumbered_throw trivial
  | ok value => exact unnumbered_pure value

theorem unnumbered_resolve (name kind : String) :
    Unnumbered (resolve name kind : Action G Alias) := by
  intro e
  rw [ends_resolve]
  exact ⟨fun _ _ => .refl e, fun _ _ => ⟨.refl e, trivial⟩⟩

theorem unnumbered_declare (a : Alias) (kind : String) :
    Unnumbered (declare a kind : Action G Unit) := by
  intro e
  rw [ends_declare]
  exact ⟨fun _ _ => ⟨rfl, rfl, Nat.le_refl _⟩, fun _ _ => ⟨.refl e, trivial⟩⟩

theorem unnumbered_generate (stem : String) : Unnumbered (generate stem : Action G Alias) :=
  fun _ => ⟨rfl, rfl, Nat.le_refl _⟩

theorem unnumbered_remember (change : G.Context → G.Context) :
    Unnumbered (remember change : Action G Unit) :=
  fun _ => ⟨rfl, rfl, Nat.le_refl _⟩

theorem unnumbered_append (node : G.Node) : Unnumbered (append node : Action G Unit) := by
  intro e
  rw [ends_append]
  have hsame : ∀ root stack, e.SameCall { noted e node with root, stack } :=
    fun _ _ => ⟨rfl, rfl, Nat.le_refl _⟩
  refine ⟨fun _ => hsame _ _, fun frame outer _ => ⟨fun scope _ => hsame _ _, fun what _ => ?_⟩⟩
  exact ⟨hsame _ _, trivial⟩

/-- Whatever scope refuses the clause, its fault has no number. -/
def RefusesPlainly (clause : G.Scope → Option (Except Fault G.Scope)) : Prop :=
  ∀ scope fault, clause scope = some (.error fault) → fault.IsPlain

theorem unnumbered_place
    (node : G.Node)
    (answer : α) :
    Unnumbered (append node >>= fun _ => pure answer : Action G α) :=
  (unnumbered_append node).answering fun _ => answer

theorem unnumbered_mark
    (what expected : String)
    {clause : G.Scope → Option (Except Fault G.Scope)}
    (hclause : RefusesPlainly clause) :
    Unnumbered (mark what expected clause : Action G Unit) := by
  intro e
  rw [ends_mark]
  refine ⟨fun _ => ⟨.refl e, trivial⟩, fun frame outer _ => ⟨fun _ => ⟨.refl e, trivial⟩,
    fun fault hfault => ?_, fun scope _ => ⟨rfl, rfl, Nat.le_refl _⟩⟩⟩
  exact ⟨.refl e, hclause frame.scope fault hfault⟩

theorem unnumbered_openScope (scope : G.Scope) : Unnumbered (openScope scope : Action G Token) := by
  intro e
  rw [ends_openScope]
  refine ⟨fun _ _ => ⟨.refl e, trivial⟩, fun _ _ => ⟨.refl e, trivial⟩, fun _ _ => ?_⟩
  exact ⟨rfl, rfl, Nat.le_succ _⟩

theorem unnumbered_closeScope (token : Token) :
    Unnumbered (closeScope token : Action G Unit) := by
  intro e
  rw [ends_closeScope]
  refine ⟨fun _ => ⟨.refl e, trivial⟩,
    fun frame outer _ => ⟨fun _ => ⟨.refl e, trivial⟩, fun _ => ?_⟩⟩
  have hsame : ∀ root stack,
      e.SameCall { e.record (.closed e.calls token.kind token.depth) with root, stack } :=
    fun _ _ => ⟨rfl, rfl, Nat.le_refl _⟩
  refine ⟨fun _ => ⟨fun _ _ => hsame _ _, fun _ _ => ⟨hsame _ _, trivial⟩⟩,
    fun parent rest _ => ?_⟩
  exact ⟨fun _ _ => hsame _ _, fun _ _ => ⟨hsame _ _, trivial⟩⟩

theorem unnumbered_chooseAlias
    (name : String)
    (given : Option String)
    (stem : String) :
    Unnumbered (chooseAlias name given stem : Action G (Alias × Option String)) := by
  cases given with
  | some given => exact (unnumbered_valid _).answering _
  | none =>
      have hgenerated := (unnumbered_generate (G := G) stem).answering fun a => (a, some name)
      exact unnumbered_ite ((unnumbered_valid _).answering _) hgenerated

/-- The call that makes a scope and opens it is as unnumbered as the making of the scope. -/
theorem Unnumbered.opening
    {make : Action G (G.Scope × α)}
    (hmake : Unnumbered make) :
    Unnumbered (make >>= fun made => openScope made.1 >>= fun token => pure (token, made.2)) :=
  hmake.bind fun made => (unnumbered_openScope made.1).answering _

end Operations

/-- The action leaves the counting of calls to the call it is part of, whatever its fault
says. -/
def Uncounted (a : Action G α) : Prop :=
  ∀ e, a.Ends e (fun _ e' => e.SameCall e') (fun _ e' => e.SameCall e')

theorem Unnumbered.uncounted
    {a : Action G α}
    (ha : Unnumbered a) :
    Uncounted a :=
  fun e => (ha e).mono (fun _ _ h => h) fun _ _ h => h.1

/-- A call of a build that has not failed is counted, and its failure is recorded under its
number. -/
theorem Uncounted.ends_step_of_unfailed
    {a : Action G α}
    {e : Engine G}
    (ha : Uncounted a)
    (h : e.failedAt = none) :
    (Engine.step a).Ends e
      (fun _ e' => e'.calls = e.calls + 1 ∧ e'.failedAt = none)
      (fun _ e' => e'.calls = e.calls + 1 ∧ e'.failedAt = some (e.calls + 1)) := by
  rw [Engine.ends_step_of_unfailed a h]
  refine (ha e.counted).mono ?_ ?_
  · intro _ e' hsame
    exact ⟨hsame.calls, hsame.failedAt.trans h⟩
  · intro _ e' hsame
    exact ⟨hsame.calls, rfl⟩

/-- The misuse that a call answers carries the number of the call. -/
theorem Unnumbered.number_of_step
    {a : Action G α}
    {e e' : Engine G}
    {number : Nat}
    {what : Misuse}
    (ha : Unnumbered a)
    (h : e.failedAt = none)
    (hrun : (Engine.step a).run e = (.error (.misuse number what), e')) :
    number = e.calls + 1 := by
  have hends : (Engine.step a).Ends e (fun _ _ => True)
      (fun error _ => ∀ number what, error = .misuse number what → number = e.calls + 1) := by
    rw [Engine.ends_step_of_unfailed a h]
    refine (ha e.counted).mono (fun _ _ _ => trivial) ?_
    intro fault _ hbad number what
    exact Fault.number_eq_of_isPlain hbad.2
  exact hends.of_error hrun number what rfl

/-- A numbered call forgets no opening. -/
theorem Unnumbered.ends_step_openings_le
    {a : Action G α}
    (ha : Unnumbered a)
    (e : Engine G) :
    (Engine.step a).Ends e
      (fun _ e' => e.openings ≤ e'.openings) (fun _ e' => e.openings ≤ e'.openings) := by
  rw [Engine.ends_step]
  refine ⟨fun _ _ => Nat.le_refl _, fun _ => ?_⟩
  exact (ha e.counted).mono (fun _ _ hsame => hsame.openings) fun _ _ hbad => hbad.1.openings

end Action

open UmlText.Action

/-- The calls of a dialect leave the numbering to the engine. -/
structure Dialect.LeavesNumbering (d : Dialect) : Prop where
  perform : ∀ call, Unnumbered (d.perform call)
  scopeOf : ∀ opening, Unnumbered (d.scopeOf opening)

theorem Dialect.LeavesNumbering.openingAction
    {d : Dialect}
    (hd : d.LeavesNumbering)
    (opening : d.Opening) :
    Unnumbered (d.openingAction opening) :=
  (hd.scopeOf opening).answering _

namespace Activity

section Clauses

theorem refusesPlainly_addElseif (guard : Guard) :
    RefusesPlainly (G := grammar) (Scope.addElseif guard) := by
  intro scope fault h
  cases scope with
  | decision first body rest => grind [Scope.addElseif, Fault.IsPlain]
  | _ => cases h

theorem refusesPlainly_addOtherwise (label : Option String) :
    RefusesPlainly (G := grammar) (Scope.addOtherwise label) := by
  intro scope fault h
  cases scope with
  | decision first body rest => grind [Scope.addOtherwise, Fault.IsPlain]
  | _ => cases h

theorem refusesPlainly_addCase (label : String) :
    RefusesPlainly (G := grammar) (Scope.addCase label) := by
  intro scope fault h
  cases scope <;> cases h

theorem refusesPlainly_setBackward (text : String) :
    RefusesPlainly (G := grammar) (Scope.setBackward text) := by
  intro scope fault h
  cases scope with
  | repeatLoop head body given => grind [Scope.setBackward, Fault.IsPlain]
  | _ => cases h

theorem refusesPlainly_setEnding (ending : ForkEnd) :
    RefusesPlainly (G := grammar) (Scope.setEnding ending) := by
  intro scope fault h
  cases scope with
  | fork given branches => grind [Scope.setEnding, Fault.IsPlain]
  | split branches =>
      cases h
      trivial
  | _ => cases h

end Clauses

theorem unnumbered_placePoint (p : Point) : Unnumbered (placePoint p) :=
  unnumbered_get.bind fun _ =>
    unnumbered_ite ((unnumbered_refuse _).bind fun _ => unnumbered_append _) (unnumbered_append _)

theorem unnumbered_placeSwimlane (lane : Swimlane) : Unnumbered (placeSwimlane lane) := by
  refine (unnumbered_valid _).bind fun name => (unnumbered_valid _).bind fun label =>
    unnumbered_get.bind fun e => unnumbered_ite ?known ?new
  case known =>
    have hplaced : Unnumbered (append (.swimlane { name }) : Action grammar Unit) :=
      unnumbered_append _
    exact hplaced.guarded.guarded
  case new => exact (unnumbered_append _).bind fun _ => unnumbered_remember _

theorem leavesNumbering : dialect.LeavesNumbering where
  perform call := by
    cases call with
    | point p => exact (unnumbered_placePoint p).answering _
    | action a => exact (unnumbered_valid _).bind fun _ => unnumbered_place _ _
    | arrow a => exact (unnumbered_valid _).bind fun _ => unnumbered_place _ _
    | note n => exact (unnumbered_valid _).bind fun _ => unnumbered_place _ _
    | connector name => exact (unnumbered_valid _).bind fun _ => unnumbered_place _ _
    | label name =>
        exact (unnumbered_valid _).bind fun target =>
          (unnumbered_declare target labelKind).bind fun _ => unnumbered_place _ _
    | goto name => exact (unnumbered_resolve name labelKind).bind fun _ => unnumbered_place _ _
    | swimlane lane => exact (unnumbered_placeSwimlane lane).answering _
    | elseif guard =>
        exact (unnumbered_valid _).bind fun guard =>
          (unnumbered_mark _ _ (refusesPlainly_addElseif guard)).answering _
    | otherwise label =>
        exact (unnumbered_valid _).bind fun label =>
          (unnumbered_mark _ _ (refusesPlainly_addOtherwise label)).answering _
    | case label =>
        exact (unnumbered_valid _).bind fun label =>
          (unnumbered_mark _ _ (refusesPlainly_addCase label)).answering _
    | backward text =>
        exact (unnumbered_valid _).bind fun text =>
          (unnumbered_mark _ _ (refusesPlainly_setBackward text)).answering _
    | endMerge => exact (unnumbered_mark _ _ (refusesPlainly_setEnding .merge)).answering _
    | endJoin label =>
        exact (unnumbered_valid _).bind fun label =>
          (unnumbered_mark _ _ (refusesPlainly_setEnding (.join label))).answering _
  scopeOf _ := (unnumbered_valid _).answering _

end Activity

namespace Sequence

theorem refusesPlainly_startSection (label : Option String) :
    RefusesPlainly (G := grammar) (Scope.startSection label) := by
  intro scope fault h
  cases scope with
  | block kind finished last body => grind [Scope.startSection]
  | box title color participants => cases h

theorem unnumbered_declare (p : ParticipantCall) : Unnumbered p.declare :=
  (unnumbered_valid _).bind fun _ => (unnumbered_chooseAlias _ _ _).bind fun named =>
    (Action.unnumbered_declare named.1 participantKind).answering _

theorem unnumbered_resolveAll (names : List String) : Unnumbered (resolveAll names) := by
  induction names with
  | nil => exact unnumbered_pure []
  | cons name rest ih =>
      exact (unnumbered_resolve name participantKind).bind fun a => ih.answering _

theorem unnumbered_resolveEnd (name : Option String) : Unnumbered (resolveEnd name) := by
  cases name with
  | none => exact unnumbered_pure none
  | some name => exact (unnumbered_resolve name participantKind).answering _

theorem unnumbered_resolvePlace (place : NotePlace String) : Unnumbered (resolvePlace place) := by
  cases place with
  | leftOf name => exact (unnumbered_resolve name participantKind).answering _
  | rightOf name => exact (unnumbered_resolve name participantKind).answering _
  | covering names =>
      exact ((unnumbered_resolveAll names).answering NotePlace.covering).guarded
  | across => exact unnumbered_pure _

theorem leavesNumbering : dialect.LeavesNumbering where
  perform call := by
    have hopen : ∀ change, Unnumbered (rememberOpen change) :=
      fun change => unnumbered_remember (G := grammar) change
    have hresolve : ∀ name, Unnumbered (resolveParticipant name) :=
      fun name => unnumbered_resolve name participantKind
    cases call with
    | participant p => exact (unnumbered_declare p).bind fun _ => unnumbered_place _ _
    | create p => exact (unnumbered_declare p).bind fun _ => unnumbered_place _ _
    | message m =>
        exact (unnumbered_resolveEnd m.source).bind fun _ =>
          (unnumbered_resolveEnd m.target).bind fun _ => (unnumbered_valid _).bind fun _ =>
            (unnumbered_valid _).bind fun _ => (hopen _).bind fun _ => unnumbered_place _ _
    | reply text =>
        have hgiven := fun text =>
          (unnumbered_append (Node.reply text)).bind fun _ => (hopen List.dropLast).answering
            fun _ => (none : Option Alias)
        exact (unnumbered_valid _).bind fun text => unnumbered_get.bind fun _ =>
          unnumbered_ite ((unnumbered_misplaced _ _).bind fun _ => hgiven text) (hgiven text)
    | note n =>
        exact (unnumbered_resolvePlace n.place).bind fun _ =>
          (unnumbered_valid _).bind fun _ => unnumbered_place _ _
    | ref names text =>
        have hplaced : ∀ participants, Unnumbered
            (do
              let text ← valid (freeText "ref text" text)
              append (Node.ref participants text)
              return none : Action grammar (Option Alias)) :=
          fun _ => (unnumbered_valid _).bind fun _ => unnumbered_place _ _
        exact ((unnumbered_resolveAll names).bind hplaced).guarded
    | activate name color =>
        exact (hresolve name).bind fun _ => (hopen _).bind fun _ => unnumbered_place _ _
    | deactivate name =>
        exact (hresolve name).bind fun _ => (hopen _).bind fun _ => unnumbered_place _ _
    | destroy name =>
        exact (hresolve name).bind fun _ => (hopen _).bind fun _ => unnumbered_place _ _
    | divider text => exact (unnumbered_valid _).bind fun _ => unnumbered_place _ _
    | delay text => exact (unnumbered_valid _).bind fun _ => unnumbered_place _ _
    | space pixels => exact (unnumbered_valid _).bind fun _ => unnumbered_place _ _
    | autonumber n => exact (unnumbered_valid _).bind fun _ => unnumbered_place _ _
    | otherwise label =>
        exact (unnumbered_valid _).bind fun label =>
          (unnumbered_mark _ _ (refusesPlainly_startSection label)).answering _
  scopeOf _ := (unnumbered_valid _).answering _

end Sequence

namespace StateChart

theorem refusesPlainly_startRegion (separator : Separator) :
    RefusesPlainly (G := grammar) fun scope => some (scope.startRegion separator) := by
  intro scope fault h
  grind [Scope.startRegion, Fault.IsPlain]

theorem unnumbered_declare (s : StateCall) : Unnumbered s.declare :=
  (unnumbered_valid _).bind fun _ => (unnumbered_valid _).bind fun _ =>
    (unnumbered_chooseAlias _ _ _).bind fun named =>
      (Action.unnumbered_declare named.1 stateKind).answering _

theorem unnumbered_resolveEndpoint (endpoint : Endpoint String) :
    Unnumbered (resolveEndpoint endpoint) := by
  cases endpoint with
  | state name => exact (unnumbered_resolve name stateKind).answering _
  | terminal => exact unnumbered_pure _
  | history => exact unnumbered_pure _
  | deepHistory => exact unnumbered_pure _

theorem leavesNumbering : dialect.LeavesNumbering where
  perform call := by
    cases call with
    | state s => exact (unnumbered_declare s).bind fun _ => unnumbered_place _ _
    | transition t =>
        exact (unnumbered_resolveEndpoint t.source).bind fun _ =>
          (unnumbered_resolveEndpoint t.target).bind fun _ => (unnumbered_valid _).bind fun _ =>
            unnumbered_place _ _
    | note n =>
        exact (unnumbered_resolve n.target stateKind).bind fun _ =>
          (unnumbered_valid _).bind fun _ => unnumbered_place _ _
    | region separator =>
        exact (unnumbered_mark _ _ (refusesPlainly_startRegion separator)).answering _
  scopeOf s := by
    have hdeclared := (unnumbered_declare s).answering
      fun state => (({ state } : Scope), some state.id)
    exact hdeclared.guarded

end StateChart

namespace ClassDiagram

theorem unnumbered_declare (c : ClassCall) : Unnumbered c.declare :=
  (unnumbered_valid _).bind fun _ => (unnumbered_valid _).bind fun _ =>
    (unnumbered_valid _).bind fun _ => (unnumbered_valid _).bind fun _ =>
      (unnumbered_chooseAlias _ _ _).bind fun named =>
        (Action.unnumbered_declare named.1 classKind).answering _

theorem leavesNumbering : dialect.LeavesNumbering where
  perform call := by
    cases call with
    | «class» c => exact (unnumbered_declare c).bind fun _ => unnumbered_place _ _
    | relation r =>
        exact (unnumbered_resolve r.source classKind).bind fun _ =>
          (unnumbered_resolve r.target classKind).bind fun _ => (unnumbered_valid _).bind fun _ =>
            unnumbered_place _ _
    | note n =>
        exact (unnumbered_resolve n.target classKind).bind fun _ =>
          (unnumbered_valid _).bind fun _ => unnumbered_place _ _
    | floatingNote text color =>
        exact (unnumbered_valid _).bind fun _ => unnumbered_place _ _
  scopeOf _ := (unnumbered_valid _).answering _

end ClassDiagram

theorem Kind.leavesNumbering : ∀ kind : Kind, kind.dialect.LeavesNumbering
  | .activity => Activity.leavesNumbering
  | .sequence => Sequence.leavesNumbering
  | .state => StateChart.leavesNumbering
  | .class => ClassDiagram.leavesNumbering

end UmlText
