import UmlText.Proofs.Sequence.Verdicts

/-!
# Which programs of sequence diagrams are accepted

A program none of whose failures is caught is run to its end exactly when each of its calls
is in order at its moment; and otherwise the call that fails is the first one that is not.
The run follows the program: as long as calls succeed, the engine mirrors the moment of the
next one.
-/

namespace UmlText.Sequence

open UmlText.Action

variable {around : List Opening} {before : List Call} {e e' : Engine grammar} {c : Call}

section Steps

variable {opening : Opening} {scope scope' : Scope} {item : Item Node Clause}

/-- What a scope takes does not change its kind. -/
theorem blockKind?_of_grows (hgrows : realization.Grows item scope scope') :
    scope'.blockKind? = scope.blockKind? := by
  cases item with
  | element node =>
      rcases Scope.push_eq_ok_iff.mp hgrows with
        ⟨_, _, _, _, rfl, rfl⟩ | ⟨_, _, _, _, rfl, _, rfl⟩
      · rfl
      · rfl
  | clause label =>
      obtain ⟨_, _, _, _, rfl, _, rfl⟩ := Scope.startSection_eq_ok_iff.mp hgrows
      rfl

/-- The open scopes stand for the same constructs when the tree has taken something. -/
theorem standing_of_takes
    (h : Standing around e.stack)
    (htakes : realization.Takes item e e') :
    Standing around e'.stack := by
  unfold Realization.Takes at htakes
  generalize e.stack = stack at h htakes
  cases h with
  | nil =>
      obtain ⟨hstack', _⟩ := htakes
      rw [hstack']
      exact .nil
  | cons hstands hrest =>
      obtain ⟨_, _, hgrows, hstack'⟩ := htakes
      rw [hstack']
      exact .cons ((blockKind?_of_grows hgrows).trans hstands) hrest

/-- A scope in which another one was closed is still of its kind. -/
theorem blockKind?_of_adopt
    {inner : Scope}
    (hadopt : dialect.adopt scope inner = .ok scope') :
    scope'.blockKind? = scope.blockKind? := by
  have hgrows : realization.Grows (.element _) scope scope' := hadopt
  exact blockKind?_of_grows hgrows

theorem declarations_mentions (node : String) (mentioned : List Alias) :
    Finding.declarations (mentions node mentioned) = [] := by
  simp [mentions, Finding.declarations, Finding.declaration?]

/-- A call that is read without a name of its own declares nothing. -/
theorem declarations_of_item
    (hitem : c.item = some item)
    (depth : Nat) :
    Finding.declarations (inventory.item depth item) = [] := by
  cases c with
  | participant p => cases hitem
  | create p => cases hitem
  | message m =>
      obtain ⟨_, _, hrest⟩ := Option.bind_eq_some_iff.mp hitem
      obtain ⟨_, _, hsome⟩ := Option.bind_eq_some_iff.mp hrest
      cases hsome
      exact declarations_mentions _ _
  | note n =>
      obtain ⟨_, _, hsome⟩ := Option.bind_eq_some_iff.mp hitem
      cases hsome
      exact declarations_mentions _ _
  | ref names text =>
      obtain ⟨_, _, hsome⟩ := Option.bind_eq_some_iff.mp hitem
      cases hsome
      exact declarations_mentions _ _
  | activate name color =>
      obtain ⟨_, _, rfl⟩ := Option.map_eq_some_iff.mp hitem
      exact declarations_mentions _ _
  | deactivate name =>
      obtain ⟨_, _, rfl⟩ := Option.map_eq_some_iff.mp hitem
      exact declarations_mentions _ _
  | destroy name =>
      obtain ⟨_, _, rfl⟩ := Option.map_eq_some_iff.mp hitem
      exact declarations_mentions _ _
  | _ =>
      cases hitem
      rfl

/-- The participant that is read has the alias by which it is known. -/
theorem name_of_read
    {p : ParticipantCall}
    {q : Participant}
    {generated generated' : Nat}
    (h : p.read generated = some (q, generated')) :
    q.id.name = p.aliasName generated ∧ generated' = p.generatedAfter generated := by
  obtain ⟨⟨⟨a, display⟩, _⟩, hnaming, hpair⟩ := Option.map_eq_some_iff.mp h
  cases hpair
  exact name_of_readNaming hnaming

/-- A call is read as what declares the alias that the call introduces. -/
theorem declarations_of_read
    {generated generated' : Nat}
    (hread : c.read generated = some (item, generated'))
    (depth : Nat) :
    (Finding.declarations (inventory.item depth item)).map Alias.name = c.newAliases generated ∧
      generated' = c.generatedAfter generated := by
  cases c with
  | participant p =>
      obtain ⟨⟨q, _⟩, hq, hpair⟩ := Option.map_eq_some_iff.mp hread
      cases hpair
      obtain ⟨hname, hgenerated⟩ := name_of_read hq
      exact ⟨congrArg (fun name => [name]) hname, hgenerated⟩
  | create p =>
      obtain ⟨⟨q, _⟩, hq, hpair⟩ := Option.map_eq_some_iff.mp hread
      cases hpair
      obtain ⟨hname, hgenerated⟩ := name_of_read hq
      exact ⟨congrArg (fun name => [name]) hname, hgenerated⟩
  | _ =>
      simp only [Call.read] at hread
      obtain ⟨_, hitem, hpair⟩ := Option.map_eq_some_iff.mp hread
      cases hpair
      exact ⟨congrArg _ (declarations_of_item hitem depth), rfl⟩

/-- Counting a call changes nothing that the call finds. -/
theorem Mirrors.counted (h : Mirrors around before e) : Mirrors around before e.counted :=
  ⟨h.standing, h.aliases, h.generated, h.kinds, h.active, h.nested, h.unfailed⟩

/-- What an engine mirrors behind the same calls depends on its scopes alone, if it still
knows the same. -/
theorem Mirrors.of_standing
    {around' : List Opening}
    (h : Mirrors around before e)
    (hstanding : Standing around' e'.stack)
    (hnested : Nested (d := dialect) e'.stack)
    (hregistry : e'.registry = e.registry)
    (hcontext : e'.context = e.context)
    (hnone : e'.failedAt = none) :
    Mirrors around' before e' :=
  ⟨hstanding, hregistry ▸ h.aliases, hregistry ▸ h.generated, hregistry ▸ h.kinds,
    hcontext ▸ h.active, hnested, hnone⟩

/-- A call that has done what it is read as leaves an engine that mirrors the next moment. -/
theorem Mirrors.performed
    (hmirrors : Mirrors around before e)
    (hperformed : realization.Performed inventory c e e')
    (hactive : e'.context.map Alias.name = c.openAfter (e.context.map Alias.name)) :
    Mirrors around (before ++ [c]) e' := by
  obtain ⟨⟨item, hread, htakes, hbooks⟩, hcounts⟩ := hperformed
  obtain ⟨hnames, hgenerated⟩ := declarations_of_read hread 0
  rw [hmirrors.generated] at hnames hgenerated
  refine ⟨standing_of_takes hmirrors.standing htakes, ?_, ?_, (hbooks 0).kinds hmirrors.kinds, ?_,
    settled.nested_of_takes htakes hmirrors.nested, hcounts.failedAt.trans hmirrors.unfailed⟩
  · rw [(hbooks 0).aliases, List.map_append, hnames, hmirrors.aliases, aliasesFrom_concat,
      List.reverse_append, newAliases_reverse]
  · rw [hgenerated, generatedFrom_concat]
  · rw [hactive, hmirrors.active, openOf_stretches_concat]

/-- A call without a body passes or is stopped. -/
theorem ends_call
    {around : List (Plan.Enclosure dialect)}
    (hmirrors : Mirrors (Plan.openings around) before e)
    (hoffered : handles.call (Plan.openings around).head? c = true) :
    (dialect.callBuild c).Ends e
      (fun _ e' => Plan.Passed Admissible (Mirrors ∘ Plan.openings) [⟨.call c, around, before⟩]
        (Plan.noted [c] around) (before ++ [c]) e e')
      (fun _ e' => Plan.Stopped Admissible [⟨.call c, around, before⟩] e e') := by
  have hcounted := hmirrors.counted
  have hperformed := perform_ends c e.counted
  have hactive := ends_perform_context c e.counted
  have hdecided := Attempt.Ends.of_succeeds_iff (perform_succeeds_iff hcounted hoffered)
  unfold Dialect.callBuild
  rw [Engine.ends_step_of_unfailed _ hmirrors.unfailed]
  simp only [Attempt.ends_bind, Attempt.ends_pure]
  refine ((hperformed.and hactive).and hdecided).mono ?_ ?_
  · rintro _ e' ⟨⟨hdone, hnames⟩, hadmissible⟩
    have hnext := hcounted.performed hdone hnames
    rw [← Plan.openings_noted [c]] at hnext
    exact Plan.passed_singleton hadmissible hnext hdone.counts.calls
  · rintro fault after ⟨_, hnot⟩
    exact Plan.stopped_singleton hnot rfl

/-- The open scope of a construct in which nothing stands. -/
def Opening.empty : Opening → Scope
  | .block kind label => .block kind [] label []
  | .box title color => .box title color []

theorem Opening.scope_eq_ok_iff :
    opening.scope = .ok scope ↔ opening.Accepted ∧ scope = opening.empty := by
  have hmade : ∀ (what : String) (text : Option String) (make : Option String → Scope),
      (optionally (singleLine what) text >>= fun kept => pure (make kept)) = .ok scope ↔
        (∀ t ∈ text, IsVisible t ∧ FitsOneLine t) ∧ scope = make text := by
    intro what text make
    simp only [bind_eq_ok_iff, pure_eq_ok_iff, optionally_singleLine_eq_ok_iff]
    constructor
    · rintro ⟨_, ⟨haccepted, rfl⟩, rfl⟩
      exact ⟨haccepted, rfl⟩
    · rintro ⟨haccepted, rfl⟩
      exact ⟨text, ⟨haccepted, rfl⟩, rfl⟩
  cases opening with
  | block kind label => exact hmade _ label fun kept => .block kind [] kept []
  | box title color => exact hmade _ title fun kept => .box kept color []

/-- A construct that is offered has a place unless it is a box inside a block. -/
theorem obstacle_eq_none_iff
    (hstanding : Standing around e.stack)
    (hoffered : handles.scope around.head? opening = true) :
    obstacle? e opening.empty = none ↔
      ∀ title color, opening = .box title color → ∀ kind label, .block kind label ∉ around := by
  unfold obstacle?
  generalize e.stack = stack at hstanding
  cases hstanding with
  | nil => exact iff_of_true rfl fun _ _ _ _ _ hmem => by cases hmem
  | @cons outer frame around _ hstands _ =>
      cases outer with
      | box title color => cases hoffered
      | block kind label =>
          obtain ⟨_, _, _, hscope⟩ := Scope.blockKind?_eq_some_iff.mp hstands
          change Scope.obstacle frame.scope opening.empty = none ↔ _
          rw [hscope]
          cases opening with
          | block => exact iff_of_true rfl fun _ _ h => by cases h
          | box title color =>
              refine iff_of_false (fun h => by cases h) fun h => ?_
              exact h title color rfl kind label List.mem_cons_self

theorem blockKind?_empty (opening : Opening) : opening.empty.blockKind? = opening.blockKind? := by
  cases opening <;> rfl

/-- A construct is entered, or the call is stopped. -/
theorem ends_enter
    {around : List (Plan.Enclosure dialect)}
    (hmirrors : Mirrors (Plan.openings around) before e)
    (hoffered : handles.scope (Plan.openings around).head? opening = true) :
    (Engine.enter (dialect.openingAction opening)).Ends e
      (fun _ e' => Plan.Passed Admissible (Mirrors ∘ Plan.openings)
        [⟨.enter opening, around, before⟩] (⟨opening, []⟩ :: around) before e e')
      (fun _ e' => Plan.Stopped Admissible [⟨.enter opening, around, before⟩] e e') := by
  have hplace := obstacle_eq_none_iff hmirrors.standing hoffered
  have hdepth : around.length = e.stack.length :=
    (List.length_map _).symm.trans hmirrors.standing.length_eq
  refine (ends_enter_checked (d := dialect) rfl).mono ?_ ?_
  · rintro _ e' ⟨_, scope, hscope, hclear, hshallow, hstacked⟩
    obtain ⟨haccepted, rfl⟩ := Opening.scope_eq_ok_iff.mp hscope
    obtain ⟨serial, openedAt, hstack⟩ := hstacked.stack
    have hadmissible : Admissible ⟨.enter opening, around, before⟩ :=
      admissible_enter_iff.mpr ⟨haccepted, hdepth ▸ hshallow, hplace.mp hclear⟩
    refine Plan.passed_singleton hadmissible (hmirrors.of_standing ?_ ?_ hstacked.registry
      hstacked.context hstacked.failedAt) hstacked.calls
    · rw [hstack]
      exact .cons (blockKind?_empty opening) hmirrors.standing
    · rw [hstack]
      exact Realization.nested_cons hclear hmirrors.nested
  · rintro _ e' ⟨_, hrefused⟩
    obtain ⟨hfailed, hdeep⟩ := hrefused hmirrors.unfailed
    refine Plan.stopped_singleton ?_ hfailed
    rw [admissible_enter_iff]
    rintro ⟨haccepted, hshallow, houtside⟩
    have hlength := hdeep _ (Opening.scope_eq_ok_iff.mpr ⟨haccepted, rfl⟩) (hplace.mpr houtside)
    omega

/-- The innermost construct can be left, and gives back the construct around it. -/
theorem ends_leave
    {enc : Plan.Enclosure dialect}
    {around : List (Plan.Enclosure dialect)}
    {token : Token}
    (hmirrors : Mirrors (Plan.openings (enc :: around)) before e)
    (hserial : ∀ frame outer, e.stack = frame :: outer → frame.serial = token.serial) :
    (Engine.close token).Ends e
      (fun _ e' => Plan.Passed Admissible (Mirrors ∘ Plan.openings) [⟨.leave, around, before⟩]
        around before e e')
      (fun _ _ => False) := by
  obtain ⟨frame, outer, _, _, hstack⟩ := List.forall₂_cons_left_iff.mp hmirrors.standing
  have hcloses := settled.closes_innermost hmirrors.nested hmirrors.unfailed hstack
    (hserial frame outer hstack)
  refine (hcloses.and (ends_close_context (G := grammar) token e)).mono ?_ fun _ _ h => h.1
  rintro _ e' ⟨⟨hclosed, hnested⟩, hcontext⟩
  have hstanding : Standing (Plan.openings around) e'.stack :=
    Plan.forall₂_of_closed (R := fun (opening : Opening) (scope : Scope) =>
      scope.blockKind? = opening.blockKind?) hmirrors.standing
      (fun _ _ _ _ hstands hadopt => (blockKind?_of_adopt hadopt).trans hstands) hclosed
  exact Plan.passed_singleton admissible_leave (hmirrors.of_standing hstanding hnested
    hclosed.registry hcontext hclosed.failedAt) hclosed.calls

/-- Whether a call of a sequence diagram succeeds is told by its moment. -/
theorem judges : Plan.Judges handles Admissible (Mirrors ∘ Plan.openings) where
  call := ends_call
  enter := ends_enter
  leave := ends_leave

end Steps

/-- Before the first call the engine mirrors an empty surrounding. -/
theorem mirrors_nil : Mirrors [] [] {} :=
  ⟨.nil, rfl, rfl, by simp, rfl, trivial, rfl⟩

/-- A program in which no failure is caught runs without a flaw exactly when every call is
in order at its moment; otherwise the call that fails is the first one that is not in order.
-/
theorem allFlawless_iff_admissible_and_first_inadmissible_fails
    (plan : List (Plan dialect))
    (hoffered : Plan.areOffered handles none plan = true) :
    let run := Program.runAll dialect.authoring {} (Plan.programOf plan)
    (Report.allFlawless run.reports = true ↔ ∀ m ∈ Plan.momentsOf [] [] plan, Admissible m) ∧
    ((∃ m ∈ Plan.momentsOf [] [] plan, ¬Admissible m) →
      ∃ first m rest, Plan.momentsOf [] [] plan = first ++ m :: rest ∧
        (∀ m' ∈ first, Admissible m') ∧ ¬Admissible m ∧
        run.after.engine.failedAt = some (first.length + 1)) :=
  judges.allFlawless_iff sound faithful mirrors_nil plan hoffered

/-- A box, a block whose second section closes what the first one has opened, and then a
return. -/
def lateReturn : List (Plan dialect) :=
  [.scope (.box none none) [.call (.participant { name := "a" })],
   .scope (.block .alt none)
     [.call (.activate "a" none), .call (.otherwise none), .call (.deactivate "a")],
   .call (.reply none)]

theorem allFlawless_iff_admissible_and_first_inadmissible_fails_of_lateReturn :
    Plan.areOffered handles none lateReturn = true ∧
    (∃ m ∈ Plan.momentsOf [] [] lateReturn, ¬Admissible m) ∧
    let run := Program.runAll dialect.authoring {} (Plan.programOf lateReturn)
    Report.allFlawless run.reports ≠ true ∧
      ∃ first m rest, Plan.momentsOf [] [] lateReturn = first ++ m :: rest ∧
        (∀ m' ∈ first, Admissible m') ∧ ¬Admissible m ∧
        run.after.engine.failedAt = some (first.length + 1) := by
  have hoffered : Plan.areOffered handles none lateReturn = true := by rfl
  have hlate : ∃ m ∈ Plan.momentsOf [] [] lateReturn, ¬Admissible m := by
    refine ⟨⟨.call (.reply none), [], [.participant { name := "a" }, .activate "a" none,
      .otherwise none, .deactivate "a"]⟩, ?_, fun hadmissible => ?_⟩
    · simp [lateReturn, Plan.momentsOf, Plan.moments, Plan.calls, Plan.callsOf, Plan.ownCalls,
        Plan.noted]
    · obtain ⟨s, hmem, hopen⟩ := hadmissible.return_open none rfl
      revert s
      decide
  obtain ⟨hflawless, hfails⟩ :=
    allFlawless_iff_admissible_and_first_inadmissible_fails lateReturn hoffered
  refine ⟨hoffered, hlate, ?_, hfails hlate⟩
  obtain ⟨m, hmem, hm⟩ := hlate
  exact fun h => hm (hflawless.mp h m hmem)

end UmlText.Sequence
