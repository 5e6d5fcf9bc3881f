import UmlText.Proofs.Activity.Mirror

/-!
# Verdicts on single calls

In an engine that mirrors the moment of a call without a body, the call succeeds exactly
when it fits.  Every rule for such a call is checked in one place only: texts by the checks
of the call, the place of a child by the innermost scope, the names of labels by the
registry, a `break` by the scopes around it, a lane by the lanes known so far.
-/

namespace UmlText

namespace Registry

/-- Where everything is declared under one kind, a name is resolved when an alias has it. -/
theorem exists_resolve_iff
    {r : Registry}
    {name kind : String}
    (hkinds : ∀ entry ∈ r.entries, entry.2 = kind) :
    (∃ a, r.resolve name kind = .ok a) ↔ ∃ a ∈ r.aliases, a.name = name := by
  simp only [resolve_eq_ok_iff hkinds]

end Registry

namespace Activity

open UmlText.Action

variable {around : List (Plan.Enclosure dialect)} {before : List Call}
variable {e : Engine grammar} {c : Call}

/-- The call has a place where it is made, whatever its texts are. -/
def Call.Placed (around : List (Plan.Enclosure dialect)) (before : List Call) : Call → Prop
  | .point p =>
      (p = .leaveLoop → ∃ enc ∈ around, enc.opening.isLoop = true) ∧ TakesChild around
  | .action _ | .arrow _ | .note _ | .connector _ => TakesChild around
  | .label name => Call.label name ∉ before ∧ TakesChild around
  | .goto name => Call.label name ∈ before ∧ TakesChild around
  | .swimlane lane =>
      TakesChild around ∧
        ((∃ first, Call.swimlane first ∈ before ∧ first.name = lane.name) →
          lane.color = none ∧ lane.label = none)
  | .elseif _ | .otherwise _ => ∀ enc, around.head? = some enc → ¬HasElse enc
  | .case _ => True
  | .backward _ =>
      ∀ enc, around.head? = some enc →
        ¬HasBackward enc ∧ ∀ head, enc.opening ≠ .whileLoop head
  | .endMerge | .endJoin _ =>
      ∀ enc, around.head? = some enc → ¬HasEnding enc ∧ enc.opening ≠ .split

/-- The body of a fork or split offers no call that would put an element into it. -/
theorem Handle.ne_parallel_of_offersCall
    {h : Handle}
    (hoffers : h.offersCall c = true)
    (hmarker : c.isMarker = false) :
    h ≠ .parallel := by
  rintro rfl
  cases c with
  | elseif | otherwise | case | backward | endMerge | endJoin => cases hmarker
  | _ => cases hoffers

/-- A call without a body fits when its texts are accepted and it has a place. -/
theorem fits_call_iff :
    Fits ⟨.call c, around, before⟩ ↔ c.Accepted ∧ c.Placed around before := by
  cases c <;>
    simp [fits_iff, Accepted, IsChild, Call.isMarker, Call.isEnding,
      Call.Placed, TakesChild, and_assoc, forall_and]

/-- A construct may be entered when its texts are accepted, when it is not too deep, and
where the construct around it takes a child. -/
theorem fits_enter_iff {opening : Opening} :
    Fits ⟨.enter opening, around, before⟩ ↔
      opening.Accepted ∧ around.length + 1 ≤ maxDepth ∧ TakesChild around := by
  simp [fits_iff, Accepted, IsChild, TakesChild]

/-- A construct may always be left. -/
theorem fits_leave : Fits ⟨.leave, around, before⟩ := by
  simp [fits_iff, Accepted, IsChild]

section Marks

variable {enc : Plan.Enclosure dialect} {scope : Scope}

theorem exists_addElseif_iff
    (guard : Guard)
    (hhandle : enc.opening.handle = .decision)
    (h : Stands enc scope) :
    (∃ scope', scope.addElseif guard = some (.ok scope')) ↔ ¬HasElse enc := by
  obtain ⟨opening, earlier⟩ := enc
  cases opening <;> cases hhandle
  obtain ⟨first, body, rest, rfl, hclosed⟩ := h
  rw [← hclosed]
  cases hrest : rest.isClosed <;> simp [Scope.addElseif, hrest]

theorem exists_addOtherwise_iff
    (label : Option String)
    (hhandle : enc.opening.handle = .decision)
    (h : Stands enc scope) :
    (∃ scope', scope.addOtherwise label = some (.ok scope')) ↔ ¬HasElse enc := by
  obtain ⟨opening, earlier⟩ := enc
  cases opening <;> cases hhandle
  obtain ⟨first, body, rest, rfl, hclosed⟩ := h
  rw [← hclosed]
  cases hrest : rest.isClosed <;> simp [Scope.addOtherwise, hrest]

theorem exists_addCase
    (label : String)
    (hhandle : enc.opening.handle = .switch)
    (h : Stands enc scope) :
    ∃ scope', scope.addCase label = some (.ok scope') := by
  obtain ⟨opening, earlier⟩ := enc
  cases opening <;> cases hhandle
  obtain ⟨test, cases, rfl, _⟩ := h
  exact ⟨_, rfl⟩

theorem exists_setBackward_iff
    (text : String)
    (hhandle : enc.opening.handle = .loop)
    (h : Stands enc scope) :
    (∃ scope', scope.setBackward text = some (.ok scope')) ↔
      ¬HasBackward enc ∧ ∀ head, enc.opening ≠ .whileLoop head := by
  obtain ⟨opening, earlier⟩ := enc
  cases opening <;> cases hhandle
  · obtain ⟨head, body, rfl⟩ := h
    simp [Scope.setBackward]
  · obtain ⟨head, body, backward, rfl, hbackward⟩ := h
    rw [← hbackward]
    cases backward <;> simp [Scope.setBackward]

theorem exists_setEnding_iff
    (ending : ForkEnd)
    (hhandle : enc.opening.handle = .parallel)
    (h : Stands enc scope) :
    (∃ scope', scope.setEnding ending = some (.ok scope')) ↔
      ¬HasEnding enc ∧ enc.opening ≠ .split := by
  obtain ⟨opening, earlier⟩ := enc
  cases opening <;> cases hhandle
  · obtain ⟨given, branches, rfl, hgiven⟩ := h
    rw [← hgiven]
    cases given <;> simp [Scope.setEnding]
  · obtain ⟨branches, rfl⟩ := h
    simp [Scope.setEnding]

/-- A mark is accepted where the innermost construct is in a state that accepts it. -/
theorem mark_pure_succeeds_iff
    {handle : Handle}
    {P : Plan.Enclosure dialect → Prop}
    {clause : Scope → Option (Except Fault Scope)}
    (hstanding : Standing around e.stack)
    (hhandle : handleOf around = handle)
    (hsequential : handle ≠ .sequential)
    (hclause : ∀ enc scope, enc.opening.handle = handle → Stands enc scope →
      ((∃ scope', clause scope = some (.ok scope')) ↔ P enc))
    (what expected : String)
    (answer : Option Alias) :
    ((mark what expected clause : Action grammar Unit) >>= fun _ => pure answer).Succeeds e ↔
      ∀ enc, around.head? = some enc → P enc := by
  have hanswer : ∀ (_ : Unit) (after : Engine grammar),
      (pure answer : Action grammar (Option Alias)).Succeeds after := fun _ _ => trivial
  rw [Attempt.succeeds_bind_of_succeeds hanswer, succeeds_mark]
  generalize e.stack = stack at hstanding
  cases hstanding with
  | nil => exact absurd hhandle.symm hsequential
  | @cons enc frame around outer hstands _ =>
      have henc := hclause enc frame.scope hhandle hstands
      constructor
      · rintro ⟨_, _, scope, ⟨⟩, hscope⟩ _ ⟨⟩
        exact henc.mp ⟨scope, hscope⟩
      · intro hP
        obtain ⟨scope, hscope⟩ := henc.mpr (hP enc rfl)
        exact ⟨frame, outer, scope, rfl, hscope⟩

end Marks

section Elements

variable (hmirrors : Mirrors around before e) (hhandle : handleOf around ≠ .parallel)

include hmirrors hhandle

/-- An element is appended where the innermost construct takes a child. -/
theorem append_succeeds_iff
    {e' : Engine grammar}
    (hstack : e'.stack = e.stack)
    (node : Node) :
    (append node : Action grammar Unit).Succeeds e' ↔ TakesChild around := by
  rw [succeeds_append, hstack]
  exact push_iff_takesChild hmirrors.standing hhandle node

/-- So is an element that is the last thing a call does. -/
theorem append_pure_succeeds_iff
    {e' : Engine grammar}
    (hstack : e'.stack = e.stack)
    (node : Node)
    (answer : Option Alias) :
    ((append node : Action grammar Unit) >>= fun _ => pure answer).Succeeds e' ↔
      TakesChild around := by
  have hanswer : ∀ (_ : Unit) (after : Engine grammar),
      (pure answer : Action grammar (Option Alias)).Succeeds after := fun _ _ => trivial
  rw [Attempt.succeeds_bind_of_succeeds hanswer]
  exact append_succeeds_iff hmirrors hhandle hstack node

theorem point_succeeds_iff (p : Point) :
    (placePoint p).Succeeds e ↔ (Call.point p).Placed around before := by
  have hloop : (e.enclosing? Scope.isLoop).isNone = true ↔
      ¬∃ enc ∈ around, enc.opening.isLoop = true := by
    rw [← exists_isLoop_iff hmirrors.standing]
    simp [Engine.enclosing?]
  have happend := append_succeeds_iff hmirrors hhandle rfl (.point p)
  unfold Attempt.Succeeds at happend ⊢
  simp only [placePoint, Attempt.ends_bind, Attempt.ends_get, Attempt.ends_ite, ends_refuse,
    happend, hloop]
  constructor
  · rintro ⟨hinside, htakes⟩
    refine ⟨fun hp => ?_, htakes hinside⟩
    exact Classical.byContradiction fun hnone => hinside ⟨hp, hnone⟩
  · rintro ⟨hleaves, htakes⟩
    exact ⟨fun hstray => hstray.2 (hleaves hstray.1), fun _ => htakes⟩

theorem label_succeeds_iff (name : String) :
    (Call.perform (.label name)).Succeeds e ↔
      aliasFlaw? name.toList = none ∧ (Call.label name).Placed around before := by
  have hnew : ∀ a : Alias, a ∉ e.registry.aliases ↔ Call.label a.name ∉ before := by
    intro a
    rw [← hmirrors.labels]
    constructor
    · rintro hfresh ⟨b, hb, hname⟩
      rw [Alias.ext hname] at hb
      exact hfresh hb
    · intro hnone ha
      exact hnone ⟨a, ha, rfl⟩
  have htakes : ∀ (a : Alias) registry,
      ((append (.label a) : Action grammar Unit) >>= fun _ => pure (some a)).Succeeds
        { e with registry } ↔ TakesChild around := by
    intro a registry
    refine append_pure_succeeds_iff hmirrors hhandle ?_ (.label a) (some a)
    rfl
  simp only [Call.perform, succeeds_valid_bind, succeeds_declare_bind, Alias.parse_eq_ok_iff,
    Registry.declare_eq_ok_iff, hnew, htakes]
  constructor
  · rintro ⟨a, ⟨hname, rfl⟩, _, ⟨hfresh, _⟩, hchild⟩
    exact ⟨hname, hfresh, hchild⟩
  · rintro ⟨hname, hfresh, hchild⟩
    exact ⟨⟨name, .inl hname⟩, ⟨hname, rfl⟩, _, ⟨hfresh, rfl⟩, hchild⟩

theorem goto_succeeds_iff (name : String) :
    (Call.perform (.goto name)).Succeeds e ↔ (Call.goto name).Placed around before := by
  rw [Call.Placed, ← hmirrors.labels, ← Registry.exists_resolve_iff hmirrors.kinds]
  simp only [Call.perform, succeeds_resolve_bind, append_pure_succeeds_iff hmirrors hhandle rfl]
  exact exists_and_right

theorem swimlane_succeeds_iff (lane : Swimlane) :
    (placeSwimlane lane).Succeeds e ↔
      (Call.swimlane lane).Accepted ∧ (Call.swimlane lane).Placed around before := by
  have happend : ∀ node : Node,
      (append node : Action grammar Unit).Ends e (fun _ _ => True) (fun _ _ => False) ↔
        TakesChild around :=
    fun node => append_succeeds_iff hmirrors hhandle rfl node
  rw [Call.Placed, ← hmirrors.lanes]
  simp only [placeSwimlane, succeeds_valid_bind, singleLine_eq_ok_iff,
    optionally_freeText_eq_ok_iff, Call.Accepted]
  unfold Attempt.Succeeds
  simp only [Attempt.ends_bind, Attempt.ends_get, Attempt.ends_ite, Attempt.ends_throw,
    ends_remember, happend]
  constructor
  · rintro ⟨_, ⟨hvisible, hline, rfl⟩, _, ⟨hlabel, rfl⟩, hknown, hnew⟩
    refine ⟨⟨⟨hvisible, hline⟩, hlabel⟩, ?_, fun hmem => ?_⟩
    · by_cases hmem : lane.name ∈ e.context
      · exact ((hknown hmem).2 (hknown hmem).1).2 ((hknown hmem).2 (hknown hmem).1).1
      · exact hnew hmem
    · obtain ⟨hcolor, hrest⟩ := hknown hmem
      obtain ⟨hlabel', _⟩ := hrest hcolor
      exact ⟨by simpa using hcolor, by simpa using hlabel'⟩
  · rintro ⟨⟨⟨hvisible, hline⟩, hlabel⟩, htakes, hplain⟩
    refine ⟨_, ⟨hvisible, hline, rfl⟩, _, ⟨hlabel, rfl⟩, fun hmem => ?_, fun _ => htakes⟩
    obtain ⟨hcolor, hlabel'⟩ := hplain hmem
    rw [hcolor, hlabel']
    exact ⟨by simp, fun _ => ⟨by simp, fun _ => htakes⟩⟩

end Elements

/-- A call without a body succeeds exactly when it fits. -/
theorem perform_succeeds_iff
    (hmirrors : Mirrors around before e)
    (hoffers : (handleOf around).offersCall c = true) :
    c.perform.Succeeds e ↔ Fits ⟨.call c, around, before⟩ := by
  rw [fits_call_iff]
  have hanswer : ∀ (_ : Unit) (after : Engine grammar),
      (pure none : Action grammar (Option Alias)).Succeeds after := fun _ _ => trivial
  have hstanding := hmirrors.standing
  have hchild : c.isMarker = false → handleOf around ≠ .parallel :=
    Handle.ne_parallel_of_offersCall hoffers
  cases c with
  | point p =>
      rw [Call.perform, Attempt.succeeds_bind_of_succeeds hanswer,
        point_succeeds_iff hmirrors (hchild rfl) p]
      exact (and_iff_right trivial).symm
  | action a =>
      rw [Call.perform, succeeds_check_bind fun _ => freeText_eq_ok_iff,
        append_pure_succeeds_iff hmirrors (hchild rfl) rfl]
      rfl
  | arrow a =>
      rw [Call.perform, succeeds_check_bind fun _ => optionally_freeText_eq_ok_iff,
        append_pure_succeeds_iff hmirrors (hchild rfl) rfl]
      rfl
  | note n =>
      rw [Call.perform, succeeds_check_bind fun _ => freeText_eq_ok_iff,
        append_pure_succeeds_iff hmirrors (hchild rfl) rfl]
      rfl
  | connector name =>
      rw [Call.perform, succeeds_check_bind singleLine_keeps_iff,
        append_pure_succeeds_iff hmirrors (hchild rfl) rfl]
      rfl
  | label name =>
      exact label_succeeds_iff hmirrors (hchild rfl) name
  | goto name =>
      exact (goto_succeeds_iff hmirrors (hchild rfl) name).trans (and_iff_right trivial).symm
  | swimlane lane =>
      rw [Call.perform, Attempt.succeeds_bind_of_succeeds hanswer]
      exact swimlane_succeeds_iff hmirrors (hchild rfl) lane
  | elseif guard =>
      have hhandle : handleOf around = .decision := of_decide_eq_true hoffers
      have hmark := mark_pure_succeeds_iff hstanding hhandle (by decide)
        fun _ _ => exists_addElseif_iff guard
      rw [Call.perform, succeeds_check_bind fun _ => Guard.check_eq_ok_iff, hmark]
      rfl
  | otherwise label =>
      have hhandle : handleOf around = .decision := of_decide_eq_true hoffers
      have hmark := mark_pure_succeeds_iff hstanding hhandle (by decide)
        fun _ _ => exists_addOtherwise_iff label
      rw [Call.perform, succeeds_check_bind fun _ => optionally_freeText_eq_ok_iff, hmark]
      rfl
  | case label =>
      have hhandle : handleOf around = .switch := of_decide_eq_true hoffers
      have hmark := mark_pure_succeeds_iff hstanding hhandle (by decide)
        fun _ _ henc hstands => iff_true_intro (exists_addCase label henc hstands)
      rw [Call.perform, succeeds_check_bind fun _ => freeText_eq_ok_iff, hmark]
      simp [Call.Accepted, Call.Placed]
  | backward text =>
      have hhandle : handleOf around = .loop := of_decide_eq_true hoffers
      have hmark := mark_pure_succeeds_iff hstanding hhandle (by decide)
        fun _ _ => exists_setBackward_iff text
      rw [Call.perform, succeeds_check_bind fun _ => freeText_eq_ok_iff, hmark]
      rfl
  | endMerge =>
      have hhandle : handleOf around = .parallel := of_decide_eq_true hoffers
      have hmark := mark_pure_succeeds_iff hstanding hhandle (by decide)
        fun _ _ => exists_setEnding_iff .merge
      rw [Call.perform, setEnding, hmark]
      exact (and_iff_right trivial).symm
  | endJoin label =>
      have hhandle : handleOf around = .parallel := of_decide_eq_true hoffers
      have hmark := mark_pure_succeeds_iff hstanding hhandle (by decide)
        fun _ _ => exists_setEnding_iff (.join label)
      rw [Call.perform, succeeds_check_bind singleLine_keeps_iff, setEnding, hmark]
      rfl

end Activity

end UmlText
