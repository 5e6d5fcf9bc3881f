import UmlText.Proofs.Activity.Realization
import UmlText.Proofs.Checks
import UmlText.Proofs.Naming

/-!
# What the calls of activity diagrams do
-/

namespace UmlText.Activity

open UmlText.Action

/-- What is found in an open scope that lies so deep, when its own lists of children are
counted.  A fork or split counts only the lists of its branches. -/
def Scope.survey (depth : Nat) : Scope → List Finding
  | .decision guard body rest => (Node.decision guard body rest).survey depth
  | .switch test cases => (Node.switch test cases).survey depth
  | .whileLoop head body => (Node.whileLoop head body).survey depth
  | .repeatLoop head body backward => (Node.repeatLoop head body backward).survey depth
  | .fork ending branches => (Node.parallel (.fork (ending.getD .fork)) branches).survey depth
  | .split branches => (Node.parallel .split branches).survey depth
  | .branch body => .entered (depth + 1) :: surveyNodes (depth + 1) body
  | .partition name color body => (Node.partition name color body).survey depth
  | .group name body => (Node.group name body).survey depth

/-- What is found where a clause divides the elements of an open scope. -/
def Clause.survey (depth : Nat) : Clause → List Finding
  | .elseif _ | .otherwise _ | .case _ => [.entered depth]
  | .backward _ | .ending _ => []
  | .branch body => (Scope.branch body).survey depth

/-- Jump labels are what activity diagrams declare.  A fork or split and its branches are two
scopes, but one step of the tree. -/
abbrev inventory : Inventory reading where
  kind := labelKind
  item depth
    | .element node => node.survey depth
    | .clause c => c.survey depth
  scope := Scope.survey
  level scope := if scope.isParallel then 0 else 1

/-- The texts of a branch are accepted. -/
def Guard.Accepted (guard : Guard) : Prop :=
  IsVisible guard.condition ∧ ∀ t ∈ guard.label, IsVisible t

/-- The texts of a construct's own lines are accepted. -/
def Opening.Accepted : Opening → Prop
  | .decision guard => guard.Accepted
  | .switch test => IsVisible test
  | .whileLoop head =>
      IsVisible head.condition ∧ (∀ t ∈ head.isLabel, IsVisible t) ∧
        ∀ t ∈ head.exitLabel, IsVisible t
  | .repeatLoop head =>
      IsVisible head.condition ∧ (∀ t ∈ head.start, IsVisible t) ∧
        (∀ t ∈ head.isLabel, IsVisible t) ∧ ∀ t ∈ head.notLabel, IsVisible t
  | .fork | .split | .branch => True
  | .partition name _ | .group name => IsVisible name ∧ FitsOneLine name

theorem Guard.check_eq_ok_iff
    {guard kept : Guard} :
    guard.check = .ok kept ↔ guard.Accepted ∧ kept = guard := by
  simp only [check, Accepted, bind_eq_ok_iff, pure_eq_ok_iff, freeText_eq_ok_iff,
    optionally_freeText_eq_ok_iff]
  constructor
  · rintro ⟨_, ⟨hcondition, rfl⟩, _, ⟨hlabel, rfl⟩, rfl⟩
    exact ⟨⟨hcondition, hlabel⟩, rfl⟩
  · rintro ⟨⟨hcondition, hlabel⟩, rfl⟩
    exact ⟨_, ⟨hcondition, rfl⟩, _, ⟨hlabel, rfl⟩, rfl⟩

/-- A construct whose texts are accepted is opened empty, with its texts as they were given.
-/
theorem Opening.scope_eq_ok_iff
    {opening : Opening}
    {scope : Scope} :
    opening.scope = .ok scope ↔ opening.Accepted ∧ scope = opening.holding [] [] := by
  cases opening with
  | decision guard =>
      simp only [Opening.scope, bind_eq_ok_iff, pure_eq_ok_iff, Guard.check_eq_ok_iff]
      constructor
      · rintro ⟨_, ⟨hguard, rfl⟩, rfl⟩
        exact ⟨hguard, rfl⟩
      · rintro ⟨hguard, rfl⟩
        exact ⟨_, ⟨hguard, rfl⟩, rfl⟩
  | switch test =>
      simp only [Opening.scope, bind_eq_ok_iff, pure_eq_ok_iff, freeText_eq_ok_iff]
      constructor
      · rintro ⟨_, ⟨htest, rfl⟩, rfl⟩
        exact ⟨htest, rfl⟩
      · rintro ⟨htest, rfl⟩
        exact ⟨_, ⟨htest, rfl⟩, rfl⟩
  | whileLoop head =>
      simp only [Opening.scope, bind_eq_ok_iff, pure_eq_ok_iff, freeText_eq_ok_iff,
        optionally_freeText_eq_ok_iff]
      constructor
      · rintro ⟨_, ⟨hcondition, rfl⟩, _, ⟨his, rfl⟩, _, ⟨hexit, rfl⟩, rfl⟩
        exact ⟨⟨hcondition, his, hexit⟩, rfl⟩
      · rintro ⟨⟨hcondition, his, hexit⟩, rfl⟩
        exact ⟨_, ⟨hcondition, rfl⟩, _, ⟨his, rfl⟩, _, ⟨hexit, rfl⟩, rfl⟩
  | repeatLoop head =>
      simp only [Opening.scope, bind_eq_ok_iff, pure_eq_ok_iff, freeText_eq_ok_iff,
        optionally_freeText_eq_ok_iff]
      constructor
      · rintro ⟨_, ⟨hcondition, rfl⟩, _, ⟨hstart, rfl⟩, _, ⟨his, rfl⟩, _, ⟨hnot, rfl⟩, rfl⟩
        exact ⟨⟨hcondition, hstart, his, hnot⟩, rfl⟩
      · rintro ⟨⟨hcondition, hstart, his, hnot⟩, rfl⟩
        exact ⟨_, ⟨hcondition, rfl⟩, _, ⟨hstart, rfl⟩, _, ⟨his, rfl⟩, _, ⟨hnot, rfl⟩, rfl⟩
  | fork => simp [Opening.scope, pure_eq_ok_iff, Opening.Accepted, Opening.holding, endingOf,
      branchesOf]
  | split => simp [Opening.scope, pure_eq_ok_iff, Opening.Accepted, Opening.holding, branchesOf]
  | branch => simp [Opening.scope, pure_eq_ok_iff, Opening.Accepted, Opening.holding]
  | partition name color =>
      simp only [Opening.scope, bind_eq_ok_iff, pure_eq_ok_iff, singleLine_eq_ok_iff]
      constructor
      · rintro ⟨_, ⟨hvisible, hline, rfl⟩, rfl⟩
        exact ⟨⟨hvisible, hline⟩, rfl⟩
      · rintro ⟨⟨hvisible, hline⟩, rfl⟩
        exact ⟨_, ⟨hvisible, hline, rfl⟩, rfl⟩
  | group name =>
      simp only [Opening.scope, bind_eq_ok_iff, pure_eq_ok_iff, singleLine_eq_ok_iff]
      constructor
      · rintro ⟨_, ⟨hvisible, hline, rfl⟩, rfl⟩
        exact ⟨⟨hvisible, hline⟩, rfl⟩
      · rintro ⟨⟨hvisible, hline⟩, rfl⟩
        exact ⟨_, ⟨hvisible, hline, rfl⟩, rfl⟩

section Calls

variable {c : Call} {e : Engine grammar}

/-- A call that appends the element it is read as, and has nothing to do with the registry.
-/
theorem ends_element
    {node : Node}
    (hitem : c.item = some (.element node))
    (hsurvey : ∀ depth, node.survey depth = []) :
    (append node).Ends e
      (fun _ e' => realization.Performed inventory c e e') (fun _ e' => e.SameTree e') := by
  refine Realization.ends_append_of_reading (z := realization) (v := inventory) ⟨rfl, rfl⟩
    ⟨rfl, rfl, rfl⟩ (by simp [hitem]) ?_
  intro e' hregistry depth
  exact .of_nothing hregistry (.inl (hsurvey depth))

/-- A call that applies the clause it is read as. -/
theorem ends_clause
    {clause : Clause}
    {change : Scope → Option (Except Fault Scope)}
    {what expected : String}
    (hitem : c.item = some (.clause clause))
    (hsurvey : ∀ depth, clause.survey depth = [] ∨ clause.survey depth = [.entered depth])
    (hchange : ∀ scope scope', change scope = some (.ok scope') → clause.Applies scope scope') :
    (mark what expected change : Action grammar Unit).Ends e
      (fun _ e' => realization.Performed inventory c e e') (fun _ e' => e.SameTree e') :=
  Realization.ends_mark_of_reading (z := realization) (v := inventory) (by simp [hitem]) hsurvey
    hchange

theorem ends_label (name : String) :
    (Call.perform (.label name)).Ends e
      (fun _ e' => realization.Performed inventory (.label name) e e')
      (fun _ e' => e.SameTree e') := by
  simp only [Call.perform, Attempt.ends_bind, ends_valid, ends_declare, Attempt.ends_pure,
    Registry.declare_eq_ok_iff]
  refine ⟨fun target hparse => ?_, fun _ _ => ⟨rfl, rfl⟩⟩
  have hplain := Alias.isPlain_of_parse hparse
  obtain ⟨_, rfl⟩ := Alias.parse_eq_ok_iff.mp hparse
  refine ⟨?_, fun _ _ => ⟨rfl, rfl⟩⟩
  rintro _ ⟨hnew, rfl⟩
  refine Realization.ends_append_of_reading (z := realization) (v := inventory) ⟨rfl, rfl⟩
    ⟨rfl, rfl, rfl⟩ ?_ ?_
  · simp [Call.item, Alias.ofName?_name]
  · intro e' hregistry depth
    exact .of_declaration rfl rfl (by simp [Node.survey]) hnew hplain (by rw [hregistry])

theorem ends_goto (name : String) :
    (Call.perform (.goto name)).Ends e
      (fun _ e' => realization.Performed inventory (.goto name) e e')
      (fun _ e' => e.SameTree e') := by
  rw [Call.perform, Attempt.ends_bind]
  refine (ends_resolve_of_reading name labelKind).mono ?_ fun _ _ h => h ▸ ⟨rfl, rfl⟩
  rintro target _ ⟨htarget, hknown, rfl⟩
  rw [Attempt.ends_bind]
  refine Realization.ends_append_of_reading (z := realization) (v := inventory) ⟨rfl, rfl⟩
    ⟨rfl, rfl, rfl⟩ ?_ ?_
  · simp [Call.item, htarget]
  · intro e' hregistry depth
    exact .of_mentions [target] hregistry rfl (by simpa using hknown)

theorem ends_swimlane (lane : Swimlane) :
    (Call.perform (.swimlane lane)).Ends e
      (fun _ e' => realization.Performed inventory (.swimlane lane) e e')
      (fun _ e' => e.SameTree e') := by
  simp only [Call.perform, placeSwimlane, Attempt.ends_bind, ends_valid, Attempt.ends_pure,
    Attempt.ends_ite, Attempt.ends_get, Attempt.ends_throw, ends_remember,
    singleLine_eq_ok_iff, optionally_freeText_eq_ok_iff]
  refine ⟨?_, fun _ _ => ⟨rfl, rfl⟩⟩
  rintro _ ⟨_, _, rfl⟩
  refine ⟨?_, fun _ _ => ⟨rfl, rfl⟩⟩
  rintro _ ⟨_, rfl⟩
  refine ⟨fun _ => ⟨fun _ => ⟨rfl, rfl⟩, fun hcolor => ⟨fun _ => ⟨rfl, rfl⟩, fun hlabel => ?_⟩⟩,
    fun _ => ?_⟩
  · -- the lane is known, and so it is read as it was given: without a color and a label
    have hlane : lane = { name := lane.name } := by
      obtain ⟨name, color, label⟩ := lane
      simp at hcolor hlabel
      rw [hcolor, hlabel]
    exact ends_element (by rw [← hlane]; rfl) fun _ => rfl
  · refine (ends_element (c := .swimlane lane) rfl fun _ => rfl).mono ?_ fun _ _ h => h
    intro _ after h
    exact h.of_alike ⟨⟨rfl, rfl⟩, ⟨rfl, rfl, rfl⟩, rfl⟩

theorem perform_ends (c : Call) (e : Engine grammar) :
    c.perform.Ends e
      (fun _ e' => realization.Performed inventory c e e') (fun _ e' => e.SameTree e') := by
  cases c with
  | point p =>
      simp only [Call.perform, placePoint, Attempt.ends_bind, Attempt.ends_get,
        Attempt.ends_ite, ends_refuse, Attempt.ends_pure]
      exact ⟨fun _ => ⟨rfl, rfl⟩, fun _ => ends_element rfl fun _ => rfl⟩
  | action a =>
      simp only [Call.perform, Attempt.ends_bind, ends_valid, freeText_eq_ok_iff]
      refine ⟨?_, fun _ _ => ⟨rfl, rfl⟩⟩
      rintro _ ⟨_, rfl⟩
      exact ends_element rfl fun _ => rfl
  | arrow a =>
      simp only [Call.perform, Attempt.ends_bind, ends_valid, optionally_freeText_eq_ok_iff]
      refine ⟨?_, fun _ _ => ⟨rfl, rfl⟩⟩
      rintro _ ⟨_, rfl⟩
      exact ends_element rfl fun _ => rfl
  | note n =>
      simp only [Call.perform, Attempt.ends_bind, ends_valid, freeText_eq_ok_iff]
      refine ⟨?_, fun _ _ => ⟨rfl, rfl⟩⟩
      rintro _ ⟨_, rfl⟩
      exact ends_element rfl fun _ => rfl
  | connector name =>
      simp only [Call.perform, Attempt.ends_bind, ends_valid, singleLine_eq_ok_iff]
      refine ⟨?_, fun _ _ => ⟨rfl, rfl⟩⟩
      rintro _ ⟨_, _, rfl⟩
      exact ends_element rfl fun _ => rfl
  | label name => exact ends_label name
  | goto name => exact ends_goto name
  | swimlane lane => exact ends_swimlane lane
  | elseif guard =>
      simp only [Call.perform, Attempt.ends_bind, ends_valid, Guard.check_eq_ok_iff]
      refine ⟨?_, fun _ _ => ⟨rfl, rfl⟩⟩
      rintro _ ⟨_, _, rfl⟩
      exact ends_clause rfl (fun _ => .inr rfl) fun _ _ h => h
  | otherwise label =>
      simp only [Call.perform, Attempt.ends_bind, ends_valid, optionally_freeText_eq_ok_iff]
      refine ⟨?_, fun _ _ => ⟨rfl, rfl⟩⟩
      rintro _ ⟨_, rfl⟩
      exact ends_clause rfl (fun _ => .inr rfl) fun _ _ h => h
  | case label =>
      simp only [Call.perform, Attempt.ends_bind, ends_valid, freeText_eq_ok_iff]
      refine ⟨?_, fun _ _ => ⟨rfl, rfl⟩⟩
      rintro _ ⟨_, rfl⟩
      exact ends_clause rfl (fun _ => .inr rfl) fun _ _ h => h
  | backward text =>
      simp only [Call.perform, Attempt.ends_bind, ends_valid, freeText_eq_ok_iff]
      refine ⟨?_, fun _ _ => ⟨rfl, rfl⟩⟩
      rintro _ ⟨_, rfl⟩
      exact ends_clause rfl (fun _ => .inl rfl) fun _ _ h => h
  | endMerge =>
      simp only [Call.perform, setEnding, Attempt.ends_bind]
      exact ends_clause rfl (fun _ => .inl rfl) fun _ _ h => h
  | endJoin label =>
      simp only [Call.perform, setEnding, Attempt.ends_bind, ends_valid, singleLine_eq_ok_iff]
      refine ⟨?_, fun _ _ => ⟨rfl, rfl⟩⟩
      rintro _ ⟨_, _, rfl⟩
      exact ends_clause rfl (fun _ => .inl rfl) fun _ _ h => h

end Calls

theorem prepare_ends (opening : Opening) (e : Engine grammar) :
    (dialect.scopeOf opening).Ends e
      (fun result e' => realization.Prepared inventory opening result.1 e e')
      (fun _ e' => e.SameTree e') := by
  simp only [Attempt.ends_bind, ends_valid, Attempt.ends_pure, Opening.scope_eq_ok_iff]
  refine ⟨?_, fun _ _ => ⟨rfl, rfl⟩⟩
  rintro _ ⟨_, rfl⟩
  refine ⟨⟨opening, rfl, holds_nil opening⟩, fun depth => ?_, ⟨rfl, rfl⟩, ⟨rfl, rfl, rfl⟩⟩
  refine .of_nothing rfl ?_
  cases opening with
  | switch | fork | split => exact .inl rfl
  | _ => exact .inr rfl

/-- The calls of activity diagrams do what their reading says. -/
theorem sound : realization.Sound inventory where
  call := perform_ends
  opening := prepare_ends

/-- A construct that is closed becomes the element it is read as, or one more branch. -/
theorem faithful : realization.Faithful where
  grow {head items item scope scope'} h hgrows := by
    cases item with
    | element node => exact holds_element h hgrows
    | clause c => exact holds_clause h hgrows
  adopt {head items scope outer outer'} h hadopt := by
    obtain ⟨rfl, hfits⟩ := h
    refine ⟨_, if_pos hfits, ?_⟩
    cases head with
    | branch => exact hadopt
    | _ =>
        obtain ⟨node, hnode, hpush⟩ := (Scope.adopt_eq_ok_iff rfl).mp hadopt
        cases hnode
        exact hpush
  toNode {head items scope node} h hnode := by
    obtain ⟨rfl, hfits⟩ := h
    refine (if_pos hfits).trans ?_
    cases head <;> cases hnode <;> rfl

end UmlText.Activity
