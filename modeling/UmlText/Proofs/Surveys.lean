import UmlText.Proofs.Kinds

/-!
# Consistent surveys

A survey is consistent when no list of children lies too deep, no alias is declared twice,
and every reference is declared somewhere.  That is a property of the findings regardless of
their order, and it is what the check of a finished tree asks for.  For each kind of
diagram, what is found in an open scope grows by what is found in the items that it takes.
-/

namespace UmlText

namespace Finding

/-- Findings without an inconsistency, in any order. -/
structure Consistent (findings : List Finding) : Prop where
  shallow : ∀ n, .entered n ∈ findings → n ≤ maxDepth
  distinct : (declarations findings).Nodup
  known : ∀ a ∈ references findings, a ∈ declarations findings

/-- A pass without an inconsistency answers with the aliases it has come upon. -/
theorem examine_of_consistent
    {known seen : List Alias}
    {findings : List Finding}
    (hshallow : ∀ n, .entered n ∈ findings → n ≤ maxDepth)
    (hdistinct : (declarations findings).Nodup)
    (hfresh : ∀ a ∈ declarations findings, a ∉ seen)
    (hknown : ∀ a ∈ references findings, a ∈ known) :
    examine known seen findings = .ok ((declarations findings).reverse ++ seen) := by
  induction findings generalizing seen with
  | nil => rfl
  | cons finding rest ih =>
      have hshallowRest : ∀ n, .entered n ∈ rest → n ≤ maxDepth :=
        fun n hn => hshallow n (List.mem_cons_of_mem finding hn)
      cases finding with
      | entered n =>
          have hn : n ≤ maxDepth := hshallow n List.mem_cons_self
          rw [examine, if_pos hn]
          exact ih hshallowRest hdistinct hfresh hknown
      | declared node a =>
          have hcons : declarations (.declared node a :: rest) = a :: declarations rest := rfl
          rw [hcons] at hdistinct hfresh
          obtain ⟨hnew, hdistinctRest⟩ := List.nodup_cons.mp hdistinct
          have ha : a ∉ seen := hfresh a List.mem_cons_self
          rw [examine, if_neg ha, hcons, List.reverse_cons, List.append_assoc]
          refine ih hshallowRest hdistinctRest ?_ hknown
          intro b hb hseen
          rcases List.mem_cons.mp hseen with rfl | hseen
          · exact hnew hb
          · exact hfresh b (List.mem_cons_of_mem a hb) hseen
      | referred node expected a =>
          have hcons : references (.referred node expected a :: rest) = a :: references rest := rfl
          rw [hcons] at hknown
          have ha : a ∈ known := hknown a List.mem_cons_self
          rw [examine, if_pos ha]
          exact ih hshallowRest hdistinct hfresh fun b hb => hknown b (List.mem_cons_of_mem a hb)

/-- A selection of findings that has all declarations. -/
theorem declarations_filter
    {select : Finding → Bool}
    (hselect : ∀ node a, select (.declared node a) = true)
    (findings : List Finding) :
    declarations (findings.filter select) = declarations findings := by
  induction findings with
  | nil => rfl
  | cons finding rest ih =>
      unfold declarations at ih ⊢
      by_cases h : select finding = true
      · rw [List.filter_cons_of_pos h, List.filterMap_cons, List.filterMap_cons, ih]
      · rw [List.filter_cons_of_neg h, List.filterMap_cons, ih]
        cases finding with
        | declared node a => exact absurd (hselect node a) h
        | _ => rfl

/-- A selection of findings that has no declaration. -/
theorem declarations_filter_of_none
    {select : Finding → Bool}
    (hselect : ∀ node a, select (.declared node a) = false)
    (findings : List Finding) :
    declarations (findings.filter select) = [] := by
  unfold declarations
  rw [List.filterMap_eq_nil_iff]
  intro finding hmem
  cases finding with
  | declared node a =>
      have hselected := (List.mem_filter.mp hmem).2
      rw [hselect node a] at hselected
      cases hselected
  | _ => rfl

theorem mem_references_of_filter
    {select : Finding → Bool}
    {findings : List Finding}
    {a : Alias}
    (h : a ∈ references (findings.filter select)) :
    a ∈ references findings := by
  unfold references at h ⊢
  rw [List.mem_filterMap] at h ⊢
  obtain ⟨finding, hmem, ha⟩ := h
  exact ⟨finding, (List.mem_filter.mp hmem).1, ha⟩

/-- A selection of findings that has no reference. -/
theorem references_filter_of_none
    {select : Finding → Bool}
    (hselect : ∀ node expected a, select (.referred node expected a) = false)
    (findings : List Finding) :
    references (findings.filter select) = [] := by
  unfold references
  rw [List.filterMap_eq_nil_iff]
  intro finding hmem
  cases finding with
  | referred node expected a =>
      have hselected := (List.mem_filter.mp hmem).2
      rw [hselect node expected a] at hselected
      cases hselected
  | _ => rfl

/-- Whatever is examined first, as long as it is all declarations and no reference, a
consistent survey is accepted. -/
theorem check_of_consistent
    {early : Finding → Bool}
    {findings : List Finding}
    (hdeclared : ∀ node a, early (.declared node a) = true)
    (hreferred : ∀ node expected a, early (.referred node expected a) = false)
    (h : Consistent findings) :
    check early findings = .ok () := by
  have hfirst : examine [] [] (findings.filter early) =
      .ok ((declarations findings).reverse ++ []) := by
    rw [← declarations_filter hdeclared findings]
    refine examine_of_consistent ?_ ?_ (by simp) ?_
    · intro n hn
      exact h.shallow n (List.mem_filter.mp hn).1
    · rw [declarations_filter hdeclared]
      exact h.distinct
    · rw [references_filter_of_none hreferred]
      simp
  have hnone : declarations (findings.filter fun finding => !early finding) = [] :=
    declarations_filter_of_none (by simp [hdeclared]) findings
  have hsecond : examine ((declarations findings).reverse ++ []) []
      (findings.filter fun finding => !early finding) =
        .ok ((declarations (findings.filter fun finding => !early finding)).reverse ++ []) := by
    refine examine_of_consistent ?_ ?_ (by simp) ?_
    · intro n hn
      exact h.shallow n (List.mem_filter.mp hn).1
    · rw [hnone]
      exact List.nodup_nil
    · intro a ha
      have hmem := h.known a (mem_references_of_filter ha)
      simpa using hmem
  unfold check
  rw [hfirst]
  simp only [hsecond]

/-- The list of the elements at the root never lies too deep. -/
theorem Consistent.entered_root
    {findings : List Finding}
    (h : Consistent findings) :
    Consistent (.entered 0 :: findings) := by
  refine ⟨fun n hn => ?_, h.distinct, h.known⟩
  rcases List.mem_cons.mp hn with hn | hn
  · cases hn
    exact Nat.zero_le _
  · exact h.shallow n hn

end Finding

namespace Inventory

variable {d : Dialect} {r : Reading d}

/-- What is found in the elements of a list outside every construct. -/
def nodes (v : Inventory r) (nodes : List d.Node) : List Finding :=
  nodes.flatMap fun node => v.item 0 (.element node)

end Inventory

namespace Realization

variable {d : Dialect} {r : Reading d}

/-- What is found in an open scope grows by what is found in the items that it takes, and is
found in the element that it becomes; and a consistent tree is accepted. -/
structure Surveyed (z : Realization r) (v : Inventory r) : Prop where
  level_le : ∀ scope, v.level scope ≤ 1
  level : ∀ {item scope scope'}, z.Grows item scope scope' → v.level scope' = v.level scope
  grow : ∀ {item scope scope'}, z.Grows item scope scope' → ∀ depth,
    (v.scope depth scope').Perm (v.scope depth scope ++ v.item (depth + v.level scope) item)
  adopt : ∀ {outer inner outer'}, d.adopt outer inner = .ok outer' →
    ∃ item, z.Grows item outer outer' ∧ ∀ depth, v.item depth item = v.scope depth inner
  toNode : ∀ {scope node}, d.toNode scope = .ok node → v.item 0 (.element node) = v.scope 0 scope
  check : ∀ {nodes}, Finding.Consistent (v.nodes nodes) → d.check nodes = .ok ()

end Realization

namespace ClassDiagram

theorem surveyNodes_append (depth : Nat) (first second : List Node) :
    surveyNodes depth (first ++ second) = surveyNodes depth first ++ surveyNodes depth second := by
  induction first with
  | nil => rfl
  | cons node rest ih =>
      rw [List.cons_append, surveyNodes, surveyNodes, ih, List.append_assoc]

theorem surveyNodes_eq (nodes : List Node) :
    surveyNodes 0 nodes = inventory.nodes nodes := by
  induction nodes with
  | nil => rfl
  | cons node rest ih =>
      rw [surveyNodes, ih]
      rfl

theorem surveyed : realization.Surveyed inventory where
  level_le _ := Nat.le_refl 1
  level _ := rfl
  grow {item scope scope'} h depth := by
    cases item with
    | element node =>
        cases h
        simp [Scope.add, Scope.toNode, Node.survey, surveyNodes_append, surveyNodes]
    | clause c => exact c.elim
  adopt h := ⟨.element _, h, fun _ => rfl⟩
  toNode h := by
    cases h
    rfl
  check {nodes} h := by
    rw [← surveyNodes_eq] at h
    exact Finding.check_of_consistent (fun _ _ => rfl) (fun _ _ _ => rfl) h.entered_root

end ClassDiagram

namespace StateChart

theorem surveyNodes_append (depth : Nat) (first second : List Node) :
    surveyNodes depth (first ++ second) = surveyNodes depth first ++ surveyNodes depth second := by
  induction first with
  | nil => rfl
  | cons node rest ih =>
      rw [List.cons_append, surveyNodes, surveyNodes, ih, List.append_assoc]

theorem surveyRegions_append (depth : Nat) (first second : List (List Node)) :
    surveyRegions depth (first ++ second) =
      surveyRegions depth first ++ surveyRegions depth second := by
  induction first with
  | nil => rfl
  | cons body rest ih =>
      rw [List.cons_append, surveyRegions, surveyRegions, ih, List.append_assoc]

theorem surveyNodes_eq (nodes : List Node) :
    surveyNodes 0 nodes = inventory.nodes nodes := by
  induction nodes with
  | nil => rfl
  | cons node rest ih =>
      rw [surveyNodes, ih]
      rfl

/-- The composite state itself is found behind everything inside it, and so what is found in
another item comes before it. -/
theorem survey_toNode_perm
    {scope scope' : Scope}
    {depth : Nat}
    {more : List Finding}
    (hstate : scope'.state = scope.state)
    (hregions : surveyRegions (depth + 1) (scope'.finished ++ [scope'.body]) =
      surveyRegions (depth + 1) (scope.finished ++ [scope.body]) ++ more) :
    (scope'.toNode.survey depth).Perm (scope.toNode.survey depth ++ more) := by
  change (surveyRegions (depth + 1) (scope'.finished ++ [scope'.body]) ++
    [Finding.declared stateKind scope'.state.id]).Perm
    (surveyRegions (depth + 1) (scope.finished ++ [scope.body]) ++
      [Finding.declared stateKind scope.state.id] ++ more)
  rw [hregions, hstate, List.append_assoc, List.append_assoc]
  exact List.perm_append_comm.append_left _

theorem surveyed : realization.Surveyed inventory where
  level_le _ := Nat.le_refl 1
  level _ := rfl
  grow {item scope scope'} h depth := by
    cases item with
    | element node =>
        cases h
        refine survey_toNode_perm rfl ?_
        simp [Scope.add, surveyRegions_append, surveyRegions, surveyNodes_append, surveyNodes]
    | clause separator =>
        obtain ⟨_, _, rfl⟩ := Scope.startRegion_eq_ok_iff.mp h
        refine survey_toNode_perm rfl ?_
        simp [surveyRegions_append, surveyRegions, surveyNodes]
  adopt h := ⟨.element _, h, fun _ => rfl⟩
  toNode h := by
    cases h
    rfl
  check {nodes} h := by
    rw [← surveyNodes_eq] at h
    exact Finding.check_of_consistent (fun _ _ => rfl) (fun _ _ _ => rfl) h.entered_root

end StateChart

namespace Sequence

theorem surveyNodes_append (depth : Nat) (first second : List Node) :
    surveyNodes depth (first ++ second) = surveyNodes depth first ++ surveyNodes depth second := by
  induction first with
  | nil => rfl
  | cons node rest ih =>
      rw [List.cons_append, surveyNodes, surveyNodes, ih, List.append_assoc]

theorem surveySections_append
    (depth : Nat)
    (first second : List (Option String × List Node)) :
    surveySections depth (first ++ second) =
      surveySections depth first ++ surveySections depth second := by
  induction first with
  | nil => rfl
  | cons s rest ih =>
      obtain ⟨label, body⟩ := s
      rw [List.cons_append, surveySections, surveySections, ih, List.append_assoc]

theorem surveyNodes_eq (nodes : List Node) :
    surveyNodes 0 nodes = inventory.nodes nodes := by
  induction nodes with
  | nil => rfl
  | cons node rest ih =>
      rw [surveyNodes, ih]
      rfl

theorem surveyed : realization.Surveyed inventory where
  level_le _ := Nat.le_refl 1
  level _ := rfl
  grow {item scope scope'} h depth := by
    refine List.Perm.of_eq ?_
    cases item with
    | element node =>
        rcases Scope.push_eq_ok_iff.mp h with
          ⟨_, _, _, _, rfl, rfl⟩ | ⟨_, _, _, _, rfl, rfl, rfl⟩
        · simp [Scope.toNode, Node.survey, surveySections_append, surveySections,
            surveyNodes_append, surveyNodes]
        · simp [Scope.toNode, Node.survey]
    | clause label =>
        obtain ⟨_, _, _, _, rfl, _, rfl⟩ := Scope.startSection_eq_ok_iff.mp h
        simp [Scope.toNode, Node.survey, surveySections_append, surveySections, surveyNodes]
  adopt h := ⟨.element _, h, fun _ => rfl⟩
  toNode h := by
    cases h
    rfl
  check {nodes} h := by
    rw [← surveyNodes_eq] at h
    exact Finding.check_of_consistent (fun _ _ => rfl) (fun _ _ _ => rfl) h

end Sequence

namespace Activity

theorem surveyNodes_append (depth : Nat) (first second : List Node) :
    surveyNodes depth (first ++ second) = surveyNodes depth first ++ surveyNodes depth second := by
  induction first with
  | nil => rfl
  | cons node rest ih =>
      rw [List.cons_append, surveyNodes, surveyNodes, ih, List.append_assoc]

theorem surveyCases_append (depth : Nat) (first second : List (String × List Node)) :
    surveyCases depth (first ++ second) = surveyCases depth first ++ surveyCases depth second := by
  induction first with
  | nil => rfl
  | cons s rest ih =>
      obtain ⟨label, body⟩ := s
      rw [List.cons_append, surveyCases, surveyCases, ih, List.append_assoc]

theorem surveyBranches_append (depth : Nat) (first second : List (List Node)) :
    surveyBranches depth (first ++ second) =
      surveyBranches depth first ++ surveyBranches depth second := by
  induction first with
  | nil => rfl
  | cons body rest ih =>
      rw [List.cons_append, surveyBranches, surveyBranches, ih, List.append_assoc]

theorem surveyCases_pushCase (depth : Nat) (node : Node) :
    ∀ cases : List (String × List Node), cases ≠ [] →
      surveyCases depth (pushCase node cases) = surveyCases depth cases ++ node.survey depth
  | [], h => absurd rfl h
  | [(label, body)], _ => by simp [pushCase, surveyCases, surveyNodes_append, surveyNodes]
  | (label, body) :: next :: rest, _ => by
      have hrest := surveyCases_pushCase depth node (next :: rest) (by simp)
      simp [pushCase, surveyCases, hrest]

theorem push_eq_none
    {rest : Alternatives}
    {node : Node}
    (h : rest.push node = none) :
    rest = .nothing := by
  cases rest with
  | nothing => rfl
  | elseif guard body rest =>
      unfold Alternatives.push at h
      cases hrest : rest.push node with
      | none =>
          rw [hrest] at h
          cases h
      | some pushed =>
          rw [hrest] at h
          cases h
  | otherwise label body => cases h

theorem survey_push (depth : Nat) (node : Node) :
    ∀ {rest rest' : Alternatives}, rest.push node = some rest' →
      rest'.survey depth = rest.survey depth ++ node.survey depth
  | .nothing, _, h => by cases h
  | .elseif guard body rest, _, h => by
      unfold Alternatives.push at h
      cases hrest : rest.push node with
      | none =>
          rw [hrest] at h
          cases h
          rw [push_eq_none hrest]
          simp [Alternatives.survey, surveyNodes_append, surveyNodes]
      | some pushed =>
          rw [hrest] at h
          cases h
          simp [Alternatives.survey, survey_push depth node hrest]
  | .otherwise label body, _, h => by
      cases h
      simp [Alternatives.survey, surveyNodes_append, surveyNodes]

theorem survey_extend (depth : Nat) (more : Alternatives) :
    ∀ rest : Alternatives, rest.isClosed = false →
      (rest.extend more).survey depth = rest.survey depth ++ more.survey depth
  | .nothing, _ => rfl
  | .elseif guard body rest, h => by
      have hrest := survey_extend depth more rest h
      simp [Alternatives.extend, Alternatives.survey, hrest]
  | .otherwise label body, h => by cases h

theorem surveyNodes_eq (nodes : List Node) :
    surveyNodes 0 nodes = inventory.nodes nodes := by
  induction nodes with
  | nil => rfl
  | cons node rest ih =>
      rw [surveyNodes, ih]
      rfl

/-- What is found in an open scope, with one more element in it. -/
theorem survey_add
    {scope : Scope}
    (node : Node)
    (depth : Nat)
    (h : scope.expectation = none) :
    (scope.add node).survey depth = scope.survey depth ++ node.survey (depth + 1) := by
  cases scope with
  | decision guard body rest =>
      simp only [Scope.add]
      cases hrest : rest.push node with
      | none =>
          rw [push_eq_none hrest]
          simp [Scope.survey, Node.survey, Alternatives.survey, surveyNodes_append, surveyNodes]
      | some pushed =>
          simp [Scope.survey, Node.survey, survey_push _ node hrest]
  | switch test cases =>
      have hcases : cases ≠ [] := by
        rintro rfl
        cases h
      exact surveyCases_pushCase (depth + 1) node cases hcases
  | fork ending branches => cases h
  | split branches => cases h
  | _ => simp [Scope.add, Scope.survey, Node.survey, surveyNodes_append, surveyNodes]

/-- What is found in an open scope, with one more clause. -/
theorem survey_applies
    {c : Clause}
    {scope scope' : Scope}
    (depth : Nat)
    (h : c.Applies scope scope') :
    scope'.survey depth = scope.survey depth ++ c.survey (depth + inventory.level scope) := by
  cases c with
  | elseif guard =>
      obtain ⟨_, _, rest, rfl, hopen, rfl⟩ := Scope.addElseif_eq_ok_iff.mp h
      simp [Scope.survey, Node.survey, survey_extend _ _ rest hopen, Alternatives.survey,
        surveyNodes, Clause.survey, Scope.isParallel]
  | otherwise label =>
      obtain ⟨_, _, rest, rfl, hopen, rfl⟩ := Scope.addOtherwise_eq_ok_iff.mp h
      simp [Scope.survey, Node.survey, survey_extend _ _ rest hopen, Alternatives.survey,
        surveyNodes, Clause.survey, Scope.isParallel]
  | case label =>
      obtain ⟨_, _, rfl, rfl⟩ := Scope.addCase_eq_ok_iff.mp h
      simp [Scope.survey, Node.survey, surveyCases_append, surveyCases, surveyNodes,
        Clause.survey, Scope.isParallel]
  | backward text =>
      obtain ⟨_, _, rfl, rfl⟩ := Scope.setBackward_eq_ok_iff.mp h
      simp [Scope.survey, Node.survey, Clause.survey]
  | ending e =>
      obtain ⟨_, rfl, rfl⟩ := Scope.setEnding_eq_ok_iff.mp h
      simp [Scope.survey, Node.survey, Clause.survey]
  | branch body =>
      rcases Scope.adopt_branch_eq_ok_iff.mp h with ⟨_, _, rfl, rfl⟩ | ⟨_, rfl, rfl⟩
      · simp [Scope.survey, Node.survey, surveyBranches_append, surveyBranches, Clause.survey,
          Scope.isParallel]
      · simp [Scope.survey, Node.survey, surveyBranches_append, surveyBranches, Clause.survey,
          Scope.isParallel]

theorem survey_toNode
    {scope : Scope}
    {node : Node}
    (h : scope.toNode = .ok node)
    (depth : Nat) :
    node.survey depth = scope.survey depth := by
  cases scope <;> cases h <;> rfl

theorem surveyed : realization.Surveyed inventory where
  level_le scope := by
    change (if scope.isParallel then 0 else 1) ≤ 1
    split <;> omega
  level {item scope scope'} h := by
    change (if scope'.isParallel then 0 else 1) = if scope.isParallel then 0 else 1
    rw [isParallel_of_grows h]
  grow {item scope scope'} h depth := by
    refine List.Perm.of_eq ?_
    cases item with
    | element node =>
        obtain ⟨hclear, rfl⟩ := Scope.push_eq_ok_iff.mp h
        have hlevel : inventory.level scope = 1 := by
          cases scope with
          | fork ending branches => cases hclear
          | split branches => cases hclear
          | _ => rfl
        rw [hlevel]
        exact survey_add node depth hclear
    | clause c => exact survey_applies depth h
  adopt {outer inner outer'} h := by
    cases hbranch : inner.isBranch with
    | true =>
        cases inner <;> cases hbranch
        exact ⟨.clause (.branch _), h, fun _ => rfl⟩
    | false =>
        obtain ⟨node, hnode, hpush⟩ := (Scope.adopt_eq_ok_iff hbranch).mp h
        exact ⟨.element node, hpush, survey_toNode hnode⟩
  toNode h := survey_toNode h 0
  check {nodes} h := by
    rw [← surveyNodes_eq] at h
    exact Finding.check_of_consistent (fun _ _ => rfl) (fun _ _ _ => rfl) h.entered_root

end Activity

namespace Kind

theorem surveyed : ∀ kind : Kind, kind.realization.Surveyed kind.inventory
  | .activity => Activity.surveyed
  | .sequence => Sequence.surveyed
  | .state => StateChart.surveyed
  | .class => ClassDiagram.surveyed

end Kind

end UmlText
