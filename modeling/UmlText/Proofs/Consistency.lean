import Mathlib.Data.List.Perm.Basic
import UmlText.Proofs.Anatomy
import UmlText.Proofs.Checks
import UmlText.Proofs.Surveys

/-!
# Which trees can be written

A check examines a survey in two passes and stops at the first inconsistency, but whether
there is one does not depend on the order: the check accepts exactly the consistent surveys.
A survey, on the other hand, follows the order of its own walk through the tree, and yet up
to that order it finds in every element of the tree what the anatomy says of the element.

Together: exactly the consistent trees can be written, whatever the options.
-/

namespace UmlText

namespace Finding

/-- A pass that does not stop has come upon no inconsistency. -/
theorem of_examine
    {known seen result : List Alias}
    {findings : List Finding}
    (h : examine known seen findings = .ok result) :
    (∀ n, .entered n ∈ findings → n ≤ maxDepth) ∧
      (declarations findings).Nodup ∧
      (∀ a ∈ declarations findings, a ∉ seen) ∧
      (∀ a ∈ references findings, a ∈ known) ∧
      result = (declarations findings).reverse ++ seen := by
  induction findings generalizing seen with
  | nil =>
      cases h
      simp [declarations, references]
  | cons finding rest ih =>
      cases finding with
      | entered n =>
          rw [examine] at h
          split at h
          · next hn =>
              obtain ⟨hshallow, hrest⟩ := ih h
              refine ⟨fun m hm => ?_, hrest⟩
              rcases List.mem_cons.mp hm with hm | hm
              · cases hm
                exact hn
              · exact hshallow m hm
          · cases h
      | declared node a =>
          have hcons : declarations (.declared node a :: rest) = a :: declarations rest := rfl
          rw [examine] at h
          split at h
          · cases h
          · next ha =>
              obtain ⟨hshallow, hdistinct, hfresh, hknown, rfl⟩ := ih h
              rw [hcons]
              refine ⟨?_, ?_, ?_, hknown, ?_⟩
              · intro n hn
                exact hshallow n (by simpa using hn)
              · refine List.nodup_cons.mpr ⟨fun hrest => ?_, hdistinct⟩
                exact hfresh a hrest List.mem_cons_self
              · intro b hb hseen
                rcases List.mem_cons.mp hb with rfl | hb
                · exact ha hseen
                · exact hfresh b hb (List.mem_cons_of_mem a hseen)
              · rw [List.reverse_cons, List.append_assoc]
                rfl
      | referred node expected a =>
          have hcons : references (.referred node expected a :: rest) = a :: references rest := rfl
          rw [examine] at h
          split at h
          · next ha =>
              obtain ⟨hshallow, hdistinct, hfresh, hknown, hresult⟩ := ih h
              refine ⟨?_, hdistinct, hfresh, ?_, hresult⟩
              · intro n hn
                exact hshallow n (by simpa using hn)
              · rw [hcons]
                intro b hb
                rcases List.mem_cons.mp hb with rfl | hb
                · exact ha
                · exact hknown b hb
          · cases h

/-- Whatever is examined first, as long as it is all declarations and no reference, exactly
the consistent surveys are accepted. -/
theorem check_eq_ok_iff
    {early : Finding → Bool}
    {findings : List Finding}
    (hdeclared : ∀ node a, early (.declared node a) = true)
    (hreferred : ∀ node expected a, early (.referred node expected a) = false) :
    check early findings = .ok () ↔ Consistent findings := by
  refine ⟨fun h => ?_, check_of_consistent hdeclared hreferred⟩
  unfold check at h
  cases hfirst : examine [] [] (findings.filter early) with
  | error what => simp [hfirst] at h
  | ok known =>
      cases hsecond : examine known [] (findings.filter fun finding => !early finding) with
      | error what => simp [hfirst, hsecond] at h
      | ok rest =>
          obtain ⟨hshallow, hdistinct, -, -, rfl⟩ := of_examine hfirst
          obtain ⟨hshallow', -, -, hknown, -⟩ := of_examine hsecond
          rw [declarations_filter hdeclared] at hdistinct hknown
          refine ⟨fun n hn => ?_, hdistinct, fun a ha => ?_⟩
          · cases hearly : early (.entered n) with
            | true => exact hshallow n (List.mem_filter.mpr ⟨hn, hearly⟩)
            | false => exact hshallow' n (List.mem_filter.mpr ⟨hn, by simp [hearly]⟩)
          · -- no reference is examined early, and so all of them are looked up in the second pass
            unfold references at ha
            obtain ⟨finding, hfinding, hreference⟩ := List.mem_filterMap.mp ha
            have hlate : finding ∈ findings.filter fun finding => !early finding := by
              cases finding with
              | referred node expected b =>
                  exact List.mem_filter.mpr ⟨hfinding, by simp [hreferred]⟩
              | _ => cases hreference
            have hmem := hknown a (List.mem_filterMap.mpr ⟨finding, hlate, hreference⟩)
            simpa using hmem

/-- The list of the elements at the root does not decide whether a survey is consistent. -/
theorem consistent_entered_root {findings : List Finding} :
    Consistent (.entered 0 :: findings) ↔ Consistent findings :=
  ⟨fun h => ⟨fun n hn => h.shallow n (List.mem_cons_of_mem _ hn), h.distinct, h.known⟩,
    Consistent.entered_root⟩

theorem declarations_referred (node expected : String) (mentioned : List Alias) :
    declarations (mentioned.map (.referred node expected)) = [] := by
  simp [declarations, declaration?]

theorem references_referred (node expected : String) (mentioned : List Alias) :
    references (mentioned.map (.referred node expected)) = mentioned := by
  simp [references, List.filterMap_map, Function.comp_def, reference?]

theorem declarations_append (first second : List Finding) :
    declarations (first ++ second) = declarations first ++ declarations second :=
  List.filterMap_append

theorem references_append (first second : List Finding) :
    references (first ++ second) = references first ++ references second :=
  List.filterMap_append

end Finding

namespace Inventory

open Finding

variable {d : Dialect} {r : Reading d} {A : Anatomy d.toGrammar}

/-- What is found in the elements of several lists of children. -/
def inside (v : Inventory r) (depth : Nat) (bodies : List (List d.Node)) : List Finding :=
  bodies.flatMap fun body => body.flatMap fun inner => v.item depth (.element inner)

/-- Findings are, in some order, those in the elements of lists of children one step deeper,
and some besides, which tell apart what is declared, referred to and entered here. -/
def Divides
    (v : Inventory r)
    (depth : Nat)
    (findings : List Finding)
    (bodies : List (List d.Node))
    (declared referred : List Alias)
    (Nests : Prop) : Prop :=
  ∃ own, findings.Perm (own ++ v.inside (depth + 1) bodies) ∧
    declarations own = declared ∧
    references own = referred ∧
    ∀ n, .entered n ∈ own ↔ Nests ∧ n = depth + 1

/-- What is found in an element or an open scope is what the anatomy says of it, and what is
found in its children. -/
structure Charts (v : Inventory r) (A : Anatomy d.toGrammar) : Prop where
  element : ∀ depth node,
    v.Divides depth (v.item depth (.element node)) (A.bodies node) (A.declares node)
      (A.refersTo node) (A.Nests node)
  scope : ∀ depth scope, ∃ Nests,
    v.Divides depth (v.scope depth scope) (A.held scope) (A.announces scope) [] Nests

/-- Findings that list the children behind an entry for each list of them, and some more. -/
theorem divides_of_each
    {v : Inventory r}
    {depth : Nat}
    {findings more : List Finding}
    {bodies : List (List d.Node)}
    (h : findings = (bodies.flatMap fun body =>
      .entered (depth + 1) :: body.flatMap fun inner => v.item (depth + 1) (.element inner)) ++
        more)
    (hmore : ∀ n, .entered n ∉ more) :
    v.Divides depth findings bodies (declarations more) (references more) (bodies ≠ []) := by
  refine ⟨bodies.map (fun _ => .entered (depth + 1)) ++ more, ?_, ?_, ?_, ?_⟩
  · have hentered := List.map_append_flatMap_perm bodies
      (fun _ => Finding.entered (depth + 1))
      (fun body => body.flatMap fun inner => v.item (depth + 1) (.element inner))
    rw [h, List.append_assoc]
    refine (hentered.symm.append_right more).trans ?_
    rw [List.append_assoc]
    exact List.perm_append_comm.append_left _
  · rw [declarations_append]
    simp [declarations, List.filterMap_eq_nil_iff, declaration?]
  · rw [references_append]
    simp [references, List.filterMap_eq_nil_iff, reference?]
  · intro n
    simp [hmore]

namespace Charts

variable {v : Inventory r} (h : v.Charts A)
include h

/-- What is found in an element is, in some order, what the anatomy says of it and of
everything inside it. -/
theorem exists_own :
    ∃ own : Nat × d.Node → List Finding,
      (∀ depth node, (v.item depth (.element node)).Perm
        ((A.occurrencesOf depth node).flatMap own)) ∧
      (∀ occurrence, declarations (own occurrence) = A.declares occurrence.2) ∧
      (∀ occurrence, references (own occurrence) = A.refersTo occurrence.2) ∧
      ∀ occurrence n, .entered n ∈ own occurrence ↔
        A.Nests occurrence.2 ∧ n = occurrence.1 + 1 := by
  choose own hdivided hdeclared hreferred hentered using h.element
  refine ⟨fun occurrence => own occurrence.1 occurrence.2, fun depth node => ?_,
    fun _ => hdeclared _ _, fun _ => hreferred _ _, fun _ => hentered _ _⟩
  induction depth, node using Anatomy.occurrencesOf.induct (A := A) with
  | case1 depth node ih =>
      rw [Anatomy.occurrencesOf, List.flatMap_cons, List.flatMap_assoc]
      refine (hdivided depth node).trans (List.Perm.append_left _ ?_)
      refine List.Perm.flatMap_left _ fun body hbody => ?_
      rw [List.flatMap_assoc]
      exact List.Perm.flatMap_left _ fun inner hinner => ih body hbody inner hinner

omit h in
/-- What is selected from the findings in a list of elements does not depend on how deep the
list lies. -/
theorem filterMap_perm
    {own : Nat × d.Node → List Finding}
    {select : Finding → Option Alias}
    {selected : d.Node → List Alias}
    (hfound : ∀ depth node, (v.item depth (.element node)).Perm
      ((A.occurrencesOf depth node).flatMap own))
    (hselected : ∀ occurrence, (own occurrence).filterMap select = selected occurrence.2)
    (depth : Nat)
    (nodes : List d.Node) :
    ((nodes.flatMap fun node => v.item depth (.element node)).filterMap select).Perm
      ((A.occurrences nodes).flatMap fun occurrence => selected occurrence.2) := by
  unfold Anatomy.occurrences Anatomy.occurrencesIn
  rw [List.filterMap_flatMap, List.flatMap_assoc]
  refine List.Perm.flatMap_left _ fun node _ => ?_
  refine ((hfound depth node).filterMap _).trans (List.Perm.of_eq ?_)
  rw [List.filterMap_flatMap]
  simp only [hselected]
  exact A.flatMap_occurrencesOf selected depth node

theorem declarations_perm (depth : Nat) (nodes : List d.Node) :
    (declarations (nodes.flatMap fun node => v.item depth (.element node))).Perm
      (A.declared nodes) := by
  obtain ⟨own, hfound, hdeclared, -, -⟩ := h.exists_own
  exact filterMap_perm hfound hdeclared depth nodes

theorem references_perm (depth : Nat) (nodes : List d.Node) :
    (references (nodes.flatMap fun node => v.item depth (.element node))).Perm
      (A.referred nodes) := by
  obtain ⟨own, hfound, -, hreferred, -⟩ := h.exists_own
  exact filterMap_perm hfound hreferred depth nodes

/-- The lists of children that are found lie one step deeper than the elements that hold
them. -/
theorem entered_mem_nodes_iff {nodes : List d.Node} {n : Nat} :
    .entered n ∈ v.nodes nodes ↔
      ∃ depth node, (depth, node) ∈ A.occurrences nodes ∧ A.Nests node ∧ n = depth + 1 := by
  obtain ⟨own, hfound, -, -, hentered⟩ := h.exists_own
  unfold Inventory.nodes Anatomy.occurrences Anatomy.occurrencesIn
  simp only [List.mem_flatMap, (hfound _ _).mem_iff, hentered, Prod.exists]
  constructor
  · rintro ⟨outer, houter, depth, node, hmem, hnests, hn⟩
    exact ⟨depth, node, ⟨outer, houter, hmem⟩, hnests, hn⟩
  · rintro ⟨depth, node, ⟨outer, houter, hmem⟩, hnests, hn⟩
    exact ⟨outer, houter, depth, node, hmem, hnests, hn⟩

/-- The survey of a tree is consistent where the tree is. -/
theorem consistent_iff {nodes : List d.Node} :
    Finding.Consistent (v.nodes nodes) ↔ A.Consistent nodes := by
  have hdeclared : (declarations (v.nodes nodes)).Perm (A.declared nodes) :=
    h.declarations_perm 0 nodes
  have hreferred : (references (v.nodes nodes)).Perm (A.referred nodes) :=
    h.references_perm 0 nodes
  constructor
  · intro hsurvey
    refine ⟨fun depth node hmem hnests => ?_, hdeclared.nodup_iff.mp hsurvey.distinct,
      fun a ha => hdeclared.mem_iff.mp (hsurvey.known a (hreferred.mem_iff.mpr ha))⟩
    exact hsurvey.shallow (depth + 1)
      (h.entered_mem_nodes_iff.mpr ⟨depth, node, hmem, hnests, rfl⟩)
  · intro htree
    refine ⟨fun n hn => ?_, hdeclared.nodup_iff.mpr htree.distinct,
      fun a ha => hdeclared.mem_iff.mpr (htree.known a (hreferred.mem_iff.mp ha))⟩
    obtain ⟨depth, node, hmem, hnests, rfl⟩ := h.entered_mem_nodes_iff.mp hn
    exact htree.shallow depth node hmem hnests

end Charts

end Inventory

/-- A walk through a list that goes from each member to the rest. -/
theorem eq_flatMap_of_cons
    {α β : Type}
    {walk : List α → List β}
    {step : α → List β}
    (hnil : walk [] = [])
    (hcons : ∀ a rest, walk (a :: rest) = step a ++ walk rest)
    (members : List α) :
    walk members = members.flatMap step := by
  induction members with
  | nil => exact hnil
  | cons a rest ih => rw [hcons, ih, List.flatMap_cons]

namespace Activity

theorem surveyNodes_eq_flatMap (depth : Nat) (nodes : List Node) :
    surveyNodes depth nodes = nodes.flatMap fun node => node.survey depth :=
  eq_flatMap_of_cons rfl (fun _ _ => rfl) nodes

/-- What is found in several lists of children that lie equally deep. -/
abbrev surveyBodies (depth : Nat) (bodies : List (List Node)) : List Finding :=
  bodies.flatMap fun body => .entered depth :: body.flatMap fun node => node.survey depth

theorem survey_alternatives (depth : Nat) :
    ∀ rest : Alternatives, rest.survey depth = surveyBodies depth rest.bodies
  | .nothing => rfl
  | .otherwise label body => by
      rw [Alternatives.survey, surveyNodes_eq_flatMap]
      simp [Alternatives.bodies]
  | .elseif guard body rest => by
      rw [Alternatives.survey, survey_alternatives depth rest, surveyNodes_eq_flatMap]
      rfl

theorem surveyCases_eq (depth : Nat) (cases : List (String × List Node)) :
    surveyCases depth cases = surveyBodies depth (cases.map Prod.snd) := by
  have hwalk : surveyCases depth cases =
      cases.flatMap fun c => .entered depth :: surveyNodes depth c.2 :=
    eq_flatMap_of_cons rfl (fun _ _ => rfl) cases
  rw [hwalk, surveyBodies, List.flatMap_map]
  simp only [surveyNodes_eq_flatMap]

theorem surveyBranches_eq (depth : Nat) (branches : List (List Node)) :
    surveyBranches depth branches = surveyBodies depth branches := by
  simp only [surveyBodies, ← surveyNodes_eq_flatMap]
  exact eq_flatMap_of_cons rfl (fun _ _ => rfl) branches

/-- What is found in an element itself. -/
def Node.ownFindings : Node → List Finding
  | .label target => [.declared "label" target]
  | .goto target => [.referred "goto" "label" target]
  | _ => []

theorem survey_eq (depth : Nat) (node : Node) :
    node.survey depth = surveyBodies (depth + 1) node.bodies ++ node.ownFindings := by
  cases node <;>
    simp [Node.survey, Node.bodies, Node.ownFindings, surveyNodes_eq_flatMap, survey_alternatives,
      surveyCases_eq, surveyBranches_eq]

theorem survey_scope_eq (depth : Nat) (scope : Scope) :
    scope.survey depth = surveyBodies (depth + 1) scope.held ++ [] := by
  cases scope <;>
    simp [Scope.survey, Scope.held, Node.survey, surveyNodes_eq_flatMap, survey_alternatives,
      surveyCases_eq, surveyBranches_eq]

theorem charts : inventory.Charts anatomy where
  element depth node := by
    have hdivides := inventory.divides_of_each (survey_eq depth node)
      (by cases node <;> simp [Node.ownFindings])
    cases node <;> exact hdivides
  scope depth scope :=
    ⟨_, inventory.divides_of_each (survey_scope_eq depth scope) (by simp)⟩

end Activity

namespace StateChart

theorem surveyNodes_eq_flatMap (depth : Nat) (nodes : List Node) :
    surveyNodes depth nodes = nodes.flatMap fun node => node.survey depth :=
  eq_flatMap_of_cons rfl (fun _ _ => rfl) nodes

theorem surveyRegions_eq (depth : Nat) (regions : List (List Node)) :
    surveyRegions depth regions = regions.flatMap fun body =>
      .entered depth :: body.flatMap fun node => node.survey depth := by
  simp only [← surveyNodes_eq_flatMap]
  exact eq_flatMap_of_cons rfl (fun _ _ => rfl) regions

/-- What is found in an element itself. -/
def Node.ownFindings : Node → List Finding
  | .state s | .composite s _ _ => [.declared stateKind s.id]
  | .transition t => (t.source.states ++ t.target.states).map (.referred "transition" stateKind)
  | .note n => [.referred "note" stateKind n.target]

theorem survey_eq (depth : Nat) (node : Node) :
    node.survey depth =
      (node.bodies.flatMap fun body =>
        .entered (depth + 1) :: body.flatMap fun inner => inner.survey (depth + 1)) ++
        node.ownFindings := by
  cases node <;> simp [Node.survey, Node.bodies, Node.ownFindings, surveyRegions_eq]

theorem charts : inventory.Charts anatomy where
  element depth node := by
    have hdivides := inventory.divides_of_each (survey_eq depth node)
      (by cases node <;> simp [Node.ownFindings])
    cases node with
    | transition t =>
        rw [Node.ownFindings, Finding.declarations_referred, Finding.references_referred]
          at hdivides
        exact hdivides
    | _ => exact hdivides
  scope depth scope := by
    have hdivides := inventory.divides_of_each (survey_eq depth scope.toNode)
      (by simp [Scope.toNode, Node.ownFindings])
    exact ⟨_, hdivides⟩

end StateChart

namespace ClassDiagram

theorem surveyNodes_eq_flatMap (depth : Nat) (nodes : List Node) :
    surveyNodes depth nodes = nodes.flatMap fun node => node.survey depth :=
  eq_flatMap_of_cons rfl (fun _ _ => rfl) nodes

/-- What is found in an element itself. -/
def Node.ownFindings : Node → List Finding
  | .class c => [.declared classKind c.id]
  | .relation r =>
      [.referred "relation" classKind r.source, .referred "relation" classKind r.target]
  | .note n => [.referred "note" classKind n.target]
  | _ => []

theorem survey_eq (depth : Nat) (node : Node) :
    node.survey depth =
      (node.bodies.flatMap fun body =>
        .entered (depth + 1) :: body.flatMap fun inner => inner.survey (depth + 1)) ++
        node.ownFindings := by
  cases node <;> simp [Node.survey, Node.bodies, Node.ownFindings, surveyNodes_eq_flatMap]

theorem charts : inventory.Charts anatomy where
  element depth node := by
    have hdivides := inventory.divides_of_each (survey_eq depth node)
      (by cases node <;> simp [Node.ownFindings])
    cases node <;> exact hdivides
  scope depth scope := by
    have hdivides := inventory.divides_of_each (survey_eq depth scope.toNode)
      (by simp [Scope.toNode, Node.ownFindings])
    exact ⟨_, hdivides⟩

end ClassDiagram

namespace Sequence

theorem surveyNodes_eq_flatMap (depth : Nat) (nodes : List Node) :
    surveyNodes depth nodes = nodes.flatMap fun node => node.survey depth :=
  eq_flatMap_of_cons rfl (fun _ _ => rfl) nodes

theorem surveySections_eq (depth : Nat) (sections : List (Option String × List Node)) :
    surveySections depth sections = inventory.inside depth (sections.map Prod.snd) := by
  have hwalk : surveySections depth sections = sections.flatMap fun s => surveyNodes depth s.2 :=
    eq_flatMap_of_cons rfl (fun _ _ => rfl) sections
  rw [hwalk, Inventory.inside, List.flatMap_map]
  simp only [surveyNodes_eq_flatMap]

theorem declarations_declared (participants : List Participant) :
    Finding.declarations (participants.map fun p => .declared participantKind p.id) =
      participants.map Participant.id := by
  simp [Finding.declarations, List.filterMap_map, Function.comp_def, Finding.declaration?]

theorem references_declared (participants : List Participant) :
    Finding.references (participants.map fun p => .declared participantKind p.id) = [] := by
  simp [Finding.references, Finding.reference?]

/-- A block is one list of children to the survey, whatever its sections are; there is
nothing to enter in anything else. -/
theorem divides_survey (depth : Nat) (node : Node) :
    inventory.Divides depth (node.survey depth) node.sections
      (node.ownParticipants.map Participant.id) node.mentioned
      (∃ kind sections, node = .block kind sections) := by
  by_cases hblock : ∃ kind sections, node = .block kind sections
  · obtain ⟨kind, sections, rfl⟩ := hblock
    refine ⟨[.entered (depth + 1)], ?_, rfl, rfl, fun n => by simp⟩
    rw [Node.survey, surveySections_eq]
    exact List.Perm.refl _
  · refine ⟨node.survey depth, ?_, ?_, ?_, fun n => ?_⟩
    · cases node <;> simp_all [Node.sections, Inventory.inside]
    · cases node <;> simp_all [Node.survey, Node.ownParticipants, mentions, declarations_declared,
        Finding.declarations_append, Finding.declarations_referred] <;> rfl
    · cases node <;> simp_all [Node.survey, Node.mentioned, mentions, references_declared,
        Finding.references_append, Finding.references_referred] <;> rfl
    · cases node <;> simp_all [Node.survey, mentions]

theorem charts : inventory.Charts anatomy where
  element := divides_survey
  scope depth scope := by
    have hdivides := divides_survey depth scope.toNode
    cases scope with
    | block kind finished label body =>
        simp only [Scope.toNode, Node.sections, List.map_append, List.map_cons, List.map_nil]
          at hdivides
        exact ⟨_, hdivides⟩
    | box title color participants => exact ⟨_, hdivides⟩

end Sequence

namespace Kind

theorem charts : ∀ kind : Kind, kind.inventory.Charts kind.anatomy
  | .activity => Activity.charts
  | .sequence => Sequence.charts
  | .state => StateChart.charts
  | .class => ClassDiagram.charts

/-- The check of a tree accepts the trees with a consistent survey, whichever findings it
examines first. -/
theorem check_eq_ok_iff (kind : Kind) (nodes : List kind.dialect.Node) :
    kind.dialect.check nodes = .ok () ↔ Finding.Consistent (kind.inventory.nodes nodes) := by
  cases kind with
  | activity =>
      rw [← Activity.surveyNodes_eq, ← Finding.consistent_entered_root]
      exact Finding.check_eq_ok_iff (fun _ _ => rfl) fun _ _ _ => rfl
  | sequence =>
      rw [← Sequence.surveyNodes_eq]
      exact Finding.check_eq_ok_iff (fun _ _ => rfl) fun _ _ _ => rfl
  | state =>
      rw [← StateChart.surveyNodes_eq, ← Finding.consistent_entered_root]
      exact Finding.check_eq_ok_iff (fun _ _ => rfl) fun _ _ _ => rfl
  | «class» =>
      rw [← ClassDiagram.surveyNodes_eq, ← Finding.consistent_entered_root]
      exact Finding.check_eq_ok_iff (fun _ _ => rfl) fun _ _ _ => rfl

end Kind

/-- A diagram can be written exactly if its tree is consistent, whatever its name, its
settings and the options are. -/
theorem Diagram.render_succeeds_iff (d : Diagram) (o : Options) :
    (∃ text, d.render o = .ok text) ↔ d.kind.anatomy.Consistent d.nodes := by
  rw [← d.kind.charts.consistent_iff, ← Kind.check_eq_ok_iff]
  unfold render
  constructor
  · rintro ⟨text, htext⟩
    obtain ⟨⟨⟩, hcheck, -⟩ := map_eq_ok_iff.mp htext
    exact hcheck
  · intro hcheck
    exact ⟨_, map_eq_ok_iff.mpr ⟨(), hcheck, rfl⟩⟩

end UmlText
