import UmlText.Proofs.Authored

/-!
# Outlines of sequence diagrams

The outline of a tree says of which kind its elements are, and of which kinds those inside
the sections of its blocks are.  What holds everywhere in a tree holds of its elements and
of everything inside them; in an authored tree every block has a section, everywhere.
-/

namespace UmlText.Sequence

section Outlines

/-- The kind of an element, and the outlines of what is in its sections. -/
inductive Outline where
  | element (kind : String) (sections : List (List Outline))

/-- The kind of the element with this outline. -/
def Outline.kind : Outline → String
  | .element kind _ => kind

/-- The outlines of what is in the sections of the element with this outline. -/
def Outline.sections : Outline → List (List Outline)
  | .element _ sections => sections

mutual

/-- The outline of an element. -/
def Node.outline : Node → Outline
  | .block kind sections => .element kind.keyword (outlinesOfSections sections)
  | node => .element node.kind []

/-- The outlines of the elements of a list. -/
def outlinesOf : List Node → List Outline
  | [] => []
  | node :: rest => node.outline :: outlinesOf rest

/-- The outlines of the elements in the sections of a block. -/
def outlinesOfSections : List (Option String × List Node) → List (List Outline)
  | [] => []
  | (_, body) :: rest => outlinesOf body :: outlinesOfSections rest

end

theorem Node.outline_leaf
    {node : Node}
    (hleaf : ∀ kind sections, node ≠ .block kind sections) :
    node.outline = .element node.kind [] := by
  cases node with
  | block kind sections => exact absurd rfl (hleaf kind sections)
  | _ => rfl

end Outlines

section Everywhere

mutual

/-- An element and everything inside it. -/
def Node.everywhere : Node → List Node
  | .block kind sections => .block kind sections :: everywhereInSections sections
  | node => [node]

/-- The elements of a list and everything inside them. -/
def everywhereIn : List Node → List Node
  | [] => []
  | node :: rest => node.everywhere ++ everywhereIn rest

/-- Everything in the sections of a block. -/
def everywhereInSections : List (Option String × List Node) → List Node
  | [] => []
  | (_, body) :: rest => everywhereIn body ++ everywhereInSections rest

end

variable {P : Node → Prop} {node : Node} {nodes first second : List Node}

theorem Node.self_mem_everywhere (node : Node) : node ∈ node.everywhere := by
  cases node <;> exact List.mem_cons_self

theorem forall_everywhereIn_cons :
    (∀ n ∈ everywhereIn (node :: nodes), P n) ↔
      (∀ n ∈ node.everywhere, P n) ∧ ∀ n ∈ everywhereIn nodes, P n := by
  rw [everywhereIn, List.forall_mem_append]

theorem forall_everywhereIn_singleton :
    (∀ n ∈ everywhereIn [node], P n) ↔ ∀ n ∈ node.everywhere, P n := by
  simp [everywhereIn]

theorem forall_everywhereIn :
    (∀ n ∈ everywhereIn nodes, P n) ↔ ∀ node ∈ nodes, ∀ n ∈ node.everywhere, P n := by
  induction nodes with
  | nil => simp [everywhereIn]
  | cons node rest ih => rw [forall_everywhereIn_cons, List.forall_mem_cons, ih]

theorem forall_everywhereIn_append :
    (∀ n ∈ everywhereIn (first ++ second), P n) ↔
      (∀ n ∈ everywhereIn first, P n) ∧ ∀ n ∈ everywhereIn second, P n := by
  simp only [forall_everywhereIn, List.forall_mem_append]

theorem forall_everywhereInSections {sections : List (Option String × List Node)} :
    (∀ n ∈ everywhereInSections sections, P n) ↔
      ∀ part ∈ sections, ∀ n ∈ everywhereIn part.2, P n := by
  induction sections with
  | nil => simp [everywhereInSections]
  | cons part rest ih =>
      rw [everywhereInSections, List.forall_mem_append, List.forall_mem_cons, ih]

theorem forall_everywhere_block {kind : BlockKind} {sections : List (Option String × List Node)} :
    (∀ n ∈ (Node.block kind sections).everywhere, P n) ↔
      P (.block kind sections) ∧ ∀ part ∈ sections, ∀ n ∈ everywhereIn part.2, P n := by
  rw [Node.everywhere, List.forall_mem_cons, forall_everywhereInSections]

end Everywhere

section Sections

/-- A block has a section. -/
def Node.HasSection : Node → Prop
  | .block _ sections => sections ≠ []
  | _ => True

/-- All blocks inside an element have sections. -/
def Node.Sectioned (node : Node) : Prop :=
  ∀ n ∈ node.everywhere, n.HasSection

theorem Node.sectioned_leaf
    {node : Node}
    (hleaf : ∀ kind sections, node ≠ .block kind sections) :
    node.Sectioned := by
  cases node with
  | block kind sections => exact absurd rfl (hleaf kind sections)
  | _ => exact List.forall_mem_singleton.mpr trivial

/-- All blocks in the sections of an open block have sections. -/
def Scope.Sectioned : Scope → Prop
  | .block _ finished _ body =>
      (∀ part ∈ finished, ∀ n ∈ everywhereIn part.2, n.HasSection) ∧
        ∀ n ∈ everywhereIn body, n.HasSection
  | .box .. => True

theorem Scope.Sectioned.push
    {scope scope' : Scope}
    {node : Node}
    (h : scope.Sectioned)
    (hnode : node.Sectioned)
    (hpush : scope.push node = .ok scope') :
    scope'.Sectioned := by
  rcases Scope.push_eq_ok_iff.mp hpush with
    ⟨kind, finished, label, body, rfl, rfl⟩ | ⟨_, _, _, _, _, _, rfl⟩
  · exact ⟨h.1, forall_everywhereIn_append.mpr ⟨h.2, forall_everywhereIn_singleton.mpr hnode⟩⟩
  · trivial

theorem Scope.Sectioned.startSection
    {scope scope' : Scope}
    {label : Option String}
    (h : scope.Sectioned)
    (hstart : scope.startSection label = some (.ok scope')) :
    scope'.Sectioned := by
  obtain ⟨kind, finished, last, body, rfl, _, rfl⟩ := Scope.startSection_eq_ok_iff.mp hstart
  refine ⟨?_, by simp [everywhereIn]⟩
  rw [List.forall_mem_append, List.forall_mem_singleton]
  exact h

theorem Scope.Sectioned.toNode {scope : Scope} (h : scope.Sectioned) :
    scope.toNode.Sectioned := by
  cases scope with
  | block kind finished label body =>
      unfold Node.Sectioned Scope.toNode
      rw [forall_everywhere_block, List.forall_mem_append, List.forall_mem_singleton]
      exact ⟨by simp [Node.HasSection], h⟩
  | box title color ps => exact Node.sectioned_leaf (by simp [Scope.toNode])

theorem Call.sectioned_of_read
    {generated generated' : Nat}
    {call : Call}
    {node : Node}
    (h : call.read generated = some (.element node, generated')) :
    node.Sectioned := by
  refine Node.sectioned_leaf ?_
  rintro kind sections rfl
  cases call <;>
    simp [Call.read, Call.item, Option.map_eq_some_iff, Option.bind_eq_some_iff] at h

/-- Blocks have sections when they are closed, however they were built. -/
theorem upholds_sectioned : realization.Upholds Node.Sectioned Scope.Sectioned where
  call h := Call.sectioned_of_read h
  opening {head scope} h := by
    cases head with
    | block kind label =>
        obtain ⟨_, finished, last, body, rfl, hjoined⟩ := h
        have hjoined : finished ++ [(last, body)] = [] ++ [(label, [])] := hjoined
        obtain ⟨rfl, hlast⟩ := List.append_inj' hjoined rfl
        cases hlast
        exact ⟨by simp, by simp [everywhereIn]⟩
    | box title color =>
        obtain ⟨_, ps, rfl, _⟩ := h
        trivial
  grow {item scope scope'} hitem hscope hgrows := by
    cases item with
    | element node => exact hscope.push (hitem node rfl) hgrows
    | clause label => exact hscope.startSection hgrows
  adopt {inner outer outer'} hinner houter hadopt := houter.push hinner.toNode hadopt
  toNode {scope node} hscope hnode := by
    cases hnode
    exact hscope.toNode

theorem hasSection_of_authored {nodes : List Node} (h : dialect.Authored nodes) :
    ∀ n ∈ everywhereIn nodes, n.HasSection :=
  forall_everywhereIn.mpr (upholds_sectioned.good_of_authored sound h)

end Sections

end UmlText.Sequence
