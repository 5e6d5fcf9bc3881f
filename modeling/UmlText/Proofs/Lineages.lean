import UmlText.Proofs.Anatomy

/-!
# Trees in the order of the document

A tree is read from the top to the bottom: first an element, then everything inside it, then
what follows.  Every element is met with its *lineage*, the elements around it, the
innermost one first.
-/

namespace UmlText.Anatomy

variable {G : Grammar}

/-- An element and everything inside it in the order of the document, each with the elements
around it. -/
def lineagesOf (A : Anatomy G) (node : G.Node) : List (List G.Node × G.Node) :=
  ([], node) :: (A.bodies node).flatMap fun body => body.flatMap fun inner =>
    (A.lineagesOf inner).map fun found => (found.1 ++ [node], found.2)
termination_by A.finite.wrap node
decreasing_by exact ⟨_, ‹_›, ‹_›⟩

section Walks

variable (A : Anatomy G)

/-- All elements of a tree in the order of the document, each with the elements around it. -/
def lineages (nodes : List G.Node) : List (List G.Node × G.Node) :=
  nodes.flatMap A.lineagesOf

/-- All elements of a tree in the order of the document. -/
def preorder (nodes : List G.Node) : List G.Node :=
  (A.lineages nodes).map Prod.snd

theorem lineages_append (first second : List G.Node) :
    A.lineages (first ++ second) = A.lineages first ++ A.lineages second :=
  List.flatMap_append

/-- An element comes before everything inside it, and has no other elements around it than
those inside it have. -/
theorem lineages_singleton (node : G.Node) :
    A.lineages [node] = ([], node) ::
      (A.lineages (A.bodies node).flatten).map fun found => (found.1 ++ [node], found.2) := by
  unfold lineages
  rw [List.flatMap_singleton, lineagesOf, List.flatten_eq_flatMap, List.flatMap_assoc]
  simp only [List.map_flatMap, id_eq]

theorem preorder_append (first second : List G.Node) :
    A.preorder (first ++ second) = A.preorder first ++ A.preorder second := by
  unfold preorder
  rw [lineages_append, List.map_append]

theorem preorder_singleton (node : G.Node) :
    A.preorder [node] = node :: A.preorder (A.bodies node).flatten := by
  unfold preorder
  rw [lineages_singleton, List.map_cons, List.map_map]
  rfl

end Walks

end UmlText.Anatomy
