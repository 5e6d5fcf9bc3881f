import Mathlib.Data.List.Basic
import UmlText.Diagram

/-!
# What trees consist of

An element of a diagram holds lists of children, declares aliases and refers to aliases; so
does a scope that is still open.  An `Anatomy` says this of the elements and scopes of a
grammar, element by element, without a word on how a tree is walked through or in which
order it is examined.

From it follow, for every grammar alike, all the elements that occur in a tree, each with
the number of constructs around it (`occurrences`), the aliases that the tree declares and
those it refers to, and when a tree is `Consistent`.
-/

namespace UmlText

/-- What the elements and the open scopes of a grammar consist of. -/
structure Anatomy (G : Grammar) where
  /-- The lists of children of an element. -/
  bodies : G.Node → List (List G.Node)
  /-- The element holds something that must not lie too deep. -/
  Nests : G.Node → Prop
  /-- The aliases that an element declares itself. -/
  declares : G.Node → List Alias
  /-- The aliases that an element refers to itself. -/
  refersTo : G.Node → List Alias
  /-- The lists of children that an open scope has so far. -/
  held : G.Scope → List (List G.Node)
  /-- The aliases that an open scope declares itself. -/
  announces : G.Scope → List Alias
  /-- No element lies inside itself, however deep. -/
  finite : WellFounded fun inner node => ∃ body ∈ bodies node, inner ∈ body

namespace Anatomy

variable {G : Grammar}

/-- An element that lies inside `depth` constructs, and everything inside it, each with the
number of constructs around it, in the order of the document. -/
def occurrencesOf (A : Anatomy G) (depth : Nat) (node : G.Node) : List (Nat × G.Node) :=
  (depth, node) ::
    (A.bodies node).flatMap fun body => body.flatMap fun inner => A.occurrencesOf (depth + 1) inner
termination_by A.finite.wrap node
decreasing_by exact ⟨_, ‹_›, ‹_›⟩

section Occurrences

variable (A : Anatomy G)

/-- The elements of a list inside `depth` constructs, and everything inside them. -/
def occurrencesIn (depth : Nat) (nodes : List G.Node) : List (Nat × G.Node) :=
  nodes.flatMap (A.occurrencesOf depth)

/-- All elements of a tree, each with the number of constructs around it. -/
def occurrences (nodes : List G.Node) : List (Nat × G.Node) :=
  A.occurrencesIn 0 nodes

/-- The aliases that are declared anywhere in a tree; each declaration counts. -/
def declared (nodes : List G.Node) : List Alias :=
  (A.occurrences nodes).flatMap fun occurrence => A.declares occurrence.2

/-- The aliases that are referred to anywhere in a tree. -/
def referred (nodes : List G.Node) : List Alias :=
  (A.occurrences nodes).flatMap fun occurrence => A.refersTo occurrence.2

/-- The aliases that are declared in the elements at the root, by the open scopes, and in the
elements that the open scopes hold. -/
def declaredSoFar (e : Engine G) : List Alias :=
  A.declared e.root ++ e.stack.flatMap fun frame =>
    A.announces frame.scope ++ (A.held frame.scope).flatMap A.declared

/-- The aliases that are referred to in the elements at the root and in those that the open
scopes hold. -/
def referredSoFar (e : Engine G) : List Alias :=
  A.referred e.root ++ e.stack.flatMap fun frame => (A.held frame.scope).flatMap A.referred

/-- Nothing in the tree lies too deep, no alias is declared twice, and what is referred to is
declared, before or after the reference. -/
structure Consistent (nodes : List G.Node) : Prop where
  shallow : ∀ depth node, (depth, node) ∈ A.occurrences nodes → A.Nests node → depth < maxDepth
  distinct : (A.declared nodes).Nodup
  known : ∀ a ∈ A.referred nodes, a ∈ A.declared nodes

end Occurrences

/-- Elements that are larger than their lists of children do not lie inside themselves. -/
theorem wellFounded_of_sizeOf_lt
    {Node : Type}
    [SizeOf Node]
    {bodies : Node → List (List Node)}
    (h : ∀ node, ∀ body ∈ bodies node, sizeOf body < sizeOf node) :
    WellFounded fun inner node => ∃ body ∈ bodies node, inner ∈ body := by
  refine Subrelation.wf ?_ (measure (sizeOf : Node → Nat)).wf
  rintro inner node ⟨body, hbody, hinner⟩
  exact Nat.lt_trans (List.sizeOf_lt_of_mem hinner) (h node body hbody)

/-- Which elements there are does not depend on how deep the outermost one lies. -/
theorem map_snd_occurrencesOf (A : Anatomy G) (depth : Nat) (node : G.Node) :
    ∀ depth', (A.occurrencesOf depth' node).map Prod.snd =
      (A.occurrencesOf depth node).map Prod.snd := by
  induction depth, node using occurrencesOf.induct (A := A) with
  | case1 depth node ih =>
      intro depth'
      rw [occurrencesOf, occurrencesOf]
      simp only [List.map_cons, List.map_flatMap]
      congr 1
      refine List.flatMap_congr fun body hbody => List.flatMap_congr fun inner hinner => ?_
      exact ih body hbody inner hinner (depth' + 1)

theorem flatMap_occurrencesOf
    (A : Anatomy G)
    (own : G.Node → List Alias)
    (depth : Nat)
    (node : G.Node) :
    ((A.occurrencesOf depth node).flatMap fun occurrence => own occurrence.2) =
      (A.occurrencesOf 0 node).flatMap fun occurrence => own occurrence.2 := by
  rw [← List.flatMap_map Prod.snd own, ← List.flatMap_map Prod.snd own,
    A.map_snd_occurrencesOf 0 node depth]

end Anatomy

namespace Activity

/-- The lists of children behind the first branch of a decision. -/
def Alternatives.bodies : Alternatives → List (List Node)
  | .nothing => []
  | .elseif _ body rest => body :: rest.bodies
  | .otherwise _ body => [body]

/-- The lists of children of an element. -/
def Node.bodies : Node → List (List Node)
  | .decision _ body rest => body :: rest.bodies
  | .switch _ cases => cases.map Prod.snd
  | .whileLoop _ body | .repeatLoop _ body _ | .partition _ _ body | .group _ body => [body]
  | .parallel _ branches => branches
  | _ => []

/-- The lists of children that an open construct has so far. -/
def Scope.held : Scope → List (List Node)
  | .decision _ body rest => body :: rest.bodies
  | .switch _ cases => cases.map Prod.snd
  | .fork _ branches | .split branches => branches
  | .whileLoop _ body | .repeatLoop _ body _ | .branch body | .partition _ _ body
  | .group _ body => [body]

theorem Alternatives.sizeOf_lt_of_mem_bodies :
    ∀ {rest : Alternatives} {body : List Node}, body ∈ rest.bodies → sizeOf body < sizeOf rest
  | .nothing, _, h => by cases h
  | .elseif guard first rest, body, h => by
      simp only [Alternatives.elseif.sizeOf_spec]
      rcases List.mem_cons.mp h with rfl | h
      · omega
      · have hrest := Alternatives.sizeOf_lt_of_mem_bodies h
        omega
  | .otherwise label first, body, h => by
      simp only [Alternatives.otherwise.sizeOf_spec]
      rw [List.mem_singleton.mp h]
      omega

theorem Node.sizeOf_lt_of_mem_bodies
    {node : Node}
    {body : List Node}
    (h : body ∈ node.bodies) :
    sizeOf body < sizeOf node := by
  cases node with
  | decision guard first rest =>
      simp only [Node.decision.sizeOf_spec]
      rcases List.mem_cons.mp h with rfl | h
      · omega
      · have hrest := Alternatives.sizeOf_lt_of_mem_bodies h
        omega
  | switch test cases =>
      simp only [Node.switch.sizeOf_spec]
      obtain ⟨⟨label, own⟩, hcase, rfl⟩ := List.mem_map.mp h
      have hlt := List.sizeOf_lt_of_mem hcase
      simp only [Prod.mk.sizeOf_spec] at hlt
      change sizeOf own < _
      omega
  | parallel kind branches =>
      simp only [Node.parallel.sizeOf_spec]
      have hlt := List.sizeOf_lt_of_mem (show body ∈ branches from h)
      omega
  | whileLoop _ own | repeatLoop _ own _ | partition _ _ own | group _ own =>
      simp only [Node.whileLoop.sizeOf_spec, Node.repeatLoop.sizeOf_spec,
        Node.partition.sizeOf_spec, Node.group.sizeOf_spec]
      rw [List.mem_singleton.mp h]
      omega
  | _ => cases h

/-- The anatomy of activity diagrams: jump labels are declared, and jumps refer to them. -/
abbrev anatomy : Anatomy grammar where
  bodies := Node.bodies
  Nests node := node.bodies ≠ []
  declares
    | .label target => [target]
    | _ => []
  refersTo
    | .goto target => [target]
    | _ => []
  held := Scope.held
  announces _ := []
  finite := Anatomy.wellFounded_of_sizeOf_lt fun _ _ h => Node.sizeOf_lt_of_mem_bodies h

end Activity

namespace Sequence

/-- The participants that an element refers to. -/
def Node.mentioned : Node → List Alias
  | .message m => m.source.toList ++ m.target.toList
  | .note n => n.place.participants
  | .ref ps _ => ps
  | .activate p _ | .deactivate p | .destroy p => [p]
  | _ => []

theorem Node.sizeOf_lt_of_mem_sections
    {node : Node}
    {body : List Node}
    (h : body ∈ node.sections) :
    sizeOf body < sizeOf node := by
  cases node with
  | block kind sections =>
      simp only [Node.block.sizeOf_spec]
      obtain ⟨⟨label, own⟩, hsection, rfl⟩ := List.mem_map.mp h
      have hlt := List.sizeOf_lt_of_mem hsection
      simp only [Prod.mk.sizeOf_spec] at hlt
      change sizeOf own < _
      omega
  | _ => cases h

/-- The anatomy of sequence diagrams.  Participants are declared by an element of their own
or by the box they stand in, an open one included; a block must not lie too deep, whether or
not it has a section. -/
abbrev anatomy : Anatomy grammar where
  bodies := Node.sections
  Nests node := ∃ kind sections, node = .block kind sections
  declares node := node.ownParticipants.map Participant.id
  refersTo := Node.mentioned
  held
    | .block _ finished _ body => finished.map Prod.snd ++ [body]
    | .box .. => []
  announces
    | .block .. => []
    | .box _ _ participants => participants.map Participant.id
  finite := Anatomy.wellFounded_of_sizeOf_lt fun _ _ h => Node.sizeOf_lt_of_mem_sections h

end Sequence

namespace StateChart

/-- The lists of children of an element. -/
def Node.bodies : Node → List (List Node)
  | .composite _ _ regions => regions
  | _ => []

/-- The states that an element declares. -/
def Node.ownStates : Node → List Alias
  | .state s | .composite s _ _ => [s.id]
  | .transition _ | .note _ => []

/-- The states that an element refers to. -/
def Node.mentioned : Node → List Alias
  | .transition t => t.source.states ++ t.target.states
  | .note n => [n.target]
  | .state _ | .composite .. => []

theorem Node.sizeOf_lt_of_mem_bodies
    {node : Node}
    {body : List Node}
    (h : body ∈ node.bodies) :
    sizeOf body < sizeOf node := by
  cases node with
  | composite s separator regions =>
      simp only [Node.composite.sizeOf_spec]
      have hlt := List.sizeOf_lt_of_mem (show body ∈ regions from h)
      omega
  | _ => cases h

/-- The anatomy of state charts; an open composite state is declared already. -/
abbrev anatomy : Anatomy grammar where
  bodies := Node.bodies
  Nests node := node.bodies ≠ []
  declares := Node.ownStates
  refersTo := Node.mentioned
  held scope := scope.finished ++ [scope.body]
  announces scope := [scope.state.id]
  finite := Anatomy.wellFounded_of_sizeOf_lt fun _ _ h => Node.sizeOf_lt_of_mem_bodies h

end StateChart

namespace ClassDiagram

/-- The lists of children of an element. -/
def Node.bodies : Node → List (List Node)
  | .package _ body => [body]
  | _ => []

/-- The classes that an element refers to. -/
def Node.mentioned : Node → List Alias
  | .relation r => [r.source, r.target]
  | .note n => [n.target]
  | _ => []

theorem Node.sizeOf_lt_of_mem_bodies
    {node : Node}
    {body : List Node}
    (h : body ∈ node.bodies) :
    sizeOf body < sizeOf node := by
  cases node with
  | package head own =>
      simp only [Node.package.sizeOf_spec]
      rw [List.mem_singleton.mp h]
      omega
  | _ => cases h

/-- The anatomy of class diagrams. -/
abbrev anatomy : Anatomy grammar where
  bodies := Node.bodies
  Nests node := node.bodies ≠ []
  declares
    | .class c => [c.id]
    | _ => []
  refersTo := Node.mentioned
  held scope := [scope.body]
  announces _ := []
  finite := Anatomy.wellFounded_of_sizeOf_lt fun _ _ h => Node.sizeOf_lt_of_mem_bodies h

end ClassDiagram

/-- What the diagrams of each kind consist of. -/
abbrev Kind.anatomy : (kind : Kind) → Anatomy kind.dialect.toGrammar
  | .activity => Activity.anatomy
  | .sequence => Sequence.anatomy
  | .state => StateChart.anatomy
  | .class => ClassDiagram.anatomy

end UmlText
