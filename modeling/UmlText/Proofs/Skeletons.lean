import UmlText.Diagram
import UmlText.Proofs.Text.Skeleton

/-!
# The skeletons of trees

For each kind of diagram, the skeleton of an element follows from its constructor, from how
many bodies and entries it has, and from the line breaks in its text if it is a note.  It
takes as many lines as its skeleton says, however deep it is nested and whatever stands in
it.
-/

namespace UmlText

namespace Activity

mutual

/-- The skeleton of an element. -/
def Node.skeleton : Node → Skeleton
  | .decision _ body rest => .construct .led 0 (skeletonsOf body :: rest.skeletons)
  | .switch _ cases => .construct .listed 0 (skeletonsOfCases cases)
  | .whileLoop _ body => .construct .led 0 [skeletonsOf body]
  | .repeatLoop _ body backward => .construct .led backward.toList.length [skeletonsOf body]
  | .parallel _ branches => .construct .parted 0 (skeletonsOfBranches branches)
  | .partition _ _ body => .construct .led 0 [skeletonsOf body]
  | .group _ body => .construct .led 0 [skeletonsOf body]
  | .note n => .note (lineBreaks n.text)
  | .point _ | .action _ | .swimlane _ | .connector _ | .label _ | .goto _ | .arrow _ => .single 0

/-- The skeletons of the branches behind the first one of a decision. -/
def Alternatives.skeletons : Alternatives → List (List Skeleton)
  | .nothing => []
  | .elseif _ body rest => skeletonsOf body :: rest.skeletons
  | .otherwise _ body => [skeletonsOf body]

/-- The skeletons of the elements of a list. -/
def skeletonsOf : List Node → List Skeleton
  | [] => []
  | node :: rest => node.skeleton :: skeletonsOf rest

/-- The skeletons of the cases of a switch. -/
def skeletonsOfCases : List (String × List Node) → List (List Skeleton)
  | [] => []
  | (_, body) :: rest => skeletonsOf body :: skeletonsOfCases rest

/-- The skeletons of parallel branches. -/
def skeletonsOfBranches : List (List Node) → List (List Skeleton)
  | [] => []
  | body :: rest => skeletonsOf body :: skeletonsOfBranches rest

end

mutual

/-- An element has as many lines as its skeleton says. -/
theorem length_lines :
    ∀ (node : Node) (depth : Nat), (node.lines depth).length = node.skeleton.lineCount
  | .decision guard body rest, depth =>
      length_led (length_led_cons (length_linesOf body _) (length_alternatives rest _))
  | .switch test cases, depth => length_listed (length_caseLines cases _)
  | .whileLoop head body, depth => length_between (length_linesOf body _)
  | .repeatLoop head body backward, depth => by
      have hbackward : (backwardLines (depth + 1) backward).length = backward.toList.length := by
        cases backward <;> rfl
      simp only [Node.lines, Node.skeleton, Skeleton.lineCount, Framing.lineCount,
        lineCountOfBodies, List.length_append, List.length_cons, List.length_nil, length_linesOf,
        hbackward]
      omega
  | .parallel kind branches, depth => length_parted (length_branchLines branches _)
  | .partition name color body, depth => length_between (length_linesOf body _)
  | .group name body, depth => length_between (length_linesOf body _)
  | .note n, depth => length_noteLines depth
  | .point _, _ | .action _, _ | .swimlane _, _ | .connector _, _ | .label _, _ | .goto _, _
  | .arrow _, _ => rfl

theorem length_alternatives :
    ∀ (rest : Alternatives) (depth : Nat),
      (rest.lines depth).length = rest.skeletons.length + lineCountOfBodies rest.skeletons
  | .nothing, _ => rfl
  | .elseif guard body rest, depth =>
      length_led_cons (length_linesOf body _) (length_alternatives rest _)
  | .otherwise label body, depth => by
      rw [Alternatives.lines, List.length_cons, length_linesOf, Alternatives.skeletons,
        List.length_singleton, lineCountOfBodies, lineCountOfBodies]
      omega

theorem length_linesOf :
    ∀ (nodes : List Node) (depth : Nat),
      (linesOf depth nodes).length = lineCountOf (skeletonsOf nodes)
  | [], _ => rfl
  | node :: rest, depth => by
      rw [linesOf, skeletonsOf, lineCountOf, List.length_append, length_lines, length_linesOf]

theorem length_caseLines :
    ∀ (cases : List (String × List Node)) (depth : Nat),
      (caseLines depth cases).length =
        (skeletonsOfCases cases).length + lineCountOfBodies (skeletonsOfCases cases)
  | [], _ => rfl
  | (_, body) :: rest, _ =>
      length_led_cons (length_linesOf body _) (length_caseLines rest _)

theorem length_branchLines
    {keyword : String} :
    ∀ (branches : List (List Node)) (depth : Nat),
      (branchLines depth keyword branches).length =
        (skeletonsOfBranches branches).length - 1 +
          lineCountOfBodies (skeletonsOfBranches branches)
  | [], _ => rfl
  | body :: rest, depth => by
      have hlast : rest.isEmpty = (skeletonsOfBranches rest).isEmpty := by
        cases rest <;> rfl
      exact length_parted_cons hlast (length_linesOf body _) (length_branchLines rest _)

end

end Activity

namespace Sequence

mutual

/-- The skeleton of an element. -/
def Node.skeleton : Node → Skeleton
  | .note n => .note (lineBreaks n.text)
  | .ref _ text => .note (lineBreaks text)
  | .block _ sections => .construct .led 0 (skeletonsOfSections sections)
  | .box _ _ participants => .boxed participants.length
  | .participant _ | .create _ | .message _ | .reply _ | .activate .. | .deactivate _ | .destroy _
  | .divider _ | .delay _ | .space _ | .autonumber _ => .single 0

/-- The skeletons of the elements of a list. -/
def skeletonsOf : List Node → List Skeleton
  | [] => []
  | node :: rest => node.skeleton :: skeletonsOf rest

/-- The skeletons of the sections of a block. -/
def skeletonsOfSections : List (Option String × List Node) → List (List Skeleton)
  | [] => []
  | (_, body) :: rest => skeletonsOf body :: skeletonsOfSections rest

end

mutual

/-- An element has as many lines as its skeleton says. -/
theorem length_lines :
    ∀ (node : Node) (depth : Nat), (node.lines depth).length = node.skeleton.lineCount
  | .note n, depth => length_noteLines depth
  | .ref ps text, depth => length_noteLines depth
  | .block kind sections, depth => length_led (length_sectionLines sections _)
  | .box title color ps, depth => by
      rw [Node.lines, List.length_append, List.length_cons, List.length_map, List.length_singleton,
        Node.skeleton, Skeleton.lineCount]
  | .delay text, depth => by
      cases text <;> rfl
  | .space pixels, depth => by
      cases pixels <;> rfl
  | .participant _, _ | .create _, _ | .message _, _ | .reply _, _ | .activate .., _
  | .deactivate _, _ | .destroy _, _ | .divider _, _ | .autonumber _, _ => rfl

theorem length_linesOf :
    ∀ (nodes : List Node) (depth : Nat),
      (linesOf depth nodes).length = lineCountOf (skeletonsOf nodes)
  | [], _ => rfl
  | node :: rest, depth => by
      rw [linesOf, skeletonsOf, lineCountOf, List.length_append, length_lines, length_linesOf]

theorem length_sectionLines :
    ∀ {keyword : String} (sections : List (Option String × List Node)) (depth : Nat),
      (sectionLines depth keyword sections).length =
        (skeletonsOfSections sections).length + lineCountOfBodies (skeletonsOfSections sections)
  | _, [], _ => rfl
  | _, (_, body) :: rest, _ =>
      length_led_cons (length_linesOf body _) (length_sectionLines rest _)

end

end Sequence

namespace StateChart

mutual

/-- The skeleton of an element. -/
def Node.skeleton : Node → Skeleton
  | .state s => .single s.description.length
  | .composite s _ regions => .construct .parted s.description.length (skeletonsOfRegions regions)
  | .transition _ => .single 0
  | .note n => .note (lineBreaks n.text)

/-- The skeletons of the elements of a list. -/
def skeletonsOf : List Node → List Skeleton
  | [] => []
  | node :: rest => node.skeleton :: skeletonsOf rest

/-- The skeletons of the regions of a composite state. -/
def skeletonsOfRegions : List (List Node) → List (List Skeleton)
  | [] => []
  | body :: rest => skeletonsOf body :: skeletonsOfRegions rest

end

theorem State.length_descriptionLines (depth : Nat) (s : State) :
    (s.descriptionLines depth).length = s.description.length := by
  rw [descriptionLines, List.length_map]

mutual

/-- An element has as many lines as its skeleton says. -/
theorem length_lines :
    ∀ (node : Node) (depth : Nat), (node.lines depth).length = node.skeleton.lineCount
  | .state s, depth => by
      rw [Node.lines, List.length_cons, s.length_descriptionLines, Node.skeleton,
        Skeleton.lineCount]
  | .composite s separator regions, depth => by
      rw [Node.skeleton, ← s.length_descriptionLines depth]
      exact length_parted (length_regionLines regions _)
  | .transition _, _ => rfl
  | .note n, depth => length_noteLines depth

theorem length_linesOf :
    ∀ (nodes : List Node) (depth : Nat),
      (linesOf depth nodes).length = lineCountOf (skeletonsOf nodes)
  | [], _ => rfl
  | node :: rest, depth => by
      rw [linesOf, skeletonsOf, lineCountOf, List.length_append, length_lines, length_linesOf]

theorem length_regionLines
    {separator : Separator} :
    ∀ (regions : List (List Node)) (depth : Nat),
      (regionLines depth separator regions).length =
        (skeletonsOfRegions regions).length - 1 + lineCountOfBodies (skeletonsOfRegions regions)
  | [], _ => rfl
  | body :: rest, depth => by
      have hlast : rest.isEmpty = (skeletonsOfRegions rest).isEmpty := by
        cases rest <;> rfl
      exact length_parted_cons hlast (length_linesOf body _) (length_regionLines rest _)

end

end StateChart

namespace ClassDiagram

mutual

/-- The skeleton of an element. -/
def Node.skeleton : Node → Skeleton
  | .class c => if c.members.isEmpty then .single 0 else .boxed c.members.length
  | .package _ body => .construct .led 0 [skeletonsOf body]
  | .relation _ => .single 0
  | .note n => .note (lineBreaks n.text)
  | .floatingNote text _ => .note (lineBreaks text)

/-- The skeletons of the elements of a list. -/
def skeletonsOf : List Node → List Skeleton
  | [] => []
  | node :: rest => node.skeleton :: skeletonsOf rest

end

mutual

/-- An element has as many lines as its skeleton says, whichever number its first note has.
-/
theorem length_lines :
    ∀ (node : Node) (depth numbered : Nat),
      (node.lines depth numbered).length = node.skeleton.lineCount
  | .class c, depth, _ => by
      rw [Node.lines, Class.lines, Node.skeleton]
      split
      · rfl
      · rw [List.length_append, List.length_cons, List.length_map, List.length_singleton,
          Skeleton.lineCount]
  | .package head body, depth, _ => length_between (length_linesFrom body _ _)
  | .relation _, _, _ => rfl
  | .note n, depth, _ => length_noteLines depth
  | .floatingNote text color, depth, _ => length_line_or_enclosedLines depth _

theorem length_linesFrom :
    ∀ (nodes : List Node) (depth numbered : Nat),
      (linesFrom depth numbered nodes).length = lineCountOf (skeletonsOf nodes)
  | [], _, _ => rfl
  | node :: rest, depth, _ => by
      rw [linesFrom, skeletonsOf, lineCountOf, List.length_append, length_lines,
        length_linesFrom]

end

end ClassDiagram

end UmlText
