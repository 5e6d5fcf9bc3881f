import UmlText.Proofs.Activity.Cues
import UmlText.Proofs.Activity.OneLine
import UmlText.Proofs.Envelopes

/-!
# Reading activity diagrams back

The text of an activity diagram determines the tree.  It is read line by line: the sort of
the first line gives the sort of the element, the line itself what is written on it, and the
lines of its children end where a line divides or closes the construct they stand in.  So
each list of lines can be cut off in one way only from what is written behind it, which is
shown along the recursion of the tree.  No step looks at the blanks in front of a line, so
the indentation may be zero.

Two things cannot be read back.  Parallel branches that are missing altogether are written
like a single empty one, so trees are compared after the missing branch has been added
(`completedNodes`).  And a lane whose color has a bar in it may be written like another
lane, so the trees that are compared have no such lane (`NodesBarFree`).
-/

namespace UmlText.Activity

section Trees

/-- Branches, or a single empty one where there are none. -/
def orEmptyBranch : List (List Node) → List (List Node)
  | [] => [[]]
  | body :: rest => body :: rest

mutual

/-- An element with a single empty branch wherever parallel branches are missing. -/
def Node.completed : Node → Node
  | .decision guard body rest => .decision guard (completedNodes body) rest.completed
  | .switch test cases => .switch test (completedCases cases)
  | .whileLoop head body => .whileLoop head (completedNodes body)
  | .repeatLoop head body backward => .repeatLoop head (completedNodes body) backward
  | .parallel kind branches => .parallel kind (orEmptyBranch (completedBranches branches))
  | .partition name color body => .partition name color (completedNodes body)
  | .group name body => .group name (completedNodes body)
  | .point p => .point p
  | .action a => .action a
  | .swimlane lane => .swimlane lane
  | .connector name => .connector name
  | .label target => .label target
  | .goto target => .goto target
  | .note n => .note n
  | .arrow a => .arrow a

/-- `Node.completed` in the branches behind the first one of a decision. -/
def Alternatives.completed : Alternatives → Alternatives
  | .nothing => .nothing
  | .elseif guard body rest => .elseif guard (completedNodes body) rest.completed
  | .otherwise label body => .otherwise label (completedNodes body)

/-- `Node.completed` for the elements of a list. -/
def completedNodes : List Node → List Node
  | [] => []
  | node :: rest => node.completed :: completedNodes rest

/-- `Node.completed` in the cases of a switch. -/
def completedCases : List (String × List Node) → List (String × List Node)
  | [] => []
  | (label, body) :: rest => (label, completedNodes body) :: completedCases rest

/-- `Node.completed` in parallel branches. -/
def completedBranches : List (List Node) → List (List Node)
  | [] => []
  | body :: rest => completedNodes body :: completedBranches rest

end

mutual

/-- No lane in an element has a color with a bar in it. -/
def Node.BarFree : Node → Prop
  | .decision _ body rest => NodesBarFree body ∧ rest.BarFree
  | .switch _ cases => CasesBarFree cases
  | .whileLoop _ body => NodesBarFree body
  | .repeatLoop _ body _ => NodesBarFree body
  | .parallel _ branches => BranchesBarFree branches
  | .partition _ _ body => NodesBarFree body
  | .group _ body => NodesBarFree body
  | .swimlane lane => lane.BarFree
  | .point _ | .action _ | .connector _ | .label _ | .goto _ | .note _ | .arrow _ => True

/-- `Node.BarFree` in the branches behind the first one of a decision. -/
def Alternatives.BarFree : Alternatives → Prop
  | .nothing => True
  | .elseif _ body rest => NodesBarFree body ∧ rest.BarFree
  | .otherwise _ body => NodesBarFree body

/-- `Node.BarFree` for the elements of a list. -/
def NodesBarFree : List Node → Prop
  | [] => True
  | node :: rest => node.BarFree ∧ NodesBarFree rest

/-- `Node.BarFree` in the cases of a switch. -/
def CasesBarFree : List (String × List Node) → Prop
  | [] => True
  | (_, body) :: rest => NodesBarFree body ∧ CasesBarFree rest

/-- `Node.BarFree` in parallel branches. -/
def BranchesBarFree : List (List Node) → Prop
  | [] => True
  | body :: rest => NodesBarFree body ∧ BranchesBarFree rest

end

end Trees

section Ends

variable {indent depth : Nat} {cue other : Cue} {r s : List (List Char)}

/-- The first of the written lines is of this sort. -/
def Cue.Heads (cue : Cue) (r : List (List Char)) : Prop :=
  ∃ l ∈ r.head?, cue.Begins l

/-- What is written behind the elements of a list: nothing, or a line that divides or closes
a construct. -/
def Ended (r : List (List Char)) : Prop :=
  ∀ l ∈ r.head?, ∃ cue : Cue, cue.closes = true ∧ cue.Begins l

theorem Cue.heads_cons
    {content : String}
    {lines : List Line}
    (h : cue.text <+: content.toList ++ ['\n']) :
    cue.Heads (written indent (⟨depth, content⟩ :: lines) r) :=
  ⟨_, rfl, Cue.begins_laid h indent depth⟩

theorem Cue.Heads.unique (h : cue.Heads r) (hother : other.Heads r) : cue = other := by
  obtain ⟨l, hl, hbegins⟩ := h
  obtain ⟨l', hl', hbegins'⟩ := hother
  cases Option.mem_unique hl hl'
  exact hbegins.unique hbegins'

theorem Cue.Heads.ended (h : cue.Heads r) (hcloses : cue.closes = true) : Ended r := by
  obtain ⟨l, hl, hbegins⟩ := h
  intro l' hl'
  cases Option.mem_unique hl hl'
  exact ⟨cue, hcloses, hbegins⟩

theorem Node.heads (node : Node) : node.cue.Heads (written indent (node.lines depth) r) := by
  obtain ⟨content, rest, hlines, hprefix⟩ := node.exists_lines depth
  rw [hlines]
  exact Cue.heads_cons hprefix

/-- Elements that are written alike are of one sort. -/
theorem Node.cue_eq
    {node other : Node}
    (h : written indent (node.lines depth) r = written indent (other.lines depth) s) :
    node.cue = other.cue := by
  have hnode : node.cue.Heads (written indent (node.lines depth) r) := node.heads
  rw [h] at hnode
  exact hnode.unique other.heads

/-- An element does not begin where a list of elements ends. -/
theorem not_ended_node (node : Node) : ¬Ended (written indent (node.lines depth) r) := by
  have hnode : node.cue.Heads (written indent (node.lines depth) r) := node.heads
  obtain ⟨l, hl, hbegins⟩ := hnode
  intro hended
  obtain ⟨cue, hcloses, hcue⟩ := hended l hl
  have hclosed := node.closes_cue
  rw [hbegins.unique hcue, hcloses] at hclosed
  cases hclosed

/-- Where a list of elements ends there is none of them left. -/
theorem eq_nil_of_ended {nodes : List Node} (h : Ended (written indent (linesOf depth nodes) r)) :
    nodes = [] := by
  cases nodes with
  | nil => rfl
  | cons node rest =>
      rw [linesOf, written_append] at h
      exact absurd h (not_ended_node node)

end Ends

section Dividers

variable {indent depth : Nat} {r s : List (List Char)}

/-- The sort of the line behind a branch of a decision. -/
def Alternatives.cue : Alternatives → Cue
  | .nothing => .endDecision
  | .elseif .. => .elseif
  | .otherwise label _ => .otherwise label.isSome

theorem Alternatives.closes_cue (rest : Alternatives) : rest.cue.closes = true := by
  cases rest <;> rfl

/-- What follows a branch of a decision: another branch, or the last line of the decision. -/
theorem Alternatives.heads (rest : Alternatives) :
    rest.cue.Heads (written indent (rest.lines depth) (written indent [⟨depth, "endif"⟩] r)) := by
  cases rest with
  | nothing => exact Cue.heads_cons (by simp [cue, Cue.text, Cue.word])
  | elseif guard body rest =>
      exact Cue.heads_cons (by simp [cue, Cue.text, Cue.word, Guard.line])
  | otherwise label body =>
      refine Cue.heads_cons ?_
      cases label <;> simp [cue, Cue.text, Cue.word, inParentheses]

/-- The sort of the line behind a case of a switch. -/
def casesCue : List (String × List Node) → Cue
  | [] => .endSwitch
  | _ :: _ => .case

theorem closes_casesCue (cases : List (String × List Node)) : (casesCue cases).closes = true := by
  cases cases <;> rfl

/-- What follows a case of a switch: another case, or the last line of the switch. -/
theorem heads_cases (cases : List (String × List Node)) :
    (casesCue cases).Heads
      (written indent (caseLines depth cases) (written indent [⟨depth, "endswitch"⟩] r)) := by
  cases cases with
  | nil => exact Cue.heads_cons (by simp [casesCue, Cue.text, Cue.word])
  | cons labelled rest => exact Cue.heads_cons (by simp [casesCue, Cue.text, Cue.word])

/-- What follows the body of a loop that tests its condition at the start. -/
theorem WhileHead.heads (head : WhileHead) :
    (Cue.endWhile head.exitLabel.isSome).Heads (written indent [⟨depth, head.closing⟩] r) := by
  refine Cue.heads_cons ?_
  unfold WhileHead.closing
  cases head.exitLabel <;> simp [Cue.text, Cue.word, inParentheses]

/-- The sort of the last line of a repeat loop, or of the one before it. -/
def backwardCue : Option String → Cue
  | none => .endRepeat
  | some _ => .backward

theorem closes_backwardCue (backward : Option String) : (backwardCue backward).closes = true := by
  cases backward <;> rfl

/-- What follows the body of a loop that tests its condition at the end. -/
theorem heads_backward (backward : Option String) (head : RepeatHead) :
    (backwardCue backward).Heads
      (written indent (backwardLines (depth + 1) backward)
        (written indent [⟨depth, head.closing⟩] r)) := by
  cases backward with
  | none =>
      have hword : (backwardCue none).text <+: "repeat while (".toList := by
        decide
      refine Cue.heads_cons ?_
      unfold RepeatHead.closing
      simp only [String.toList_append, List.append_assoc]
      exact hword.trans (List.prefix_append _ _)
  | some text => exact Cue.heads_cons (by simp [backwardCue, Cue.text, Cue.word])

/-- The lines behind the first one of parallel branches. -/
def furtherBranchLines (depth : Nat) (keyword : String) : List (List Node) → List Line
  | [] => []
  | body :: rest => ⟨depth, keyword ++ " again"⟩ :: branchLines depth keyword (body :: rest)

theorem branchLines_cons (keyword : String) (body : List Node) (rest : List (List Node)) :
    branchLines depth keyword (body :: rest) =
      linesOf (depth + 1) body ++ furtherBranchLines depth keyword rest := by
  cases rest <;> simp [branchLines, furtherBranchLines]

/-- The sort of the last line of parallel branches. -/
def ParallelKind.endCue : ParallelKind → Cue
  | .fork .fork => .endFork
  | .fork .merge => .endMerge
  | .fork (.join _) => .endJoin
  | .split => .endSplit

/-- The sort of the line behind one of parallel branches. -/
def ParallelKind.cue (kind : ParallelKind) : List (List Node) → Cue
  | [] => kind.endCue
  | _ :: _ => .again (kind ≠ .split)

theorem ParallelKind.closes_cue (kind : ParallelKind) (rest : List (List Node)) :
    (kind.cue rest).closes = true := by
  rcases kind with (_ | _ | _) | _ <;> cases rest <;> rfl

/-- What follows one of parallel branches: another branch, or the last line of all of them.
-/
theorem ParallelKind.heads (kind : ParallelKind) (rest : List (List Node)) :
    (kind.cue rest).Heads
      (written indent (furtherBranchLines depth kind.opening rest)
        (written indent [⟨depth, kind.closing⟩] r)) := by
  cases rest with
  | nil =>
      refine Cue.heads_cons ?_
      rcases kind with (_ | _ | _) | _ <;>
        simp [ParallelKind.cue, endCue, Cue.text, Cue.word, ParallelKind.closing]
  | cons body rest =>
      refine Cue.heads_cons ?_
      cases kind <;> simp [ParallelKind.cue, Cue.text, Cue.word, ParallelKind.opening]

theorem heads_endPartition : Cue.endPartition.Heads (written indent [⟨depth, "\x7d"⟩] r) :=
  Cue.heads_cons (by simp [Cue.text, Cue.word])

theorem heads_endGroup : Cue.endGroup.Heads (written indent [⟨depth, "end group"⟩] r) :=
  Cue.heads_cons (by simp [Cue.text, Cue.word])

end Dividers

section Heads

variable {indent depth : Nat} {r s : List (List Char)}

theorem Alternatives.cue_eq
    {rest other : Alternatives}
    (h : written indent (rest.lines depth) (written indent [⟨depth, "endif"⟩] r) =
      written indent (other.lines depth) (written indent [⟨depth, "endif"⟩] s)) :
    rest.cue = other.cue :=
  rest.heads.unique (h ▸ other.heads)

theorem casesCue_eq
    {cases others : List (String × List Node)}
    (h : written indent (caseLines depth cases) (written indent [⟨depth, "endswitch"⟩] r) =
      written indent (caseLines depth others) (written indent [⟨depth, "endswitch"⟩] s)) :
    casesCue cases = casesCue others :=
  (heads_cases cases).unique (h ▸ heads_cases others)

theorem ParallelKind.cue_eq
    {kind kind' : ParallelKind}
    (hopening : kind.opening = kind'.opening)
    {rest others : List (List Node)}
    (h : written indent (furtherBranchLines depth kind.opening rest)
        (written indent [⟨depth, kind.closing⟩] r) =
      written indent (furtherBranchLines depth kind.opening others)
        (written indent [⟨depth, kind'.closing⟩] s)) :
    kind.cue rest = kind'.cue others := by
  have hothers : (kind'.cue others).Heads
      (written indent (furtherBranchLines depth kind'.opening others)
        (written indent [⟨depth, kind'.closing⟩] s)) :=
    kind'.heads others
  rw [← hopening, ← h] at hothers
  exact (kind.heads rest).unique hothers

/-- The last lines of a loop that tests its condition at the end. -/
theorem backwardLines_cut
    {head head' : RepeatHead}
    {backward backward' : Option String}
    (h : written indent (backwardLines (depth + 1) backward)
        (written indent [⟨depth, head.closing⟩] r) =
      written indent (backwardLines (depth + 1) backward')
        (written indent [⟨depth, head'.closing⟩] s)) :
    backward = backward' ∧ head.closing = head'.closing ∧ r = s := by
  have hcue := (heads_backward backward head).unique (h ▸ heads_backward backward' head')
  cases backward with
  | none =>
      cases backward' with
      | none => exact ⟨rfl, written_cons_cut h⟩
      | some text' => cases hcue
  | some text =>
      cases backward' with
      | none => cases hcue
      | some text' =>
          obtain ⟨hline, h⟩ := written_cons_cut h
          exact ⟨by rw [escape_action_semicolon_inj hline], written_cons_cut h⟩

/-- Missing branches are written like a single empty one, and like nothing else. -/
theorem noBranch_cut
    {kind kind' : ParallelKind}
    (hopening : kind.opening = kind'.opening)
    {body : List Node}
    {rest : List (List Node)}
    (h : written indent [⟨depth, kind.closing⟩] r =
      written indent (linesOf (depth + 1) body)
        (written indent (furtherBranchLines depth kind.opening rest)
          (written indent [⟨depth, kind'.closing⟩] s))) :
    body = [] ∧ rest = [] ∧
      written indent [⟨depth, kind.closing⟩] r = written indent [⟨depth, kind'.closing⟩] s := by
  have hended : Ended (written indent [⟨depth, kind.closing⟩] r) :=
    (kind.heads []).ended (kind.closes_cue [])
  have hbody : body = [] := eq_nil_of_ended (h ▸ hended)
  subst hbody
  have hcue : kind.cue [] = kind'.cue rest := ParallelKind.cue_eq hopening h
  cases rest with
  | nil => exact ⟨rfl, rfl, h⟩
  | cons next rest => rcases kind with (_ | _ | _) | _ <;> cases hcue

/-- Behind a branch it is read off whether another one follows. -/
theorem furtherBranchLines_cut
    {kind kind' : ParallelKind}
    (hopening : kind.opening = kind'.opening)
    {rest others : List (List Node)}
    (h : written indent (furtherBranchLines depth kind.opening rest)
        (written indent [⟨depth, kind.closing⟩] r) =
      written indent (furtherBranchLines depth kind.opening others)
        (written indent [⟨depth, kind'.closing⟩] s)) :
    (rest = [] ∧ others = [] ∧
      written indent [⟨depth, kind.closing⟩] r = written indent [⟨depth, kind'.closing⟩] s) ∨
    (rest ≠ [] ∧ others ≠ [] ∧
      written indent (branchLines depth kind.opening rest)
          (written indent [⟨depth, kind.closing⟩] r) =
        written indent (branchLines depth kind.opening others)
          (written indent [⟨depth, kind'.closing⟩] s)) := by
  have hcue := ParallelKind.cue_eq hopening h
  cases rest with
  | nil =>
      cases others with
      | nil => exact .inl ⟨rfl, rfl, h⟩
      | cons body' rest' => rcases kind with (_ | _ | _) | _ <;> cases hcue
  | cons body rest =>
      cases others with
      | nil => rcases kind' with (_ | _ | _) | _ <;> cases hcue
      | cons body' rest' =>
          exact .inr ⟨List.cons_ne_nil _ _, List.cons_ne_nil _ _, (written_cons_cut h).2⟩

theorem orEmptyBranch_completed {branches : List (List Node)} (h : branches ≠ []) :
    orEmptyBranch (completedBranches branches) = completedBranches branches := by
  cases branches with
  | nil => exact absurd rfl h
  | cons body rest => rfl

end Heads

section Cuts

variable {indent : Nat}

/-- An element is cut off by its lines from what is behind it, and determined by them. -/
def Node.IsCut (indent : Nat) (node : Node) : Prop :=
  ∀ (other : Node) (depth : Nat) (r s : List (List Char)), node.BarFree → other.BarFree →
    written indent (node.lines depth) r = written indent (other.lines depth) s →
      node.completed = other.completed ∧ r = s

/-- `Node.IsCut` for the branches behind the first one of a decision. -/
def Alternatives.IsCut (indent : Nat) (rest : Alternatives) : Prop :=
  ∀ (other : Alternatives) (depth : Nat) (r s : List (List Char)), rest.BarFree → other.BarFree →
    written indent (rest.lines depth) (written indent [⟨depth, "endif"⟩] r) =
      written indent (other.lines depth) (written indent [⟨depth, "endif"⟩] s) →
      rest.completed = other.completed ∧ r = s

/-- `Node.IsCut` for the elements of a list, which end where a line divides or closes a
construct. -/
def NodesCut (indent : Nat) (nodes : List Node) : Prop :=
  ∀ (others : List Node) (depth : Nat) (r s : List (List Char)),
    NodesBarFree nodes → NodesBarFree others → Ended r → Ended s →
      written indent (linesOf depth nodes) r = written indent (linesOf depth others) s →
        completedNodes nodes = completedNodes others ∧ r = s

/-- `Node.IsCut` for the cases of a switch. -/
def CasesCut (indent : Nat) (cases : List (String × List Node)) : Prop :=
  ∀ (others : List (String × List Node)) (depth : Nat) (r s : List (List Char)),
    CasesBarFree cases → CasesBarFree others →
      written indent (caseLines depth cases) (written indent [⟨depth, "endswitch"⟩] r) =
        written indent (caseLines depth others) (written indent [⟨depth, "endswitch"⟩] s) →
        completedCases cases = completedCases others ∧ r = s

/-- `Node.IsCut` for parallel branches, whose last line may say how they end. -/
def BranchesCut (indent : Nat) (branches : List (List Node)) : Prop :=
  ∀ (others : List (List Node)) (kind kind' : ParallelKind) (depth : Nat)
    (r s : List (List Char)), kind.opening = kind'.opening →
      BranchesBarFree branches → BranchesBarFree others →
        written indent (branchLines depth kind.opening branches)
            (written indent [⟨depth, kind.closing⟩] r) =
          written indent (branchLines depth kind.opening others)
            (written indent [⟨depth, kind'.closing⟩] s) →
        orEmptyBranch (completedBranches branches) = orEmptyBranch (completedBranches others) ∧
          written indent [⟨depth, kind.closing⟩] r = written indent [⟨depth, kind'.closing⟩] s

section Productions

variable {body : List Node}

theorem Node.cut_point (p : Point) : (Node.point p).IsCut indent := by
  intro other depth r s _ _ h
  have hcue := Node.cue_eq h
  cases other with
  | point p' =>
      cases hcue
      exact ⟨rfl, (written_cons_cut h).2⟩
  | _ => cases hcue

theorem Node.cut_action (a : ActionBox) : (Node.action a).IsCut indent := by
  intro other depth r s _ _ h
  have hcue := Node.cue_eq h
  cases other with
  | action a' =>
      obtain ⟨hline, hrs⟩ := written_cons_cut h
      exact ⟨by rw [ActionBox.line_inj hline], hrs⟩
  | _ => cases hcue

theorem Node.cut_decision
    {rest : Alternatives}
    (hbody : NodesCut indent body)
    (hrest : rest.IsCut indent)
    (guard : Guard) :
    (Node.decision guard body rest).IsCut indent := by
  intro other depth r s hfree hfree' h
  have hcue := Node.cue_eq h
  cases other with
  | decision guard' body' rest' =>
      simp only [Node.lines, List.cons_append, List.append_assoc] at h
      obtain ⟨hline, h⟩ := written_cons_cut h
      simp only [written_append] at h
      obtain ⟨hbodies, h⟩ := hbody body' _ _ _ hfree.1 hfree'.1
        (rest.heads.ended rest.closes_cue) (rest'.heads.ended rest'.closes_cue) h
      obtain ⟨hrests, hrs⟩ := hrest rest' _ _ _ hfree.2 hfree'.2 h
      exact ⟨by simp only [Node.completed, Guard.line_inj hline, hbodies, hrests], hrs⟩
  | _ => cases hcue

theorem Node.cut_switch
    {cases : List (String × List Node)}
    (hcases : CasesCut indent cases)
    (test : String) :
    (Node.switch test cases).IsCut indent := by
  intro other depth r s hfree hfree' h
  have hcue := Node.cue_eq h
  cases other with
  | switch test' cases' =>
      simp only [Node.lines, List.cons_append] at h
      obtain ⟨hline, h⟩ := written_cons_cut h
      simp only [written_append] at h
      obtain ⟨hsame, hrs⟩ := hcases cases' _ _ _ hfree hfree' h
      exact ⟨by simp only [Node.completed, escape_brackets_inj hline, hsame], hrs⟩
  | _ => cases hcue

theorem Node.cut_whileLoop
    (hbody : NodesCut indent body)
    (head : WhileHead) :
    (Node.whileLoop head body).IsCut indent := by
  intro other depth r s hfree hfree' h
  have hcue := Node.cue_eq h
  cases other with
  | whileLoop head' body' =>
      simp only [Node.lines, List.cons_append] at h
      obtain ⟨hopening, h⟩ := written_cons_cut h
      simp only [written_append] at h
      obtain ⟨hbodies, h⟩ := hbody body' _ _ _ hfree hfree' (head.heads.ended rfl)
        (head'.heads.ended rfl) h
      obtain ⟨hclosing, hrs⟩ := written_cons_cut h
      have hhead := WhileHead.eq_of_lines hopening hclosing
      exact ⟨by simp only [Node.completed, hhead, hbodies], hrs⟩
  | _ => cases hcue

theorem Node.cut_repeatLoop
    (hbody : NodesCut indent body)
    (head : RepeatHead)
    (backward : Option String) :
    (Node.repeatLoop head body backward).IsCut indent := by
  intro other depth r s hfree hfree' h
  have hcue := Node.cue_eq h
  cases other with
  | repeatLoop head' body' backward' =>
      simp only [Node.lines, List.cons_append, List.append_assoc] at h
      obtain ⟨hopening, h⟩ := written_cons_cut h
      simp only [written_append] at h
      obtain ⟨hbodies, h⟩ := hbody body' _ _ _ hfree hfree'
        ((heads_backward backward head).ended (closes_backwardCue _))
        ((heads_backward backward' head').ended (closes_backwardCue _)) h
      obtain ⟨hbackward, hclosing, hrs⟩ := backwardLines_cut h
      have hhead := RepeatHead.eq_of_lines hopening hclosing
      exact ⟨by simp only [Node.completed, hhead, hbodies, hbackward], hrs⟩
  | _ => cases hcue

theorem Node.cut_parallel
    {branches : List (List Node)}
    (hbranches : BranchesCut indent branches)
    (kind : ParallelKind) :
    (Node.parallel kind branches).IsCut indent := by
  intro other depth r s hfree hfree' h
  have hcue := Node.cue_eq h
  cases other with
  | parallel kind' branches' =>
      simp only [Node.lines, List.cons_append] at h
      obtain ⟨hopening, h⟩ := written_cons_cut h
      simp only [written_append, ← hopening] at h
      obtain ⟨hsame, h⟩ := hbranches branches' kind kind' _ _ _ hopening hfree hfree' h
      obtain ⟨hclosing, hrs⟩ := written_cons_cut h
      have hkind := ParallelKind.eq_of_lines hopening hclosing
      exact ⟨by simp only [Node.completed, hkind, hsame], hrs⟩
  | _ => cases hcue

theorem Node.cut_partition
    (hbody : NodesCut indent body)
    (name : String)
    (color : Option Color) :
    (Node.partition name color body).IsCut indent := by
  intro other depth r s hfree hfree' h
  have hcue := Node.cue_eq h
  cases other with
  | partition name' color' body' =>
      simp only [Node.lines, List.cons_append] at h
      obtain ⟨hopening, h⟩ := written_cons_cut h
      simp only [written_append] at h
      obtain ⟨hbodies, h⟩ := hbody body' _ _ _ hfree hfree'
        (heads_endPartition.ended rfl) (heads_endPartition.ended rfl) h
      obtain ⟨hname, hcolor⟩ := partition_line_inj hopening
      exact ⟨by simp only [Node.completed, hname, hcolor, hbodies], (written_cons_cut h).2⟩
  | _ => cases hcue

theorem Node.cut_group
    (hbody : NodesCut indent body)
    (name : String) :
    (Node.group name body).IsCut indent := by
  intro other depth r s hfree hfree' h
  have hcue := Node.cue_eq h
  cases other with
  | group name' body' =>
      simp only [Node.lines, List.cons_append] at h
      obtain ⟨hopening, h⟩ := written_cons_cut h
      simp only [written_append] at h
      obtain ⟨hbodies, h⟩ := hbody body' _ _ _ hfree hfree'
        (heads_endGroup.ended rfl) (heads_endGroup.ended rfl) h
      exact ⟨by simp only [Node.completed, lead_escape_inj hopening, hbodies],
        (written_cons_cut h).2⟩
  | _ => cases hcue

theorem Node.cut_swimlane (lane : Swimlane) : (Node.swimlane lane).IsCut indent := by
  intro other depth r s hfree hfree' h
  have hcue := Node.cue_eq h
  cases other with
  | swimlane lane' =>
      obtain ⟨hline, hrs⟩ := written_cons_cut h
      exact ⟨by rw [Swimlane.line_inj hfree hfree' hline], hrs⟩
  | _ => cases hcue

theorem Node.cut_connector (name : String) : (Node.connector name).IsCut indent := by
  intro other depth r s _ _ h
  have hcue := Node.cue_eq h
  cases other with
  | connector name' =>
      obtain ⟨hline, hrs⟩ := written_cons_cut h
      exact ⟨by rw [escape_brackets_inj hline], hrs⟩
  | _ => cases hcue

theorem Node.cut_label (target : Alias) : (Node.label target).IsCut indent := by
  intro other depth r s _ _ h
  have hcue := Node.cue_eq h
  cases other with
  | label target' =>
      obtain ⟨hline, hrs⟩ := written_cons_cut h
      exact ⟨by rw [alias_line_inj hline], hrs⟩
  | _ => cases hcue

theorem Node.cut_goto (target : Alias) : (Node.goto target).IsCut indent := by
  intro other depth r s _ _ h
  have hcue := Node.cue_eq h
  cases other with
  | goto target' =>
      obtain ⟨hline, hrs⟩ := written_cons_cut h
      exact ⟨by rw [alias_line_inj hline], hrs⟩
  | _ => cases hcue

theorem Node.cut_note (n : Note) : (Node.note n).IsCut indent := by
  intro other depth r s _ _ h
  have hcue := Node.cue_eq h
  cases other with
  | note n' =>
      obtain ⟨hnote, hrs⟩ := Note.lines_cut h
      exact ⟨by rw [hnote], hrs⟩
  | _ => cases hcue

theorem Node.cut_arrow (a : Arrow) : (Node.arrow a).IsCut indent := by
  intro other depth r s _ _ h
  have hcue := Node.cue_eq h
  cases other with
  | arrow a' =>
      obtain ⟨hline, hrs⟩ := written_cons_cut h
      exact ⟨by rw [Arrow.line_inj hline], hrs⟩
  | _ => cases hcue

theorem Alternatives.cut_nothing : Alternatives.nothing.IsCut indent := by
  intro other depth r s _ _ h
  have hcue := Alternatives.cue_eq h
  cases other with
  | nothing => exact ⟨rfl, (written_cons_cut h).2⟩
  | _ => cases hcue

theorem Alternatives.cut_elseif
    {rest : Alternatives}
    (hbody : NodesCut indent body)
    (hrest : rest.IsCut indent)
    (guard : Guard) :
    (Alternatives.elseif guard body rest).IsCut indent := by
  intro other depth r s hfree hfree' h
  have hcue := Alternatives.cue_eq h
  cases other with
  | elseif guard' body' rest' =>
      simp only [Alternatives.lines, List.cons_append] at h
      obtain ⟨hline, h⟩ := written_cons_cut h
      simp only [written_append] at h
      obtain ⟨hbodies, h⟩ := hbody body' _ _ _ hfree.1 hfree'.1
        (rest.heads.ended rest.closes_cue) (rest'.heads.ended rest'.closes_cue) h
      obtain ⟨hrests, hrs⟩ := hrest rest' _ _ _ hfree.2 hfree'.2 h
      exact ⟨by simp only [Alternatives.completed, Guard.line_inj hline, hbodies, hrests], hrs⟩
  | _ => cases hcue

theorem Alternatives.cut_otherwise
    (hbody : NodesCut indent body)
    (label : Option String) :
    (Alternatives.otherwise label body).IsCut indent := by
  intro other depth r s hfree hfree' h
  have hcue := Alternatives.cue_eq h
  cases other with
  | otherwise label' body' =>
      obtain ⟨hline, h⟩ := written_cons_cut h
      obtain ⟨hbodies, h⟩ := hbody body' _ _ _ hfree hfree'
        (Alternatives.nothing.heads.ended rfl) (Alternatives.nothing.heads.ended rfl) h
      exact ⟨by simp only [Alternatives.completed, inParentheses_word_inj hline, hbodies],
        (written_cons_cut h).2⟩
  | _ => cases hcue

theorem nodesCut_nil : NodesCut indent [] := by
  intro others depth r s _ _ hr _ h
  rw [linesOf, written_nil] at h
  have hnone : others = [] := eq_nil_of_ended (h ▸ hr)
  subst hnone
  exact ⟨rfl, h⟩

theorem nodesCut_cons
    {node : Node}
    {rest : List Node}
    (hnode : node.IsCut indent)
    (hrest : NodesCut indent rest) :
    NodesCut indent (node :: rest) := by
  intro others depth r s hfree hfree' hr hs h
  cases others with
  | nil =>
      rw [linesOf.eq_1, written_nil] at h
      subst h
      exact absurd (eq_nil_of_ended hs) (List.cons_ne_nil node rest)
  | cons other rest' =>
      simp only [linesOf, written_append] at h
      obtain ⟨hsame, h⟩ := hnode other _ _ _ hfree.1 hfree'.1 h
      obtain ⟨hrests, hrs⟩ := hrest rest' _ _ _ hfree.2 hfree'.2 hr hs h
      exact ⟨by simp only [completedNodes, hsame, hrests], hrs⟩

theorem casesCut_nil : CasesCut indent [] := by
  intro others depth r s _ _ h
  have hcue := casesCue_eq h
  cases others with
  | nil => exact ⟨rfl, (written_cons_cut h).2⟩
  | cons other rest' => cases hcue

theorem casesCut_cons
    {rest : List (String × List Node)}
    (hbody : NodesCut indent body)
    (hrest : CasesCut indent rest)
    (label : String) :
    CasesCut indent ((label, body) :: rest) := by
  intro others depth r s hfree hfree' h
  have hcue := casesCue_eq h
  cases others with
  | nil => cases hcue
  | cons other rest' =>
      obtain ⟨label', body'⟩ := other
      simp only [caseLines, List.cons_append] at h
      obtain ⟨hline, h⟩ := written_cons_cut h
      simp only [written_append] at h
      obtain ⟨hbodies, h⟩ := hbody body' _ _ _ hfree.1 hfree'.1
        ((heads_cases rest).ended (closes_casesCue _))
        ((heads_cases rest').ended (closes_casesCue _)) h
      obtain ⟨hrests, hrs⟩ := hrest rest' _ _ _ hfree.2 hfree'.2 h
      exact ⟨by simp only [completedCases, escape_brackets_inj hline, hbodies, hrests], hrs⟩

theorem branchesCut_nil : BranchesCut indent [] := by
  intro others kind kind' depth r s hopening _ _ h
  cases others with
  | nil => exact ⟨rfl, h⟩
  | cons body' rest' =>
      rw [branchLines_cons, written_append] at h
      obtain ⟨rfl, rfl, hrs⟩ := noBranch_cut hopening h
      exact ⟨rfl, hrs⟩

theorem branchesCut_cons
    {rest : List (List Node)}
    (hbody : NodesCut indent body)
    (hrest : BranchesCut indent rest) :
    BranchesCut indent (body :: rest) := by
  intro others kind kind' depth r s hopening hfree hfree' h
  cases others with
  | nil =>
      rw [branchLines_cons, written_append, hopening] at h
      obtain ⟨rfl, rfl, hrs⟩ := noBranch_cut hopening.symm h.symm
      exact ⟨rfl, hrs.symm⟩
  | cons body' rest' =>
      simp only [branchLines_cons, written_append] at h
      obtain ⟨hbodies, h⟩ := hbody body' _ _ _ hfree.1 hfree'.1
        ((kind.heads rest).ended (kind.closes_cue _))
        (hopening ▸ (kind'.heads rest').ended (kind'.closes_cue _)) h
      rcases furtherBranchLines_cut hopening h with
        ⟨rfl, rfl, hrs⟩ | ⟨hsome, hsome', h⟩
      · exact ⟨by simp only [completedBranches, hbodies], hrs⟩
      · obtain ⟨hrests, hrs⟩ := hrest rest' kind kind' _ _ _ hopening hfree.2 hfree'.2 h
        rw [orEmptyBranch_completed hsome, orEmptyBranch_completed hsome'] at hrests
        exact ⟨by simp only [completedBranches, hbodies, hrests], hrs⟩

end Productions

mutual

/-- Every element is cut off, and determined, by its lines. -/
theorem Node.isCut : ∀ node : Node, node.IsCut indent
  | .point p => Node.cut_point p
  | .action a => Node.cut_action a
  | .decision guard body rest => Node.cut_decision (nodesCut body) rest.isCut guard
  | .switch test cases => Node.cut_switch (casesCut cases) test
  | .whileLoop head body => Node.cut_whileLoop (nodesCut body) head
  | .repeatLoop head body backward => Node.cut_repeatLoop (nodesCut body) head backward
  | .parallel kind branches => Node.cut_parallel (branchesCut branches) kind
  | .partition name color body => Node.cut_partition (nodesCut body) name color
  | .group name body => Node.cut_group (nodesCut body) name
  | .swimlane lane => Node.cut_swimlane lane
  | .connector name => Node.cut_connector name
  | .label target => Node.cut_label target
  | .goto target => Node.cut_goto target
  | .note n => Node.cut_note n
  | .arrow a => Node.cut_arrow a
termination_by structural node => node

/-- The branches behind the first one of a decision are determined by their lines. -/
theorem Alternatives.isCut : ∀ rest : Alternatives, rest.IsCut indent
  | .nothing => Alternatives.cut_nothing
  | .elseif guard body rest => Alternatives.cut_elseif (nodesCut body) rest.isCut guard
  | .otherwise label body => Alternatives.cut_otherwise (nodesCut body) label
termination_by structural rest => rest

/-- The elements of a list are determined by their lines. -/
theorem nodesCut : ∀ nodes : List Node, NodesCut indent nodes
  | [] => nodesCut_nil
  | node :: rest => nodesCut_cons node.isCut (nodesCut rest)
termination_by structural nodes => nodes

/-- The cases of a switch are determined by their lines. -/
theorem casesCut : ∀ cases : List (String × List Node), CasesCut indent cases
  | [] => casesCut_nil
  | (label, body) :: rest => casesCut_cons (nodesCut body) (casesCut rest) label
termination_by structural cases => cases

/-- Parallel branches are determined by their lines, but for a single empty one. -/
theorem branchesCut : ∀ branches : List (List Node), BranchesCut indent branches
  | [] => branchesCut_nil
  | body :: rest => branchesCut_cons (nodesCut body) (branchesCut rest)
termination_by structural branches => branches

end

end Cuts

section Texts

variable {o : Options} {first second : List Node} {text : String}

theorem Cue.text_ne_newline (cue : Cue) : ¬cue.text <+: ['\n'] := by
  intro h
  obtain ⟨c, hc, _, hbreak⟩ := head_ne_blank_of_mem_all cue cue.mem_all
  obtain ⟨back, hback⟩ := h
  cases htext : cue.text with
  | nil => simp [htext] at hc
  | cons d rest => simp_all

/-- The first line of a tree is not empty. -/
theorem visible_linesOf (nodes : List Node) : ∀ l ∈ (linesOf 0 nodes).head?, l.content ≠ "" := by
  intro l hl hempty
  cases nodes with
  | nil => cases hl
  | cons node rest =>
      obtain ⟨content, behind, hlines, hprefix⟩ := node.exists_lines 0
      rw [linesOf, hlines] at hl
      cases hl
      rw [show content = "" from hempty] at hprefix
      exact node.cue.text_ne_newline hprefix

/-- Behind the elements of a tree the text is at its end, or the envelope is. -/
theorem ended_envelope : Ended (written o.indent (envelopeEnd o) []) := by
  unfold envelopeEnd
  cases o.wrap with
  | false =>
      intro l hl
      cases hl
  | true =>
      have hlast : Cue.endDiagram.Heads (written o.indent [Diagram.closing] []) :=
        Cue.heads_cons (by decide)
      exact hlast.ended rfl

/-- The text of an activity diagram determines its tree, whatever the layout: two authored
trees with one text are equal, but for parallel branches that are missing in one of them and
empty in the other. -/
theorem completedNodes_eq_of_render_eq
    (hfirst : dialect.Authored first)
    (hsecond : dialect.Authored second)
    (hfree : NodesBarFree first)
    (hfree' : NodesBarFree second)
    (h : Diagram.render { kind := .activity, nodes := first } o = .ok text)
    (h' : Diagram.render { kind := .activity, nodes := second } o = .ok text) :
    completedNodes first = completedNodes second := by
  have hwritten := Diagram.written_eq_of_render_eq .activity
    (allOneLine_of_authored hfirst) (allOneLine_of_authored hsecond)
    (visible_linesOf first) (visible_linesOf second) h h'
  exact (nodesCut first second 0 _ _ hfree hfree' ended_envelope ended_envelope hwritten).1

/-- A lane with a color, and a fork with these branches. -/
def laneAndFork (branches : List (List Node)) : List Node :=
  [.swimlane { name := "shop", color := some ⟨"red", by decide⟩ },
   .parallel (.fork .merge) branches]

theorem authored_laneAndFork_nil : dialect.Authored (laneAndFork []) :=
  ⟨[.call (.ok (Call.swimlane { name := "shop", color := some ⟨"red", by decide⟩ })) false,
    .scope Opening.fork false [.call (.ok Call.endMerge) false]], rfl⟩

theorem authored_laneAndFork_empty : dialect.Authored (laneAndFork [[]]) :=
  ⟨[.call (.ok (Call.swimlane { name := "shop", color := some ⟨"red", by decide⟩ })) false,
    .scope Opening.fork false
      [.scope Opening.branch false [], .call (.ok Call.endMerge) false]], rfl⟩

theorem completedNodes_eq_of_render_eq_of_laneAndFork :
    ∃ text,
      Diagram.render { kind := .activity, nodes := laneAndFork [] } { indent := 0 } = .ok text ∧
      Diagram.render { kind := .activity, nodes := laneAndFork [[]] } { indent := 0 } = .ok text ∧
      completedNodes (laneAndFork []) = completedNodes (laneAndFork [[]]) := by
  have hfree : ∀ branches, branches = [] ∨ branches = [[]] →
      NodesBarFree (laneAndFork branches) := by
    intro branches hbranches
    have hlane : Swimlane.BarFree { name := "shop", color := some ⟨"red", by decide⟩ } := by
      intro color hcolor
      cases hcolor
      decide
    rcases hbranches with rfl | rfl
    · exact ⟨hlane, trivial, trivial⟩
    · exact ⟨hlane, ⟨trivial, trivial⟩, trivial⟩
  have htext : ∀ branches, branches = [] ∨ branches = [[]] →
      Diagram.render { kind := .activity, nodes := laneAndFork branches } { indent := 0 } =
        .ok "@startuml\n|#red|shop|\nfork\nend merge\n@enduml\n" := by
    rintro branches (rfl | rfl) <;> rfl
  exact ⟨_, htext [] (.inl rfl), htext [[]] (.inr rfl),
    completedNodes_eq_of_render_eq authored_laneAndFork_nil authored_laneAndFork_empty
      (hfree [] (.inl rfl)) (hfree [[]] (.inr rfl)) (htext [] (.inl rfl)) (htext [[]] (.inr rfl))⟩

end Texts

end UmlText.Activity
