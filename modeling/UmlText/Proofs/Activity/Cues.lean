import UmlText.Proofs.Activity.Fields

/-!
# How the lines of activity diagrams begin

The sort of a line shows in how it begins: a `Cue` is a sort of line with the characters
that every line of the sort begins with, after the blanks in front of it.  No cue is the
beginning of another one, if the line break counts as a character of the line, so a line has
one cue only.  The cues of the first lines of elements are told apart from those of the
lines that divide or close a construct.
-/

namespace UmlText.Activity

/-- A sort of line. -/
inductive Cue where
  | point (p : Point)
  | action (colored : Bool)
  | decision
  | switch
  | whileLoop
  | repeatLoop (started : Bool)
  | parallel (joined : Bool)
  | partition
  | group
  | swimlane
  | connector
  | label
  | goto
  | note (floating : Bool)
  | arrow
  /-- Begins another conditional branch of a decision. -/
  | elseif
  /-- Begins the last branch of a decision. -/
  | otherwise (labelled : Bool)
  | endDecision
  /-- Begins a case of a switch. -/
  | case
  | endSwitch
  | endWhile (labelled : Bool)
  /-- The action on the edge back to the start of a loop. -/
  | backward
  | endRepeat
  /-- Stands between two parallel branches. -/
  | again (joined : Bool)
  | endFork
  | endMerge
  | endJoin
  | endSplit
  | endPartition
  | endGroup
  /-- The last line of the envelope. -/
  | endDiagram
  deriving DecidableEq

namespace Cue

/-- What every line of the sort begins with. -/
def word : Cue → String
  | point p => p.keyword ++ "\n"
  | action colored => if colored then "#" else ":"
  | decision => "if ("
  | switch => "switch ("
  | whileLoop => "while ("
  | repeatLoop started => if started then "repeat :" else "repeat\n"
  | parallel joined => if joined then "fork\n" else "split\n"
  | partition => "partition "
  | group => "group "
  | swimlane => "|"
  | connector => "("
  | label => "label "
  | goto => "goto "
  | note floating => if floating then "floating note " else "note "
  | arrow => "-"
  | elseif => "elseif ("
  | otherwise labelled => if labelled then "else (" else "else\n"
  | endDecision => "endif\n"
  | case => "case ("
  | endSwitch => "endswitch\n"
  | endWhile labelled => if labelled then "endwhile (" else "endwhile\n"
  | backward => "backward :"
  | endRepeat => "repeat while ("
  | again joined => if joined then "fork again\n" else "split again\n"
  | endFork => "end fork\n"
  | endMerge => "end merge\n"
  | endJoin => "end fork \x7b"
  | endSplit => "end split\n"
  | endPartition => "\x7d\n"
  | endGroup => "end group\n"
  | endDiagram => "@enduml\n"

/-- The characters that every line of the sort begins with. -/
def text (cue : Cue) : List Char :=
  cue.word.toList

/-- The lines that divide or close a construct. -/
def closes : Cue → Bool
  | elseif | otherwise _ | endDecision | case | endSwitch | endWhile _ | backward | endRepeat
  | again _ | endFork | endMerge | endJoin | endSplit | endPartition | endGroup | endDiagram => true
  | _ => false

def all : List Cue :=
  [point .start, point .stop, point .finish, point .kill, point .detach, point .leaveLoop,
    action false, action true, decision, switch, whileLoop, repeatLoop false, repeatLoop true,
    parallel true, parallel false, partition, group, swimlane, connector, label, goto, note false,
    note true, arrow, elseif, otherwise false, otherwise true, endDecision, case, endSwitch,
    endWhile false, endWhile true, backward, endRepeat, again true, again false, endFork, endMerge,
    endJoin, endSplit, endPartition, endGroup, endDiagram]

theorem mem_all (cue : Cue) : cue ∈ all := by
  cases cue with
  | point p => cases p <;> decide
  | action b | repeatLoop b | parallel b | note b | otherwise b | endWhile b | again b =>
      cases b <;> decide
  | _ => decide

/-- No cue is the beginning of another one. -/
theorem eq_of_prefix_of_mem_all :
    ∀ cue ∈ all, ∀ other ∈ all, cue.text <+: other.text → cue = other := by
  decide +kernel

theorem head_ne_blank_of_mem_all : ∀ cue ∈ all, ∃ c ∈ cue.text.head?, c ≠ ' ' ∧ c ≠ '\n' := by
  have hheads : ∀ cue ∈ all, (cue.text.head?.any fun c => c ≠ ' ' ∧ c ≠ '\n') = true := by
    decide +kernel
  intro cue hcue
  obtain ⟨c, hc, hvisible⟩ := (Option.any_eq_true _ _).mp (hheads cue hcue)
  exact ⟨c, hc, of_decide_eq_true hvisible⟩

/-- The written line is of this sort. -/
def Begins (cue : Cue) (written : List Char) : Prop :=
  cue.text <+: unindent written ++ ['\n']

/-- A line is of one sort only. -/
theorem Begins.unique
    {cue other : Cue}
    {written : List Char}
    (h : cue.Begins written)
    (hother : other.Begins written) :
    cue = other := by
  rcases List.prefix_or_prefix_of_prefix h hother with hprefix | hprefix
  · exact eq_of_prefix_of_mem_all cue cue.mem_all other other.mem_all hprefix
  · exact (eq_of_prefix_of_mem_all other other.mem_all cue cue.mem_all hprefix).symm

/-- A line whose content begins with a cue. -/
theorem begins_laid
    {cue : Cue}
    {content : String}
    (h : cue.text <+: content.toList ++ ['\n'])
    (indent depth : Nat) :
    cue.Begins ((⟨depth, content⟩ : Line).laid indent) := by
  obtain ⟨c, hc, hblank, _⟩ := head_ne_blank_of_mem_all cue cue.mem_all
  have hhead : ∀ d ∈ content.toList.head?, d ≠ ' ' := by
    intro d hd
    obtain ⟨back, hback⟩ := h
    cases htext : cue.text with
    | nil => simp [htext] at hc
    | cons first rest =>
        cases hcontent : content.toList with
        | nil => simp [hcontent] at hd
        | cons second others =>
            simp_all
  unfold Begins
  rw [unindent_laid hhead]
  exact h

end Cue

/-- The sort of the first line of an element. -/
def Node.cue : Node → Cue
  | .point p => .point p
  | .action a => .action a.color.isSome
  | .decision .. => .decision
  | .switch .. => .switch
  | .whileLoop .. => .whileLoop
  | .repeatLoop head _ _ => .repeatLoop head.start.isSome
  | .parallel kind _ => .parallel (kind ≠ .split)
  | .partition .. => .partition
  | .group .. => .group
  | .swimlane _ => .swimlane
  | .connector _ => .connector
  | .label _ => .label
  | .goto _ => .goto
  | .note n => .note n.floating
  | .arrow _ => .arrow

theorem Node.closes_cue (node : Node) : node.cue.closes = false := by
  cases node <;> rfl

section FirstLines

variable {indent depth : Nat}

attribute [local simp] Cue.text Cue.word

theorem begins_action (a : ActionBox) :
    (Cue.action a.color.isSome).text <+: a.line.toList ++ ['\n'] := by
  rw [ActionBox.toList_line]
  cases a.color with
  | none => simp
  | some color => simp [toList_display]

theorem begins_parallel (kind : ParallelKind) :
    (Cue.parallel (kind ≠ .split)).text <+: kind.opening.toList ++ ['\n'] := by
  cases kind <;> simp [ParallelKind.opening]

theorem begins_repeat (head : RepeatHead) :
    (Cue.repeatLoop head.start.isSome).text <+: head.opening.toList ++ ['\n'] := by
  unfold RepeatHead.opening
  cases head.start <;> simp

theorem begins_swimlane (lane : Swimlane) :
    Cue.swimlane.text <+: lane.line.toList ++ ['\n'] := by
  rw [Swimlane.toList_line]
  simp

theorem begins_arrow (a : Arrow) : Cue.arrow.text <+: a.line.toList ++ ['\n'] := by
  rw [Arrow.toList_line]
  simp

theorem begins_note (n : Note) (rest : List Char) :
    (Cue.note n.floating).text <+: n.opening.toList ++ rest := by
  unfold Note.opening
  cases n.floating <;> simp

/-- The first line of a note, whether it is the only one or not. -/
theorem exists_lines_note (n : Note) (depth : Nat) :
    ∃ content rest, n.lines depth = ⟨depth, content⟩ :: rest ∧
      (Cue.note n.floating).text <+: content.toList ++ ['\n'] := by
  rw [Note.lines_eq, noteLines]
  split
  · exact ⟨_, _, rfl, begins_note n _⟩
  · refine ⟨_, _, rfl, ?_⟩
    simp only [String.toList_append, List.append_assoc]
    exact begins_note n _

/-- Every element has a first line, which is of the sort of the element. -/
theorem Node.exists_lines (node : Node) (depth : Nat) :
    ∃ content rest, node.lines depth = ⟨depth, content⟩ :: rest ∧
      node.cue.text <+: content.toList ++ ['\n'] := by
  cases node with
  | point p => exact ⟨_, _, rfl, by simp [cue]⟩
  | action a => exact ⟨_, _, rfl, begins_action a⟩
  | decision guard body rest => exact ⟨_, _, rfl, by simp [cue, Guard.line]⟩
  | switch test cases => exact ⟨_, _, rfl, by simp [cue]⟩
  | whileLoop head body => exact ⟨_, _, rfl, by simp [cue, WhileHead.opening]⟩
  | repeatLoop head body backward => exact ⟨_, _, rfl, begins_repeat head⟩
  | parallel kind branches => exact ⟨_, _, rfl, begins_parallel kind⟩
  | partition name color body =>
      refine ⟨_, _, rfl, ?_⟩
      cases color <;> simp [cue, toList_colorSuffix]
  | group name body => exact ⟨_, _, rfl, by simp [cue]⟩
  | swimlane lane => exact ⟨_, _, rfl, begins_swimlane lane⟩
  | connector name => exact ⟨_, _, rfl, by simp [cue]⟩
  | label target => exact ⟨_, _, rfl, by simp [cue]⟩
  | goto target => exact ⟨_, _, rfl, by simp [cue]⟩
  | note n => exact exists_lines_note n depth
  | arrow a => exact ⟨_, _, rfl, begins_arrow a⟩

end FirstLines

end UmlText.Activity
