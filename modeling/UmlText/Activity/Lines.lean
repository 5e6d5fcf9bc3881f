import UmlText.Activity.Basic
import UmlText.Layout
import UmlText.Survey

/-!
# The written form of activity diagrams

`Node.survey` lists what an element declares, refers to and contains, and `Node.lines` lists
the lines it is written as.  Both follow the structure of the tree, and both come with a
twin for each sort of list that an element can hold.

A construct is written as its first line, the lines of its children one step deeper, and its
last line; between its branches stand the lines that begin them.
-/

namespace UmlText.Activity

mutual

/-- What is found in an element that stands inside `depth` constructs. -/
def Node.survey (depth : Nat) : Node → List Finding
  | .decision _ body rest =>
      .entered (depth + 1) :: surveyNodes (depth + 1) body ++ rest.survey (depth + 1)
  | .switch _ cases => surveyCases (depth + 1) cases
  | .whileLoop _ body => .entered (depth + 1) :: surveyNodes (depth + 1) body
  | .repeatLoop _ body _ => .entered (depth + 1) :: surveyNodes (depth + 1) body
  | .parallel _ branches => surveyBranches (depth + 1) branches
  | .partition _ _ body => .entered (depth + 1) :: surveyNodes (depth + 1) body
  | .group _ body => .entered (depth + 1) :: surveyNodes (depth + 1) body
  | .label target => [.declared "label" target]
  | .goto target => [.referred "goto" "label" target]
  | .point _ | .action _ | .swimlane _ | .connector _ | .note _ | .arrow _ => []

/-- What is found in the branches behind the first one of a decision. -/
def Alternatives.survey (depth : Nat) : Alternatives → List Finding
  | .nothing => []
  | .elseif _ body rest => .entered depth :: surveyNodes depth body ++ rest.survey depth
  | .otherwise _ body => .entered depth :: surveyNodes depth body

/-- What is found in the elements of a list. -/
def surveyNodes (depth : Nat) : List Node → List Finding
  | [] => []
  | node :: rest => node.survey depth ++ surveyNodes depth rest

/-- What is found in the cases of a switch. -/
def surveyCases (depth : Nat) : List (String × List Node) → List Finding
  | [] => []
  | (_, body) :: rest => .entered depth :: surveyNodes depth body ++ surveyCases depth rest

/-- What is found in parallel branches. -/
def surveyBranches (depth : Nat) : List (List Node) → List Finding
  | [] => []
  | body :: rest => .entered depth :: surveyNodes depth body ++ surveyBranches depth rest

end

/-- What is found in a whole tree. -/
def survey (nodes : List Node) : List Finding :=
  .entered 0 :: surveyNodes 0 nodes

/-- Accepts the consistent trees: nesting and labels are examined first, then the jumps. -/
def check (nodes : List Node) : Except ExportError Unit :=
  Finding.check Finding.isNoReference (survey nodes)

/-- The line of an action. -/
def ActionBox.line (a : ActionBox) : String :=
  (match a.color with
    | none => ""
    | some color => color.display) ++
    ":" ++ escape .action a.text ++ a.shape.terminator.toString

/-- A condition, and the label of the edge that leads into its branch. -/
def Guard.line (keyword : String) (guard : Guard) : String :=
  keyword ++ " (" ++ escape .parenthesized guard.condition ++ ") then" ++
    inParentheses " " guard.label

/-- The first line of a loop that tests its condition at the start. -/
def WhileHead.opening (head : WhileHead) : String :=
  "while (" ++ escape .parenthesized head.condition ++ ")" ++ inParentheses " is " head.isLabel

/-- The last line of a loop that tests its condition at the start. -/
def WhileHead.closing (head : WhileHead) : String :=
  "endwhile" ++ inParentheses " " head.exitLabel

/-- The first line of a loop that tests its condition at the end. -/
def RepeatHead.opening (head : RepeatHead) : String :=
  match head.start with
  | none => "repeat"
  | some start => "repeat :" ++ escape .action start ++ ";"

/-- The last line of a loop that tests its condition at the end. -/
def RepeatHead.closing (head : RepeatHead) : String :=
  "repeat while (" ++ escape .parenthesized head.condition ++ ")" ++
    inParentheses " is " head.isLabel ++ inParentheses " not " head.notLabel

/-- The action on the edge back to the start of a loop, as the last line of its body. -/
def backwardLines (depth : Nat) : Option String → List Line
  | none => []
  | some text => [⟨depth, "backward :" ++ escape .action text ++ ";"⟩]

/-- The first line of parallel branches. -/
def ParallelKind.opening : ParallelKind → String
  | .fork _ => "fork"
  | .split => "split"

/-- The last line of parallel branches. -/
def ParallelKind.closing : ParallelKind → String
  | .fork .fork => "end fork"
  | .fork .merge => "end merge"
  | .fork (.join label) => "end fork \x7b" ++ escape .label label ++ "\x7d"
  | .split => "end split"

/-- The line that switches to a lane. -/
def Swimlane.line (lane : Swimlane) : String :=
  (match lane.color with
    | none => "|"
    | some color => "|" ++ color.display ++ "|") ++
    escape .lane lane.name ++ "|" ++ labelled " " lane.label

/-- The lines of a note. -/
def Note.lines (depth : Nat) (n : Note) : List Line :=
  let opening :=
    (if n.floating then "floating note " else "note ") ++ n.side.keyword ++ colorSuffix n.color
  noteLines depth opening n.text "end note"

/-- The line of an arrow. -/
def Arrow.line (a : Arrow) : String :=
  "-" ++ a.style.text ++ "->" ++
    (match a.label with
      | none => ""
      | some label => " " ++ escape .action label) ++
    ";"

mutual

/-- The lines of an element that is nested `depth` steps. -/
def Node.lines (depth : Nat) : Node → List Line
  | .point p => [⟨depth, p.keyword⟩]
  | .action a => [⟨depth, a.line⟩]
  | .decision guard body rest =>
      ⟨depth, guard.line "if"⟩ :: linesOf (depth + 1) body ++ rest.lines depth ++
        [⟨depth, "endif"⟩]
  | .switch test cases =>
      ⟨depth, "switch (" ++ escape .parenthesized test ++ ")"⟩ :: caseLines depth cases ++
        [⟨depth, "endswitch"⟩]
  | .whileLoop head body =>
      ⟨depth, head.opening⟩ :: linesOf (depth + 1) body ++ [⟨depth, head.closing⟩]
  | .repeatLoop head body backward =>
      ⟨depth, head.opening⟩ :: linesOf (depth + 1) body ++ backwardLines (depth + 1) backward ++
        [⟨depth, head.closing⟩]
  | .parallel kind branches =>
      ⟨depth, kind.opening⟩ :: branchLines depth kind.opening branches ++
        [⟨depth, kind.closing⟩]
  | .partition name color body =>
      ⟨depth,
        "partition" ++ colorSuffix color ++ " \"" ++ escape .quoted name ++ "\" \x7b"⟩ ::
        linesOf (depth + 1) body ++ [⟨depth, "\x7d"⟩]
  | .group name body =>
      ⟨depth, "group " ++ escape .label name⟩ :: linesOf (depth + 1) body ++
        [⟨depth, "end group"⟩]
  | .swimlane lane => [⟨depth, lane.line⟩]
  | .connector name => [⟨depth, "(" ++ escape .parenthesized name ++ ")"⟩]
  | .label target => [⟨depth, "label " ++ target.name⟩]
  | .goto target => [⟨depth, "goto " ++ target.name⟩]
  | .note n => n.lines depth
  | .arrow a => [⟨depth, a.line⟩]

/-- The lines of the branches behind the first one of a decision. -/
def Alternatives.lines (depth : Nat) : Alternatives → List Line
  | .nothing => []
  | .elseif guard body rest =>
      ⟨depth, guard.line "elseif"⟩ :: linesOf (depth + 1) body ++ rest.lines depth
  | .otherwise label body =>
      ⟨depth, "else" ++ inParentheses " " label⟩ :: linesOf (depth + 1) body

/-- The lines of the elements of a list. -/
def linesOf (depth : Nat) : List Node → List Line
  | [] => []
  | node :: rest => node.lines depth ++ linesOf depth rest

/-- The lines of the cases of a switch. -/
def caseLines (depth : Nat) : List (String × List Node) → List Line
  | [] => []
  | (label, body) :: rest =>
      ⟨depth, "case (" ++ escape .parenthesized label ++ ")"⟩ :: linesOf (depth + 1) body ++
        caseLines depth rest

/-- The lines of parallel branches; a line with `keyword` and `again` stands between two of
them. -/
def branchLines (depth : Nat) (keyword : String) : List (List Node) → List Line
  | [] => []
  | body :: rest =>
      linesOf (depth + 1) body ++
        (if rest.isEmpty then [] else [⟨depth, keyword ++ " again"⟩]) ++
        branchLines depth keyword rest

end

end UmlText.Activity
