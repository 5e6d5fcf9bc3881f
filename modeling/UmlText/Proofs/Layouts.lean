import UmlText.Proofs.Anatomy
import UmlText.Proofs.Checks
import UmlText.Proofs.Text.Laid

/-!
# What options change

Options decide how the lines of a diagram are laid out, and nothing else: neither whether
the diagram can be written, nor which lines there are, nor how deep they lie.

How deep a line lies comes from the tree alone.  An element is written as the same lines
wherever it stands, put as many steps deeper as there are constructs around it
(`Line.placed`); only a blank line in the text of a note stays where it is, without a space
in front.  To see this, the writers of each grammar are taken as functions of the depth at
which they start, and these functions follow one plan each (`Planned`), an element's with a
line of its own in front (`Headed`).
-/

namespace UmlText

/-- A line of a plan where the plan starts at a depth; a line that is missing in the plan is
left blank. -/
def Line.placed (depth : Nat) : Option Line → Line
  | none => ⟨0, ""⟩
  | some l => ⟨depth + l.depth, l.content⟩

/-- Lines that follow one plan, at whatever depth they are written. -/
def Planned (lines : Nat → List Line) : Prop :=
  ∃ plan : List (Option Line), ∀ depth, lines depth = plan.map (Line.placed depth)

/-- Lines that follow one plan, and begin with a line at the very depth they are written. -/
def Headed (lines : Nat → List Line) : Prop :=
  ∃ content, ∃ plan : List (Option Line), ∀ depth,
    lines depth = ⟨depth, content⟩ :: plan.map (Line.placed depth)

section Plans

variable {lines more : Nat → List Line}

theorem Headed.planned (h : Headed lines) : Planned lines := by
  obtain ⟨content, plan, hlines⟩ := h
  exact ⟨some ⟨0, content⟩ :: plan, hlines⟩

theorem planned_nil : Planned fun _ => [] :=
  ⟨[], fun _ => rfl⟩

theorem Planned.cons (h : Planned lines) (content : String) :
    Headed fun depth => ⟨depth, content⟩ :: lines depth := by
  obtain ⟨plan, hlines⟩ := h
  exact ⟨content, plan, fun depth => by simp only [hlines]⟩

theorem headed_line (content : String) : Headed fun depth => [⟨depth, content⟩] :=
  planned_nil.cons content

theorem planned_line (content : String) : Planned fun depth => [⟨depth, content⟩] :=
  (headed_line content).planned

theorem Planned.append (h : Planned lines) (hmore : Planned more) :
    Planned fun depth => lines depth ++ more depth := by
  obtain ⟨plan, hlines⟩ := h
  obtain ⟨rest, hrest⟩ := hmore
  exact ⟨plan ++ rest, fun depth => by simp only [hlines, hrest, List.map_append]⟩

theorem Headed.append (h : Headed lines) (hmore : Planned more) :
    Headed fun depth => lines depth ++ more depth := by
  obtain ⟨content, plan, hlines⟩ := h
  obtain ⟨rest, hrest⟩ := hmore
  refine ⟨content, plan ++ rest, fun depth => ?_⟩
  simp only [hlines, hrest, List.map_append, List.cons_append]

/-- Lines that are all put one step deeper follow a plan still. -/
theorem Planned.deeper (h : Planned lines) : Planned fun depth => lines (depth + 1) := by
  obtain ⟨plan, hlines⟩ := h
  refine ⟨plan.map (Option.map fun l => ⟨l.depth + 1, l.content⟩), fun depth => ?_⟩
  simp only [hlines, List.map_map]
  refine List.map_congr_left fun line _ => ?_
  cases line with
  | none => rfl
  | some l =>
      simp only [Line.placed, Function.comp_apply, Option.map_some, Line.mk.injEq, and_true]
      omega

theorem planned_map {α : Type} (contents : List α) (content : α → String) :
    Planned fun depth => contents.map fun c => ⟨depth, content c⟩ :=
  ⟨contents.map fun c => some ⟨0, content c⟩, fun depth => by simp [Line.placed]⟩

/-- A line that stands between two parts is missing behind the last one. -/
theorem planned_between {α : Type} (rest : List α) (content : String) :
    Planned fun depth => if rest.isEmpty then [] else [⟨depth, content⟩] := by
  split
  · exact planned_nil
  · exact planned_line content

theorem planned_blockLines (text : String) : Planned fun depth => blockLines depth text := by
  refine ⟨(splitLines (escapeChars .block text.toList)).map fun piece =>
    if piece.isEmpty then none else some ⟨0, String.ofList piece⟩, fun depth => ?_⟩
  simp only [blockLines, List.map_map]
  refine List.map_congr_left fun piece _ => ?_
  unfold blockLine
  rw [Function.comp_apply]
  split <;> rfl

theorem headed_enclosedLines (opening text closing : String) :
    Headed fun depth => enclosedLines depth opening text closing :=
  ((planned_blockLines text).deeper.cons opening).append (planned_line closing)

theorem headed_noteLines (opening text closing : String) :
    Headed fun depth => noteLines depth opening text closing := by
  unfold noteLines
  split
  · exact headed_enclosedLines opening text closing
  · exact headed_line _

end Plans

/-- What is written of one member of a list stands in what is written of the list. -/
theorem infix_of_mem
    {α : Type}
    (part : α → List Line)
    (whole : List α → List Line)
    (hfirst : ∀ a rest, part a <:+: whole (a :: rest))
    (hrest : ∀ a rest, whole rest <:+: whole (a :: rest))
    {a : α}
    {members : List α}
    (h : a ∈ members) :
    part a <:+: whole members := by
  induction members with
  | nil => cases h
  | cons first rest ih =>
      rcases List.mem_cons.mp h with rfl | h
      · exact hfirst a rest
      · exact (ih h).trans (hrest first rest)

/-- How the elements of a grammar are written: by a plan that begins with a line of the
element itself, and with everything inside an element one step deeper among its lines.  The
number given to an element is that of the notes before it which are attached to nothing. -/
structure Writes
    {G : Grammar}
    (A : Anatomy G)
    (element : Nat → Nat → G.Node → List Line)
    (tree : List G.Node → List Line) : Prop where
  headed : ∀ numbered node, Headed fun depth => element depth numbered node
  inside : ∀ depth numbered node, ∀ body ∈ A.bodies node, ∀ inner ∈ body,
    ∃ numbered', element (depth + 1) numbered' inner <:+: element depth numbered node
  root : ∀ nodes, ∀ node ∈ nodes, ∃ numbered, element 0 numbered node <:+: tree nodes

namespace Writes

variable {G : Grammar} {A : Anatomy G}
variable {element : Nat → Nat → G.Node → List Line} {tree : List G.Node → List Line}

/-- Everything that occurs in an element is written among its lines, as deep as it lies. -/
theorem infix_of_mem_occurrencesOf
    (h : Writes A element tree)
    {depth : Nat}
    {node : G.Node}
    {occurrence : Nat × G.Node}
    (hmem : occurrence ∈ A.occurrencesOf depth node)
    (numbered : Nat) :
    ∃ numbered', element occurrence.1 numbered' occurrence.2 <:+: element depth numbered node := by
  induction depth, node using Anatomy.occurrencesOf.induct (A := A) generalizing numbered with
  | case1 depth node ih =>
      rw [Anatomy.occurrencesOf] at hmem
      rcases List.mem_cons.mp hmem with rfl | hmem
      · exact ⟨numbered, List.infix_refl _⟩
      · obtain ⟨body, hbody, hmem⟩ := List.mem_flatMap.mp hmem
        obtain ⟨inner, hinner, hmem⟩ := List.mem_flatMap.mp hmem
        obtain ⟨middle, houter⟩ := h.inside depth numbered node body hbody inner hinner
        obtain ⟨numbered', hinfix⟩ := ih body hbody inner hinner hmem middle
        exact ⟨numbered', hinfix.trans houter⟩

theorem infix_of_mem_occurrences
    (h : Writes A element tree)
    {nodes : List G.Node}
    {occurrence : Nat × G.Node}
    (hmem : occurrence ∈ A.occurrences nodes) :
    ∃ numbered, element occurrence.1 numbered occurrence.2 <:+: tree nodes := by
  obtain ⟨node, hnode, hmem⟩ := List.mem_flatMap.mp hmem
  obtain ⟨outer, hroot⟩ := h.root nodes node hnode
  obtain ⟨numbered, hinfix⟩ := h.infix_of_mem_occurrencesOf hmem outer
  exact ⟨numbered, hinfix.trans hroot⟩

end Writes

namespace Activity

theorem planned_backwardLines (backward : Option String) :
    Planned fun depth => backwardLines depth backward := by
  cases backward with
  | none => exact planned_nil
  | some text => exact planned_line _

mutual

theorem headed_lines : ∀ node : Node, Headed fun depth => node.lines depth
  | .point p => headed_line p.keyword
  | .action a => headed_line a.line
  | .decision guard body rest =>
      (((planned_linesOf body).deeper.cons (guard.line "if")).append
        (planned_alternatives rest)).append (planned_line "endif")
  | .switch _ cases =>
      ((planned_caseLines cases).cons _).append (planned_line "endswitch")
  | .whileLoop head body =>
      ((planned_linesOf body).deeper.cons head.opening).append (planned_line head.closing)
  | .repeatLoop head body backward =>
      (((planned_linesOf body).deeper.cons head.opening).append
        (planned_backwardLines backward).deeper).append (planned_line head.closing)
  | .parallel kind branches =>
      ((planned_branchLines kind.opening branches).cons kind.opening).append
        (planned_line kind.closing)
  | .partition _ _ body =>
      ((planned_linesOf body).deeper.cons _).append (planned_line _)
  | .group _ body =>
      ((planned_linesOf body).deeper.cons _).append (planned_line "end group")
  | .swimlane lane => headed_line lane.line
  | .connector _ => headed_line _
  | .label _ => headed_line _
  | .goto _ => headed_line _
  | .note n => headed_noteLines _ n.text "end note"
  | .arrow a => headed_line a.line

theorem planned_alternatives : ∀ rest : Alternatives, Planned fun depth => rest.lines depth
  | .nothing => planned_nil
  | .elseif guard body rest =>
      ((planned_linesOf body).deeper.cons (guard.line "elseif")).planned.append
        (planned_alternatives rest)
  | .otherwise _ body => ((planned_linesOf body).deeper.cons _).planned

theorem planned_linesOf : ∀ nodes : List Node, Planned fun depth => linesOf depth nodes
  | [] => planned_nil
  | node :: rest => (headed_lines node).planned.append (planned_linesOf rest)

theorem planned_caseLines :
    ∀ cases : List (String × List Node), Planned fun depth => caseLines depth cases
  | [] => planned_nil
  | (_, body) :: rest =>
      ((planned_linesOf body).deeper.cons _).planned.append (planned_caseLines rest)

theorem planned_branchLines (keyword : String) :
    ∀ branches : List (List Node), Planned fun depth => branchLines depth keyword branches
  | [] => planned_nil
  | body :: rest =>
      ((planned_linesOf body).deeper.append (planned_between rest _)).append
        (planned_branchLines keyword rest)

end

theorem lines_infix_linesOf
    {nodes : List Node}
    {node : Node}
    (h : node ∈ nodes)
    (depth : Nat) :
    node.lines depth <:+: linesOf depth nodes :=
  infix_of_mem (fun node => node.lines depth) (linesOf depth) (fun _ _ => List.infix_append_left)
    (fun _ _ => List.infix_append_right) h

theorem linesOf_infix_alternatives
    (depth : Nat) :
    ∀ {rest : Alternatives} {body : List Node}, body ∈ rest.bodies →
      linesOf (depth + 1) body <:+: rest.lines depth
  | .nothing, _, h => by cases h
  | .elseif guard first rest, body, h => by
      rw [Alternatives.lines]
      rcases List.mem_cons.mp h with rfl | h
      · exact ⟨[⟨depth, guard.line "elseif"⟩], rest.lines depth, rfl⟩
      · exact (linesOf_infix_alternatives depth h).trans List.infix_append_right
  | .otherwise label first, body, h => by
      rw [List.mem_singleton.mp h, Alternatives.lines]
      exact List.infix_cons (List.infix_refl _)

theorem linesOf_infix_caseLines
    {cases : List (String × List Node)}
    {body : List Node}
    (h : body ∈ cases.map Prod.snd)
    (depth : Nat) :
    linesOf (depth + 1) body <:+: caseLines depth cases := by
  obtain ⟨c, hc, rfl⟩ := List.mem_map.mp h
  refine infix_of_mem (fun c => linesOf (depth + 1) c.2) (caseLines depth) (fun c rest => ?_)
    (fun _ _ => List.infix_append_right) hc
  exact ⟨[⟨depth, _⟩], caseLines depth rest, rfl⟩

theorem linesOf_infix_branchLines
    {branches : List (List Node)}
    {body : List Node}
    (h : body ∈ branches)
    (depth : Nat)
    (keyword : String) :
    linesOf (depth + 1) body <:+: branchLines depth keyword branches :=
  infix_of_mem (linesOf (depth + 1)) (branchLines depth keyword)
    (fun _ _ => List.infix_append_left.trans List.infix_append_left)
    (fun _ _ => List.infix_append_right) h

theorem linesOf_infix_lines
    {node : Node}
    {body : List Node}
    (h : body ∈ node.bodies)
    (depth : Nat) :
    linesOf (depth + 1) body <:+: node.lines depth := by
  cases node with
  | decision guard first rest =>
      rw [Node.lines]
      refine List.IsInfix.trans ?_ List.infix_append_left
      rcases List.mem_cons.mp h with rfl | h
      · exact ⟨[⟨depth, guard.line "if"⟩], rest.lines depth, rfl⟩
      · exact (linesOf_infix_alternatives depth h).trans List.infix_append_right
  | switch test cases =>
      rw [Node.lines]
      refine List.IsInfix.trans ?_ List.infix_append_left
      exact List.infix_cons (linesOf_infix_caseLines h depth)
  | parallel kind branches =>
      rw [Node.lines]
      refine List.IsInfix.trans ?_ List.infix_append_left
      exact List.infix_cons (linesOf_infix_branchLines h depth kind.opening)
  | repeatLoop head own backward =>
      rw [List.mem_singleton.mp h, Node.lines]
      refine List.IsInfix.trans ?_ List.infix_append_left
      exact ⟨[⟨depth, head.opening⟩], backwardLines (depth + 1) backward, rfl⟩
  | whileLoop _ own | partition _ _ own | group _ own =>
      rw [List.mem_singleton.mp h, Node.lines]
      exact (List.infix_cons (List.infix_refl _)).trans List.infix_append_left
  | _ => cases h

theorem writes : Writes anatomy (fun depth _ node => node.lines depth) (linesOf 0) where
  headed _ node := headed_lines node
  inside depth _ _ _ hbody _ hinner :=
    ⟨0, (lines_infix_linesOf hinner _).trans (linesOf_infix_lines hbody depth)⟩
  root _ _ hnode := ⟨0, lines_infix_linesOf hnode 0⟩

end Activity

namespace StateChart

theorem planned_descriptionLines (s : State) : Planned fun depth => s.descriptionLines depth :=
  planned_map s.description _

mutual

theorem headed_lines : ∀ node : Node, Headed fun depth => node.lines depth
  | .state s => (planned_descriptionLines s).cons s.line
  | .composite s separator regions =>
      ((planned_regionLines separator regions).deeper.cons _).append
        ((planned_descriptionLines s).cons "\x7d").planned
  | .transition t => headed_line t.line
  | .note n => headed_noteLines _ n.text "end note"

theorem planned_linesOf : ∀ nodes : List Node, Planned fun depth => linesOf depth nodes
  | [] => planned_nil
  | node :: rest => (headed_lines node).planned.append (planned_linesOf rest)

theorem planned_regionLines (separator : Separator) :
    ∀ regions : List (List Node), Planned fun depth => regionLines depth separator regions
  | [] => planned_nil
  | body :: rest =>
      ((planned_linesOf body).append (planned_between rest separator.sign)).append
        (planned_regionLines separator rest)

end

theorem lines_infix_linesOf
    {nodes : List Node}
    {node : Node}
    (h : node ∈ nodes)
    (depth : Nat) :
    node.lines depth <:+: linesOf depth nodes :=
  infix_of_mem (fun node => node.lines depth) (linesOf depth) (fun _ _ => List.infix_append_left)
    (fun _ _ => List.infix_append_right) h

theorem linesOf_infix_regionLines
    {regions : List (List Node)}
    {body : List Node}
    (h : body ∈ regions)
    (depth : Nat)
    (separator : Separator) :
    linesOf depth body <:+: regionLines depth separator regions :=
  infix_of_mem (linesOf depth) (regionLines depth separator)
    (fun _ _ => List.infix_append_left.trans List.infix_append_left)
    (fun _ _ => List.infix_append_right) h

theorem linesOf_infix_lines
    {node : Node}
    {body : List Node}
    (h : body ∈ node.bodies)
    (depth : Nat) :
    linesOf (depth + 1) body <:+: node.lines depth := by
  cases node with
  | composite s separator regions =>
      rw [Node.lines]
      refine List.IsInfix.trans ?_ List.infix_append_left
      exact List.infix_cons (linesOf_infix_regionLines h (depth + 1) separator)
  | _ => cases h

theorem writes : Writes anatomy (fun depth _ node => node.lines depth) (linesOf 0) where
  headed _ node := headed_lines node
  inside depth _ _ _ hbody _ hinner :=
    ⟨0, (lines_infix_linesOf hinner _).trans (linesOf_infix_lines hbody depth)⟩
  root _ _ hnode := ⟨0, lines_infix_linesOf hnode 0⟩

end StateChart

namespace Sequence

mutual

theorem headed_lines : ∀ node : Node, Headed fun depth => node.lines depth
  | .participant p => headed_line p.line
  | .create _ => headed_line _
  | .message m => headed_line m.line
  | .reply _ => headed_line _
  | .note n => headed_noteLines _ n.text _
  | .ref _ text => headed_noteLines _ text "end ref"
  | .activate _ _ => headed_line _
  | .deactivate _ => headed_line _
  | .destroy _ => headed_line _
  | .block _ [] => headed_line "end"
  | .block _ ((_, body) :: rest) =>
      (((planned_linesOf body).deeper.cons _).append (planned_sectionLines "else" rest)).append
        (planned_line "end")
  | .box _ _ ps =>
      ((planned_map ps Participant.line).deeper.cons _).append (planned_line "end box")
  | .divider _ => headed_line _
  | .delay none => headed_line _
  | .delay (some _) => headed_line _
  | .space none => headed_line _
  | .space (some _) => headed_line _
  | .autonumber n => headed_line n.line

theorem planned_linesOf : ∀ nodes : List Node, Planned fun depth => linesOf depth nodes
  | [] => planned_nil
  | node :: rest => (headed_lines node).planned.append (planned_linesOf rest)

theorem planned_sectionLines (keyword : String) :
    ∀ sections : List (Option String × List Node),
      Planned fun depth => sectionLines depth keyword sections
  | [] => planned_nil
  | (_, body) :: rest =>
      ((planned_linesOf body).deeper.cons _).planned.append (planned_sectionLines "else" rest)

end

theorem lines_infix_linesOf
    {nodes : List Node}
    {node : Node}
    (h : node ∈ nodes)
    (depth : Nat) :
    node.lines depth <:+: linesOf depth nodes :=
  infix_of_mem (fun node => node.lines depth) (linesOf depth) (fun _ _ => List.infix_append_left)
    (fun _ _ => List.infix_append_right) h

theorem linesOf_infix_sectionLines
    {sections : List (Option String × List Node)}
    {body : List Node}
    (h : body ∈ sections.map Prod.snd)
    (depth : Nat)
    (keyword : String) :
    linesOf (depth + 1) body <:+: sectionLines depth keyword sections := by
  induction sections generalizing keyword with
  | nil => cases h
  | cons s rest ih =>
      obtain ⟨label, first⟩ := s
      rw [sectionLines]
      rcases List.mem_cons.mp h with rfl | h
      · exact ⟨[⟨depth, _⟩], sectionLines depth "else" rest, rfl⟩
      · exact (ih h "else").trans List.infix_append_right

theorem linesOf_infix_lines
    {node : Node}
    {body : List Node}
    (h : body ∈ node.sections)
    (depth : Nat) :
    linesOf (depth + 1) body <:+: node.lines depth := by
  cases node with
  | block kind sections =>
      rw [Node.lines]
      exact (linesOf_infix_sectionLines h depth kind.keyword).trans List.infix_append_left
  | _ => cases h

theorem writes : Writes anatomy (fun depth _ node => node.lines depth) (linesOf 0) where
  headed _ node := headed_lines node
  inside depth _ _ _ hbody _ hinner :=
    ⟨0, (lines_infix_linesOf hinner _).trans (linesOf_infix_lines hbody depth)⟩
  root _ _ hnode := ⟨0, lines_infix_linesOf hnode 0⟩

end Sequence

namespace ClassDiagram

theorem headed_class (c : Class) : Headed fun depth => c.lines depth := by
  unfold Class.lines
  split
  · exact headed_line _
  · exact ((planned_map c.members Member.line).deeper.cons _).append (planned_line "\x7d")

theorem headed_floatingNoteLines (number : Nat) (text : String) (color : Option Color) :
    Headed fun depth => floatingNoteLines depth number text color := by
  unfold floatingNoteLines
  dsimp only
  split
  · exact headed_enclosedLines _ text "end note"
  · exact headed_line _

mutual

theorem headed_lines : ∀ (node : Node) (numbered : Nat),
    Headed fun depth => node.lines depth numbered
  | .class c, _ => headed_class c
  | .package head body, numbered =>
      ((planned_linesFrom body numbered).deeper.cons head.line).append (planned_line "\x7d")
  | .relation r, _ => headed_line r.line
  | .note n, _ => headed_noteLines _ n.text "end note"
  | .floatingNote text color, numbered => headed_floatingNoteLines (numbered + 1) text color

theorem planned_linesFrom : ∀ (nodes : List Node) (numbered : Nat),
    Planned fun depth => linesFrom depth numbered nodes
  | [], _ => planned_nil
  | node :: rest, numbered =>
      (headed_lines node numbered).planned.append
        (planned_linesFrom rest (numbered + node.floatingNotes))

end

theorem lines_infix_linesFrom
    {nodes : List Node}
    {node : Node}
    (h : node ∈ nodes)
    (depth numbered : Nat) :
    ∃ numbered', node.lines depth numbered' <:+: linesFrom depth numbered nodes := by
  induction nodes generalizing numbered with
  | nil => cases h
  | cons first rest ih =>
      rw [linesFrom]
      rcases List.mem_cons.mp h with rfl | h
      · exact ⟨numbered, List.infix_append_left⟩
      · obtain ⟨numbered', hinfix⟩ := ih h (numbered + first.floatingNotes)
        exact ⟨numbered', hinfix.trans List.infix_append_right⟩

theorem linesFrom_infix_lines
    {node : Node}
    {body : List Node}
    (h : body ∈ node.bodies)
    (depth numbered : Nat) :
    linesFrom (depth + 1) numbered body <:+: node.lines depth numbered := by
  cases node with
  | package head own =>
      rw [List.mem_singleton.mp h, Node.lines]
      exact (List.infix_cons (List.infix_refl _)).trans List.infix_append_left
  | _ => cases h

theorem writes : Writes anatomy (fun depth numbered node => node.lines depth numbered) linesOf where
  headed numbered node := headed_lines node numbered
  inside depth numbered _ body hbody _ hinner := by
    obtain ⟨numbered', hinfix⟩ := lines_infix_linesFrom hinner (depth + 1) numbered
    exact ⟨numbered', hinfix.trans (linesFrom_infix_lines hbody depth numbered)⟩
  root _ _ hnode := lines_infix_linesFrom hnode 0 0

end ClassDiagram

namespace Kind

/-- The lines of an element of each kind, where it is nested `depth` steps and `numbered`
notes before it are attached to nothing; only class diagrams number these. -/
abbrev elementLines : (kind : Kind) → Nat → Nat → kind.dialect.Node → List Line
  | .activity => fun depth _ (node : Activity.Node) => node.lines depth
  | .sequence => fun depth _ (node : Sequence.Node) => node.lines depth
  | .state => fun depth _ (node : StateChart.Node) => node.lines depth
  | .class => fun depth numbered (node : ClassDiagram.Node) => node.lines depth numbered

theorem writes : ∀ kind : Kind, Writes kind.anatomy kind.elementLines kind.dialect.lines
  | .activity => Activity.writes
  | .sequence => Sequence.writes
  | .state => StateChart.writes
  | .class => ClassDiagram.writes

end Kind

/-- A line as the characters it becomes: the spaces in front, the content and a line break.
-/
def Line.spread (indent : Nat) (l : Line) : List Char :=
  List.replicate (l.depth * indent) ' ' ++ l.content.toList ++ ['\n']

/-- The text is the lines one after the other, without the line break at the very end if the
options say so. -/
def IsLayout (o : Options) (lines : List Line) (text : String) : Prop :=
  let full := lines.flatMap (Line.spread o.indent)
  if o.trailingNewline then text.toList = full
  else (full = [] ∧ text = "") ∨ text.toList ++ ['\n'] = full

theorem isLayout_layout (o : Options) (lines : List Line) : IsLayout o lines (layout o lines) := by
  have hbroken : lines.flatMap (Line.spread o.indent) =
      broken (lines.map (Line.laid o.indent)) := by
    rw [broken, List.flatMap_map]
    rfl
  unfold IsLayout
  rw [hbroken, toList_layout]
  split
  · rfl
  · next htrailing =>
      cases lines with
      | nil =>
          refine .inl ⟨rfl, String.toList_inj.mp ?_⟩
          rw [toList_layout, if_neg htrailing]
          rfl
      | cons l rest => exact .inr (dropFinalNewline_broken_cons _ _)

/-- Every line of a text with lines of its own is as deep as the text stands, but for the
empty ones. -/
theorem depth_of_mem_blockLines
    {depth : Nat}
    {text : String}
    {l : Line}
    (h : l ∈ blockLines depth text) :
    l.depth = if l.content = "" then 0 else depth := by
  obtain ⟨piece, -, rfl⟩ := List.mem_map.mp h
  unfold blockLine
  cases piece with
  | nil => rfl
  | cons c rest => simp

/-- Options change the layout of a diagram only.  There is one verdict on the diagram and
one list of lines, whatever the options are.  In this list everything that occurs in the
tree is written at the depth at which it lies, by a plan of its own; and the text is the
layout of the list, in its envelope if there is to be one. -/
theorem Diagram.render_lays_out (d : Diagram) :
    ∃ (verdict : Except ExportError Unit) (first : String) (lines : List Line),
      "@startuml".toList <+: first.toList ∧
      (∀ depth node, (depth, node) ∈ d.kind.anatomy.occurrences d.nodes →
        ∃ (numbered : Nat) (content : String) (plan : List (Option Line)),
          (∀ depth', d.kind.elementLines depth' numbered node =
            ⟨depth', content⟩ :: plan.map (Line.placed depth')) ∧
          ⟨depth, content⟩ :: plan.map (Line.placed depth) <:+: lines) ∧
      (∀ text ∈ d.settings.legend, blockLines 1 text <:+: lines) ∧
      (∀ depth text, ∀ l ∈ blockLines depth text,
        l.depth = if l.content = "" then 0 else depth) ∧
      ∀ o : Options,
        (∀ error, verdict = .error error → d.render o = .error error) ∧
        (verdict = .ok () → ∃ text, d.render o = .ok text ∧
          IsLayout o
            (if o.wrap then ⟨0, first⟩ :: lines ++ [⟨0, "@enduml"⟩] else lines) text) := by
  refine ⟨d.kind.dialect.check d.nodes, d.opening.content, d.lines, ?_, ?_, ?_,
    fun _ _ _ => depth_of_mem_blockLines, fun o => ⟨?_, ?_⟩⟩
  · unfold opening
    cases d.name with
    | none => exact List.prefix_refl _
    | some name => simp
  · intro depth node hmem
    obtain ⟨numbered, hinfix⟩ := d.kind.writes.infix_of_mem_occurrences hmem
    obtain ⟨content, plan, hlines⟩ := d.kind.writes.headed numbered node
    refine ⟨numbered, content, plan, hlines, ?_⟩
    have hinfix : ⟨depth, content⟩ :: plan.map (Line.placed depth) <:+:
        d.kind.dialect.lines d.nodes := hlines depth ▸ hinfix
    exact hinfix.trans ⟨d.settings.preamble, d.settings.epilogue, rfl⟩
  · intro text htext
    have hepilogue : d.settings.epilogue = enclosedLines 0 "legend" text "endlegend" := by
      unfold Settings.epilogue
      rw [htext]
    have hinfix : blockLines 1 text <:+: d.settings.epilogue := by
      rw [hepilogue]
      exact ⟨[⟨0, "legend"⟩], [⟨0, "endlegend"⟩], rfl⟩
    exact hinfix.trans List.infix_append_right
  · intro error hverdict
    rw [render, hverdict]
    rfl
  · intro hverdict
    refine ⟨layout o (d.wrapped o), by rw [render, hverdict]; rfl, ?_⟩
    have hwrapped : d.wrapped o =
        if o.wrap then ⟨0, d.opening.content⟩ :: d.lines ++ [⟨0, "@enduml"⟩] else d.lines := rfl
    rw [← hwrapped]
    exact isLayout_layout o (d.wrapped o)

end UmlText
