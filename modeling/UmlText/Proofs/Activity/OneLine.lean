import UmlText.Proofs.Authored
import UmlText.Proofs.Text.OneLine

/-!
# The lines of activity diagrams fit on one line

All texts of an activity diagram are escaped where they are written, so the only thing that
could break a line is the name of a jump label, and the names of labels are plain in every
authored tree.
-/

namespace UmlText.Activity

section Records

theorem fitsOneLine_action (a : ActionBox) : FitsOneLine a.line := by
  obtain ⟨text, color, shape⟩ := a
  have htext := fitsOneLine_escape (p := .action) rfl text
  have hshape : FitsOneLine shape.terminator.toString := by
    cases shape <;> decide
  cases color with
  | none =>
      simp only [ActionBox.line, fitsOneLine_append]
      exact ⟨⟨⟨by decide, by decide⟩, htext⟩, hshape⟩
  | some color =>
      simp only [ActionBox.line, fitsOneLine_append]
      exact ⟨⟨⟨fitsOneLine_color color, by decide⟩, htext⟩, hshape⟩

theorem fitsOneLine_guard
    {keyword : String}
    (hkeyword : FitsOneLine keyword)
    (g : Guard) :
    FitsOneLine (g.line keyword) := by
  simp only [Guard.line, fitsOneLine_append]
  exact ⟨⟨⟨⟨hkeyword, by decide⟩, fitsOneLine_escape rfl _⟩, by decide⟩,
    fitsOneLine_inParentheses (by decide) _⟩

theorem fitsOneLine_whileOpening (head : WhileHead) : FitsOneLine head.opening := by
  simp only [WhileHead.opening, fitsOneLine_append]
  exact ⟨⟨⟨by decide, fitsOneLine_escape rfl _⟩, by decide⟩,
    fitsOneLine_inParentheses (by decide) _⟩

theorem fitsOneLine_whileClosing (head : WhileHead) : FitsOneLine head.closing :=
  fitsOneLine_append.mpr ⟨by decide, fitsOneLine_inParentheses (by decide) _⟩

theorem fitsOneLine_repeatOpening (head : RepeatHead) : FitsOneLine head.opening := by
  unfold RepeatHead.opening
  split
  · decide
  · simp only [fitsOneLine_append]
    exact ⟨⟨by decide, fitsOneLine_escape rfl _⟩, by decide⟩

theorem fitsOneLine_repeatClosing (head : RepeatHead) : FitsOneLine head.closing := by
  unfold RepeatHead.closing
  simp only [fitsOneLine_append]
  exact ⟨⟨⟨⟨by decide, fitsOneLine_escape rfl _⟩, by decide⟩,
    fitsOneLine_inParentheses (by decide) _⟩, fitsOneLine_inParentheses (by decide) _⟩

theorem fitsOneLine_parallelOpening (kind : ParallelKind) : FitsOneLine kind.opening := by
  cases kind <;> simp only [ParallelKind.opening] <;> decide

theorem fitsOneLine_parallelClosing (kind : ParallelKind) : FitsOneLine kind.closing := by
  rcases kind with (_ | _ | label) | _
  · decide
  · decide
  · simp only [ParallelKind.closing, fitsOneLine_append]
    exact ⟨⟨by decide, fitsOneLine_escape rfl _⟩, by decide⟩
  · decide

theorem fitsOneLine_swimlane (lane : Swimlane) : FitsOneLine lane.line := by
  obtain ⟨name, color, label⟩ := lane
  have hname := fitsOneLine_escape (p := .lane) rfl name
  have hlabel : FitsOneLine (labelled " " label) := fitsOneLine_labelled (by decide) label
  cases color with
  | none =>
      simp only [Swimlane.line, fitsOneLine_append]
      exact ⟨⟨⟨by decide, hname⟩, by decide⟩, hlabel⟩
  | some color =>
      simp only [Swimlane.line, fitsOneLine_append]
      exact ⟨⟨⟨⟨⟨by decide, fitsOneLine_color color⟩, by decide⟩, hname⟩, by decide⟩, hlabel⟩

theorem fitsOneLine_arrow (a : Arrow) : FitsOneLine a.line := by
  obtain ⟨label, style⟩ := a
  have hstyle := fitsOneLine_linkStyle style
  cases label with
  | none =>
      simp only [Arrow.line, fitsOneLine_append]
      exact ⟨⟨⟨⟨by decide, hstyle⟩, by decide⟩, by decide⟩, by decide⟩
  | some label =>
      simp only [Arrow.line, fitsOneLine_append]
      exact ⟨⟨⟨⟨by decide, hstyle⟩, by decide⟩, by decide, fitsOneLine_escape rfl label⟩,
        by decide⟩

theorem allOneLine_note (depth : Nat) (n : Note) : AllOneLine (n.lines depth) := by
  refine allOneLine_noteLines ?_ (by decide) depth n.text
  obtain ⟨side, text, floating, color⟩ := n
  have hlead : FitsOneLine (if floating then "floating note " else "note ") := by
    cases floating <;> decide
  have hside : FitsOneLine side.keyword := by
    cases side <;> decide
  simp only [fitsOneLine_append]
  exact ⟨⟨hlead, hside⟩, fitsOneLine_colorSuffix color⟩

theorem allOneLine_backward (depth : Nat) (text : Option String) :
    AllOneLine (backwardLines depth text) := by
  cases text with
  | none => exact allOneLine_nil
  | some text =>
      simp only [backwardLines, allOneLine_cons, fitsOneLine_append]
      exact ⟨⟨⟨by decide, fitsOneLine_escape rfl _⟩, by decide⟩, allOneLine_nil⟩

end Records

mutual

/-- The lines of an element fit on one line each when its labels and jumps are plain. -/
theorem allOneLine_lines :
    ∀ (node : Node) (k depth : Nat), AllPlain (node.survey k) → AllOneLine (node.lines depth)
  | .point p, k, depth, _ => by
      simp only [Node.lines, allOneLine_cons]
      exact ⟨by cases p <;> decide, allOneLine_nil⟩
  | .action a, k, depth, _ => by
      simp only [Node.lines, allOneLine_cons]
      exact ⟨fitsOneLine_action a, allOneLine_nil⟩
  | .decision guard body rest, k, depth, h => by
      simp only [Node.survey, allPlain_append, allPlain_cons] at h
      simp only [Node.lines, allOneLine_append, allOneLine_cons]
      exact ⟨⟨⟨fitsOneLine_guard (by decide) guard, allOneLine_linesOf body _ _ h.1.2⟩,
        allOneLine_alternatives rest _ _ h.2⟩, by decide, allOneLine_nil⟩
  | .switch test cases, k, depth, h => by
      simp only [Node.lines, allOneLine_append, allOneLine_cons, fitsOneLine_append]
      exact ⟨⟨⟨⟨by decide, fitsOneLine_escape rfl _⟩, by decide⟩,
        allOneLine_caseLines cases _ _ h⟩, by decide, allOneLine_nil⟩
  | .whileLoop head body, k, depth, h => by
      simp only [Node.survey, allPlain_cons] at h
      simp only [Node.lines, allOneLine_append, allOneLine_cons]
      exact ⟨⟨fitsOneLine_whileOpening head, allOneLine_linesOf body _ _ h.2⟩,
        fitsOneLine_whileClosing head, allOneLine_nil⟩
  | .repeatLoop head body backward, k, depth, h => by
      simp only [Node.survey, allPlain_cons] at h
      simp only [Node.lines, allOneLine_append, allOneLine_cons]
      exact ⟨⟨⟨fitsOneLine_repeatOpening head, allOneLine_linesOf body _ _ h.2⟩,
        allOneLine_backward _ backward⟩, fitsOneLine_repeatClosing head, allOneLine_nil⟩
  | .parallel kind branches, k, depth, h => by
      simp only [Node.lines, allOneLine_append, allOneLine_cons]
      exact ⟨⟨fitsOneLine_parallelOpening kind,
        allOneLine_branchLines (fitsOneLine_parallelOpening kind) branches _ _ h⟩,
        fitsOneLine_parallelClosing kind, allOneLine_nil⟩
  | .partition name color body, k, depth, h => by
      simp only [Node.survey, allPlain_cons] at h
      simp only [Node.lines, allOneLine_append, allOneLine_cons, fitsOneLine_append]
      exact ⟨⟨⟨⟨⟨⟨by decide, fitsOneLine_colorSuffix color⟩, by decide⟩,
        fitsOneLine_escape rfl _⟩, by decide⟩, allOneLine_linesOf body _ _ h.2⟩, by decide,
        allOneLine_nil⟩
  | .group name body, k, depth, h => by
      simp only [Node.survey, allPlain_cons] at h
      simp only [Node.lines, allOneLine_append, allOneLine_cons, fitsOneLine_append]
      exact ⟨⟨⟨by decide, fitsOneLine_escape rfl _⟩, allOneLine_linesOf body _ _ h.2⟩, by decide,
        allOneLine_nil⟩
  | .swimlane lane, k, depth, _ => by
      simp only [Node.lines, allOneLine_cons]
      exact ⟨fitsOneLine_swimlane lane, allOneLine_nil⟩
  | .connector name, k, depth, _ => by
      simp only [Node.lines, allOneLine_cons, fitsOneLine_append]
      exact ⟨⟨⟨by decide, fitsOneLine_escape rfl _⟩, by decide⟩, allOneLine_nil⟩
  | .label target, k, depth, h => by
      simp only [Node.survey, allPlain_cons] at h
      simp only [Node.lines, allOneLine_cons, fitsOneLine_append]
      exact ⟨⟨by decide, fitsOneLine_alias h.1⟩, allOneLine_nil⟩
  | .goto target, k, depth, h => by
      simp only [Node.survey, allPlain_cons] at h
      simp only [Node.lines, allOneLine_cons, fitsOneLine_append]
      exact ⟨⟨by decide, fitsOneLine_alias h.1⟩, allOneLine_nil⟩
  | .note n, k, depth, _ => allOneLine_note depth n
  | .arrow a, k, depth, _ => by
      simp only [Node.lines, allOneLine_cons]
      exact ⟨fitsOneLine_arrow a, allOneLine_nil⟩

theorem allOneLine_alternatives :
    ∀ (rest : Alternatives) (k depth : Nat),
      AllPlain (rest.survey k) → AllOneLine (rest.lines depth)
  | .nothing, _, _, _ => allOneLine_nil
  | .elseif guard body rest, k, depth, h => by
      simp only [Alternatives.survey, allPlain_append, allPlain_cons] at h
      simp only [Alternatives.lines, allOneLine_append, allOneLine_cons]
      exact ⟨⟨fitsOneLine_guard (by decide) guard, allOneLine_linesOf body _ _ h.1.2⟩,
        allOneLine_alternatives rest _ _ h.2⟩
  | .otherwise label body, k, depth, h => by
      simp only [Alternatives.survey, allPlain_cons] at h
      simp only [Alternatives.lines, allOneLine_cons, fitsOneLine_append]
      exact ⟨⟨by decide, fitsOneLine_inParentheses (by decide) _⟩,
        allOneLine_linesOf body _ _ h.2⟩

theorem allOneLine_linesOf :
    ∀ (nodes : List Node) (k depth : Nat),
      AllPlain (surveyNodes k nodes) → AllOneLine (linesOf depth nodes)
  | [], _, _, _ => allOneLine_nil
  | node :: rest, k, depth, h => by
      simp only [surveyNodes, allPlain_append] at h
      simp only [linesOf, allOneLine_append]
      exact ⟨allOneLine_lines node _ _ h.1, allOneLine_linesOf rest _ _ h.2⟩

theorem allOneLine_caseLines :
    ∀ (cases : List (String × List Node)) (k depth : Nat),
      AllPlain (surveyCases k cases) → AllOneLine (caseLines depth cases)
  | [], _, _, _ => allOneLine_nil
  | (label, body) :: rest, k, depth, h => by
      simp only [surveyCases, allPlain_append, allPlain_cons] at h
      simp only [caseLines, allOneLine_append, allOneLine_cons, fitsOneLine_append]
      exact ⟨⟨⟨⟨by decide, fitsOneLine_escape rfl _⟩, by decide⟩,
        allOneLine_linesOf body _ _ h.1.2⟩, allOneLine_caseLines rest _ _ h.2⟩

theorem allOneLine_branchLines
    {keyword : String}
    (hkeyword : FitsOneLine keyword) :
    ∀ (branches : List (List Node)) (k depth : Nat),
      AllPlain (surveyBranches k branches) → AllOneLine (branchLines depth keyword branches)
  | [], _, _, _ => allOneLine_nil
  | body :: rest, k, depth, h => by
      simp only [surveyBranches, allPlain_append, allPlain_cons] at h
      simp only [branchLines, allOneLine_append]
      refine ⟨⟨allOneLine_linesOf body _ _ h.1.2, ?_⟩,
        allOneLine_branchLines hkeyword rest _ _ h.2⟩
      split
      · exact allOneLine_nil
      · simp only [allOneLine_cons, fitsOneLine_append]
        exact ⟨⟨hkeyword, by decide⟩, allOneLine_nil⟩

end

theorem allOneLine_of_authored {nodes : List Node} (h : dialect.Authored nodes) :
    AllOneLine (linesOf 0 nodes) := by
  have hplain := Kind.isPlain_of_authored .activity h
  exact allOneLine_linesOf nodes 0 0 (surveyNodes_eq nodes ▸ hplain)

end UmlText.Activity
