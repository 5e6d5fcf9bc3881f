import UmlText.Activity.Lines
import UmlText.Proofs.Text.NoteBlocks

/-!
# What the lines of activity diagrams hold

Every line of an activity diagram determines what it is written from: the texts, the labels
that may be missing, the colors and the words.  There is one place where this is not so.
The color of a lane stands between the bars that the name of the lane stands between as
well, and a gradient may have a bar in it; so the line of a lane is read back for colors
without a bar.
-/

namespace UmlText.Activity

section Actions

theorem Shape.terminator_inj {s t : Shape} (h : s.terminator = t.terminator) : s = t := by
  cases s <;> cases t <;> first | rfl | exact absurd h (by decide)

theorem ActionBox.toList_line (a : ActionBox) :
    a.line.toList =
      (a.color.elim [] fun color => color.display.toList) ++
        ':' :: ((escape .action a.text).toList ++ [a.shape.terminator]) := by
  obtain ⟨text, color, shape⟩ := a
  cases color <;> simp [line]

theorem ActionBox.line_inj {a b : ActionBox} (h : a.line = b.line) : a = b := by
  have hchars := congrArg String.toList h
  rw [toList_line, toList_line] at hchars
  obtain ⟨hcolor, hrest⟩ := optional_cut
    (fun color _ color' _ h => display_cut (by simp; decide) (by simp; decide) h)
    (fun color h => by simp [toList_display] at h)
    (fun color h => by simp [toList_display] at h) hchars
  obtain ⟨hescaped, hterminator⟩ := List.append_inj' (List.cons.inj hrest).2 rfl
  have htext := escape_cut_end hescaped
  have hshape := Shape.terminator_inj (List.cons.inj hterminator).1
  obtain ⟨text, color, shape⟩ := a
  obtain ⟨text', color', shape'⟩ := b
  cases hcolor
  cases htext
  cases hshape
  rfl

/-- An action on a line of its own, between a fixed opening and a semicolon. -/
theorem escape_action_semicolon_inj
    {lead s t : String}
    (h : lead ++ escape .action s ++ ";" = lead ++ escape .action t ++ ";") :
    s = t := by
  have hchars := congrArg String.toList h
  simp only [String.toList_append, List.append_assoc] at hchars
  exact escape_cut_end (List.append_cancel_right (List.append_cancel_left hchars))

theorem Arrow.toList_line (a : Arrow) :
    a.line.toList =
      '-' :: (a.style.text.toList ++ '-' :: '>' ::
        ((a.label.elim [] fun label => ' ' :: (escape .action label).toList) ++ [';'])) := by
  obtain ⟨label, style⟩ := a
  cases label <;> simp [line]

theorem Arrow.line_inj {a b : Arrow} (h : a.line = b.line) : a = b := by
  have hchars := congrArg String.toList h
  rw [toList_line, toList_line] at hchars
  obtain ⟨hstyle, hrest⟩ := linkStyle_cut (by simp) (by simp) (List.cons.inj hchars).2
  simp only [List.cons.injEq, true_and, List.append_cancel_right_eq] at hrest
  have hlabel : a.label = b.label := by
    cases hlabel : a.label with
    | none => cases hlabel' : b.label <;> simp_all
    | some label =>
        cases hlabel' : b.label with
        | none => simp_all
        | some label' =>
            simp only [hlabel, hlabel', Option.elim_some, List.cons.injEq, true_and] at hrest
            rw [escape_cut_end hrest]
  obtain ⟨label, style⟩ := a
  obtain ⟨label', style'⟩ := b
  cases hstyle
  cases hlabel
  rfl

end Actions

section Constructs

theorem Guard.line_inj {keyword : String} {g g' : Guard} (h : g.line keyword = g'.line keyword) :
    g = g' := by
  obtain ⟨condition, label⟩ := g
  obtain ⟨condition', label'⟩ := g'
  have hchars := congrArg String.toList h
  simp [line] at hchars
  obtain ⟨rfl, hrest⟩ := escape_parenthesized_cut hchars
  simp only [List.cons.injEq, true_and] at hrest
  rw [inParentheses_cut_end hrest]

/-- A text in brackets, between a fixed opening and the end of the line. -/
theorem escape_brackets_inj
    {lead s t : String}
    (h : lead ++ escape .parenthesized s ++ ")" = lead ++ escape .parenthesized t ++ ")") :
    s = t := by
  have hchars := congrArg String.toList h
  simp only [String.toList_append, List.append_assoc] at hchars
  exact (escape_parenthesized_cut (List.append_cancel_left hchars)).1

theorem WhileHead.opening_inj {head head' : WhileHead} (h : head.opening = head'.opening) :
    head.condition = head'.condition ∧ head.isLabel = head'.isLabel := by
  have hchars := congrArg String.toList h
  simp [opening] at hchars
  obtain ⟨hcondition, hrest⟩ := escape_parenthesized_cut hchars
  exact ⟨hcondition, inParentheses_cut_end hrest⟩

theorem WhileHead.closing_inj {head head' : WhileHead} (h : head.closing = head'.closing) :
    head.exitLabel = head'.exitLabel := by
  have hchars := congrArg String.toList h
  simp [closing] at hchars
  exact inParentheses_cut_end hchars

theorem WhileHead.eq_of_lines
    {head head' : WhileHead}
    (hopening : head.opening = head'.opening)
    (hclosing : head.closing = head'.closing) :
    head = head' := by
  obtain ⟨hcondition, his⟩ := opening_inj hopening
  have hexit := closing_inj hclosing
  cases head
  cases head'
  simp_all

theorem RepeatHead.opening_inj {head head' : RepeatHead} (h : head.opening = head'.opening) :
    head.start = head'.start := by
  unfold opening at h
  cases hstart : head.start with
  | none =>
      rw [hstart] at h
      cases hstart' : head'.start with
      | none => rfl
      | some start' =>
          rw [hstart'] at h
          simp [← String.toList_inj] at h
  | some start =>
      rw [hstart] at h
      cases hstart' : head'.start with
      | none =>
          rw [hstart'] at h
          simp [← String.toList_inj] at h
      | some start' =>
          rw [hstart'] at h
          rw [escape_action_semicolon_inj h]

theorem RepeatHead.closing_inj {head head' : RepeatHead} (h : head.closing = head'.closing) :
    head.condition = head'.condition ∧ head.isLabel = head'.isLabel ∧
      head.notLabel = head'.notLabel := by
  unfold closing at h
  have hchars := congrArg String.toList h
  simp at hchars
  obtain ⟨hcondition, hrest⟩ := escape_parenthesized_cut hchars
  -- the label behind `not` is not mistaken for the one behind `is`
  have hnot : ∀ label : Option String,
      ¬" is ".toList ++ ['('] <+: (inParentheses " not " label).toList := by
    intro label
    cases label <;> simp [inParentheses]
  obtain ⟨his, hrest⟩ := inParentheses_cut (hnot _) (hnot _) hrest
  exact ⟨hcondition, his, inParentheses_cut_end hrest⟩

theorem RepeatHead.eq_of_lines
    {head head' : RepeatHead}
    (hopening : head.opening = head'.opening)
    (hclosing : head.closing = head'.closing) :
    head = head' := by
  have hstart := opening_inj hopening
  obtain ⟨hcondition, his, hnot⟩ := closing_inj hclosing
  cases head
  cases head'
  simp_all

theorem inParentheses_word_inj
    {word : String}
    {label label' : Option String}
    (h : word ++ inParentheses " " label = word ++ inParentheses " " label') :
    label = label' := by
  have hchars := congrArg String.toList h
  rw [String.toList_append, String.toList_append] at hchars
  exact inParentheses_cut_end (List.append_cancel_left hchars)

theorem ForkEnd.closing_inj
    {e e' : ForkEnd}
    (h : (ParallelKind.fork e).closing = (ParallelKind.fork e').closing) :
    e = e' := by
  cases e with
  | fork => cases e' <;> simp [ParallelKind.closing, ← String.toList_inj] at h ⊢
  | merge => cases e' <;> simp [ParallelKind.closing, ← String.toList_inj] at h ⊢
  | join label =>
      cases e' with
      | fork => simp [ParallelKind.closing, ← String.toList_inj] at h
      | merge => simp [ParallelKind.closing, ← String.toList_inj] at h
      | join label' =>
          simp only [ParallelKind.closing, ← String.toList_inj, String.toList_append] at h
          have hlabel := List.append_cancel_left (List.append_cancel_right h)
          rw [escape_cut_end hlabel]

theorem ParallelKind.eq_of_lines
    {kind kind' : ParallelKind}
    (hopening : kind.opening = kind'.opening)
    (hclosing : kind.closing = kind'.closing) :
    kind = kind' := by
  cases kind with
  | fork e =>
      cases kind' with
      | fork e' => rw [ForkEnd.closing_inj hclosing]
      | split => exact absurd hopening (by simp [opening])
  | split =>
      cases kind' with
      | fork e' => exact absurd hopening (by simp [opening])
      | split => rfl

theorem partition_line_inj
    {name name' : String}
    {color color' : Option Color}
    (h : "partition" ++ colorSuffix color ++ " \"" ++ escape .quoted name ++ "\" \x7b" =
      "partition" ++ colorSuffix color' ++ " \"" ++ escape .quoted name' ++ "\" \x7b") :
    name = name' ∧ color = color' := by
  have hchars := congrArg String.toList h
  simp at hchars
  obtain ⟨hcolor, hrest⟩ := colorSuffix_cut (by simp; decide) (by simp; decide) (by simp) (by simp)
    hchars
  simp only [List.cons.injEq, true_and] at hrest
  exact ⟨(escape_quoted_cut hrest).1, hcolor⟩

end Constructs

section Elements

/-- A line that ends with the name of a jump label. -/
theorem alias_line_inj {lead : String} {a a' : Alias} (h : lead ++ a.name = lead ++ a'.name) :
    a = a' := by
  have hchars := congrArg String.toList h
  rw [String.toList_append, String.toList_append] at hchars
  exact Alias.ext (String.toList_inj.mp (List.append_cancel_left hchars))

/-- The color has no bar in it. -/
def Swimlane.BarFree (lane : Swimlane) : Prop :=
  ∀ color ∈ lane.color, '|' ∉ color.body.toList

/-- The escaped name of a lane does not begin like a color. -/
theorem head_escape_lane (name : String) : (escape .lane name).toList.head? ≠ some '#' := by
  rw [escape, String.toList_ofList]
  cases name.toList with
  | nil => simp [escapeChars, escapeFrom]
  | cons c rest =>
      have hsharp : c = '#' → escapeChar .lane none true c rest = ['~', '#'] := by
        rintro rfl
        rfl
      by_cases hc : c = '#'
      · simp [escapeChars, escapeFrom, hsharp hc]
      · simp only [escapeChars, escapeFrom, escapeChar]
        split_ifs <;> simp_all

/-- What is written for a lane behind its color: the name between the bars, and the label. -/
def Swimlane.behindColor (lane : Swimlane) : List Char :=
  (escape .lane lane.name).toList ++ '|' :: (labelled " " lane.label).toList

/-- What follows the first bar of a lane without a color does not begin like a color. -/
theorem Swimlane.behindColor_ne (lane : Swimlane) (x : List Char) :
    lane.behindColor ≠ '#' :: x := by
  intro h
  rw [behindColor] at h
  have hhead := congrArg List.head? h
  have hname := head_escape_lane lane.name
  cases hchars : (escape .lane lane.name).toList with
  | nil => simp [hchars] at hhead
  | cons c rest => simp_all

theorem Swimlane.toList_line (lane : Swimlane) :
    lane.line.toList =
      '|' :: ((lane.color.elim [] fun color => '#' :: (color.body.toList ++ ['|'])) ++
        lane.behindColor) := by
  obtain ⟨name, color, label⟩ := lane
  cases color <;> simp [line, behindColor, toList_display]

theorem Swimlane.eq_of_behindColor_eq
    {lane lane' : Swimlane}
    (hcolor : lane.color = lane'.color)
    (h : lane.behindColor = lane'.behindColor) :
    lane = lane' := by
  obtain ⟨name, color, label⟩ := lane
  obtain ⟨name', color', label'⟩ := lane'
  obtain ⟨hname, hlabel⟩ := escape_lane_cut h
  cases hcolor
  cases hname
  cases labelled_cut_end (by decide) hlabel
  rfl

/-- Lanes that are written alike are the same, or both have a color and differ behind the
first bar. -/
theorem Swimlane.line_cut {lane lane' : Swimlane} (h : lane.line = lane'.line) :
    lane = lane' ∨ ∃ color color', lane.color = some color ∧ lane'.color = some color' ∧
      color.body.toList ++ '|' :: lane.behindColor =
        color'.body.toList ++ '|' :: lane'.behindColor := by
  have hchars := congrArg String.toList h
  rw [toList_line, toList_line] at hchars
  have hbehind := (List.cons.inj hchars).2
  cases hcolor : lane.color with
  | none =>
      rw [hcolor, Option.elim_none, List.nil_append] at hbehind
      cases hcolor' : lane'.color with
      | none =>
          rw [hcolor', Option.elim_none, List.nil_append] at hbehind
          exact .inl (eq_of_behindColor_eq (hcolor.trans hcolor'.symm) hbehind)
      | some color' =>
          rw [hcolor', Option.elim_some] at hbehind
          exact absurd hbehind (lane.behindColor_ne _)
  | some color =>
      rw [hcolor, Option.elim_some] at hbehind
      cases hcolor' : lane'.color with
      | none =>
          rw [hcolor', Option.elim_none, List.nil_append] at hbehind
          exact absurd hbehind.symm (lane'.behindColor_ne _)
      | some color' =>
          rw [hcolor', Option.elim_some] at hbehind
          exact .inr ⟨color, color', rfl, rfl, by simpa using hbehind⟩

theorem Swimlane.line_inj
    {lane lane' : Swimlane}
    (hfree : lane.BarFree)
    (hfree' : lane'.BarFree)
    (h : lane.line = lane'.line) :
    lane = lane' := by
  rcases line_cut h with hsame | ⟨color, color', hcolor, hcolor', hbehind⟩
  · exact hsame
  · obtain ⟨hbody, hrest⟩ := append_cons_cut (hfree color hcolor) (hfree' color' hcolor') hbehind
    obtain rfl := Color.ext (String.toList_inj.mp hbody)
    exact eq_of_behindColor_eq (hcolor.trans hcolor'.symm) hrest

/-- The first line of a note, up to its text. -/
def Note.opening (n : Note) : String :=
  (if n.floating then "floating note " else "note ") ++ n.side.keyword ++ colorSuffix n.color

theorem Note.lines_eq (depth : Nat) (n : Note) :
    n.lines depth = noteLines depth n.opening n.text "end note" :=
  rfl

theorem Note.colon_notMem_opening (n : Note) : ':' ∉ n.opening.toList := by
  obtain ⟨side, text, floating, color⟩ := n
  cases side <;> cases floating <;>
    simp [opening, NoteSide.keyword, colon_notMem_colorSuffix]

theorem Note.opening_inj {n n' : Note} (h : n.opening = n'.opening) :
    n.side = n'.side ∧ n.floating = n'.floating ∧ n.color = n'.color := by
  obtain ⟨side, text, floating, color⟩ := n
  obtain ⟨side', text', floating', color'⟩ := n'
  have hchars := congrArg String.toList h
  cases side <;> cases side' <;> cases floating <;> cases floating' <;>
    simp [opening, NoteSide.keyword] at hchars ⊢
  all_goals exact colorSuffix_cut_end hchars

/-- The lines of a note are cut off, and determine the note. -/
theorem Note.lines_cut
    {indent depth : Nat}
    {n n' : Note}
    {r s : List (List Char)}
    (h : (n.lines depth).map (Line.laid indent) ++ r =
      (n'.lines depth).map (Line.laid indent) ++ s) :
    n = n' ∧ r = s := by
  rw [lines_eq, lines_eq] at h
  obtain ⟨hopening, htext, hrs⟩ := noteLines_cut n.colon_notMem_opening n'.colon_notMem_opening
    (by decide) (by decide) h
  obtain ⟨hside, hfloating, hcolor⟩ := opening_inj hopening
  obtain ⟨side, text, floating, color⟩ := n
  obtain ⟨side', text', floating', color'⟩ := n'
  simp_all

end Elements

end UmlText.Activity
