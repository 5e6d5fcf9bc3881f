import UmlText.Proofs.Activity.Fields
import UmlText.Proofs.Authored
import UmlText.Proofs.Text.Edges

/-!
# Lanes that are written alike

The line of a lane has a bar in front of its name and one behind it, and where the lane has
a color, the color stands between two bars as well.  The bar of a gradient is not escaped,
though, so the first color of the gradient can be taken for the whole color, the second one
for the name and the name for the beginning of the label.  `RunsInto` says when the lane
that is read in this way is written like that too; apart from this the line of a lane
determines the lane.

The name of the first lane is then read as a part of a label.  A bar is escaped in a name
but not in a label, so there is none in that name (`label_append_eq_lane_append_iff`).
-/

namespace UmlText.Activity

section Colors

variable {color color' : Color} {l x y : List Char}

theorem bar_notMem_of_isAlphanum (h : ∀ c ∈ l, c.isAlphanum = true) : '|' ∉ l :=
  fun hbar => absurd (h '|' hbar) (by decide)

/-- A color has no bar, or it is a gradient with one. -/
theorem bar_parts (color : Color) :
    '|' ∉ color.body.toList ∨
      ∃ first second, color.body.toList = first ++ '|' :: second ∧ '|' ∉ first ∧
        ∀ c ∈ second, c.isAlphanum = true := by
  rcases color.body_parts with hsingle | ⟨first, separator, second, hbody, _, hfirst, hsecond⟩
  · exact .inl (bar_notMem_of_isAlphanum hsingle)
  · by_cases hseparator : separator = '|'
    · subst hseparator
      exact .inr ⟨first, second, hbody, bar_notMem_of_isAlphanum hfirst, hsecond⟩
    · left
      rw [hbody, List.mem_append, List.mem_cons]
      rintro (hbar | rfl | hbar)
      · exact bar_notMem_of_isAlphanum hfirst hbar
      · exact hseparator rfl
      · exact bar_notMem_of_isAlphanum hsecond hbar

/-- The second color of a gradient is a word of letters and digits. -/
theorem isAlphanum_of_gradient {second : String} (h : color.body = color'.body ++ "|" ++ second) :
    ∀ c ∈ second.toList, c.isAlphanum = true := by
  have hbody : color.body.toList = color'.body.toList ++ '|' :: second.toList := by
    simp [h]
  rcases bar_parts color with hfree | ⟨first, rest, hparts, hfirst, hrest⟩
  · exact absurd (by simp [hbody]) hfree
  rw [hparts] at hbody
  rcases bar_parts color' with hfree | ⟨first', rest', hparts', hfirst', _⟩
  · obtain ⟨_, rfl⟩ := append_cons_cut hfirst hfree hbody
    exact hrest
  · -- a second bar would stand in the second color
    rw [hparts', List.append_assoc, List.cons_append] at hbody
    obtain ⟨_, rfl⟩ := append_cons_cut hfirst hfirst' hbody
    exact absurd (by simp) (bar_notMem_of_isAlphanum hrest)

/-- A color and the bar behind it are cut off, unless the one is the first color of the
other. -/
theorem color_cut (h : color.body.toList ++ '|' :: x = color'.body.toList ++ '|' :: y) :
    (color = color' ∧ x = y) ∨
      (∃ second, color.body = color'.body ++ "|" ++ second ∧ y = second.toList ++ '|' :: x) ∨
      ∃ second, color'.body = color.body ++ "|" ++ second ∧ x = second.toList ++ '|' :: y := by
  rcases bar_parts color with hfree | ⟨first, second, hparts, hfirst, hsecond⟩
  · rcases bar_parts color' with hfree' | ⟨first', second', hparts', hfirst', hsecond'⟩
    · obtain ⟨hbody, hxy⟩ := append_cons_cut hfree hfree' h
      exact .inl ⟨Color.ext (String.toList_inj.mp hbody), hxy⟩
    · rw [hparts', List.append_assoc] at h
      obtain ⟨rfl, hx⟩ := append_cons_cut hfree hfirst' h
      refine .inr (.inr ⟨String.ofList second', ?_, by simpa using hx⟩)
      simp [← String.toList_inj, hparts']
  · rcases bar_parts color' with hfree' | ⟨first', second', hparts', hfirst', hsecond'⟩
    · rw [hparts, List.append_assoc] at h
      obtain ⟨rfl, hy⟩ := append_cons_cut hfirst hfree' h
      refine .inr (.inl ⟨String.ofList second, ?_, by simpa using hy.symm⟩)
      simp [← String.toList_inj, hparts]
    · rw [hparts, hparts', List.append_assoc, List.append_assoc] at h
      obtain ⟨rfl, hrest⟩ := append_cons_cut hfirst hfirst' h
      obtain ⟨rfl, hxy⟩ := append_cons_cut (bar_notMem_of_isAlphanum hsecond)
        (bar_notMem_of_isAlphanum hsecond') hrest
      exact .inl ⟨Color.ext (String.toList_inj.mp (hparts.trans hparts'.symm)), hxy⟩

/-- A word of letters and digits is written as it is, also as the name of a lane. -/
theorem toList_escape_lane_of_isAlphanum
    {word : String}
    (h : ∀ c ∈ word.toList, c.isAlphanum = true) :
    (escape .lane word).toList = word.toList := by
  have hleaves : ∀ c : Char, c.isAlphanum = true → Position.lane.leaves c = true := by
    intro c hc
    have hother : ∀ d : Char, d.isAlphanum = false → c ≠ d := by
      rintro d hd rfl
      rw [hc] at hd
      cases hd
    simp (disch := decide) [Position.leaves, Position.lane, isLineBreak, isEscape, isPairing,
      hother]
  rw [escape, String.toList_ofList, escapeChars]
  exact escapeFrom_eq_self rfl fun c hc => hleaves c (h c hc)

end Colors

section Labels

variable {previous : Option Char} {atStart : Bool} {l x y : List Char} {name : String}
variable {label label' : Option String}

/-- A text is written in the same way in a label and in the name of a lane where it has no
bar. -/
theorem label_append_eq_lane_append_iff :
    escapeFrom .label previous atStart l ++ x = escapeFrom .lane previous atStart l ++ y ↔
      '|' ∉ l ∧ x = y := by
  induction l generalizing previous atStart with
  | nil => simp [escapeFrom]
  | cons c rest ih =>
      by_cases hc : c = '|'
      · subst hc
        simp [escapeFrom, escapeChar, needsGuard, isLinePadding, Position.label, Position.lane,
          isPairing]
      · have hsame : escapeChar .label previous atStart c rest =
            escapeChar .lane previous atStart c rest := by
          simp [escapeChar, needsGuard, Position.label, Position.lane, hc]
        rw [escapeFrom, escapeFrom, hsame, List.append_assoc, List.append_assoc,
          List.append_cancel_left_eq, ih, List.mem_cons, not_or]
        simp [Ne.symm hc]

/-- In front of a bar a label ends as it does at the end, and behind it nothing is guarded
for its place. -/
theorem escapeChars_label_bar (l m : List Char) :
    escapeChars .label (l ++ '|' :: m) =
      escapeChars .label l ++ '|' :: escapeFrom .label none false m := by
  obtain ⟨atStart, hcut⟩ :=
    exists_escapeChars_append_cons (p := .label) (c := '|') (l := l) (m := m) rfl rfl (by decide)
      (by decide)
  have hstays : staysAtStart atStart '|' = false := by
    cases atStart <;> rfl
  rw [hcut, hstays]

/-- The label of a lane as a text behind the bar. -/
def behindBar (label : Option String) : String :=
  label.elim "" (" " ++ ·)

theorem toList_labelled_some (text : String) :
    (labelled " " (some text)).toList = ' ' :: escapeChars .label text.toList := by
  simp [toList_labelled, escape]

theorem unescapeChars_labelled :
    unescapeChars (labelled " " label).toList = (behindBar label).toList := by
  cases label with
  | none => rfl
  | some text =>
      rw [toList_labelled_some]
      change ' ' :: unescapeChars (escapeChars .label text.toList) = _
      rw [unescapeChars_escapeChars]
      simp [behindBar]

/-- A label is written alike behind a bar of its own and within a longer label, if it begins
plainly. -/
theorem escapeFrom_behindBar_iff :
    escapeFrom .label none false (behindBar label).toList = (labelled " " label).toList ↔
      ∀ text ∈ label, BeginsPlainly .label text := by
  cases label with
  | none => simp [behindBar, escapeFrom, labelled]
  | some text =>
      have hblank : escapeFrom .label none false (' ' :: text.toList) =
          ' ' :: escapeFrom .label none false text.toList := by
        rw [← escapeFrom_of_unpaired (c := ' ') (l := text.toList) (by decide)]
        rfl
      have htext : (behindBar (some text)).toList = ' ' :: text.toList := by
        simp [behindBar]
      rw [htext, hblank, toList_labelled_some]
      simp [BeginsPlainly, escapeChars, eq_comm]

/-- A name with a bar and a label behind it says what the two are. -/
theorem unescapeChars_lane_bar (l : List Char) :
    unescapeChars (escapeChars .lane l ++ '|' :: (labelled " " label).toList) =
      l ++ '|' :: (behindBar label).toList := by
  rw [unescapeChars_escapeChars_append, ← unescapeChars_labelled]
  rfl

/-- A name with a bar and a label behind it, written like a label. -/
theorem lane_bar_eq_label_iff {text : List Char} :
    escapeChars .lane l ++ '|' :: (labelled " " label).toList = escapeChars .label text ↔
      text = l ++ '|' :: (behindBar label).toList ∧ '|' ∉ l ∧
        ∀ text ∈ label, BeginsPlainly .label text := by
  have hread : escapeChars .lane l ++ '|' :: (labelled " " label).toList =
      escapeChars .label text → text = l ++ '|' :: (behindBar label).toList := by
    intro h
    rw [← unescapeChars_lane_bar, h, unescapeChars_escapeChars]
  have hwritten : escapeChars .lane l ++ '|' :: (labelled " " label).toList =
      escapeChars .label (l ++ '|' :: (behindBar label).toList) ↔
        '|' ∉ l ∧ ∀ text ∈ label, BeginsPlainly .label text := by
    rw [escapeChars_label_bar, eq_comm, escapeChars, escapeChars, label_append_eq_lane_append_iff,
      List.cons_inj_right, escapeFrom_behindBar_iff]
  constructor
  · intro h
    obtain rfl := hread h
    exact ⟨rfl, hwritten.mp h⟩
  · rintro ⟨rfl, h⟩
    exact hwritten.mpr h

/-- A name with a bar and a label behind it, written like a label with the blank in front. -/
theorem lane_bar_eq_labelled_iff :
    (escape .lane name).toList ++ '|' :: (labelled " " label).toList =
        (labelled " " label').toList ↔
      ∃ inner, name = " " ++ inner ∧ label' = some (inner ++ "|" ++ behindBar label) ∧
        '|' ∉ inner.toList ∧ ∀ text ∈ label, BeginsPlainly .label text := by
  cases label' with
  | none =>
      refine iff_of_false (fun h => ?_) (by simp)
      simp [toList_labelled] at h
  | some text =>
      have hblank : ∀ inner : String, escapeChars .lane (" " ++ inner).toList =
          ' ' :: escapeChars .lane inner.toList := by
        intro inner
        rw [escapeChars, escapeChars, String.toList_append,
          ← escapeFrom_of_unpaired (c := ' ') (l := inner.toList) (by decide)]
        rfl
      rw [toList_labelled_some, escape, String.toList_ofList]
      constructor
      · intro h
        -- what is read begins with a blank, so the name does
        have hread := congrArg unescapeChars h
        rw [unescapeChars_lane_bar] at hread
        obtain ⟨inner, rfl⟩ : ∃ inner, name = " " ++ inner := by
          cases hname : name.toList with
          | nil =>
              rw [hname] at hread
              cases hread
          | cons c rest =>
              rw [hname] at hread
              obtain rfl : c = ' ' := (List.cons.inj hread).1
              exact ⟨String.ofList rest, by simp [← String.toList_inj, hname]⟩
        rw [hblank, List.cons_append, List.cons_inj_right, lane_bar_eq_label_iff] at h
        refine ⟨inner, rfl, ?_, h.2⟩
        simp [← String.toList_inj, h.1]
      · rintro ⟨inner, rfl, htext, h⟩
        rw [hblank, List.cons_append, List.cons_inj_right, lane_bar_eq_label_iff]
        exact ⟨by simp [Option.some.inj htext], h⟩

end Labels

section Lanes

variable {lane lane' : Swimlane}

/-- The line of the first lane is also read as that of the second one.  The first color of a
gradient is taken for the color and the second one for the name; the blank in front of the
name is taken for the one in front of a label, and the rest of the name and the label for
that label. -/
inductive Swimlane.RunsInto : Swimlane → Swimlane → Prop
  | mk {color color' : Color} {second inner : String} {label : Option String}
      (hcolor : color.body = color'.body ++ "|" ++ second)
      (hinner : '|' ∉ inner.toList)
      (hlabel : ∀ text ∈ label, BeginsPlainly .label text) :
      RunsInto { name := " " ++ inner, color := some color, label }
        { name := second, color := some color', label := some (inner ++ "|" ++ behindBar label) }

/-- Where the color of the first lane is a gradient that begins with that of the second one,
what stands behind the two colors decides whether the one lane is read as the other. -/
theorem Swimlane.runsInto_iff
    {color color' : Color}
    {second : String}
    (hcolor : lane.color = some color)
    (hcolor' : lane'.color = some color')
    (hgradient : color.body = color'.body ++ "|" ++ second) :
    lane.RunsInto lane' ↔ lane'.behindColor = second.toList ++ '|' :: lane.behindColor := by
  have hsecond := toList_escape_lane_of_isAlphanum (isAlphanum_of_gradient hgradient)
  rw [behindColor, ← hsecond]
  constructor
  · rintro ⟨hgradient', hinner, hlabel⟩
    cases hcolor
    cases hcolor'
    obtain rfl := (String.append_right_inj _).mp (hgradient.symm.trans hgradient')
    rw [← lane_bar_eq_labelled_iff.mpr ⟨_, rfl, rfl, hinner, hlabel⟩]
    rfl
  · intro h
    obtain ⟨name, _, label⟩ := lane
    obtain ⟨name', _, label'⟩ := lane'
    cases hcolor
    cases hcolor'
    obtain ⟨hname, hrest⟩ := escape_lane_cut h
    obtain ⟨inner, rfl, rfl, hinner, hlabel⟩ := lane_bar_eq_labelled_iff.mp hrest.symm
    cases hname
    exact .mk hgradient hinner hlabel

theorem Swimlane.RunsInto.line_eq (h : lane.RunsInto lane') : lane.line = lane'.line := by
  obtain ⟨color, color', second, hcolor, hcolor', hgradient⟩ :
      ∃ color color' second, lane.color = some color ∧ lane'.color = some color' ∧
        color.body = color'.body ++ "|" ++ second := by
    cases h with
    | mk hgradient => exact ⟨_, _, _, rfl, rfl, hgradient⟩
  rw [← String.toList_inj, toList_line, toList_line, hcolor, hcolor', Option.elim_some,
    Option.elim_some, (runsInto_iff hcolor hcolor' hgradient).mp h, hgradient]
  simp

/-- The line of a lane determines its name, its color and its label, but where the bar of a
gradient is read as the end of the color. -/
theorem Swimlane.line_eq_iff (lane lane' : Swimlane) :
    lane.line = lane'.line ↔ lane = lane' ∨ lane.RunsInto lane' ∨ lane'.RunsInto lane := by
  constructor
  · intro h
    rcases line_cut h with hsame | ⟨color, color', hcolor, hcolor', hbehind⟩
    · exact .inl hsame
    · rcases color_cut hbehind with ⟨rfl, hrest⟩ | ⟨second, hgradient, hrest⟩ |
        ⟨second, hgradient, hrest⟩
      · exact .inl (eq_of_behindColor_eq (hcolor.trans hcolor'.symm) hrest)
      · exact .inr (.inl ((runsInto_iff hcolor hcolor' hgradient).mpr hrest))
      · exact .inr (.inr ((runsInto_iff hcolor' hcolor hgradient).mpr hrest))
  · rintro (rfl | h | h)
    · rfl
    · exact h.line_eq
    · exact h.line_eq.symm

/-- A lane with a gradient, and a blank in front of its name. -/
def gradientLane : Swimlane :=
  { name := " x", color := some ⟨"gold|teal", by decide⟩ }

/-- A lane with the name of a color, and a bar at the end of its label. -/
def colorNamedLane : Swimlane :=
  { name := "teal", color := some ⟨"gold", by decide⟩, label := some "x|" }

/-- Two accepted lanes that differ in all their parts can be written alike. -/
theorem Swimlane.line_eq_of_gradientLane :
    dialect.Authored [.swimlane gradientLane] ∧ dialect.Authored [.swimlane colorNamedLane] ∧
      gradientLane.line = colorNamedLane.line ∧ gradientLane.name ≠ colorNamedLane.name ∧
      gradientLane.color ≠ colorNamedLane.color ∧ gradientLane.label ≠ colorNamedLane.label :=
  ⟨⟨[.call (.ok (Call.swimlane gradientLane)) false], rfl⟩,
    ⟨[.call (.ok (Call.swimlane colorNamedLane)) false], rfl⟩,
    rfl, by decide, by decide, by decide⟩

end Lanes

end UmlText.Activity
