import UmlText.Proofs.Text.Cuts

/-!
# The lines of a text

When every content fits on one line, the text of a list of lines determines the lines as
they are written, with the spaces in front: a text ends each of them by a line break, and
holds no other ones.  Where the last line break is dropped, the only thing that could be
lost is a single empty line, and a list that begins with a visible content has no such line.
-/

namespace UmlText

/-- A line as it is written: the spaces in front and the content. -/
def Line.laid (indent : Nat) (l : Line) : List Char :=
  List.replicate (l.depth * indent) ' ' ++ l.content.toList

/-- Lines as they are written, with what is written behind them. -/
def written (indent : Nat) (lines : List Line) (behind : List (List Char)) : List (List Char) :=
  lines.map (Line.laid indent) ++ behind

/-- Written lines, each with the line break behind it. -/
def broken (written : List (List Char)) : List Char :=
  written.flatMap (· ++ ['\n'])

section Written

variable {indent depth : Nat} {first second : List Line} {behind r s : List (List Char)}

@[simp] theorem written_nil : written indent [] behind = behind :=
  rfl

@[simp] theorem written_cons {l : Line} :
    written indent (l :: first) behind = l.laid indent :: written indent first behind :=
  rfl

@[simp] theorem written_append :
    written indent (first ++ second) behind =
      written indent first (written indent second behind) := by
  simp [written]

/-- Lines of one depth with different contents are not written alike. -/
theorem laid_inj
    {content content' : String}
    (h : (⟨depth, content⟩ : Line).laid indent = (⟨depth, content'⟩ : Line).laid indent) :
    content = content' :=
  String.toList_inj.mp (List.append_cancel_left h)

/-- The first line is read, and then what is written behind it. -/
theorem written_cons_cut
    {content content' : String}
    (h : written indent (⟨depth, content⟩ :: first) r =
      written indent (⟨depth, content'⟩ :: second) s) :
    content = content' ∧ written indent first r = written indent second s := by
  obtain ⟨hline, hrest⟩ := List.cons.inj h
  exact ⟨laid_inj hline, hrest⟩

end Written

section Breaks

variable {first second : List (List Char)}

theorem broken_cons (l : List Char) (rest : List (List Char)) :
    broken (l :: rest) = l ++ '\n' :: broken rest := by
  simp [broken]

/-- The lines are what stands between the line breaks. -/
theorem broken_inj
    (hfirst : ∀ l ∈ first, '\n' ∉ l)
    (hsecond : ∀ l ∈ second, '\n' ∉ l)
    (h : broken first = broken second) :
    first = second := by
  induction first generalizing second with
  | nil =>
      cases second with
      | nil => rfl
      | cons l rest =>
          rw [broken_cons] at h
          simp [broken] at h
  | cons l rest ih =>
      cases second with
      | nil =>
          rw [broken_cons] at h
          simp [broken] at h
      | cons m others =>
          obtain ⟨hl, hrest⟩ := List.forall_mem_cons.mp hfirst
          obtain ⟨hm, hothers⟩ := List.forall_mem_cons.mp hsecond
          rw [broken_cons, broken_cons] at h
          obtain ⟨rfl, hbroken⟩ := append_cons_cut hl hm h
          rw [ih hrest hothers hbroken]

/-- What is left of broken lines without their last line break. -/
theorem dropFinalNewline_broken_cons (l : List Char) (rest : List (List Char)) :
    dropFinalNewline (broken (l :: rest)) ++ ['\n'] = broken (l :: rest) := by
  obtain ⟨front, hfront⟩ : ∃ front, broken (l :: rest) = front ++ ['\n'] := by
    induction rest generalizing l with
    | nil => exact ⟨l, by simp [broken]⟩
    | cons m rest ih =>
        obtain ⟨front, hfront⟩ := ih m
        exact ⟨l ++ '\n' :: front, by rw [broken_cons, hfront]; simp⟩
  rw [hfront]
  simp [dropFinalNewline]

/-- Without their last line break the lines are still the same, unless one of them is empty
and stands alone. -/
theorem dropFinalNewline_broken_inj
    (hfirst : ∀ l ∈ first, '\n' ∉ l)
    (hsecond : ∀ l ∈ second, '\n' ∉ l)
    (hvisible : first.head? ≠ some [])
    (hvisible' : second.head? ≠ some [])
    (h : dropFinalNewline (broken first) = dropFinalNewline (broken second)) :
    first = second := by
  -- a text without lines is empty, and a text with lines is not
  have hempty : ∀ l rest, (l :: rest : List (List Char)).head? ≠ some [] →
      dropFinalNewline (broken (l :: rest)) ≠ [] := by
    intro l rest hhead hnil
    have hback := dropFinalNewline_broken_cons l rest
    rw [hnil, broken_cons] at hback
    cases l with
    | nil => exact hhead rfl
    | cons c l => simp at hback
  cases first with
  | nil =>
      cases second with
      | nil => rfl
      | cons l rest => exact absurd h.symm (hempty l rest hvisible')
  | cons l rest =>
      cases second with
      | nil => exact absurd h (hempty l rest hvisible)
      | cons m others =>
          refine broken_inj hfirst hsecond ?_
          rw [← dropFinalNewline_broken_cons l rest, h, dropFinalNewline_broken_cons]

end Breaks

section Lines

variable {o : Options} {lines first second : List Line}

theorem toList_join_text (indent : Nat) (lines : List Line) :
    (String.join (lines.map (Line.text indent))).toList =
      broken (lines.map (Line.laid indent)) := by
  simp [String.toList_join, broken, Line.text, Line.laid, List.flatMap_map]

theorem toList_layout (o : Options) (lines : List Line) :
    (layout o lines).toList =
      if o.trailingNewline then broken (lines.map (Line.laid o.indent))
      else dropFinalNewline (broken (lines.map (Line.laid o.indent))) := by
  unfold layout
  simp only [toList_join_text]
  split
  · rw [toList_join_text]
  · rw [String.toList_ofList]

/-- No line holds a character that ends a line. -/
theorem isLineBreak_of_mem_laid
    (hlines : AllOneLine lines)
    {l : List Char}
    (hl : l ∈ lines.map (Line.laid o.indent)) :
    ∀ c ∈ l, isLineBreak c = false := by
  obtain ⟨line, hline, rfl⟩ := List.mem_map.mp hl
  intro c hc
  rcases List.mem_append.mp hc with hc | hc
  · rw [List.eq_of_mem_replicate hc]
    decide
  · exact hlines line hline c hc

theorem newline_notMem_of_mem_laid
    (hlines : AllOneLine lines) :
    ∀ l ∈ lines.map (Line.laid o.indent), '\n' ∉ l := by
  intro l hl hmem
  have hfalse := isLineBreak_of_mem_laid hlines hl '\n' hmem
  cases hfalse

/-- The text determines the lines as they are written. -/
theorem laid_eq_of_layout_eq
    (hfirst : AllOneLine first)
    (hsecond : AllOneLine second)
    (hvisible : ∀ l ∈ first.head?, l.content ≠ "")
    (hvisible' : ∀ l ∈ second.head?, l.content ≠ "")
    (h : layout o first = layout o second) :
    first.map (Line.laid o.indent) = second.map (Line.laid o.indent) := by
  have hhead : ∀ lines : List Line, (∀ l ∈ lines.head?, l.content ≠ "") →
      (lines.map (Line.laid o.indent)).head? ≠ some [] := by
    intro lines hlines
    cases lines with
    | nil => simp
    | cons l rest => simpa [Line.laid] using fun _ => hlines l rfl
  have htext := congrArg String.toList h
  rw [toList_layout, toList_layout] at htext
  have hfirst := newline_notMem_of_mem_laid (o := o) hfirst
  have hsecond := newline_notMem_of_mem_laid (o := o) hsecond
  split at htext
  · exact broken_inj hfirst hsecond htext
  · exact dropFinalNewline_broken_inj hfirst hsecond (hhead first hvisible)
      (hhead second hvisible') htext

/-- Where the last line break is kept, a text has as many line breaks as lines, and never a
carriage return. -/
theorem lineBreaks_of_layout
    (hlines : AllOneLine lines)
    (htrailing : o.trailingNewline = true) :
    '\r' ∉ (layout o lines).toList ∧ (layout o lines).toList.count '\n' = lines.length := by
  rw [toList_layout, if_pos htrailing]
  have hbreaks : ∀ l ∈ lines.map (Line.laid o.indent), ∀ c ∈ l, isLineBreak c = false :=
    fun l hl => isLineBreak_of_mem_laid hlines hl
  rw [← List.length_map (f := Line.laid o.indent)]
  generalize lines.map (Line.laid o.indent) = written at hbreaks
  induction written with
  | nil => simp [broken]
  | cons l rest ih =>
      obtain ⟨hl, hrest⟩ := List.forall_mem_cons.mp hbreaks
      obtain ⟨hreturn, hcount⟩ := ih hrest
      have hnone : ∀ c, isLineBreak c = true → c ∉ l := by
        intro c hc hmem
        rw [hl c hmem] at hc
        cases hc
      rw [broken_cons]
      refine ⟨?_, ?_⟩
      · simp [hnone '\r' rfl, hreturn]
      · rw [List.count_append, List.count_cons_self, hcount,
          List.count_eq_zero.mpr (hnone '\n' rfl), List.length_cons]
        omega

end Lines

end UmlText
