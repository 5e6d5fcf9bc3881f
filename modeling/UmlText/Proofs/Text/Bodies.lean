import UmlText.Activity.Lines
import UmlText.ClassDiagram.Lines
import UmlText.Proofs.Text.NoteBlocks
import UmlText.Sequence.Lines
import UmlText.Settings

/-!
# Bodies of notes, references and legends

A text with lines of its own is escaped as a whole, then cut into lines, and each line that
is not empty is indented.  No line of such a body begins with the word of a closing line,
not even behind blanks and tabs, so nothing but the closing line itself ends the construct
around it.  And a body can be read back: without the indentation its lines, put together
again, are the escaped text.
-/

namespace UmlText

/-- The lines of a written text in which every line has its line break behind it. -/
def endedLines (text : String) : List (List Char) :=
  (splitLines text.toList).dropLast

/-- A written line that begins with the word of a closing line, behind blanks and tabs. -/
def endsBody (l : List Char) : Bool :=
  closingStem.isPrefixOf (l.dropWhile isLinePadding)

/-- Behind the opening line the first one that begins with the word of a closing line is the
last. -/
def ClosedByLast (indent : Nat) (lines : List Line) : Prop :=
  ∃ last, ((lines.map (Line.laid indent)).tail.dropWhile fun l => !endsBody l) = [last]

section Lines

variable {l : List Char} {ls : List (List Char)}

theorem splitLines_append_newline (hl : '\n' ∉ l) (rest : List Char) :
    splitLines (l ++ '\n' :: rest) = l :: splitLines rest := by
  induction l with
  | nil => rfl
  | cons c l ih =>
      obtain ⟨hc, hl⟩ := not_or.mp (mt List.mem_cons.mpr hl)
      rw [List.cons_append, splitLines, if_neg (Ne.symm hc), ih hl]

/-- Behind the last line break there is an empty piece. -/
theorem splitLines_broken (h : ∀ l ∈ ls, '\n' ∉ l) : splitLines (broken ls) = ls ++ [[]] := by
  induction ls with
  | nil => rfl
  | cons l rest ih =>
      obtain ⟨hl, hrest⟩ := List.forall_mem_cons.mp h
      rw [broken_cons, splitLines_append_newline hl, ih hrest]
      rfl

theorem intercalate_splitLines (chars : List Char) :
    ['\n'].intercalate (splitLines chars) = chars := by
  rw [splitLines_eq_splitOn]
  exact List.intercalate_splitOn '\n'

end Lines

section Blocks

variable {indent depth : Nat} {text : String} {l piece : List Char}

/-- A line of a body as it is written: an empty one stays empty. -/
theorem laid_blockLine (indent depth : Nat) (piece : List Char) :
    (blockLine depth piece).laid indent =
      if piece = [] then [] else List.replicate (depth * indent) ' ' ++ piece := by
  cases piece with
  | nil => simp [blockLine, Line.laid]
  | cons c rest => simp [blockLine, Line.laid]

/-- The lines of a text are those it was put together from, when each of them fits on one
line. -/
theorem endedLines_join_text {lines : List Line} (h : AllOneLine lines) (indent : Nat) :
    endedLines (String.join (lines.map (Line.text indent))) = lines.map (Line.laid indent) := by
  have hopen := newline_notMem_of_mem_laid (o := { indent }) h
  rw [endedLines, toList_join_text, splitLines_broken hopen, List.dropLast_concat]

/-- The lines of a body as they are written. -/
theorem endedLines_blockLines (indent depth : Nat) (text : String) :
    endedLines (String.join ((blockLines depth text).map (Line.text indent))) =
      (blockLines depth text).map (Line.laid indent) :=
  endedLines_join_text (allOneLine_blockLines depth text) indent

/-- No line of a body begins with the word of a closing line. -/
theorem endsBody_of_mem_blockLines
    (h : l ∈ (blockLines depth text).map (Line.laid indent)) :
    endsBody l = false := by
  obtain ⟨line, hline, rfl⟩ := List.mem_map.mp h
  obtain ⟨piece, hpiece, rfl⟩ := List.mem_map.mp hline
  have hblanks : ∀ c ∈ List.replicate (depth * indent) ' ', isLinePadding c = true := by
    intro c hc
    rw [List.eq_of_mem_replicate hc]
    decide
  rw [laid_blockLine]
  split
  · rfl
  · unfold endsBody
    rw [List.dropWhile_append_of_pos hblanks]
    have hopen := not_closingStem_of_mem_escaped hpiece
    exact Bool.eq_false_iff.mpr fun h => hopen (List.isPrefixOf_iff_prefix.mp h)

/-- Every line of a body that is not empty is indented. -/
theorem replicate_prefix_of_mem_blockLines
    (h : l ∈ (blockLines depth text).map (Line.laid indent))
    (hl : l ≠ []) :
    List.replicate (depth * indent) ' ' <+: l := by
  obtain ⟨line, hline, rfl⟩ := List.mem_map.mp h
  obtain ⟨piece, hpiece, rfl⟩ := List.mem_map.mp hline
  rw [laid_blockLine] at hl ⊢
  split at hl
  · exact absurd rfl hl
  · next hpiece =>
      rw [if_neg hpiece]
      exact List.prefix_append _ _

/-- Without the indentation the lines of a body are those of the escaped text. -/
theorem map_drop_blockLines (indent depth : Nat) (text : String) :
    ((blockLines depth text).map (Line.laid indent)).map (List.drop (depth * indent)) =
      splitLines (escapeChars .block text.toList) := by
  have hdrop : ∀ piece : List Char,
      ((blockLine depth piece).laid indent).drop (depth * indent) = piece := by
    intro piece
    rw [laid_blockLine]
    split
    · next hempty => rw [hempty, List.drop_nil]
    · exact List.drop_left' List.length_replicate
  simp only [blockLines, List.map_map, Function.comp_def, hdrop, List.map_id']

end Blocks

section Closings

variable {indent depth : Nat} {opening text closing : String}

/-- A line that is not indented and begins with the word is a closing line wherever it
stands. -/
theorem endsBody_laid (hclosing : closingStem <+: closing.toList) :
    endsBody ((⟨depth, closing⟩ : Line).laid indent) = true := by
  have hblanks : ∀ c ∈ List.replicate (depth * indent) ' ', isLinePadding c = true := by
    intro c hc
    rw [List.eq_of_mem_replicate hc]
    decide
  obtain ⟨rest, hrest⟩ := hclosing
  unfold endsBody
  rw [Line.laid, List.dropWhile_append_of_pos hblanks, ← hrest]
  exact List.isPrefixOf_iff_prefix.mpr ⟨rest, rfl⟩

theorem closedByLast_enclosedLines (hclosing : closingStem <+: closing.toList) :
    ClosedByLast indent (enclosedLines depth opening text closing) := by
  refine ⟨(⟨depth, closing⟩ : Line).laid indent, ?_⟩
  have hopen : ∀ l ∈ (blockLines (depth + 1) text).map (Line.laid indent),
      (!endsBody l) = true := by
    intro l hl
    rw [endsBody_of_mem_blockLines hl]
    rfl
  rw [enclosedLines, List.cons_append, List.map_cons, List.tail_cons, List.map_append,
    List.dropWhile_append_of_pos hopen]
  simp [endsBody_laid hclosing]

theorem closedByLast_noteLines
    (htext : isMultiline text = true)
    (hclosing : closingStem <+: closing.toList) :
    ClosedByLast indent (noteLines depth opening text closing) := by
  rw [noteLines, if_pos htext]
  exact closedByLast_enclosedLines hclosing

end Closings

/-- Whatever a text is, no line of its body begins with the word of a closing line, and
unescaping the lines without their indentation gives the text back.  So every note,
reference and legend with a body is ended by the closing line that is written for it. -/
theorem body_stays_open_and_reads_back (indent depth : Nat) :
    (∀ text : String,
      let emitted := endedLines (String.join ((blockLines depth text).map (Line.text indent)))
      (∀ l ∈ emitted, endsBody l = false) ∧
      (∀ l ∈ emitted, l ≠ [] → List.replicate (depth * indent) ' ' <+: l) ∧
      unescape (String.ofList
        (['\n'].intercalate (emitted.map (List.drop (depth * indent))))) = text) ∧
    (∀ n : Activity.Note, isMultiline n.text = true → ClosedByLast indent (n.lines depth)) ∧
    (∀ n : Sequence.Note Alias, isMultiline n.text = true →
      ClosedByLast indent (n.lines depth)) ∧
    (∀ (ps : List Alias) (text : String), isMultiline text = true →
      ClosedByLast indent ((Sequence.Node.ref ps text).lines depth)) ∧
    (∀ n : AttachedNote Alias, isMultiline n.text = true → ClosedByLast indent (n.lines depth)) ∧
    (∀ (number : Nat) (text : String) (color : Option Color), isMultiline text = true →
      ClosedByLast indent (ClassDiagram.floatingNoteLines depth number text color)) ∧
    ∀ (s : Settings) (text : String), s.legend = some text → ClosedByLast indent s.epilogue := by
  refine ⟨fun text => ?body, fun n htext => ?activity, fun n htext => ?sequence,
    fun ps text htext => ?ref, fun n htext => ?attached, fun number text color htext => ?floating,
    fun s text hlegend => ?legend⟩
  case body =>
    intro emitted
    have hemitted : emitted = (blockLines depth text).map (Line.laid indent) :=
      endedLines_blockLines indent depth text
    rw [hemitted]
    refine ⟨fun l hl => endsBody_of_mem_blockLines hl,
      fun l hl hne => replicate_prefix_of_mem_blockLines hl hne, ?_⟩
    rw [map_drop_blockLines, intercalate_splitLines, unescape, String.toList_ofList,
      unescapeChars_escapeChars, String.ofList_toList]
  case activity => exact closedByLast_noteLines htext (by decide)
  case sequence =>
    refine closedByLast_noteLines htext ?_
    cases n.shape <;> decide
  case ref => exact closedByLast_noteLines htext (by decide)
  case attached => exact closedByLast_noteLines htext (by decide)
  case floating =>
    rw [ClassDiagram.floatingNoteLines, if_pos htext]
    exact closedByLast_enclosedLines (by decide)
  case legend =>
    rw [Settings.epilogue, hlegend]
    exact closedByLast_enclosedLines (by decide)

/-- A note whose text looks like the end of the note, behind a tab and behind blanks. -/
def endingNote : Activity.Note :=
  { side := .right, text := "\tend note\r\n\n  end ~\\n" }

theorem body_stays_open_and_reads_back_of_endingNote :
    isMultiline endingNote.text = true ∧ ClosedByLast 2 (endingNote.lines 3) ∧
      let emitted := endedLines
        (String.join ((blockLines 4 endingNote.text).map (Line.text 2)))
      emitted.length = 3 ∧ (∀ l ∈ emitted, endsBody l = false) ∧
        unescape (String.ofList (['\n'].intercalate (emitted.map (List.drop 8)))) =
          endingNote.text := by
  obtain ⟨_, hactivity, _⟩ := body_stays_open_and_reads_back 2 3
  obtain ⟨hbody, _⟩ := body_stays_open_and_reads_back 2 4
  obtain ⟨hopen, _, hback⟩ := hbody endingNote.text
  exact ⟨by decide, hactivity endingNote (by decide), by decide +kernel, hopen, hback⟩

end UmlText
