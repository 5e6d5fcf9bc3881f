import Mathlib.Data.List.TakeWhile
import UmlText.Proofs.Text.Laid

/-!
# Reading notes back

A note is one line with a colon in it, or a text with lines of its own up to a closing line.
Its opening has no colon, so the first line tells which of the two it is; and no line of an
escaped text begins with the word of a closing line, whatever blanks stand in front of it.
So a note ends where it was ended, and its text is what stands in between.
-/

namespace UmlText

/-- A written line without the blanks in front. -/
def unindent (l : List Char) : List Char :=
  l.dropWhile (· = ' ')

section Indentation

variable {l m : List Char} {k n : Nat}

theorem unindent_replicate_append (k : Nat) (l : List Char) :
    unindent (List.replicate k ' ' ++ l) = unindent l := by
  induction k with
  | zero => rfl
  | succ k ih =>
      rw [List.replicate_succ, List.cons_append]
      exact ih

/-- What does not begin with a blank has none in front. -/
theorem unindent_of_head (h : ∀ c ∈ l.head?, c ≠ ' ') : unindent l = l := by
  cases l with
  | nil => rfl
  | cons c rest =>
      have hc : c ≠ ' ' := h c rfl
      simp [unindent, hc]

theorem unindent_laid {indent : Nat} {line : Line} (h : ∀ c ∈ line.content.toList.head?, c ≠ ' ') :
    unindent (line.laid indent) = line.content.toList := by
  rw [Line.laid, unindent_replicate_append, unindent_of_head h]

/-- A line is its blanks and what is behind them. -/
theorem exists_replicate_append_unindent (l : List Char) :
    ∃ k, l = List.replicate k ' ' ++ unindent l := by
  refine ⟨(l.takeWhile (· = ' ')).length, ?_⟩
  have hblanks : l.takeWhile (· = ' ') =
      List.replicate (l.takeWhile (· = ' ')).length ' ' := by
    refine List.eq_replicate_iff.mpr ⟨rfl, fun c hc => ?_⟩
    simpa using List.mem_takeWhile_imp hc
  rw [← hblanks]
  exact List.takeWhile_append_dropWhile.symm

end Indentation

section Blocks

variable {text text' : String} {l : List Char}

theorem splitLines_eq_splitOn (l : List Char) : splitLines l = l.splitOn '\n' := by
  induction l with
  | nil => rfl
  | cons c rest ih =>
      have hcons : (c :: rest).splitOn '\n' = (c :: rest).splitOnP (· == '\n') := rfl
      rw [splitLines, ih, hcons, List.splitOnP_cons_eq_if_modifyHead]
      obtain ⟨first, others, hsplit, _⟩ := splitOnP_pieces (f := (· == '\n')) rest
      by_cases hc : c = '\n'
      · simp [hc, List.splitOn]
      · simp [hc, List.splitOn, hsplit]

theorem splitLines_inj {first second : List Char} (h : splitLines first = splitLines second) :
    first = second := by
  rw [splitLines_eq_splitOn, splitLines_eq_splitOn] at h
  have hback := congrArg ['\n'].intercalate h
  rwa [List.intercalate_splitOn, List.intercalate_splitOn] at hback

/-- The lines of what is written in pieces are the lines of the pieces. -/
theorem splitLines_flatMap_chars
    {ps : List Piece}
    (hpair : ∀ mark c, .pair mark c ∈ ps → mark ≠ '\n' ∧ c ≠ '\n') :
    splitLines (ps.flatMap Piece.chars) =
      (ps.splitOnP (Piece.endsLine .block)).map (List.flatMap Piece.chars) := by
  induction ps with
  | nil => rfl
  | cons q qs ih =>
      have hrest := ih fun mark c hmem => hpair mark c (List.mem_cons_of_mem _ hmem)
      obtain ⟨first, others, hsplit, _⟩ := splitOnP_pieces (f := Piece.endsLine .block) qs
      rw [hsplit] at hrest
      rw [List.splitOnP_cons_eq_if_modifyHead, hsplit, List.flatMap_cons]
      cases q with
      | bare c =>
          by_cases hc : c = '\n'
          · simp [Piece.chars, Piece.endsLine, Position.block, splitLines, hc, hrest]
          · simp [Piece.chars, Piece.endsLine, Position.block, splitLines, hc, hrest]
      | pair mark c =>
          obtain ⟨hmark, hc⟩ := hpair mark c List.mem_cons_self
          simp [Piece.chars, Piece.endsLine, Position.block, splitLines, hmark, hc, hrest]

/-- In a text with lines of its own a line break always stands bare. -/
theorem ne_newline_of_pair_mem
    {mark c : Char} :
    ∀ (previous : Option Char) (atStart : Bool) (l : List Char),
      .pair mark c ∈ piecesFrom .block previous atStart l → mark ≠ '\n' ∧ c ≠ '\n'
  | _, _, [], h => by
      cases h
  | previous, atStart, d :: rest, h => by
      rw [piecesFrom] at h
      rcases List.mem_cons.mp h with h | h
      · unfold pieceOf at h
        split_ifs at h <;> simp_all [Position.block]
      · exact ne_newline_of_pair_mem _ _ rest h

/-- Blanks and tabs in front of a text are pieces of their own. -/
theorem dropWhile_pieces_append
    {front : List Char}
    (hfront : ∀ c ∈ front, isLinePadding c = true)
    (m : List Char) :
    (pieces (front ++ m)).dropWhile Piece.isPadding = (pieces m).dropWhile Piece.isPadding := by
  induction front with
  | nil => rfl
  | cons c rest ih =>
      obtain ⟨hc, hrest⟩ := List.forall_mem_cons.mp hfront
      have hblank : c = ' ' ∨ c = '\t' := by
        simpa [isLinePadding] using hc
      rcases hblank with rfl | rfl <;>
        · rw [List.cons_append, pieces_cons_bare (by decide)]
          exact ih hrest

/-- No line of an escaped text begins with the word of a closing line, whatever blanks and
tabs stand in front. -/
theorem not_closingStem_of_mem_escaped
    (h : l ∈ splitLines (escapeChars .block text.toList)) :
    ¬closingStem <+: l.dropWhile isLinePadding := by
  have hlines : splitLines (escapeChars .block text.toList) =
      (lines .block (escapeChars .block text.toList)).map (List.flatMap Piece.chars) := by
    rw [lines, escapeChars, pieces_escapeFrom, ← flatMap_chars_piecesFrom]
    exact splitLines_flatMap_chars fun mark c hmem => ne_newline_of_pair_mem none true _ hmem
  rw [hlines] at h
  obtain ⟨line, hline, rfl⟩ := List.mem_map.mp h
  rintro ⟨rest, hrest⟩
  refine not_closingStem_of_mem_lines hline rfl ?_
  -- the padding in front and the three letters are pieces of their own
  have hproper : ∀ q ∈ line, q.Proper := by
    intro q hq
    obtain ⟨front, back, hcut, _⟩ := exists_of_mem_splitOnP hline
    refine proper_of_mem_piecesFrom (p := .block) none true text.toList q ?_
    rw [← pieces_escapeFrom, ← escapeChars, hcut]
    simp [hq]
  have hcut : line.flatMap Piece.chars =
      (line.flatMap Piece.chars).takeWhile isLinePadding ++ (closingStem ++ rest) := by
    rw [hrest, List.takeWhile_append_dropWhile]
  have hpieces := congrArg pieces hcut
  rw [pieces_flatMap_chars hproper] at hpieces
  have hpadding : ∀ c ∈ (line.flatMap Piece.chars).takeWhile isLinePadding,
      isLinePadding c = true :=
    fun c hc => List.mem_takeWhile_imp hc
  rw [hpieces, dropWhile_pieces_append hpadding]
  refine ⟨pieces rest, ?_⟩
  change _ = (pieces ('e' :: 'n' :: 'd' :: rest)).dropWhile Piece.isPadding
  rw [pieces_cons_bare (by decide), pieces_cons_bare (by decide), pieces_cons_bare (by decide)]
  rfl

/-- In particular no line begins with it behind blanks alone. -/
theorem not_closingStem_of_mem_splitLines
    (h : l ∈ splitLines (escapeChars .block text.toList)) :
    ¬closingStem <+: unindent l := by
  rintro ⟨rest, hrest⟩
  refine not_closingStem_of_mem_escaped h ⟨rest, ?_⟩
  obtain ⟨k, hk⟩ := exists_replicate_append_unindent l
  have hblanks : ∀ c ∈ List.replicate k ' ', isLinePadding c = true := by
    intro c hc
    rw [List.eq_of_mem_replicate hc]
    decide
  rw [hk, ← hrest, List.dropWhile_append_of_pos hblanks]
  rfl

end Blocks

section Notes

variable {indent depth : Nat} {opening opening' closing closing' text text' : String}
variable {r s : List (List Char)}

/-- A written line that begins with the word of a closing line. -/
def isClosing (l : List Char) : Bool :=
  closingStem.isPrefixOf (unindent l)

theorem isClosing_closing (hclosing : closingStem <+: closing.toList) :
    isClosing ((⟨depth, closing⟩ : Line).laid indent) = true := by
  have hhead : ∀ c ∈ closing.toList.head?, c ≠ ' ' := by
    obtain ⟨rest, hrest⟩ := hclosing
    rw [← hrest]
    simp [closingStem]
  unfold isClosing
  rw [List.isPrefixOf_iff_prefix, unindent_laid hhead]
  exact hclosing

/-- No line of a block is a closing line. -/
theorem isClosing_of_mem_blockLines :
    ∀ l ∈ (blockLines depth text).map (Line.laid indent), isClosing l = false := by
  intro l hl
  obtain ⟨line, hline, rfl⟩ := List.mem_map.mp hl
  obtain ⟨piece, hpiece, rfl⟩ := List.mem_map.mp hline
  have hblock : unindent ((blockLine depth piece).laid indent) = unindent piece := by
    unfold blockLine
    split
    · next hempty =>
        rw [List.isEmpty_iff.mp hempty]
        simp [Line.laid, unindent]
    · rw [Line.laid, unindent_replicate_append, String.toList_ofList]
  have hopen := not_closingStem_of_mem_splitLines hpiece
  unfold isClosing
  rw [hblock]
  exact Bool.eq_false_iff.mpr fun h => hopen (List.isPrefixOf_iff_prefix.mp h)

/-- The lines of a block determine its text. -/
theorem blockLines_inj
    (h : (blockLines depth text).map (Line.laid indent) =
      (blockLines depth text').map (Line.laid indent)) :
    text = text' := by
  have hpiece : Function.Injective fun piece => (blockLine depth piece).laid indent := by
    intro piece piece' hlaid
    simp only [blockLine] at hlaid
    split at hlaid
    · next hempty =>
        split at hlaid
        · next hempty' => rw [List.isEmpty_iff.mp hempty, List.isEmpty_iff.mp hempty']
        · next hvisible => simp_all [Line.laid]
    · split at hlaid
      · next hempty' => simp_all [Line.laid]
      · simpa [Line.laid] using hlaid
  rw [blockLines, blockLines, List.map_map, List.map_map] at h
  have hlines := splitLines_inj (List.map_injective_iff.mpr hpiece h)
  refine escape_cut_end (p := .block) ?_
  rw [escape, escape, String.toList_ofList, String.toList_ofList]
  exact hlines

/-- A text with lines of its own is cut off at its closing line. -/
theorem enclosedLines_cut
    (hclosing : closingStem <+: closing.toList)
    (hclosing' : closingStem <+: closing'.toList)
    (h : (enclosedLines depth opening text closing).map (Line.laid indent) ++ r =
      (enclosedLines depth opening' text' closing').map (Line.laid indent) ++ s) :
    opening = opening' ∧ text = text' ∧ r = s := by
  simp only [enclosedLines, List.cons_append, List.map_cons, List.map_append, List.map_nil,
    List.append_assoc, List.nil_append] at h
  obtain ⟨hfirst, hrest⟩ := List.cons.inj h
  have hopen : ∀ text, ∀ l ∈ (blockLines (depth + 1) text).map (Line.laid indent),
      (!isClosing l) = true := by
    intro text l hl
    rw [isClosing_of_mem_blockLines l hl]
    rfl
  obtain ⟨hblock, hrs⟩ := append_cut_of_class (hopen text) (hopen text')
    (by simp [isClosing_closing hclosing]) (by simp [isClosing_closing hclosing']) hrest
  refine ⟨?_, blockLines_inj hblock, (List.cons.inj hrs).2⟩
  exact String.toList_inj.mp (List.append_cancel_left hfirst)

/-- A note is cut off behind its only line, or behind its closing line. -/
theorem noteLines_cut
    (hopening : ':' ∉ opening.toList)
    (hopening' : ':' ∉ opening'.toList)
    (hclosing : closingStem <+: closing.toList)
    (hclosing' : closingStem <+: closing'.toList)
    (h : (noteLines depth opening text closing).map (Line.laid indent) ++ r =
      (noteLines depth opening' text' closing').map (Line.laid indent) ++ s) :
    opening = opening' ∧ text = text' ∧ r = s := by
  -- the first line of a note has a colon in it when it is the only one
  have hcolon : ∀ (opening text other : String), ':' ∉ other.toList →
      (⟨depth, opening ++ " : " ++ escape .label text⟩ : Line).laid indent ≠
        (⟨depth, other⟩ : Line).laid indent := by
    intro opening text other hother hlaid
    have hcontent := List.append_cancel_left hlaid
    exact hother (by simp [← hcontent])
  unfold noteLines at h
  split at h
  · split at h
    · exact enclosedLines_cut hclosing hclosing' h
    · exact absurd (List.cons.inj h).1.symm (hcolon opening' text' opening hopening)
  · split at h
    · exact absurd (List.cons.inj h).1 (hcolon opening text opening' hopening')
    · obtain ⟨hline, hrs⟩ := List.cons.inj h
      have hcontent : (opening ++ " : " ++ escape .label text).toList =
          (opening' ++ " : " ++ escape .label text').toList := List.append_cancel_left hline
      have hcut : (opening.toList ++ [' ']) ++ ':' :: ' ' :: (escape .label text).toList =
          (opening'.toList ++ [' ']) ++ ':' :: ' ' :: (escape .label text').toList := by
        simpa using hcontent
      obtain ⟨hfront, hback⟩ := append_cons_cut (by simp [hopening]) (by simp [hopening']) hcut
      refine ⟨?_, escape_cut_end (List.cons.inj hback).2, hrs⟩
      exact String.toList_inj.mp (List.append_cancel_right hfront)

end Notes

section AttachedNotes

variable {indent depth : Nat} {n n' : AttachedNote Alias} {r s : List (List Char)}

theorem colon_notMem_colorSuffix (color : Option Color) : ':' ∉ (colorSuffix color).toList := by
  intro hmem
  rw [toList_colorSuffix] at hmem
  cases color with
  | none => cases hmem
  | some color =>
      simp only [Option.elim_some, toList_display, List.mem_cons, Char.reduceEq, false_or]
        at hmem
      have hcolon := isColorChar_of_mem_body color ':' hmem
      revert hcolon
      decide

namespace AttachedNote

/-- The first line of a note at an element, up to its text. -/
def opening (n : AttachedNote Alias) : String :=
  "note " ++ n.side.keyword ++ " of " ++ n.target.name ++ colorSuffix n.color

theorem lines_eq (depth : Nat) (n : AttachedNote Alias) :
    n.lines depth = noteLines depth n.opening n.text "end note" :=
  rfl

theorem colon_notMem_opening (hplain : n.target.IsPlain) : ':' ∉ n.opening.toList := by
  have htarget : ':' ∉ n.target.name.toList := by
    intro hmem
    have hcolon := hplain ':' hmem
    revert hcolon
    decide
  have hside : ':' ∉ n.side.keyword.toList := by
    cases n.side <;> decide
  simp [opening, htarget, hside, colon_notMem_colorSuffix]

theorem opening_inj
    (hplain : n.target.IsPlain)
    (hplain' : n'.target.IsPlain)
    (h : n.opening = n'.opening) :
    n.side = n'.side ∧ n.target = n'.target ∧ n.color = n'.color := by
  obtain ⟨side, target, text, color⟩ := n
  obtain ⟨side', target', text', color'⟩ := n'
  have hblank : ∀ color : Option Color, ∀ c ∈ (colorSuffix color).toList.head?,
      isAliasChar c = false := by
    intro color
    cases color <;> simp [toList_colorSuffix]
    decide
  have hchars := congrArg String.toList h
  cases side <;> cases side' <;> simp [opening, Side.keyword] at hchars ⊢
  all_goals
    obtain ⟨rfl, hcolor⟩ := alias_cut hplain hplain' (hblank color) (hblank color') hchars
    exact ⟨rfl, colorSuffix_cut_end hcolor⟩

/-- The lines of a note at an element are cut off, and determine the note. -/
theorem lines_cut
    (hplain : n.target.IsPlain)
    (hplain' : n'.target.IsPlain)
    (h : (n.lines depth).map (Line.laid indent) ++ r =
      (n'.lines depth).map (Line.laid indent) ++ s) :
    n = n' ∧ r = s := by
  rw [lines_eq, lines_eq] at h
  obtain ⟨hopening, htext, hrs⟩ := noteLines_cut (colon_notMem_opening hplain)
    (colon_notMem_opening hplain') (by decide) (by decide) h
  obtain ⟨hside, htarget, hcolor⟩ := opening_inj hplain hplain' hopening
  obtain ⟨side, target, text, color⟩ := n
  obtain ⟨side', target', text', color'⟩ := n'
  simp_all

end AttachedNote

end AttachedNotes

end UmlText
