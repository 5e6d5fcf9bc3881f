import UmlText.Proofs.Authored
import UmlText.Proofs.Text.Edges
import UmlText.Proofs.Text.Laid

/-!
# The label on the bar at the end of a fork

The label of the bar at the end of a fork stands between two braces.  It is escaped like a
text that reaches up to the end of its line, and there a brace has no meaning.  So each
closing brace of the label is written bare, and a reader takes the first of them for the one
that ends the label: what is read is the label up to its first closing brace, and the line
is closed by its last character alone exactly when the label has no closing brace at all.
-/

namespace UmlText

/-- The piece has its character without an escaping `~`.  A backslash guards only what it is
read together with, and a mark is not among that. -/
def Piece.isUnguarded (mark : Char) (q : Piece) : Bool :=
  q = .bare mark || q = .pair '\\' mark

/-- What is read of a line between the first opening mark that stands bare and the first
closing mark behind it that is not escaped. -/
def enclosed (opening closing : Char) (line : List Char) : List Char :=
  (((pieces line).dropWhile fun q => q ≠ .bare opening).tail.takeWhile fun q =>
    !q.isUnguarded closing).flatMap Piece.meaning

/-- The last character of a line, and no other one, is a closing mark that is not escaped. -/
def ClosedOnlyAtEnd (closing : Char) (line : List Char) : Prop :=
  (pieces line).countP (Piece.isUnguarded closing) = 1 ∧
    (pieces line).getLast?.any (Piece.isUnguarded closing) = true

instance (closing : Char) (line : List Char) : Decidable (ClosedOnlyAtEnd closing line) :=
  inferInstanceAs (Decidable (_ ∧ _))

section Words

variable {l m : List Char}

theorem pieces_append_of_bare (h : ∀ c ∈ l, isEscape c = false) :
    pieces (l ++ m) = l.map .bare ++ pieces m := by
  induction l with
  | nil => rfl
  | cons c rest ih =>
      obtain ⟨hc, hrest⟩ := List.forall_mem_cons.mp h
      rw [List.cons_append, pieces_cons_bare hc, ih hrest]
      rfl

/-- A word is searched for a mark piece by piece. -/
theorem countP_map_bare {mark : Char} :
    (l.map Piece.bare).countP (Piece.isUnguarded mark) = l.count mark := by
  rw [List.countP_map, List.count]
  refine List.countP_congr fun c _ => ?_
  simp [Piece.isUnguarded]

end Words

section Exposed

variable
  {p : Position} {mark : Char}
  (hmultiline : p.multiline = false)
  (hleaves : p.leaves mark = true)
  (hletter : mark ≠ 'n' ∧ mark ≠ 'r')
include hmultiline hleaves hletter

/-- Where a mark is harmless in a text, it is not escaped; nothing else is written like it.
-/
theorem isUnguarded_pieceOf
    (previous : Option Char)
    (atStart : Bool)
    (c : Char)
    (rest : List Char) :
    (pieceOf p previous atStart c rest).isUnguarded mark = (c == mark) := by
  have hchars : ∀ c, p.leaves c = true → (pieceOf p previous atStart c rest).chars = [c] := by
    intro c hc
    rw [chars_pieceOf, escapeChar_of_leaves hmultiline hc]
  have hmeaning : (pieceOf p previous atStart c rest).meaning = [c] := meaning_pieceOf
  have hback : mark ≠ '\\' := by
    rintro rfl
    simp [Position.leaves, isEscape] at hleaves
  rw [Bool.eq_iff_iff, beq_iff_eq, Piece.isUnguarded, Bool.or_eq_true, decide_eq_true_eq,
    decide_eq_true_eq]
  constructor
  · rintro (hbare | hpair)
    · exact pieceOf_eq_bare hbare
    · -- the reading of such a piece has two characters, and that of a written one has one
      rw [hpair] at hmeaning
      simp [Piece.meaning, hletter, hback] at hmeaning
  · rintro rfl
    have hwritten := hchars c hleaves
    cases hpiece : pieceOf p previous atStart c rest with
    | bare d => exact .inl (by rw [pieceOf_eq_bare hpiece])
    | pair d e =>
        rw [hpiece] at hwritten
        cases hwritten

theorem countP_piecesFrom
    (previous : Option Char)
    (atStart : Bool)
    (l : List Char) :
    (piecesFrom p previous atStart l).countP (Piece.isUnguarded mark) = l.count mark := by
  induction l generalizing previous atStart with
  | nil => rfl
  | cons c rest ih =>
      rw [piecesFrom, List.countP_cons, ih,
        isUnguarded_pieceOf hmultiline hleaves hletter previous atStart c rest, List.count_cons]

/-- Up to the first mark in it, or else up to the one behind it, a text is read back. -/
theorem flatMap_meaning_takeWhile_piecesFrom
    (behind : List Piece)
    (previous : Option Char)
    (atStart : Bool)
    (l : List Char) :
    ((piecesFrom p previous atStart l ++ .bare mark :: behind).takeWhile fun q =>
      !q.isUnguarded mark).flatMap Piece.meaning = l.takeWhile fun c => c ≠ mark := by
  induction l generalizing previous atStart with
  | nil =>
      have hmark : (Piece.bare mark).isUnguarded mark = true := by simp [Piece.isUnguarded]
      rw [piecesFrom, List.nil_append, List.takeWhile_cons_of_neg (by simp [hmark])]
      rfl
  | cons c rest ih =>
      have hpiece := isUnguarded_pieceOf hmultiline hleaves hletter previous atStart c rest
      rw [piecesFrom, List.cons_append]
      by_cases hc : c = mark
      · rw [List.takeWhile_cons_of_neg (by rw [hpiece]; simp [hc]),
          List.takeWhile_cons_of_neg (by simp [hc])]
        rfl
      · rw [List.takeWhile_cons_of_pos (by simp [hpiece, hc]),
          List.takeWhile_cons_of_pos (by simp [hc]), List.flatMap_cons, meaning_pieceOf, ih]
        rfl

end Exposed

namespace Activity

section Lines

variable (label : String) (indent depth : Nat)

/-- The line of a bar with a label, as it is written. -/
def joinLine : List Char :=
  (⟨depth, "end fork \x7b" ++ escape .label label ++ "\x7d"⟩ : Line).laid indent

/-- The words in front of the label, and the label with the brace behind it. -/
theorem pieces_joinLine :
    pieces (joinLine label indent depth) =
      (List.replicate (depth * indent) ' ' ++ "end fork ".toList).map .bare ++
        .bare '\x7b' :: (piecesFrom .label none true label.toList ++ [.bare '\x7d']) := by
  have hlead : ∀ c ∈ List.replicate (depth * indent) ' ' ++ "end fork \x7b".toList,
      isEscape c = false := by
    refine List.forall_mem_append.mpr ⟨fun c hc => ?_, by decide⟩
    rw [List.eq_of_mem_replicate hc]
    decide
  have hline : joinLine label indent depth =
      (List.replicate (depth * indent) ' ' ++ "end fork \x7b".toList) ++
        ((piecesFrom .label none true label.toList).flatMap Piece.chars ++ ['\x7d']) := by
    simp [joinLine, Line.laid, escape, escapeChars, flatMap_chars_piecesFrom]
  rw [hline, pieces_append_of_bare hlead,
    pieces_flatMap_chars_append (proper_of_mem_piecesFrom none true _)]
  simp [pieces]

/-- How often a closing brace is written in the line without being escaped. -/
theorem countP_joinLine :
    (pieces (joinLine label indent depth)).countP (Piece.isUnguarded '\x7d') =
      label.toList.count '\x7d' + 1 := by
  have hlead : (List.replicate (depth * indent) ' ' ++ "end fork ".toList).count '\x7d' = 0 := by
    simp [List.count_append, List.count_replicate]
  rw [pieces_joinLine, List.countP_append, countP_map_bare, hlead, List.countP_cons,
    List.countP_append, countP_piecesFrom rfl (by decide) (by decide)]
  simp [Piece.isUnguarded]

theorem getLast?_joinLine :
    (pieces (joinLine label indent depth)).getLast? = some (.bare '\x7d') := by
  rw [pieces_joinLine]
  simp [List.getLast?_cons]

/-- A reader takes the first closing brace for the end of the label. -/
theorem enclosed_joinLine :
    enclosed '\x7b' '\x7d' (joinLine label indent depth) =
      label.toList.takeWhile fun c => c ≠ '\x7d' := by
  have hlead : ∀ c ∈ List.replicate (depth * indent) ' ' ++ "end fork ".toList, c ≠ '\x7b' := by
    refine List.forall_mem_append.mpr ⟨fun c hc => ?_, by decide⟩
    rw [List.eq_of_mem_replicate hc]
    decide
  have hskipped :
      ∀ q ∈ (List.replicate (depth * indent) ' ' ++ "end fork ".toList).map Piece.bare,
        decide (q ≠ .bare '\x7b') = true := by
    intro q hq
    obtain ⟨c, hc, rfl⟩ := List.mem_map.mp hq
    simp [hlead c hc]
  rw [enclosed, pieces_joinLine, List.dropWhile_append_of_pos hskipped,
    List.dropWhile_cons_of_neg (by simp), List.tail_cons]
  exact flatMap_meaning_takeWhile_piecesFrom rfl (by decide) (by decide) [] none true label.toList

/-- The line is closed by its last character alone when no brace of the label stands before
it. -/
theorem closedOnlyAtEnd_joinLine_iff :
    ClosedOnlyAtEnd '\x7d' (joinLine label indent depth) ↔ '\x7d' ∉ label.toList := by
  have hlast : (Piece.bare '\x7d').isUnguarded '\x7d' = true := by decide
  rw [ClosedOnlyAtEnd, countP_joinLine, getLast?_joinLine, Option.any_some, hlast,
    ← List.count_eq_zero]
  simp

end Lines

/-- The bar at the end of a fork is the last line of the fork.  Every closing brace of its
label stands there without an escape, before the brace that ends the line; so what is read
for the label ends at its first closing brace, and the line is closed only at its end
exactly when the label has none. -/
theorem Node.join_closedOnlyAtEnd_iff
    (label : String)
    (branches : List (List Node))
    (indent depth : Nat) :
    let line := joinLine label indent depth
    (((Node.parallel (.fork (.join label)) branches).lines depth).map (Line.laid indent)).getLast? =
        some line ∧
      (pieces line).countP (Piece.isUnguarded '\x7d') = label.toList.count '\x7d' + 1 ∧
      (pieces line).getLast? = some (.bare '\x7d') ∧
      enclosed '\x7b' '\x7d' line = label.toList.takeWhile (fun c => c ≠ '\x7d') ∧
      (ClosedOnlyAtEnd '\x7d' line ↔ '\x7d' ∉ label.toList) := by
  intro line
  have hlast : (((Node.parallel (.fork (.join label)) branches).lines depth).map
      (Line.laid indent)).getLast? = some line := by
    rw [Node.lines, List.map_append, List.map_singleton, List.getLast?_concat]
    rfl
  exact ⟨hlast, countP_joinLine label indent depth, getLast?_joinLine label indent depth,
    enclosed_joinLine label indent depth, closedOnlyAtEnd_joinLine_iff label indent depth⟩

/-- A fork with one empty branch, whose bar has a label with a closing brace in it. -/
def bracedFork : List (Authoring dialect) :=
  [.scope .fork false
    [.scope .branch false [], .call (.ok (.endJoin "a\x7db")) false]]

/-- A call accepts a label that closes its bar too early; only what stands in front of the
brace is read of it. -/
theorem not_closedOnlyAtEnd_of_bracedFork :
    dialect.Authored [.parallel (.fork (.join "a\x7db")) [[]]] ∧
      ¬ClosedOnlyAtEnd '\x7d' (joinLine "a\x7db" 2 0) ∧
      enclosed '\x7b' '\x7d' (joinLine "a\x7db" 2 0) = ['a'] :=
  ⟨⟨bracedFork, rfl⟩, by decide +kernel, by decide +kernel⟩

end Activity

end UmlText
