import Mathlib.Tactic.SplitIfs
import UmlText.Text.Escape

/-!
# The pieces of an escaped text

An escaped text is read from left to right in *pieces*: one of the two escape characters
together with the character after it, or any other character, which stands *bare*.  Escaping
writes exactly one piece for each character of a text, and that piece stands for the
character whatever position the text is written at.  So reading never loses its place, and
gives the text back.
-/

namespace UmlText

/-- The characters that belong together with the one after them. -/
def isEscape (c : Char) : Bool :=
  c = '~' || c = '\\'

/-- A piece of an escaped text. -/
inductive Piece where
  | bare (c : Char)
  | pair (mark c : Char)
  deriving DecidableEq, Repr

namespace Piece

def chars : Piece → List Char
  | bare c => [c]
  | pair mark c => [mark, c]

/-- What reading a piece gives. -/
def meaning : Piece → List Char
  | bare c => [c]
  | pair mark c =>
      if mark = '~' then [c]
      else if c = 'n' then ['\n']
      else if c = 'r' then ['\r']
      else if c = '\\' then ['\\']
      else [mark, c]

/-- The piece is one that reading cuts off. -/
def Proper : Piece → Prop
  | bare c => isEscape c = false
  | pair mark _ => isEscape mark = true

end Piece

/-- The pieces of an escaped text.  An escape character at the very end has nothing to
belong to and stands bare. -/
def pieces : List Char → List Piece
  | [] => []
  | [c] => [.bare c]
  | c :: d :: rest =>
      if isEscape c then .pair c d :: pieces rest else .bare c :: pieces (d :: rest)

section Reading

variable {c mark : Char} {l : List Char}

theorem pieces_cons_bare (h : isEscape c = false) : pieces (c :: l) = .bare c :: pieces l := by
  cases l with
  | nil => rfl
  | cons d rest => simp [pieces, h]

theorem pieces_cons_pair (h : isEscape mark = true) :
    pieces (mark :: c :: l) = .pair mark c :: pieces l := by
  simp [pieces, h]

/-- Reading goes piece by piece. -/
theorem unescapeChars_eq (l : List Char) :
    unescapeChars l = (pieces l).flatMap Piece.meaning := by
  fun_induction pieces l with
  | case1 => rfl
  | case2 c => simp [unescapeChars, Piece.meaning]
  | case3 c d rest h ih =>
      have hmark : c = '~' ∨ c = '\\' := by
        simpa [isEscape] using h
      rcases hmark with rfl | rfl
      · simp [unescapeChars, Piece.meaning, ih]
      · by_cases hn : d = 'n'
        · subst hn
          simp [unescapeChars, Piece.meaning, ih]
        · by_cases hr : d = 'r'
          · subst hr
            simp [unescapeChars, Piece.meaning, ih]
          · by_cases hback : d = '\\'
            · subst hback
              simp [unescapeChars, Piece.meaning, ih]
            · simp [unescapeChars, Piece.meaning, ih, hn, hr, hback]
  | case4 c d rest h ih =>
      have hplain : c ≠ '~' ∧ c ≠ '\\' := by
        simpa [isEscape] using h
      simp [unescapeChars, Piece.meaning, ih, hplain.1, hplain.2]

/-- Proper pieces that are written one after the other are found again. -/
theorem pieces_flatMap_chars
    {ps : List Piece}
    (h : ∀ p ∈ ps, p.Proper) :
    pieces (ps.flatMap Piece.chars) = ps := by
  induction ps with
  | nil => rfl
  | cons p rest ih =>
      obtain ⟨hp, hrest⟩ := List.forall_mem_cons.mp h
      rw [List.flatMap_cons]
      cases p with
      | bare c =>
          change pieces (c :: rest.flatMap Piece.chars) = _
          rw [pieces_cons_bare hp, ih hrest]
      | pair mark c =>
          change pieces (mark :: c :: rest.flatMap Piece.chars) = _
          rw [pieces_cons_pair hp, ih hrest]

end Reading

/-- The piece that is written for one character of a text. -/
def pieceOf
    (p : Position)
    (previous : Option Char)
    (atStart : Bool)
    (c : Char)
    (rest : List Char) : Piece :=
  if c = '\n' then (if p.multiline then .bare '\n' else .pair '\\' 'n')
  else if c = '\r' then .pair '\\' 'r'
  else if c = '\\' then .pair '\\' '\\'
  else if c = '~' then .pair '~' '~'
  else if isLinePadding c then .bare c
  else if needsGuard p previous atStart c rest then .pair '~' c
  else .bare c

/-- The pieces that are written for the rest of a text, given the character before it. -/
def piecesFrom (p : Position) : Option Char → Bool → List Char → List Piece
  | _, _, [] => []
  | previous, atStart, c :: rest =>
      pieceOf p previous atStart c rest ::
        piecesFrom p (some c) (staysAtStart atStart c) rest

section Writing

variable {p : Position} {previous : Option Char} {atStart : Bool} {c : Char} {rest : List Char}

theorem chars_pieceOf :
    (pieceOf p previous atStart c rest).chars = escapeChar p previous atStart c rest := by
  unfold pieceOf escapeChar
  split_ifs <;> rfl

theorem proper_pieceOf : (pieceOf p previous atStart c rest).Proper := by
  unfold pieceOf
  split_ifs <;> simp_all [Piece.Proper, isEscape]

theorem meaning_pieceOf : (pieceOf p previous atStart c rest).meaning = [c] := by
  unfold pieceOf
  split_ifs <;> simp_all [Piece.meaning]

/-- A bare piece is the character it is written for. -/
theorem pieceOf_eq_bare {d : Char} (h : pieceOf p previous atStart c rest = .bare d) : c = d := by
  have hmeaning : (pieceOf p previous atStart c rest).meaning = [c] := meaning_pieceOf
  rw [h] at hmeaning
  simpa [Piece.meaning, eq_comm] using hmeaning

theorem flatMap_chars_piecesFrom :
    ∀ (previous : Option Char) (atStart : Bool) (l : List Char),
      (piecesFrom p previous atStart l).flatMap Piece.chars = escapeFrom p previous atStart l
  | _, _, [] => rfl
  | _, _, c :: rest => by
      rw [piecesFrom, escapeFrom, List.flatMap_cons, chars_pieceOf, flatMap_chars_piecesFrom]

theorem proper_of_mem_piecesFrom :
    ∀ (previous : Option Char) (atStart : Bool) (l : List Char),
      ∀ q ∈ piecesFrom p previous atStart l, q.Proper
  | _, _, [], q, hq => by
      cases hq
  | _, _, c :: rest, q, hq => by
      rcases List.mem_cons.mp hq with rfl | hq
      · exact proper_pieceOf
      · exact proper_of_mem_piecesFrom _ _ rest q hq

theorem flatMap_meaning_piecesFrom :
    ∀ (previous : Option Char) (atStart : Bool) (l : List Char),
      (piecesFrom p previous atStart l).flatMap Piece.meaning = l
  | _, _, [] => rfl
  | _, _, c :: rest => by
      rw [piecesFrom, List.flatMap_cons, meaning_pieceOf, flatMap_meaning_piecesFrom]
      rfl

/-- The pieces of an escaped text are those that were written for its characters. -/
theorem pieces_escapeFrom (l : List Char) :
    pieces (escapeFrom p previous atStart l) = piecesFrom p previous atStart l := by
  rw [← flatMap_chars_piecesFrom]
  exact pieces_flatMap_chars (proper_of_mem_piecesFrom previous atStart l)

end Writing

theorem unescapeChars_escapeChars (p : Position) (chars : List Char) :
    unescapeChars (escapeChars p chars) = chars := by
  rw [escapeChars, unescapeChars_eq, pieces_escapeFrom, flatMap_meaning_piecesFrom]

/-- Reading an escaped text gives the text back, whatever position it was escaped for; so no
two texts are escaped alike. -/
theorem unescape_escape_and_escape_injective (p : Position) :
    (∀ text, unescape (escape p text) = text) ∧ Function.Injective (escape p) := by
  have hback : ∀ text, unescape (escape p text) = text := by
    intro text
    unfold unescape escape
    rw [String.toList_ofList, unescapeChars_escapeChars, String.ofList_toList]
  exact ⟨hback, Function.LeftInverse.injective hback⟩

end UmlText
