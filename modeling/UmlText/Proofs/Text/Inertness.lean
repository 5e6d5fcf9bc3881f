import UmlText.Activity.Basic
import UmlText.Proofs.Text.Pieces

/-!
# Escaped texts are inert

What stands bare in an escaped text has no effect at the position it was escaped for: it
does not end the production around it, switch a style, open a tag, or begin a line with a
sign or a word that means something there.  `Defused` lists these effects for the finished
text, as it is read in pieces; `defused_escapeChars` says that escaping avoids all of them.

Whether a character is guarded is decided from its neighbours in the text, while the effects
are about neighbours in what is written.  The two are brought together by
`exists_piecesFrom_of_append`: wherever the pieces are cut, those behind the cut are written
for a rest of the text, with what is known there of the line.
-/

namespace UmlText

/-- The characters whose guard depends on what is around them. -/
def IsOrdinary (c : Char) : Prop :=
  c ≠ '\n' ∧ isLinePadding c = false

instance (c : Char) : Decidable (IsOrdinary c) :=
  inferInstanceAs (Decidable (_ ∧ _))

theorem isOrdinary_of_isPairing {c : Char} (h : isPairing c = true) : IsOrdinary c := by
  have hall : (['*', '/', '"', '-', '_', '=', '['].all fun d => IsOrdinary d) = true := by
    decide
  exact of_decide_eq_true (List.all_eq_true.mp hall c (List.contains_iff_mem.mp h))

namespace Position

/-- The positions that a text may be written at. -/
def all : List Position :=
  [label, action, parenthesized, quoted, lane, stereotype, member, format, block]

/-- None of the special characters of a position ends a line or is padding. -/
def Regular (p : Position) : Prop :=
  ∀ c ∈ p.terminators ++ p.trailing ++ p.leaders, IsOrdinary c

instance (p : Position) : Decidable p.Regular :=
  List.decidableBAll IsOrdinary (p.terminators ++ p.trailing ++ p.leaders)

theorem regular_of_mem_all : ∀ p ∈ all, p.Regular := by
  decide

theorem markup_eq_false_of_mem_all : ∀ p ∈ all, p ≠ format → p.markup = false := by
  decide

theorem multiline_eq_false_of_mem_all : ∀ p ∈ all, p ≠ block → p.multiline = false := by
  decide

end Position

namespace Piece

/-- The piece that ends a line. -/
def endsLine (p : Position) (q : Piece) : Bool :=
  q = if p.multiline then .bare '\n' else .pair '\\' 'n'

/-- The pieces that may stand before the start of a line. -/
def isPadding (q : Piece) : Bool :=
  q = .bare ' ' || q = .bare '\t' || q = .pair '\\' 'r'

end Piece

/-- The lines of an escaped text. -/
def lines (p : Position) (out : List Char) : List (List Piece) :=
  (pieces out).splitOnP (Piece.endsLine p)

/-- Nothing in a text has an effect at a position. -/
structure Defused (p : Position) (out : List Char) : Prop where
  /-- The production around the text is not ended. -/
  terminators : ∀ c, .bare c ∈ pieces out → c ∉ p.terminators
  /-- No style is switched, and no link is opened. -/
  pairs : ∀ front c back, pieces out = front ++ .bare c :: .bare c :: back → isPairing c = false
  /-- No tag is opened, except where tags are meant to be. -/
  tags : p ≠ .format → ∀ front back, pieces out = front ++ .bare '<' :: back →
    ∀ next, (back.flatMap Piece.chars).head? = some next → opensTag next = false
  /-- No line begins with a sign that has a meaning there. -/
  leaders : ∀ line ∈ lines p out, ∀ c rest,
    line.dropWhile Piece.isPadding = .bare c :: rest → c ∉ p.leaders
  /-- No line of a note begins with the word that would close it. -/
  closing : p = .block → ∀ line ∈ lines p out,
    ¬closingStem.map Piece.bare <+: line.dropWhile Piece.isPadding
  /-- The last character does not give an action its shape. -/
  trailing : p = .action → ∀ c, (pieces out).getLast? = some (.bare c) →
    ∀ shape : Activity.Shape, shape.terminator ≠ c
  /-- No escape character is left over for what comes behind the text. -/
  complete : ∀ q ∈ pieces out, q.Proper
  no_carriageReturn : '\r' ∉ out
  no_newline : p ≠ .block → '\n' ∉ out

section Lines

variable {α : Type} {f : α → Bool}

/-- The pieces between separators: the first one is where the list begins, and each of the
others behind a separator. -/
theorem splitOnP_pieces (l : List α) :
    ∃ first others, l.splitOnP f = first :: others ∧ (∃ back, l = first ++ back) ∧
      ∀ line ∈ others, ∃ front sep back, l = front ++ sep :: line ++ back ∧ f sep = true := by
  induction l with
  | nil => exact ⟨[], [], List.splitOnP_nil, ⟨[], rfl⟩, by simp⟩
  | cons x xs ih =>
      obtain ⟨first, others, hsplit, ⟨back, hfirst⟩, hothers⟩ := ih
      by_cases hx : f x = true
      · refine ⟨[], first :: others, ?_, ⟨x :: xs, rfl⟩, fun line hline => ?_⟩
        · rw [List.splitOnP_cons_eq_if_modifyHead, if_pos hx, hsplit]
        · rcases List.mem_cons.mp hline with rfl | hline
          · exact ⟨[], x, back, by rw [hfirst]; rfl, hx⟩
          · obtain ⟨front, sep, back, hxs, hsep⟩ := hothers line hline
            exact ⟨x :: front, sep, back, by rw [hxs]; simp, hsep⟩
      · refine ⟨x :: first, others, ?_, ⟨back, by rw [hfirst]; rfl⟩, fun line hline => ?_⟩
        · rw [List.splitOnP_cons_eq_if_modifyHead, if_neg hx, hsplit]
          rfl
        · obtain ⟨front, sep, back, hxs, hsep⟩ := hothers line hline
          exact ⟨x :: front, sep, back, by rw [hxs]; simp, hsep⟩

/-- A line stands at the beginning or behind a separator. -/
theorem exists_of_mem_splitOnP
    {l line : List α}
    (h : line ∈ l.splitOnP f) :
    ∃ front back, l = front ++ (line ++ back) ∧ ∀ last ∈ front.getLast?, f last = true := by
  obtain ⟨first, others, hsplit, ⟨back, hfirst⟩, hothers⟩ := splitOnP_pieces (f := f) l
  rw [hsplit] at h
  rcases List.mem_cons.mp h with rfl | h
  · exact ⟨[], back, hfirst, by simp⟩
  · obtain ⟨front, sep, back, hl, hsep⟩ := hothers line h
    exact ⟨front ++ [sep], back, by rw [hl]; simp, by simpa using hsep⟩

end Lines

section Guards

variable {p : Position} {previous : Option Char} {atStart : Bool} {c : Char} {rest : List Char}

theorem needsGuard_eq_false_iff :
    needsGuard p previous atStart c rest = false ↔
      (isPairing c = true → previous ≠ some c ∧ rest.head? ≠ some c) ∧
      (atStart = true → c ∉ p.leaders ∧
        (p.multiline = true → ¬closingStem <+: c :: rest)) ∧
      (c = '<' → p.markup = false → rest.head?.any opensTag = false) ∧
      c ∉ p.terminators ∧
      (rest = [] → c ∉ p.trailing) := by
  simp only [needsGuard, Bool.or_eq_false_iff, and_assoc]
  refine and_congr ?pairs (and_congr ?start (and_congr ?tag (and_congr ?anywhere ?last)))
  case pairs => cases isPairing c <;> simp
  case start =>
    cases atStart <;> cases p.multiline <;> simp [← Bool.not_eq_true, List.isPrefixOf_iff_prefix]
  case tag => by_cases hc : c = '<' <;> cases p.markup <;> simp [hc]
  case anywhere => simp
  case last => cases rest <;> simp

/-- What stands bare was looked at, or is blank. -/
theorem unguarded_of_pieceOf_eq_bare
    {d : Char}
    (h : pieceOf p previous atStart c rest = .bare d) :
    c = '\n' ∨ isLinePadding c = true ∨ needsGuard p previous atStart c rest = false := by
  unfold pieceOf at h
  split_ifs at h <;> simp_all

/-- The piece that ends a line is written for a line break. -/
theorem eq_newline_of_endsLine (h : (pieceOf p previous atStart c rest).endsLine p = true) :
    c = '\n' := by
  have hmeaning : (pieceOf p previous atStart c rest).meaning = [c] := meaning_pieceOf
  have hpiece : pieceOf p previous atStart c rest =
      if p.multiline then .bare '\n' else .pair '\\' 'n' := by
    simpa [Piece.endsLine] using h
  rw [hpiece] at hmeaning
  split_ifs at hmeaning <;> simpa [Piece.meaning, eq_comm] using hmeaning

/-- Padding is written for characters behind which a line still starts. -/
theorem staysAtStart_of_isPadding (h : (pieceOf p previous atStart c rest).isPadding = true) :
    staysAtStart true c = true := by
  have hmeaning : (pieceOf p previous atStart c rest).meaning = [c] := meaning_pieceOf
  have hpiece : (pieceOf p previous atStart c rest = .bare ' ' ∨
      pieceOf p previous atStart c rest = .bare '\t') ∨
      pieceOf p previous atStart c rest = .pair '\\' 'r' := by
    simpa [Piece.isPadding] using h
  rcases hpiece with (hpiece | hpiece) | hpiece <;>
    · rw [hpiece] at hmeaning
      obtain rfl : _ = c := by simpa [Piece.meaning] using hmeaning
      rfl

end Guards

section Cuts

variable {p : Position}

/-- Wherever the pieces of a text are cut, those behind the cut are written for a rest of
the text.  A line starts there behind the end of a line, and behind padding at the start of
a line. -/
theorem exists_piecesFrom_of_append
    {front back : List Piece}
    {previous : Option Char}
    {atStart : Bool}
    {l : List Char}
    (h : piecesFrom p previous atStart l = front ++ back) :
    ∃ previous' atStart' rest, back = piecesFrom p previous' atStart' rest ∧
      ((∃ last ∈ front.getLast?, last.endsLine p = true) → atStart' = true) ∧
      (atStart = true → (∀ q ∈ front, q.isPadding = true) → atStart' = true) := by
  induction front generalizing previous atStart l with
  | nil => exact ⟨previous, atStart, l, h.symm, by simp, fun hstart _ => hstart⟩
  | cons q front ih =>
      cases l with
      | nil => cases h
      | cons c rest =>
          obtain ⟨hq, hback⟩ := List.cons.inj h
          obtain ⟨previous', atStart', rest', hrest, hends, hpads⟩ := ih hback
          refine ⟨previous', atStart', rest', hrest, ?_, ?_⟩
          · rintro ⟨last, hlast, hlastEnds⟩
            cases front with
            | nil =>
                obtain rfl : q = last := by simpa using hlast
                rw [← hq] at hlastEnds
                obtain rfl := eq_newline_of_endsLine hlastEnds
                exact hpads rfl (by simp)
            | cons q' front' => exact hends ⟨last, by simpa using hlast, hlastEnds⟩
          · intro hstart hfront
            subst hstart
            obtain ⟨hpad, hfront⟩ := List.forall_mem_cons.mp hfront
            rw [← hq] at hpad
            exact hpads (staysAtStart_of_isPadding hpad) hfront

variable {chars : List Char}

theorem pieces_escapeChars : pieces (escapeChars p chars) = piecesFrom p none true chars :=
  pieces_escapeFrom chars

/-- Behind the padding of a line the pieces are written for characters at the start of a
line. -/
theorem exists_piecesFrom_of_mem_lines
    {line : List Piece}
    (h : line ∈ lines p (escapeChars p chars)) :
    ∃ back previous rest,
      line.dropWhile Piece.isPadding ++ back = piecesFrom p previous true rest := by
  obtain ⟨front, back, hpieces, hfront⟩ := exists_of_mem_splitOnP h
  rw [pieces_escapeChars] at hpieces
  obtain ⟨previous, atStart, rest, hline, hends, hpads⟩ := exists_piecesFrom_of_append hpieces
  have hstart : atStart = true := by
    cases hlast : front.getLast? with
    | none => exact hpads rfl (by simp [List.getLast?_eq_none_iff.mp hlast])
    | some last => exact hends ⟨last, hlast, hfront last hlast⟩
  subst hstart
  have hcut : piecesFrom p previous true rest =
      line.takeWhile Piece.isPadding ++ (line.dropWhile Piece.isPadding ++ back) := by
    rw [← List.append_assoc, List.takeWhile_append_dropWhile, hline]
  obtain ⟨previous', atStart', rest', hback, _, hpads'⟩ := exists_piecesFrom_of_append hcut
  have hstart' : atStart' = true := hpads' rfl (List.all_eq_true.mp List.all_takeWhile)
  subst hstart'
  exact ⟨back, previous', rest', hback⟩

/-- A bare ordinary character comes from the text, and found no reason for a guard there. -/
theorem of_piecesFrom_eq_bare_cons
    {previous : Option Char}
    {atStart : Bool}
    {l : List Char}
    {c : Char}
    {back : List Piece}
    (h : piecesFrom p previous atStart l = .bare c :: back) :
    ∃ rest, l = c :: rest ∧ piecesFrom p (some c) (staysAtStart atStart c) rest = back ∧
      (IsOrdinary c → needsGuard p previous atStart c rest = false) := by
  cases l with
  | nil => cases h
  | cons d rest =>
      obtain ⟨hpiece, hback⟩ := List.cons.inj h
      obtain rfl := pieceOf_eq_bare hpiece
      refine ⟨rest, rfl, hback, fun ⟨hnewline, hpadding⟩ => ?_⟩
      rcases unguarded_of_pieceOf_eq_bare hpiece with hd | hd | hd
      · exact absurd hd hnewline
      · rw [hpadding] at hd
        cases hd
      · exact hd

/-- The same for a bare character anywhere in an escaped text. -/
theorem exists_unguarded
    {front back : List Piece}
    {c : Char}
    (h : pieces (escapeChars p chars) = front ++ .bare c :: back)
    (hc : IsOrdinary c) :
    ∃ previous atStart rest, needsGuard p previous atStart c rest = false ∧
      piecesFrom p (some c) (staysAtStart atStart c) rest = back := by
  rw [pieces_escapeChars] at h
  obtain ⟨previous, atStart, l, hback, _, _⟩ := exists_piecesFrom_of_append h
  obtain ⟨rest, _, hrest, hguard⟩ := of_piecesFrom_eq_bare_cons hback.symm
  exact ⟨previous, atStart, rest, hguard hc, hrest⟩

end Cuts

section Effects

variable {p : Position} {chars : List Char} {front back : List Piece} {c : Char}

theorem not_mem_terminators_of_bare
    (h : .bare c ∈ pieces (escapeChars p chars))
    (hc : IsOrdinary c) :
    c ∉ p.terminators := by
  obtain ⟨front, back, hpieces⟩ := List.append_of_mem h
  obtain ⟨_, _, _, hguard, _⟩ := exists_unguarded hpieces hc
  obtain ⟨_, _, _, hterminators, _⟩ := needsGuard_eq_false_iff.mp hguard
  exact hterminators

theorem isPairing_eq_false_of_bare_bare
    (h : pieces (escapeChars p chars) = front ++ .bare c :: .bare c :: back) :
    isPairing c = false := by
  cases hpair : isPairing c with
  | false => rfl
  | true =>
      obtain ⟨_, _, rest, hguard, hrest⟩ := exists_unguarded h (isOrdinary_of_isPairing hpair)
      obtain ⟨rest', rfl, _, _⟩ := of_piecesFrom_eq_bare_cons hrest
      obtain ⟨hpairs, _⟩ := needsGuard_eq_false_iff.mp hguard
      exact absurd rfl (hpairs hpair).2

/-- What is written first for a rest of a text is its first character or an escape
character. -/
theorem opensTag_of_head
    {previous : Option Char}
    {atStart : Bool}
    {l : List Char}
    {next : Char}
    (h : ((piecesFrom p previous atStart l).flatMap Piece.chars).head? = some next)
    (htag : l.head?.any opensTag = false) :
    opensTag next = false := by
  cases l with
  | nil => cases h
  | cons d rest =>
      have hproper : (pieceOf p previous atStart d rest).Proper := proper_pieceOf
      rw [piecesFrom, List.flatMap_cons] at h
      cases hpiece : pieceOf p previous atStart d rest with
      | bare e =>
          rw [hpiece] at h
          obtain rfl : e = next := by simpa [Piece.chars] using h
          obtain rfl := pieceOf_eq_bare hpiece
          simpa using htag
      | pair mark e =>
          rw [hpiece] at h hproper
          obtain rfl : mark = next := by simpa [Piece.chars] using h
          have hmark : mark = '~' ∨ mark = '\\' := by
            simpa [Piece.Proper, isEscape] using hproper
          rcases hmark with rfl | rfl <;> rfl

theorem opensTag_eq_false_behind_bare
    (h : pieces (escapeChars p chars) = front ++ .bare '<' :: back)
    (hmarkup : p.markup = false)
    {next : Char}
    (hnext : (back.flatMap Piece.chars).head? = some next) :
    opensTag next = false := by
  obtain ⟨_, _, rest, hguard, hrest⟩ := exists_unguarded h (by decide)
  obtain ⟨_, _, htags, _⟩ := needsGuard_eq_false_iff.mp hguard
  rw [← hrest] at hnext
  exact opensTag_of_head hnext (htags rfl hmarkup)

variable {line : List Piece}

theorem not_mem_leaders_of_mem_lines
    (hline : line ∈ lines p (escapeChars p chars))
    (h : line.dropWhile Piece.isPadding = .bare c :: back)
    (hc : IsOrdinary c) :
    c ∉ p.leaders := by
  obtain ⟨_, _, _, hcut⟩ := exists_piecesFrom_of_mem_lines hline
  rw [h] at hcut
  obtain ⟨rest, _, _, hguard⟩ := of_piecesFrom_eq_bare_cons hcut.symm
  obtain ⟨_, hstart, _⟩ := needsGuard_eq_false_iff.mp (hguard hc)
  exact (hstart rfl).1

theorem not_closingStem_of_mem_lines
    (hline : line ∈ lines p (escapeChars p chars))
    (hmultiline : p.multiline = true) :
    ¬closingStem.map Piece.bare <+: line.dropWhile Piece.isPadding := by
  rintro ⟨rest, h⟩
  obtain ⟨_, _, _, hcut⟩ := exists_piecesFrom_of_mem_lines hline
  rw [← h] at hcut
  -- the three letters of the stem are the next three of the text
  obtain ⟨_, rfl, hcut, hguard⟩ := of_piecesFrom_eq_bare_cons hcut.symm
  obtain ⟨_, rfl, hcut, _⟩ := of_piecesFrom_eq_bare_cons hcut
  obtain ⟨_, rfl, _, _⟩ := of_piecesFrom_eq_bare_cons hcut
  obtain ⟨_, hstart, _⟩ := needsGuard_eq_false_iff.mp (hguard (by decide))
  exact (hstart rfl).2 hmultiline ⟨_, rfl⟩

theorem not_mem_trailing_of_getLast
    (h : (pieces (escapeChars p chars)).getLast? = some (.bare c))
    (hc : IsOrdinary c) :
    c ∉ p.trailing := by
  obtain ⟨front, hpieces⟩ := List.getLast?_eq_some_iff.mp h
  obtain ⟨_, _, rest, hguard, hrest⟩ := exists_unguarded hpieces hc
  obtain ⟨_, _, _, _, htrailing⟩ := needsGuard_eq_false_iff.mp hguard
  cases rest with
  | nil => exact htrailing rfl
  | cons d rest => cases hrest

/-- No carriage return is written, and a line break only where lines stay lines. -/
theorem of_mem_escapeFrom {x : Char} :
    ∀ (previous : Option Char) (atStart : Bool) (l : List Char),
      x ∈ escapeFrom p previous atStart l → x ≠ '\r' ∧ (x = '\n' → p.multiline = true)
  | _, _, [], h => by
      cases h
  | previous, atStart, c :: rest, h => by
      rw [escapeFrom] at h
      rcases List.mem_append.mp h with h | h
      · unfold escapeChar at h
        split_ifs at h <;> grind
      · exact of_mem_escapeFrom _ _ rest h

end Effects

/-- Whatever the text is, nothing in it has an effect where it is written. -/
theorem defused_escape
    (p : Position)
    (hp : p ∈ Position.all)
    (text : String) :
    Defused p (escape p text).toList := by
  have hregular := Position.regular_of_mem_all p hp
  rw [escape, String.toList_ofList]
  constructor
  case terminators =>
    intro c hmem hc
    exact not_mem_terminators_of_bare hmem (hregular c (by simp [hc])) hc
  case pairs =>
    intro front c back h
    exact isPairing_eq_false_of_bare_bare h
  case tags =>
    intro hformat front back h next hnext
    have hmarkup := Position.markup_eq_false_of_mem_all p hp hformat
    exact opensTag_eq_false_behind_bare h hmarkup hnext
  case leaders =>
    intro line hline c rest h hc
    exact not_mem_leaders_of_mem_lines hline h (hregular c (by simp [hc])) hc
  case closing =>
    rintro rfl line hline
    exact not_closingStem_of_mem_lines hline rfl
  case trailing =>
    rintro rfl c h shape rfl
    have hshape : shape.terminator ∈ Position.action.trailing := by
      cases shape <;> decide
    exact not_mem_trailing_of_getLast h (hregular _ (by simp [hshape])) hshape
  case complete =>
    rw [pieces_escapeChars]
    exact proper_of_mem_piecesFrom none true _
  case no_carriageReturn =>
    intro h
    exact (of_mem_escapeFrom none true _ h).1 rfl
  case no_newline =>
    intro hblock h
    have hmultiline := (of_mem_escapeFrom none true _ h).2 rfl
    rw [Position.multiline_eq_false_of_mem_all p hp hblock] at hmultiline
    cases hmultiline

theorem defused_escape_of_closingWord :
    Position.block ∈ Position.all ∧
      Defused .block (escape .block "see **a**\n  end note\n<b>").toList :=
  ⟨by decide, defused_escape .block (by decide) _⟩

end UmlText
