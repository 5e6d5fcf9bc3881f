import UmlText.Proofs.Text.Cuts
import UmlText.Text.Blank

/-!
# The edges of a text

Whether a character is guarded is decided from its neighbours, so one text may be written in
several ways when something stands in front of it or behind it.  The differences are at the
edges.

* In front of a character that neither pairs nor opens a tag, a text ends as it does at the
  end; and a character that is harmless besides can be cut out
  (`exists_escapeChars_append_cons`).
* Behind a character that does not pair, a text begins as it does at its own start, but for
  what is guarded there because a line starts.  A text with nothing of that sort *begins
  plainly*.
* A `~` in front of a written text can be read as the first half of an escape.  That gives
  the written form of another text in one case only (`tilde_cons_escapeChars_eq_iff`): the
  first character was guarded for its place alone, and the other text has a `~` before it.

The last section is about the blanks at the edges of a text.  Trimming removes blanks only,
and what it leaves begins and ends visibly (`trim_eq_iff`).
-/

namespace UmlText

section Readings

variable {p q : Position} {previous previous' : Option Char} {atStart atStart' : Bool}
variable {c d : Char} {l m x : List Char}

/-- What is written for a text says what the text is, whatever stood in front of it. -/
theorem eq_of_escapeFrom_eq
    (h : escapeFrom p previous atStart l = escapeFrom q previous' atStart' m) :
    l = m := by
  rw [← flatMap_meaning_piecesFrom (p := p) previous atStart l,
    ← flatMap_meaning_piecesFrom (p := q) previous' atStart' m,
    ← pieces_escapeFrom, ← pieces_escapeFrom, h]

/-- What stands behind a written text is read as if it stood alone. -/
theorem unescapeChars_escapeChars_append (l x : List Char) :
    unescapeChars (escapeChars p l ++ x) = l ++ unescapeChars x := by
  rw [escapeChars, ← flatMap_chars_piecesFrom, unescapeChars_eq,
    pieces_flatMap_chars_append (proper_of_mem_piecesFrom none true l), List.flatMap_append,
    flatMap_meaning_piecesFrom, ← unescapeChars_eq]

/-- A text without an escape character stands for itself. -/
theorem unescapeChars_eq_self (h : ∀ c ∈ l, isEscape c = false) : unescapeChars l = l := by
  rw [unescapeChars_eq]
  induction l with
  | nil => rfl
  | cons c l ih =>
      obtain ⟨hc, hl⟩ := List.forall_mem_cons.mp h
      rw [pieces_cons_bare hc, List.flatMap_cons, ih hl]
      rfl

theorem escapeFrom_cons :
    escapeFrom p previous atStart (c :: l) =
      (pieceOf p previous atStart c l).chars ++
        escapeFrom p (some c) (staysAtStart atStart c) l := by
  rw [escapeFrom, chars_pieceOf]

/-- What begins with a bare character is written for that character. -/
theorem of_escapeFrom_eq_cons
    (hd : isEscape d = false)
    (h : escapeFrom p previous atStart l = d :: x) :
    ∃ rest, l = d :: rest ∧ pieceOf p previous atStart d rest = .bare d ∧
      escapeFrom p (some d) (staysAtStart atStart d) rest = x := by
  cases l with
  | nil => cases h
  | cons c rest =>
      rw [escapeFrom_cons] at h
      have hproper : (pieceOf p previous atStart c rest).Proper := proper_pieceOf
      cases hpiece : pieceOf p previous atStart c rest with
      | bare e =>
          rw [hpiece] at h
          obtain ⟨rfl, hx⟩ := List.cons.inj h
          obtain rfl := pieceOf_eq_bare hpiece
          exact ⟨rest, rfl, hpiece, hx⟩
      | pair mark e =>
          rw [hpiece] at h hproper
          obtain ⟨rfl, _⟩ := List.cons.inj h
          exact absurd hproper (by simp [Piece.Proper, hd])

/-- What begins with a `~` is written for the character behind it. -/
theorem of_escapeFrom_eq_tilde_cons
    (h : escapeFrom p previous atStart l = '~' :: x) :
    ∃ c rest, l = c :: rest ∧ pieceOf p previous atStart c rest = .pair '~' c ∧
      x = c :: escapeFrom p (some c) (staysAtStart atStart c) rest := by
  cases l with
  | nil => cases h
  | cons c rest =>
      rw [escapeFrom_cons] at h
      have hproper : (pieceOf p previous atStart c rest).Proper := proper_pieceOf
      have hmeaning : (pieceOf p previous atStart c rest).meaning = [c] := meaning_pieceOf
      cases hpiece : pieceOf p previous atStart c rest with
      | bare e =>
          rw [hpiece] at h hproper
          obtain ⟨rfl, _⟩ := List.cons.inj h
          cases hproper
      | pair mark e =>
          rw [hpiece] at h hmeaning
          obtain ⟨rfl, hx⟩ := List.cons.inj h
          obtain rfl : e = c := by simpa [Piece.meaning] using hmeaning
          exact ⟨e, rest, rfl, hpiece, hx.symm⟩

/-- A character that is guarded by a `~` is a `~`, or it is an ordinary one that needs the
guard. -/
theorem of_pieceOf_eq_pair_tilde
    (h : pieceOf p previous atStart c l = .pair '~' c)
    (hc : c ≠ '~') :
    isEscape c = false ∧ staysAtStart atStart c = false ∧
      needsGuard p previous atStart c l = true := by
  unfold pieceOf at h
  split_ifs at h <;> simp_all [isEscape, staysAtStart]

theorem pieceOf_of_ordinary
    (hordinary : IsOrdinary c)
    (hescape : isEscape c = false)
    (hreturn : c ≠ '\r') :
    pieceOf p previous atStart c l =
      if needsGuard p previous atStart c l then .pair '~' c else .bare c := by
  obtain ⟨hnewline, hpadding⟩ := hordinary
  have hmarks : c ≠ '~' ∧ c ≠ '\\' := by
    simpa [isEscape] using hescape
  simp [pieceOf, hnewline, hreturn, hmarks, hpadding]

end Readings

section Fronts

variable {p : Position} {previous : Option Char} {atStart : Bool} {c : Char} {l m : List Char}

/-- A character in front that does not pair is not taken into account. -/
theorem escapeFrom_of_unpaired (hc : isPairing c = false) :
    escapeFrom p (some c) atStart l = escapeFrom p none atStart l := by
  cases l with
  | nil => rfl
  | cons d rest =>
      have hguard : needsGuard p (some c) atStart d rest = needsGuard p none atStart d rest := by
        have hpair : (isPairing d && decide (some c = some d)) = false := by
          rw [Bool.and_eq_false_iff, decide_eq_false_iff_not]
          by_cases hd : c = d
          · exact .inl (hd ▸ hc)
          · exact .inr fun h => hd (Option.some.inj h)
        simp only [needsGuard, Bool.and_or_distrib_left, hpair, reduceCtorEq, decide_false,
          Bool.and_false]
      simp only [escapeFrom, escapeChar, hguard]

/-- Nothing at the beginning of a text is guarded because a line starts there. -/
def BeginsPlainly (p : Position) (text : String) : Prop :=
  escapeFrom p none true text.toList = escapeFrom p none false text.toList

instance (p : Position) (text : String) : Decidable (BeginsPlainly p text) :=
  inferInstanceAs (Decidable (_ = _))

/-- A written text does not begin with a character that has a meaning at the start of a
line. -/
theorem head_escapeChars_ne
    (hleader : c ∈ p.leaders)
    (hordinary : IsOrdinary c)
    (hescape : isEscape c = false) :
    (escapeChars p l).head? ≠ some c := by
  intro h
  obtain ⟨x, hx⟩ := List.head?_eq_some_iff.mp h
  obtain ⟨rest, rfl, hpiece, _⟩ := of_escapeFrom_eq_cons hescape hx
  rcases unguarded_of_pieceOf_eq_bare hpiece with hnewline | hpadding | hguard
  · exact hordinary.1 hnewline
  · rw [hordinary.2] at hpadding
    cases hpadding
  · obtain ⟨_, hstart, _⟩ := needsGuard_eq_false_iff.mp hguard
    exact (hstart rfl).1 hleader

/-- A `~` in front of a written text and the text it gives: the first character was guarded
for its place alone. -/
theorem of_tilde_cons_escapeFrom_eq
    (h : '~' :: escapeFrom p none atStart l = escapeFrom p none atStart m) :
    atStart = true ∧ ∃ c rest, l = c :: rest ∧ m = '~' :: c :: rest ∧
      pieceOf p none true c rest = .pair '~' c ∧ pieceOf p none false c rest = .bare c := by
  induction l generalizing atStart m with
  | nil =>
      obtain ⟨d, r, _, _, hx⟩ := of_escapeFrom_eq_tilde_cons h.symm
      cases hx
  | cons c rest ih =>
      obtain ⟨d, r, rfl, hd, hwritten⟩ := of_escapeFrom_eq_tilde_cons h.symm
      by_cases htilde : d = '~'
      · subst htilde
        have hbehind : escapeFrom p (some '~') (staysAtStart atStart '~') r =
            escapeFrom p none false r := by
          rw [escapeFrom_of_unpaired (by decide)]
          cases atStart <;> rfl
        rw [hbehind] at hwritten
        obtain ⟨_, _, hcons, hc, hr⟩ := of_escapeFrom_eq_tilde_cons hwritten
        obtain ⟨rfl, rfl⟩ := List.cons.inj hcons
        by_cases hagain : c = '~'
        · -- the `~` has moved on behind the first characters of both texts
          subst hagain
          rw [escapeFrom_of_unpaired (by decide)] at hr
          have hstays : staysAtStart atStart '~' = false := by
            cases atStart <;> rfl
          rw [hstays] at hr
          cases (ih hr.symm).1
        · obtain ⟨hescape, hstays, hguard⟩ := of_pieceOf_eq_pair_tilde hc hagain
          obtain ⟨rest', rfl, hbare, hrest⟩ := of_escapeFrom_eq_cons hescape hr
          obtain rfl := eq_of_escapeFrom_eq hrest
          cases atStart with
          | false =>
              rw [hbare] at hc
              cases hc
          | true => exact ⟨rfl, c, rest', rfl, rfl, hc, hbare⟩
      · -- the first character of both texts would be guarded in one and bare in the other
        obtain ⟨hescape, _, _⟩ := of_pieceOf_eq_pair_tilde hd htilde
        obtain ⟨rest', hcons, hbare, hrest⟩ := of_escapeFrom_eq_cons hescape hwritten
        obtain rfl := eq_of_escapeFrom_eq hrest
        rw [hbare] at hd
        cases hd

/-- The only texts whose written form is that of another one behind a `~`. -/
theorem tilde_cons_escapeChars_eq_iff :
    '~' :: escapeChars p l = escapeChars p m ↔
      ∃ c rest, l = c :: rest ∧ m = '~' :: c :: rest ∧
        pieceOf p none true c rest = .pair '~' c ∧ pieceOf p none false c rest = .bare c := by
  refine ⟨fun h => (of_tilde_cons_escapeFrom_eq h).2, ?_⟩
  rintro ⟨c, rest, rfl, rfl, hguarded, hbare⟩
  have hc : c ≠ '~' := by
    rintro rfl
    cases hbare
  obtain ⟨_, hstays, _⟩ := of_pieceOf_eq_pair_tilde hguarded hc
  have hstays' : staysAtStart false c = false := by
    revert hstays
    simp +contextual [staysAtStart]
  have htilde : escapeFrom p (some '~') (staysAtStart true '~') (c :: rest) =
      c :: escapeFrom p (some c) false rest := by
    rw [escapeFrom_of_unpaired (by decide)]
    change escapeFrom p none false (c :: rest) = _
    rw [escapeFrom_cons, hbare, hstays']
    rfl
  rw [escapeChars, escapeChars, escapeFrom_cons, hguarded, hstays,
    escapeFrom_cons (c := '~'), htilde]
  rfl

end Fronts

section Harmless

variable {p : Position} {previous : Option Char} {atStart : Bool} {c : Char} {l : List Char}

/-- The character is written as itself wherever it stands in a text. -/
def Position.leaves (p : Position) (c : Char) : Bool :=
  !isLineBreak c && !isEscape c && !isPairing c && c != '<' &&
    !(p.leaders ++ p.terminators ++ p.trailing).contains c

theorem escapeChar_of_leaves
    (hmultiline : p.multiline = false)
    (hc : p.leaves c = true)
    (rest : List Char) :
    escapeChar p previous atStart c rest = [c] := by
  simp only [Position.leaves, isLineBreak, isEscape, Bool.and_eq_true, Bool.not_eq_true',
    Bool.or_eq_false_iff, decide_eq_false_iff_not, bne_iff_ne, List.contains_eq_mem,
    List.mem_append, not_or] at hc
  obtain ⟨⟨⟨⟨⟨hnewline, hreturn⟩, htilde, hback⟩, hpair⟩, hangle⟩,
    ⟨hleader, hterminator⟩, htrailing⟩ := hc
  have hguard : needsGuard p previous atStart c rest = false := by
    rw [needsGuard_eq_false_iff]
    refine ⟨fun h => ?_, fun _ => ⟨hleader, fun h => ?_⟩, fun h => absurd h hangle, hterminator,
      fun _ => htrailing⟩
    · rw [hpair] at h
      cases h
    · rw [hmultiline] at h
      cases h
  simp [escapeChar, hnewline, hreturn, htilde, hback, hguard]

/-- A text of harmless characters is written as it is. -/
theorem escapeFrom_eq_self
    (hmultiline : p.multiline = false)
    (h : ∀ c ∈ l, p.leaves c = true) :
    escapeFrom p previous atStart l = l := by
  induction l generalizing previous atStart with
  | nil => rfl
  | cons c rest ih =>
      obtain ⟨hc, hrest⟩ := List.forall_mem_cons.mp h
      rw [escapeFrom, escapeChar_of_leaves hmultiline hc, ih hrest]
      rfl

end Harmless

section Backs

variable {p : Position} {previous : Option Char} {atStart : Bool} {c d : Char} {l m : List Char}

/-- A character that neither pairs nor opens a tag guards nothing in front of it. -/
theorem escapeChar_append_cons
    (htrailing : p.trailing = [])
    (hmultiline : p.multiline = false)
    (hpairing : isPairing c = false)
    (htag : opensTag c = false) :
    escapeChar p previous atStart d (l ++ c :: m) = escapeChar p previous atStart d l := by
  have hguard : needsGuard p previous atStart d (l ++ c :: m) =
      needsGuard p previous atStart d l := by
    cases l with
    | nil =>
        have hpair : (isPairing d && decide (c = d)) = false := by
          rw [Bool.and_eq_false_iff, decide_eq_false_iff_not]
          by_cases hd : c = d
          · exact .inl (hd ▸ hpairing)
          · exact .inr hd
        simp [needsGuard, htrailing, hmultiline, htag, Bool.and_or_distrib_left, hpair]
    | cons e rest => simp [needsGuard, hmultiline]
  simp only [escapeChar, hguard]

/-- In front of such a character a text ends as it does at the end. -/
theorem exists_escapeFrom_append_cons
    (htrailing : p.trailing = [])
    (hmultiline : p.multiline = false)
    (hpairing : isPairing c = false)
    (htag : opensTag c = false) :
    ∃ previous' atStart', escapeFrom p previous atStart (l ++ c :: m) =
      escapeFrom p previous atStart l ++ escapeFrom p previous' atStart' (c :: m) := by
  induction l generalizing previous atStart with
  | nil => exact ⟨previous, atStart, rfl⟩
  | cons d rest ih =>
      obtain ⟨previous', atStart', hrest⟩ :
          ∃ previous' atStart', escapeFrom p (some d) (staysAtStart atStart d) (rest ++ c :: m) =
            escapeFrom p (some d) (staysAtStart atStart d) rest ++
              escapeFrom p previous' atStart' (c :: m) :=
        ih
      refine ⟨previous', atStart', ?_⟩
      rw [List.cons_append, escapeFrom, hrest,
        escapeChar_append_cons htrailing hmultiline hpairing htag, ← List.append_assoc]
      rfl

/-- A harmless character that opens no tag can be cut out of a text: what stands in front of
it is written as a text of its own, and what stands behind it as if nothing stood in front.
-/
theorem exists_escapeChars_append_cons
    (htrailing : p.trailing = [])
    (hmultiline : p.multiline = false)
    (hc : p.leaves c = true)
    (htag : opensTag c = false) :
    ∃ atStart, escapeChars p (l ++ c :: m) =
      escapeChars p l ++ c :: escapeFrom p none (staysAtStart atStart c) m := by
  have hpairing : isPairing c = false := by
    simp only [Position.leaves, Bool.and_eq_true, Bool.not_eq_true'] at hc
    exact hc.1.1.2
  obtain ⟨previous, atStart, hcut⟩ : ∃ previous atStart, escapeFrom p none true (l ++ c :: m) =
      escapeFrom p none true l ++ escapeFrom p previous atStart (c :: m) :=
    exists_escapeFrom_append_cons htrailing hmultiline hpairing htag
  refine ⟨atStart, ?_⟩
  rw [escapeChars, hcut, escapeFrom, escapeChar_of_leaves hmultiline hc,
    escapeFrom_of_unpaired hpairing]
  rfl

end Backs

section Blanks

variable {c : Char} {l m : List Char}

theorem trim_append_of_blank (h : ∀ d ∈ l, isBlank d = true) : trim (l ++ m) = trim m := by
  rw [trim, List.dropWhile_append_of_pos h, trim]

/-- A text that neither begins nor ends with a blank. -/
def VisibleEnds (l : List Char) : Prop :=
  (∀ c ∈ l.head?, isBlank c = false) ∧ ∀ c ∈ l.getLast?, isBlank c = false

theorem visibleEnds_of_forall (h : ∀ c ∈ l, isBlank c = false) : VisibleEnds l :=
  ⟨fun c hc => h c (List.mem_of_head? hc), fun c hc => h c (List.mem_of_getLast? hc)⟩

theorem isBlank_head_dropWhile : ∀ d ∈ (l.dropWhile isBlank).head?, isBlank d = false := by
  intro d hd
  have hhead := List.head?_dropWhile_not isBlank l
  rw [Option.mem_def.mp hd] at hhead
  exact hhead

theorem dropWhile_isBlank_eq_self (h : ∀ d ∈ l.head?, isBlank d = false) :
    l.dropWhile isBlank = l := by
  cases l with
  | nil => rfl
  | cons d rest => exact List.dropWhile_cons_of_neg (by simp [h d rfl])

/-- The blanks behind a text that is trimmed already are cut off. -/
theorem trim_append_blanks (hm : VisibleEnds m) (h : ∀ d ∈ l, isBlank d = true) :
    trim (m ++ l) = m := by
  have hends : ∀ d ∈ l.reverse, isBlank d = true := by
    simpa using h
  have hlast : ∀ d ∈ m.reverse.head?, isBlank d = false := by
    rw [List.head?_reverse]
    exact hm.2
  cases m with
  | nil =>
      have hblank : trim (l ++ []) = [] := trim_append_of_blank h
      rwa [List.append_nil] at hblank
  | cons c rest =>
      have hhead : ∀ d ∈ (c :: rest ++ l).head?, isBlank d = false := hm.1
      rw [trim, dropWhile_isBlank_eq_self hhead, List.reverse_append,
        List.dropWhile_append_of_pos hends, dropWhile_isBlank_eq_self hlast, List.reverse_reverse]

/-- What is left of a text begins and ends visibly, and there were only blanks around it. -/
theorem trim_eq_iff :
    trim l = m ↔ VisibleEnds m ∧ ∃ front back, l = front ++ (m ++ back) ∧
      (∀ d ∈ front, isBlank d = true) ∧ ∀ d ∈ back, isBlank d = true := by
  constructor
  · rintro rfl
    have hrest : trim l ++ ((l.dropWhile isBlank).reverse.takeWhile isBlank).reverse =
        l.dropWhile isBlank := by
      rw [trim, ← List.reverse_append, List.takeWhile_append_dropWhile, List.reverse_reverse]
    have hhead : ∀ d ∈ (trim l).head?, isBlank d = false := by
      intro d hd
      obtain ⟨rest, hl⟩ := List.head?_eq_some_iff.mp hd
      refine isBlank_head_dropWhile (l := l) d ?_
      rw [← hrest, hl]
      rfl
    have hlast : ∀ d ∈ (trim l).getLast?, isBlank d = false := by
      intro d hd
      rw [trim, List.getLast?_reverse] at hd
      exact isBlank_head_dropWhile d hd
    refine ⟨⟨hhead, hlast⟩, l.takeWhile isBlank,
      ((l.dropWhile isBlank).reverse.takeWhile isBlank).reverse, ?_, fun d hd => ?_, fun d hd => ?_⟩
    · rw [hrest, List.takeWhile_append_dropWhile]
    · exact List.all_eq_true.mp List.all_takeWhile d hd
    · exact List.all_eq_true.mp List.all_takeWhile d (List.mem_reverse.mp hd)
  · rintro ⟨hm, front, back, rfl, hfront, hback⟩
    rw [trim_append_of_blank hfront, trim_append_blanks hm hback]

/-- One character is left of a text when the others are blanks at its two ends. -/
theorem trim_eq_singleton_iff (hc : isBlank c = false) :
    trim l = [c] ↔ ∃ front back, l = front ++ c :: back ∧
      (∀ d ∈ front, isBlank d = true) ∧ ∀ d ∈ back, isBlank d = true := by
  have hends : VisibleEnds [c] := visibleEnds_of_forall (by simpa using hc)
  rw [trim_eq_iff, and_iff_right hends]
  rfl

/-- What is left of a text begins as the text does, where that is visible. -/
theorem eq_of_trim_eq_singleton
    {d : Char}
    (hd : isBlank d = false)
    (hc : isBlank c = false)
    (h : trim (d :: l) = [c]) :
    d = c := by
  obtain ⟨front, back, hl, hfront, _⟩ := (trim_eq_singleton_iff hc).mp h
  cases front with
  | nil => exact (List.cons.inj hl).1
  | cons e front =>
      have he : isBlank e = true := hfront e List.mem_cons_self
      rw [← (List.cons.inj hl).1, hd] at he
      cases he

end Blanks

end UmlText
