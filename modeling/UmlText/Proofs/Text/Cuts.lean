import Mathlib.Data.List.Basic
import UmlText.Proofs.Text.OneLine

/-!
# Cutting fields off a line

A line is read back from left to right: a field is cut off in front, and what is behind it
is read next.  There are three reasons why a field can be cut off at one place only.

* A mark stands behind the field and cannot stand in it: the bracket or quote behind an
  escaped text.
* The field is made of certain characters and what follows does not begin with one of them:
  an alias, a color.
* What follows is the end of the line.

So the lemmas `…_cut` have the same form: two fields with something behind them are written
alike, and then the fields are the same and so is what is behind them.
-/

namespace UmlText

section Lists

variable {α β : Type} {l m x y : List α}

/-- A part that is made of certain elements ends where others follow. -/
theorem append_cut_of_class
    {f : α → Bool}
    (hl : ∀ a ∈ l, f a = true)
    (hm : ∀ a ∈ m, f a = true)
    (hx : ∀ a ∈ x.head?, f a = false)
    (hy : ∀ a ∈ y.head?, f a = false)
    (h : l ++ x = m ++ y) :
    l = m ∧ x = y := by
  have hstop : ∀ {l x : List α}, (∀ a ∈ l, f a = true) → (∀ a ∈ x.head?, f a = false) →
      (l ++ x).takeWhile f = l := by
    intro l x hl hx
    rw [List.takeWhile_append_of_pos hl]
    cases x with
    | nil => simp
    | cons a x =>
        have ha : f a = false := hx a rfl
        simp [ha]
  have hlm : l = m := by
    rw [← hstop hl hx, h, hstop hm hy]
  subst hlm
  exact ⟨rfl, List.append_cancel_left h⟩

/-- A part ends at the first mark behind it. -/
theorem append_cons_cut
    {mark : α}
    (hl : mark ∉ l)
    (hm : mark ∉ m)
    (h : l ++ mark :: x = m ++ mark :: y) :
    l = m ∧ x = y := by
  classical
  have hclass : ∀ {l : List α}, mark ∉ l → ∀ a ∈ l, decide (a ≠ mark) = true := by
    intro l hl a ha
    exact decide_eq_true fun haa => hl (haa ▸ ha)
  obtain ⟨hlm, hxy⟩ := append_cut_of_class (hclass hl) (hclass hm) (by simp) (by simp) h
  exact ⟨hlm, (List.cons.inj hxy).2⟩

/-- A part that may be missing can be cut off where it can be when it is there, and where
what follows is not mistaken for it. -/
theorem optional_cut
    {write : β → List α}
    {o o' : Option β}
    (hcut : ∀ b ∈ o, ∀ b' ∈ o', write b ++ x = write b' ++ y → b = b' ∧ x = y)
    (hx : ∀ b, x ≠ write b ++ y)
    (hy : ∀ b, y ≠ write b ++ x)
    (h : o.elim [] write ++ x = o'.elim [] write ++ y) :
    o = o' ∧ x = y := by
  cases o with
  | none =>
      cases o' with
      | none => exact ⟨rfl, h⟩
      | some b' => exact absurd h (hx b')
  | some b =>
      cases o' with
      | none => exact absurd h.symm (hy b)
      | some b' =>
          obtain ⟨rfl, hxy⟩ := hcut b rfl b' rfl h
          exact ⟨rfl, hxy⟩

end Lists

section Escaped

variable {p : Position} {s t : String} {x y : List Char}

/-- The pieces of proper pieces with something behind them. -/
theorem pieces_flatMap_chars_append
    {ps : List Piece}
    (h : ∀ q ∈ ps, q.Proper)
    (rest : List Char) :
    pieces (ps.flatMap Piece.chars ++ rest) = ps ++ pieces rest := by
  induction ps with
  | nil => rfl
  | cons q qs ih =>
      obtain ⟨hq, hqs⟩ := List.forall_mem_cons.mp h
      rw [List.flatMap_cons, List.append_assoc]
      cases q with
      | bare c =>
          change pieces (c :: (qs.flatMap Piece.chars ++ rest)) = _
          rw [pieces_cons_bare hq, ih hqs]
          rfl
      | pair mark c =>
          change pieces (mark :: c :: (qs.flatMap Piece.chars ++ rest)) = _
          rw [pieces_cons_pair hq, ih hqs]
          rfl

/-- No two texts are escaped alike. -/
theorem escape_cut_end (h : (escape p s).toList = (escape p t).toList) : s = t := by
  rw [escape, escape, String.toList_ofList, String.toList_ofList] at h
  rw [← String.toList_inj, ← unescapeChars_escapeChars p s.toList, h, unescapeChars_escapeChars]

/-- An escaped text ends at the first terminator that stands bare behind it. -/
theorem escape_cut
    {mark : Char}
    (hmark : mark ∈ p.terminators)
    (hordinary : IsOrdinary mark)
    (hescape : isEscape mark = false)
    (h : (escape p s).toList ++ mark :: x = (escape p t).toList ++ mark :: y) :
    s = t ∧ x = y := by
  have hpieces : ∀ (s : String) (x : List Char),
      pieces ((escape p s).toList ++ mark :: x) =
        pieces (escape p s).toList ++ .bare mark :: pieces x := by
    intro s x
    rw [escape, String.toList_ofList, escapeChars, ← flatMap_chars_piecesFrom,
      pieces_flatMap_chars_append (proper_of_mem_piecesFrom none true _),
      pieces_flatMap_chars (proper_of_mem_piecesFrom none true _), pieces_cons_bare hescape]
  have habsent : ∀ s, Piece.bare mark ∉ pieces (escape p s).toList := by
    intro s hmem
    rw [escape, String.toList_ofList] at hmem
    exact not_mem_terminators_of_bare hmem hordinary hmark
  have hcut : pieces (escape p s).toList = pieces (escape p t).toList := by
    have hboth := congrArg pieces h
    rw [hpieces, hpieces] at hboth
    exact (append_cons_cut (habsent s) (habsent t) hboth).1
  have hchars : (escape p s).toList = (escape p t).toList := by
    have hwritten := congrArg (List.flatMap Piece.chars) hcut
    rw [escape, escape, String.toList_ofList, String.toList_ofList, escapeChars, escapeChars,
      pieces_escapeFrom, pieces_escapeFrom, flatMap_chars_piecesFrom,
      flatMap_chars_piecesFrom] at hwritten
    rw [escape, escape, String.toList_ofList, String.toList_ofList]
    exact hwritten
  rw [hchars] at h
  exact ⟨escape_cut_end hchars, (List.cons.inj (List.append_cancel_left h)).2⟩

/-- An escaped text behind a fixed word, at the end of a line. -/
theorem lead_escape_inj
    {lead : String}
    (h : lead ++ escape p s = lead ++ escape p t) :
    s = t := by
  have hchars := congrArg String.toList h
  rw [String.toList_append, String.toList_append] at hchars
  exact escape_cut_end (List.append_cancel_left hchars)

theorem escape_parenthesized_cut
    (h : (escape .parenthesized s).toList ++ ')' :: x =
      (escape .parenthesized t).toList ++ ')' :: y) :
    s = t ∧ x = y :=
  escape_cut (by decide) (by decide) (by decide) h

theorem escape_quoted_cut
    (h : (escape .quoted s).toList ++ '"' :: x = (escape .quoted t).toList ++ '"' :: y) :
    s = t ∧ x = y :=
  escape_cut (by decide) (by decide) (by decide) h

theorem escape_lane_cut
    (h : (escape .lane s).toList ++ '|' :: x = (escape .lane t).toList ++ '|' :: y) :
    s = t ∧ x = y :=
  escape_cut (by decide) (by decide) (by decide) h

end Escaped

section Optional

variable {lead : String} {o o' : Option String} {x y : List Char}

theorem toList_inParentheses (lead : String) (o : Option String) :
    (inParentheses lead o).toList =
      o.elim [] fun text =>
        lead.toList ++ '(' :: ((escape .parenthesized text).toList ++ [')']) := by
  cases o with
  | none => rfl
  | some text => simp [inParentheses]

theorem toList_labelled (lead : String) (o : Option String) :
    (labelled lead o).toList =
      o.elim [] fun text => lead.toList ++ (escape .label text).toList := by
  cases o with
  | none => rfl
  | some text => simp [labelled]

theorem inParentheses_cut
    (hx : ¬lead.toList ++ ['('] <+: x)
    (hy : ¬lead.toList ++ ['('] <+: y)
    (h : (inParentheses lead o).toList ++ x = (inParentheses lead o').toList ++ y) :
    o = o' ∧ x = y := by
  rw [toList_inParentheses, toList_inParentheses] at h
  refine optional_cut ?_ ?_ ?_ h
  · intro text _ text' _ h
    refine escape_parenthesized_cut ?_
    simpa using h
  · rintro text rfl
    exact hx ⟨(escape .parenthesized text).toList ++ ')' :: y, by simp⟩
  · rintro text rfl
    exact hy ⟨(escape .parenthesized text).toList ++ ')' :: x, by simp⟩

/-- A text in brackets at the end of a line. -/
theorem inParentheses_cut_end
    (h : (inParentheses lead o).toList = (inParentheses lead o').toList) :
    o = o' :=
  (inParentheses_cut (x := []) (y := []) (by simp) (by simp) (by rw [h])).1

/-- A label at the end of a line. -/
theorem labelled_cut_end
    (hlead : lead ≠ "")
    (h : (labelled lead o).toList = (labelled lead o').toList) :
    o = o' := by
  have hlead : lead.toList ≠ [] := by simpa using hlead
  rw [toList_labelled, toList_labelled] at h
  refine (optional_cut (x := []) (y := []) ?_ ?_ ?_ (by rw [h])).1
  · intro text _ text' _ h
    have htexts : (escape .label text).toList = (escape .label text').toList := by simpa using h
    exact ⟨escape_cut_end htexts, rfl⟩
  · intro text h
    simp [hlead] at h
  · intro text h
    simp [hlead] at h

end Optional

section Words

variable {a b : Alias} {color color' : Color} {x y : List Char}

theorem alias_cut
    (ha : a.IsPlain)
    (hb : b.IsPlain)
    (hx : ∀ c ∈ x.head?, isAliasChar c = false)
    (hy : ∀ c ∈ y.head?, isAliasChar c = false)
    (h : a.name.toList ++ x = b.name.toList ++ y) :
    a = b ∧ x = y := by
  obtain ⟨hname, hxy⟩ := append_cut_of_class ha hb hx hy h
  exact ⟨Alias.ext (String.toList_inj.mp hname), hxy⟩

theorem toList_display (color : Color) : color.display.toList = '#' :: color.body.toList := by
  simp [Color.display]

theorem display_cut
    (hx : ∀ c ∈ x.head?, isColorChar c = false)
    (hy : ∀ c ∈ y.head?, isColorChar c = false)
    (h : color.display.toList ++ x = color'.display.toList ++ y) :
    color = color' ∧ x = y := by
  rw [toList_display, toList_display] at h
  obtain ⟨hbody, hxy⟩ := append_cut_of_class (isColorChar_of_mem_body color)
    (isColorChar_of_mem_body color') hx hy (List.cons.inj h).2
  exact ⟨Color.ext (String.toList_inj.mp hbody), hxy⟩

theorem toList_colorSuffix (color : Option Color) :
    (colorSuffix color).toList = color.elim [] fun color => ' ' :: color.display.toList := by
  cases color with
  | none => rfl
  | some color => simp [colorSuffix]

theorem colorSuffix_cut
    {color color' : Option Color}
    (hx : ∀ c ∈ x.head?, isColorChar c = false)
    (hy : ∀ c ∈ y.head?, isColorChar c = false)
    (hx' : ¬[' ', '#'] <+: x)
    (hy' : ¬[' ', '#'] <+: y)
    (h : (colorSuffix color).toList ++ x = (colorSuffix color').toList ++ y) :
    color = color' ∧ x = y := by
  rw [toList_colorSuffix, toList_colorSuffix] at h
  refine optional_cut ?_ ?_ ?_ h
  · intro color _ color' _ h
    exact display_cut hx hy (List.cons.inj h).2
  · rintro color rfl
    exact hx' ⟨color.body.toList ++ y, by simp [toList_display]⟩
  · rintro color rfl
    exact hy' ⟨color.body.toList ++ x, by simp [toList_display]⟩

/-- A color at the end of a line. -/
theorem colorSuffix_cut_end
    {color color' : Option Color}
    (h : (colorSuffix color).toList = (colorSuffix color').toList) :
    color = color' :=
  (colorSuffix_cut (x := []) (y := []) (by simp) (by simp) (by simp) (by simp) (by rw [h])).1

/-- No two numbers are written alike. -/
theorem repr_nat_inj {m n : Nat} (h : m.repr = n.repr) : m = n := by
  have hdigits := congrArg (fun s => Nat.ofDigitChars 10 s.toList 0) h
  simpa [Nat.repr] using hdigits

end Words

section LinkStyles

variable {style style' : LinkStyle} {x y : List Char}

/-- The characters of the modifiers of a link. -/
def isModifierChar (c : Char) : Bool :=
  isColorChar c || c = '#' || c = '='

theorem isModifierChar_of_mem {s : String} (hs : s ∈ style.modifiers) :
    ∀ c ∈ s.toList, isModifierChar c = true := by
  intro c hc
  obtain ⟨color, line, thickness⟩ := style
  simp only [LinkStyle.modifiers, List.mem_append, Option.mem_toList,
    Option.map_eq_some_iff] at hs
  rcases hs with (⟨color, _, rfl⟩ | ⟨line, _, rfl⟩) | ⟨n, _, rfl⟩
  · rw [toList_display] at hc
    rcases List.mem_cons.mp hc with rfl | hc
    · decide
    · simp [isModifierChar, isColorChar_of_mem_body color c hc]
  · have hall : line.keyword.toList.all isModifierChar = true := by
      cases line <;> decide
    exact List.all_eq_true.mp hall c hc
  · rw [String.toList_append] at hc
    rcases List.mem_append.mp hc with hc | hc
    · have hall : "thickness=".toList.all isModifierChar = true := by decide
      exact List.all_eq_true.mp hall c hc
    · rw [Nat.toString_eq_ofList_toDigits, String.toList_ofList] at hc
      have hdigit := Nat.isDigit_of_mem_toDigits (by omega) (by omega) hc
      simp [isModifierChar, isColorChar, Char.isAlphanum, hdigit]

theorem keyword_ne_display (color : Color) (line : LineStyle) : line.keyword ≠ color.display := by
  cases line <;> simp [← String.toList_inj, toList_display, LineStyle.keyword]

theorem thickness_ne_display (color : Color) (n : Nat) :
    "thickness=" ++ n.repr ≠ color.display := by
  simp [← String.toList_inj, toList_display]

theorem thickness_ne_keyword (line : LineStyle) (n : Nat) :
    "thickness=" ++ n.repr ≠ line.keyword := by
  cases line <;> simp [← String.toList_inj, LineStyle.keyword]

theorem keyword_inj {line line' : LineStyle} (h : line.keyword = line'.keyword) : line = line' := by
  cases line <;> cases line' <;> simp [LineStyle.keyword] at h <;> rfl

/-- The modifiers of a link say which of them are given. -/
theorem modifiers_inj (h : style.modifiers = style'.modifiers) : style = style' := by
  obtain ⟨color, line, thickness⟩ := style
  obtain ⟨color', line', thickness'⟩ := style'
  have hlist : ∀ {β : Type} (f : β → String) (o : Option β),
      (o.map f).toList = o.elim [] fun b => [f b] := by
    intro β f o
    cases o <;> rfl
  simp only [LinkStyle.modifiers, List.append_assoc, hlist] at h
  obtain ⟨hcolor, hrest⟩ := optional_cut
    (fun color _ color' _ h => by
      obtain ⟨hdisplay, hrest⟩ := List.cons.inj h
      exact ⟨(display_cut (x := []) (y := []) (by simp) (by simp) (by rw [hdisplay])).1, hrest⟩)
    (fun color h => by
      cases line <;> cases thickness <;> simp [keyword_ne_display, thickness_ne_display] at h)
    (fun color h => by
      cases line' <;> cases thickness' <;> simp [keyword_ne_display, thickness_ne_display] at h) h
  obtain ⟨hline, hlast⟩ := optional_cut
    (fun line _ line' _ h => by
      obtain ⟨hkeyword, hrest⟩ := List.cons.inj h
      exact ⟨keyword_inj hkeyword, hrest⟩)
    (fun line h => by cases thickness <;> simp [thickness_ne_keyword] at h)
    (fun line h => by cases thickness' <;> simp [thickness_ne_keyword] at h) hrest
  have hthickness : thickness = thickness' := by
    cases thickness with
    | none =>
        cases thickness' with
        | none => rfl
        | some n' => simp at hlast
    | some n =>
        cases thickness' with
        | none => simp at hlast
        | some n' => exact congrArg some (repr_nat_inj (by simpa using hlast))
  rw [hcolor, hline, hthickness]

theorem linkStyle_cut
    (hx : ∀ c ∈ x.head?, c ≠ '[')
    (hy : ∀ c ∈ y.head?, c ≠ '[')
    (h : style.text.toList ++ x = style'.text.toList ++ y) :
    style = style' ∧ x = y := by
  have htext : ∀ style : LinkStyle, style.modifiers ≠ [] →
      style.text.toList =
        '[' :: ([','].intercalate (style.modifiers.map String.toList) ++ [']']) := by
    intro style hstyle
    unfold LinkStyle.text
    split
    · next hnil => exact absurd hnil hstyle
    · simp [String.toList_intercalate]
  have hnone : ∀ style : LinkStyle, style.modifiers = [] → style.text.toList = [] := by
    intro style hstyle
    rw [LinkStyle.text, hstyle]
    rfl
  have habsent : ∀ (style : LinkStyle) (c : Char), isModifierChar c = false →
      ∀ l ∈ style.modifiers.map String.toList, c ∉ l := by
    intro style c hc l hl hmem
    obtain ⟨s, hs, rfl⟩ := List.mem_map.mp hl
    rw [isModifierChar_of_mem hs c hmem] at hc
    cases hc
  have hbracket : ∀ style : LinkStyle,
      ']' ∉ [','].intercalate (style.modifiers.map String.toList) := by
    intro style hmem
    rcases mem_or_mem_of_mem_intercalate hmem with hmem | ⟨l, hl, hmem⟩
    · simp at hmem
    · exact habsent style ']' (by decide) l hl hmem
  by_cases hs : style.modifiers = []
  · rw [hnone style hs] at h
    by_cases hs' : style'.modifiers = []
    · rw [hnone style' hs'] at h
      exact ⟨modifiers_inj (hs.trans hs'.symm), h⟩
    · rw [htext style' hs', List.nil_append] at h
      exact absurd rfl (hx '[' (by rw [h]; rfl))
  · rw [htext style hs] at h
    by_cases hs' : style'.modifiers = []
    · rw [hnone style' hs', List.nil_append] at h
      exact absurd rfl (hy '[' (by rw [← h]; rfl))
    · rw [htext style' hs'] at h
      obtain ⟨hjoined, hxy⟩ := append_cons_cut (hbracket style) (hbracket style')
        (by simpa using h)
      refine ⟨modifiers_inj ?_, hxy⟩
      have hsplit := congrArg (List.splitOn ',') hjoined
      rw [List.splitOn_intercalate ',' (habsent style ',' (by decide)) (by simpa using hs),
        List.splitOn_intercalate ',' (habsent style' ',' (by decide)) (by simpa using hs')]
        at hsplit
      exact List.map_injective_iff.mpr (fun _ _ => String.toList_inj.mp) hsplit

end LinkStyles

end UmlText
