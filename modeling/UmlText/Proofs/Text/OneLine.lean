import Mathlib.Data.List.TakeWhile
import UmlText.AttachedNote
import UmlText.Proofs.PlainNames
import UmlText.Proofs.Text.Inertness
import UmlText.Text.Check

/-!
# What fits on one line

The content of a line is put together from fixed words, escaped texts, plain aliases, colors
and numbers.  Each of these fits on one line, and so does everything they are put together
to; the lines of a note fit because escaping leaves no carriage return in them, and they are
cut at the breaks.
-/

namespace UmlText

section Characters

/-- The characters a color is made of. -/
def isColorChar (c : Char) : Bool :=
  c.isAlphanum || isGradientSeparator c

theorem isAlphanum_of_isSingleColor {chars : List Char} (h : isSingleColor chars = true) :
    ∀ c ∈ chars, c.isAlphanum = true := by
  intro c hc
  simp only [isSingleColor, Bool.or_eq_true, Bool.and_eq_true, List.all_eq_true] at h
  rcases h with ⟨hdigits, _⟩ | ⟨_, hword⟩
  · have hhex := hdigits c hc
    simp only [isHexDigit, Bool.or_eq_true, Bool.and_eq_true, decide_eq_true_eq] at hhex
    rcases hhex with (hdigit | ⟨hlow, hhigh⟩) | ⟨hlow, hhigh⟩
    · simp [Char.isAlphanum, hdigit]
    · have hbelow : c ≤ 'z' := Char.le_trans hhigh (by decide)
      have hlower : c.isLower = true :=
        Bool.and_eq_true_iff.mpr ⟨decide_eq_true hlow, decide_eq_true hbelow⟩
      exact Bool.or_eq_true_iff.mpr (.inl (Bool.or_eq_true_iff.mpr (.inr hlower)))
    · have hbelow : c ≤ 'Z' := Char.le_trans hhigh (by decide)
      have hupper : c.isUpper = true := decide_eq_true ⟨hlow, hbelow⟩
      exact Bool.or_eq_true_iff.mpr (.inl (Bool.or_eq_true_iff.mpr (.inl hupper)))
  · simp [Char.isAlphanum, hword c hc]

/-- No separator stands in a single color. -/
theorem not_separator_of_isSingleColor {chars : List Char} (h : isSingleColor chars = true) :
    ∀ c ∈ chars, (!isGradientSeparator c) = true := by
  intro c hc
  have hword := isAlphanum_of_isSingleColor h c hc
  have hseparators : ∀ d ∈ ['|', '/', '\\', '-'], d.isAlphanum = false := by
    decide
  rw [isGradientSeparator, List.contains_eq_mem, Bool.not_eq_true', decide_eq_false_iff_not]
  intro hmem
  rw [hseparators c hmem] at hword
  cases hword

/-- The form of a color: one single color, or two of them with a separator between. -/
theorem isColorBody_iff {chars : List Char} :
    isColorBody chars = true ↔ isSingleColor chars = true ∨
      ∃ first separator second, chars = first ++ separator :: second ∧
        isGradientSeparator separator = true ∧ isSingleColor first = true ∧
        isSingleColor second = true := by
  constructor
  · intro h
    simp only [isColorBody, Bool.and_eq_true] at h
    obtain ⟨hfirst, hsecond⟩ := h
    have hparts := List.takeWhile_append_dropWhile (l := chars)
      (p := fun c => !isGradientSeparator c)
    cases hdrop : chars.dropWhile fun c => !isGradientSeparator c with
    | nil =>
        rw [hdrop, List.append_nil] at hparts
        rw [hparts] at hfirst
        exact .inl hfirst
    | cons separator second =>
        have hseparator := List.head?_dropWhile_not (fun c => !isGradientSeparator c) chars
        rw [hdrop] at hparts hseparator hsecond
        exact .inr ⟨_, separator, second, hparts.symm, by simpa using hseparator, hfirst, hsecond⟩
  · rintro (h | ⟨first, separator, second, rfl, hseparator, hfirst, hsecond⟩)
    · have hword := not_separator_of_isSingleColor h
      rw [isColorBody, List.takeWhile_eq_self_iff.mpr hword, List.dropWhile_eq_nil_iff.mpr hword, h]
      rfl
    · have hword := not_separator_of_isSingleColor hfirst
      have htake : (first ++ separator :: second).takeWhile (fun c => !isGradientSeparator c) =
          first := by
        simp [List.takeWhile_append_of_pos hword, hseparator]
      have hdrop : (first ++ separator :: second).dropWhile (fun c => !isGradientSeparator c) =
          separator :: second := by
        simp [List.dropWhile_append_of_pos hword, hseparator]
      rw [isColorBody, htake, hdrop, hfirst]
      exact hsecond

/-- A color is one word of letters and digits, or two of them with a separator between. -/
theorem Color.body_parts (color : Color) :
    (∀ c ∈ color.body.toList, c.isAlphanum = true) ∨
      ∃ first separator second, color.body.toList = first ++ separator :: second ∧
        isGradientSeparator separator = true ∧ (∀ c ∈ first, c.isAlphanum = true) ∧
        ∀ c ∈ second, c.isAlphanum = true := by
  rcases isColorBody_iff.mp color.wellFormed with hsingle | ⟨first, separator, second, hbody,
    hseparator, hfirst, hsecond⟩
  · exact .inl (isAlphanum_of_isSingleColor hsingle)
  · exact .inr ⟨first, separator, second, hbody, hseparator, isAlphanum_of_isSingleColor hfirst,
      isAlphanum_of_isSingleColor hsecond⟩

/-- A color is made of letters, digits and at most one separator. -/
theorem isColorChar_of_mem_body (color : Color) :
    ∀ c ∈ color.body.toList, isColorChar c = true := by
  intro c hc
  rcases color.body_parts with hsingle | ⟨first, separator, second, hbody, hseparator, hfirst,
    hsecond⟩
  · simp [isColorChar, hsingle c hc]
  · rw [hbody, List.mem_append, List.mem_cons] at hc
    rcases hc with hc | rfl | hc
    · simp [isColorChar, hfirst c hc]
    · simp [isColorChar, hseparator]
    · simp [isColorChar, hsecond c hc]

/-- No character of a class is a line break, where the two characters that end a line are
not in the class. -/
theorem isLineBreak_eq_false_of
    {f : Char → Bool}
    {c : Char}
    (hnewline : f '\n' = false)
    (hreturn : f '\r' = false)
    (h : f c = true) :
    isLineBreak c = false := by
  have hc : c ≠ '\n' ∧ c ≠ '\r' := by
    constructor
    · rintro rfl
      rw [h] at hnewline
      cases hnewline
    · rintro rfl
      rw [h] at hreturn
      cases hreturn
  simp [isLineBreak, hc.1, hc.2]

end Characters

section Contents

variable {s t text : String} {p : Position}

@[simp] theorem fitsOneLine_append :
    FitsOneLine (s ++ t) ↔ FitsOneLine s ∧ FitsOneLine t := by
  simp [FitsOneLine, or_imp, forall_and]

theorem fitsOneLine_escape (hp : p.multiline = false) (text : String) :
    FitsOneLine (escape p text) := by
  intro c hc
  rw [escape, String.toList_ofList] at hc
  obtain ⟨hreturn, hnewline⟩ := of_mem_escapeFrom none true _ hc
  have hc : c ≠ '\n' := by
    intro h
    rw [hp] at hnewline
    cases hnewline h
  simp [isLineBreak, hc, hreturn]

theorem fitsOneLine_alias {a : Alias} (h : a.IsPlain) : FitsOneLine a.name := by
  intro c hc
  exact isLineBreak_eq_false_of (f := isAliasChar) (by decide) (by decide) (h c hc)

theorem fitsOneLine_color (color : Color) : FitsOneLine color.display := by
  have hbody : FitsOneLine color.body := by
    intro c hc
    exact isLineBreak_eq_false_of (f := isColorChar) (by decide) (by decide)
      (isColorChar_of_mem_body color c hc)
  have hmark : FitsOneLine "#" := by decide
  exact fitsOneLine_append.mpr ⟨hmark, hbody⟩

theorem fitsOneLine_colorSuffix (color : Option Color) : FitsOneLine (colorSuffix color) := by
  cases color with
  | none => decide
  | some color => exact fitsOneLine_append.mpr ⟨by decide, fitsOneLine_color color⟩

theorem fitsOneLine_nat (n : Nat) : FitsOneLine (toString n) := by
  intro c hc
  exact isLineBreak_eq_false_of (f := isAliasChar) (by decide) (by decide)
    (isAliasChar_of_mem_repr hc)

theorem fitsOneLine_int (n : Int) : FitsOneLine (toString n) := by
  cases n with
  | ofNat n => exact fitsOneLine_nat n
  | negSucc n =>
      change FitsOneLine ("-" ++ toString (n + 1))
      exact fitsOneLine_append.mpr ⟨by decide, fitsOneLine_nat _⟩

/-- What stands in a list of parts stands in a part or between two of them. -/
theorem mem_or_mem_of_mem_intercalate
    {α : Type}
    {a : α}
    {separator : List α}
    {parts : List (List α)}
    (h : a ∈ separator.intercalate parts) :
    a ∈ separator ∨ ∃ part ∈ parts, a ∈ part := by
  induction parts with
  | nil => cases h
  | cons part rest ih =>
      cases rest with
      | nil =>
          rw [List.intercalate_singleton] at h
          exact .inr ⟨part, List.mem_cons_self, h⟩
      | cons next rest =>
          rw [List.intercalate_cons_cons] at h
          rcases List.mem_append.mp h with h | h
          · rcases List.mem_append.mp h with h | h
            · exact .inr ⟨part, List.mem_cons_self, h⟩
            · exact .inl h
          · rcases ih h with h | ⟨found, hfound, h⟩
            · exact .inl h
            · exact .inr ⟨found, List.mem_cons_of_mem _ hfound, h⟩

theorem fitsOneLine_intercalate
    {separator : String}
    (hseparator : FitsOneLine separator)
    {parts : List String}
    (hparts : ∀ s ∈ parts, FitsOneLine s) :
    FitsOneLine (String.intercalate separator parts) := by
  intro c hc
  rw [String.toList_intercalate] at hc
  rcases mem_or_mem_of_mem_intercalate hc with hc | ⟨part, hpart, hc⟩
  · exact hseparator c hc
  · obtain ⟨s, hs, rfl⟩ := List.mem_map.mp hpart
    exact hparts s hs c hc

theorem fitsOneLine_modifiers (style : LinkStyle) : ∀ s ∈ style.modifiers, FitsOneLine s := by
  intro s hs
  obtain ⟨color, line, thickness⟩ := style
  simp only [LinkStyle.modifiers, List.mem_append, Option.mem_toList,
    Option.map_eq_some_iff] at hs
  rcases hs with (⟨color, _, rfl⟩ | ⟨line, _, rfl⟩) | ⟨n, _, rfl⟩
  · exact fitsOneLine_color color
  · cases line <;> decide
  · exact fitsOneLine_append.mpr ⟨by decide, fitsOneLine_nat n⟩

theorem fitsOneLine_linkStyle (style : LinkStyle) : FitsOneLine style.text := by
  unfold LinkStyle.text
  split
  · decide
  · have hmodifiers : FitsOneLine (String.intercalate "," style.modifiers) :=
      fitsOneLine_intercalate (by decide) (fitsOneLine_modifiers style)
    exact fitsOneLine_append.mpr ⟨fitsOneLine_append.mpr ⟨by decide, hmodifiers⟩, by decide⟩

theorem fitsOneLine_inParentheses
    {lead : String}
    (hlead : FitsOneLine lead)
    (text : Option String) :
    FitsOneLine (inParentheses lead text) := by
  cases text with
  | none => simp [inParentheses, FitsOneLine]
  | some text =>
      have htext := fitsOneLine_escape (p := .parenthesized) rfl text
      simp only [inParentheses, fitsOneLine_append]
      exact ⟨⟨⟨hlead, by decide⟩, htext⟩, by decide⟩

theorem fitsOneLine_labelled
    {lead : String}
    (hlead : FitsOneLine lead)
    (text : Option String) :
    FitsOneLine (labelled lead text) := by
  cases text with
  | none => simp [labelled, FitsOneLine]
  | some text => exact fitsOneLine_append.mpr ⟨hlead, fitsOneLine_escape rfl text⟩

end Contents

/-- The content of every line fits on one line. -/
def AllOneLine (lines : List Line) : Prop :=
  ∀ l ∈ lines, FitsOneLine l.content

section Lines

variable {depth : Nat} {l : Line} {first second : List Line} {content : String}

@[simp] theorem allOneLine_nil : AllOneLine [] := by
  simp [AllOneLine]

@[simp] theorem allOneLine_cons :
    AllOneLine (l :: first) ↔ FitsOneLine l.content ∧ AllOneLine first := by
  simp [AllOneLine]

@[simp] theorem allOneLine_append :
    AllOneLine (first ++ second) ↔ AllOneLine first ∧ AllOneLine second := by
  simp [AllOneLine, or_imp, forall_and]

/-- The pieces between line breaks hold no line break, and no other characters than the
whole. -/
theorem of_mem_splitLines {c : Char} {chars piece : List Char} (hpiece : piece ∈ splitLines chars)
    (hc : c ∈ piece) :
    c ∈ chars ∧ c ≠ '\n' := by
  induction chars generalizing piece with
  | nil =>
      rw [splitLines, List.mem_singleton] at hpiece
      subst hpiece
      cases hc
  | cons d rest ih =>
      unfold splitLines at hpiece
      split at hpiece
      · rcases List.mem_cons.mp hpiece with rfl | hpiece
        · cases hc
        · exact ⟨List.mem_cons_of_mem _ (ih hpiece hc).1, (ih hpiece hc).2⟩
      · next hd =>
          split at hpiece
          · rw [List.mem_singleton] at hpiece
            subst hpiece
            rw [List.mem_singleton] at hc
            subst hc
            exact ⟨List.mem_cons_self, hd⟩
          · next first others hsplit =>
              rw [hsplit] at ih
              rcases List.mem_cons.mp hpiece with rfl | hpiece
              · rcases List.mem_cons.mp hc with rfl | hc
                · exact ⟨List.mem_cons_self, hd⟩
                · have hmem := ih List.mem_cons_self hc
                  exact ⟨List.mem_cons_of_mem _ hmem.1, hmem.2⟩
              · have hmem := ih (List.mem_cons_of_mem _ hpiece) hc
                exact ⟨List.mem_cons_of_mem _ hmem.1, hmem.2⟩

theorem allOneLine_blockLines (depth : Nat) (text : String) :
    AllOneLine (blockLines depth text) := by
  intro l hl
  obtain ⟨piece, hpiece, rfl⟩ := List.mem_map.mp hl
  unfold blockLine
  split
  · decide
  · intro c hc
    rw [String.toList_ofList] at hc
    obtain ⟨hmem, hnewline⟩ := of_mem_splitLines hpiece hc
    have hreturn := (of_mem_escapeFrom none true _ hmem).1
    simp [isLineBreak, hnewline, hreturn]

theorem allOneLine_enclosedLines
    {opening closing : String}
    (hopening : FitsOneLine opening)
    (hclosing : FitsOneLine closing)
    (depth : Nat)
    (text : String) :
    AllOneLine (enclosedLines depth opening text closing) := by
  simp only [enclosedLines, allOneLine_append, allOneLine_cons]
  exact ⟨⟨hopening, allOneLine_blockLines _ text⟩, hclosing, allOneLine_nil⟩

theorem allOneLine_noteLines
    {opening closing : String}
    (hopening : FitsOneLine opening)
    (hclosing : FitsOneLine closing)
    (depth : Nat)
    (text : String) :
    AllOneLine (noteLines depth opening text closing) := by
  unfold noteLines
  split
  · exact allOneLine_enclosedLines hopening hclosing depth text
  · simp only [allOneLine_cons, fitsOneLine_append]
    exact ⟨⟨⟨hopening, by decide⟩, fitsOneLine_escape rfl text⟩, allOneLine_nil⟩

theorem allOneLine_attachedNote
    {n : AttachedNote Alias}
    (htarget : n.target.IsPlain)
    (depth : Nat) :
    AllOneLine (n.lines depth) := by
  have hside : FitsOneLine n.side.keyword := by
    cases n.side <;> decide
  refine allOneLine_noteLines ?_ (by decide) depth n.text
  simp only [fitsOneLine_append]
  exact ⟨⟨⟨⟨by decide, hside⟩, by decide⟩, fitsOneLine_alias htarget⟩,
    fitsOneLine_colorSuffix n.color⟩

end Lines

end UmlText
