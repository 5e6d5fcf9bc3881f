import Mathlib.Computability.Language
import UmlText.Proofs.Text.Edges

/-!
# What reads as a color

The form of a color is given by a grammar, `colorBodies`: three, six or eight hexadecimal
digits, or a word of letters, or two of these with a separator between.  The form is tested
by cutting the text at the first separator.  No separator stands in a single color, so the
cut is in the right place, and the test agrees with the grammar on every text
(`isColorBody_iff_mem`).

A caller's text may have blanks around it and one `#` in front.  What is left without them
is its *body* (`IsBodyOf`); every text has exactly one.  So a text reads as a color exactly
when its body is in the grammar, and as the color with that body (`Color.parse_eq_ok_iff`).
A color has no blank and no `#` in it: as it is kept, or with a `#` in front, it is its own
body.
-/

namespace UmlText

section Grammar

open scoped Computability

variable {p : Char → Prop} {n : Nat} {c : Char} {l : List Char} {m : Language Char}

/-- The digits of a color given by its components: `0`-`9`, `A`-`F` and `a`-`f`. -/
def IsHex (c : Char) : Prop :=
  ('0' ≤ c ∧ c ≤ '9') ∨ ('A' ≤ c ∧ c ≤ 'F') ∨ ('a' ≤ c ∧ c ≤ 'f')

/-- The letters of a color given by its name: `A`-`Z` and `a`-`z`. -/
def IsLetter (c : Char) : Prop :=
  ('A' ≤ c ∧ c ≤ 'Z') ∨ ('a' ≤ c ∧ c ≤ 'z')

/-- The texts of one character, where it is in a class. -/
def oneOf (p : Char → Prop) : Language Char :=
  {l | ∃ c, p c ∧ l = [c]}

/-- The single colors: three, six or eight hexadecimal digits, or at least one letter. -/
def singleColors : Language Char :=
  oneOf IsHex ^ 3 + oneOf IsHex ^ 6 + oneOf IsHex ^ 8 + oneOf IsLetter * (oneOf IsLetter)∗

/-- The grammar of colors: one single color, or two of them with one separator between. -/
def colorBodies : Language Char :=
  singleColors + singleColors * oneOf (· ∈ ['|', '/', '\\', '-']) * singleColors

theorem mem_oneOf_mul : l ∈ oneOf p * m ↔ ∃ c rest, l = c :: rest ∧ p c ∧ rest ∈ m := by
  rw [Language.mem_mul]
  constructor
  · rintro ⟨_, ⟨c, hc, rfl⟩, rest, hrest, rfl⟩
    exact ⟨c, rest, rfl, hc, hrest⟩
  · rintro ⟨c, rest, rfl, hc, hrest⟩
    exact ⟨[c], ⟨c, hc, rfl⟩, rest, hrest, rfl⟩

theorem mem_oneOf_pow : l ∈ oneOf p ^ n ↔ l.length = n ∧ ∀ c ∈ l, p c := by
  induction n generalizing l with
  | zero => simp +contextual [Language.mem_one]
  | succ n ih =>
      rw [pow_succ', mem_oneOf_mul]
      constructor
      · rintro ⟨c, rest, rfl, hc, hrest⟩
        obtain ⟨hlength, hall⟩ := ih.mp hrest
        exact ⟨by simp [hlength], List.forall_mem_cons.mpr ⟨hc, hall⟩⟩
      · rintro ⟨hlength, hall⟩
        cases l with
        | nil => cases hlength
        | cons c rest =>
            obtain ⟨hc, hrest⟩ := List.forall_mem_cons.mp hall
            exact ⟨c, rest, rfl, hc, ih.mpr ⟨by simpa using hlength, hrest⟩⟩

theorem mem_oneOf_kstar : l ∈ (oneOf p)∗ ↔ ∀ c ∈ l, p c := by
  rw [Language.kstar_eq_iSup_pow, Language.mem_iSup]
  simp [mem_oneOf_pow]

/-- The single colors by length and characters. -/
theorem mem_singleColors_iff :
    l ∈ singleColors ↔
      ((l.length = 3 ∨ l.length = 6 ∨ l.length = 8) ∧ ∀ c ∈ l, IsHex c) ∨
        (l ≠ [] ∧ ∀ c ∈ l, IsLetter c) := by
  have hword : l ∈ oneOf IsLetter * (oneOf IsLetter)∗ ↔ l ≠ [] ∧ ∀ c ∈ l, IsLetter c := by
    cases l <;> simp [mem_oneOf_mul, mem_oneOf_kstar]
  simp only [singleColors, Language.mem_add, mem_oneOf_pow, hword, or_and_right, or_assoc]

/-- The grammar of colors by the parts of a text. -/
theorem mem_colorBodies_iff :
    l ∈ colorBodies ↔ l ∈ singleColors ∨
      ∃ first separator second, l = first ++ separator :: second ∧
        separator ∈ ['|', '/', '\\', '-'] ∧ first ∈ singleColors ∧ second ∈ singleColors := by
  rw [colorBodies, Language.mem_add, mul_assoc, Language.mem_mul]
  simp only [mem_oneOf_mul]
  constructor
  · rintro (h | ⟨first, hfirst, _, ⟨separator, second, rfl, hseparator, hsecond⟩, rfl⟩)
    · exact .inl h
    · exact .inr ⟨first, separator, second, rfl, hseparator, hfirst, hsecond⟩
  · rintro (h | ⟨first, separator, second, rfl, hseparator, hfirst, hsecond⟩)
    · exact .inl h
    · exact .inr ⟨first, hfirst, _, ⟨separator, second, rfl, hseparator, hsecond⟩, rfl⟩

theorem isDigit_iff : c.isDigit = true ↔ '0' ≤ c ∧ c ≤ '9' :=
  Char.isDigit_iff_toNat

theorem isHexDigit_iff : isHexDigit c = true ↔ IsHex c := by
  simp only [isHexDigit, IsHex, Bool.or_eq_true, Bool.and_eq_true, decide_eq_true_eq, isDigit_iff,
    or_assoc]
  exact or_congr_right or_comm

theorem isAlpha_iff : c.isAlpha = true ↔ IsLetter c := by
  have hupper : c.isUpper = true ↔ 'A' ≤ c ∧ c ≤ 'Z' := decide_eq_true_iff
  have hlower : c.isLower = true ↔ 'a' ≤ c ∧ c ≤ 'z' :=
    Bool.and_eq_true_iff.trans (and_congr decide_eq_true_iff decide_eq_true_iff)
  exact Bool.or_eq_true_iff.trans (or_congr hupper hlower)

/-- The test for a single color agrees with the grammar. -/
theorem isSingleColor_iff_mem : isSingleColor l = true ↔ l ∈ singleColors := by
  have hlength : [3, 6, 8].contains l.length = true ↔
      l.length = 3 ∨ l.length = 6 ∨ l.length = 8 := by
    simp
  have hnonempty : (!l.isEmpty) = true ↔ l ≠ [] := by
    simp
  simp only [isSingleColor, Bool.or_eq_true, Bool.and_eq_true, List.all_eq_true, isHexDigit_iff,
    isAlpha_iff, hlength, hnonempty]
  rw [mem_singleColors_iff, and_comm]

/-- The test for the body of a color agrees with the grammar on every text. -/
theorem isColorBody_iff_mem : isColorBody l = true ↔ l ∈ colorBodies := by
  rw [isColorBody_iff, mem_colorBodies_iff]
  simp only [isSingleColor_iff_mem, isGradientSeparator, List.contains_eq_mem, decide_eq_true_eq]

end Grammar

section Readings

variable {c : Char} {l m : List Char}

/-- The first text is the body of the second one: what is left without the blanks around it,
and without the first character of the rest where that is a `#`. -/
def IsBodyOf (body text : List Char) : Prop :=
  ∃ front core back, text = front ++ (core ++ back) ∧
    (∀ c ∈ front, isBlank c = true) ∧ (∀ c ∈ back, isBlank c = true) ∧ VisibleEnds core ∧
    (core = '#' :: body ∨ core = body ∧ body.head? ≠ some '#')

theorem Color.withoutHash_eq_iff :
    withoutHash l = m ↔ l = '#' :: m ∨ l = m ∧ m.head? ≠ some '#' := by
  by_cases hhash : l.head? = some '#'
  · obtain ⟨rest, rfl⟩ := List.head?_eq_some_iff.mp hhash
    have hother : ¬('#' :: rest = m ∧ m.head? ≠ some '#') := by
      rintro ⟨rfl, hm⟩
      exact hm rfl
    rw [or_iff_left hother, List.cons_inj_right, withoutHash]
  · have hsame : withoutHash l = l := by
      unfold withoutHash
      split
      · exact absurd rfl hhash
      · rfl
    have hother : l ≠ '#' :: m := by
      rintro rfl
      exact hhash rfl
    rw [hsame, or_iff_right hother]
    constructor
    · rintro rfl
      exact ⟨rfl, hhash⟩
    · exact And.left

/-- Every text has exactly one body. -/
theorem isBodyOf_iff : IsBodyOf m l ↔ m = Color.withoutHash (trim l) := by
  constructor
  · rintro ⟨front, core, back, hl, hfront, hback, hcore, hhash⟩
    rw [trim_eq_iff.mpr ⟨hcore, front, back, hl, hfront, hback⟩, eq_comm]
    exact Color.withoutHash_eq_iff.mpr hhash
  · rintro rfl
    obtain ⟨hcore, front, back, hl, hfront, hback⟩ := trim_eq_iff.mp (rfl : trim l = trim l)
    exact ⟨front, trim l, back, hl, hfront, hback, hcore, Color.withoutHash_eq_iff.mp rfl⟩

/-- No character from `!` to `~` is blank. -/
theorem isBlank_eq_false_of_printable (hlow : '!' ≤ c) (hhigh : c ≤ '~') : isBlank c = false := by
  have hleast : 0x21 ≤ c.toNat := hlow
  have hgreatest : c.toNat ≤ 0x7E := hhigh
  simp only [isBlank, blankRanges, List.any_cons, List.any_nil, Bool.or_false, Bool.or_eq_false_iff,
    Bool.and_eq_false_iff, decide_eq_false_iff_not]
  omega

theorem isBlank_eq_false_of_isColorChar (h : isColorChar c = true) : isBlank c = false := by
  rw [isColorChar, Bool.or_eq_true] at h
  rcases h with hword | hseparator
  · obtain ⟨hlow, hhigh⟩ : '!' ≤ c ∧ c ≤ '~' := by
      rw [Char.isAlphanum, Bool.or_eq_true, isAlpha_iff, isDigit_iff] at hword
      rcases hword with (⟨hlow, hhigh⟩ | ⟨hlow, hhigh⟩) | ⟨hlow, hhigh⟩ <;>
        exact ⟨Char.le_trans (by decide) hlow, Char.le_trans hhigh (by decide)⟩
    exact isBlank_eq_false_of_printable hlow hhigh
  · have hseparators : ∀ d ∈ ['|', '/', '\\', '-'], isBlank d = false := by
      decide
    exact hseparators c (by simpa [isGradientSeparator] using hseparator)

/-- A color has no blank in it, and none beside a `#` in front. -/
theorem Color.visibleEnds_body (color : Color) :
    VisibleEnds color.body.toList ∧ VisibleEnds ('#' :: color.body.toList) := by
  have hbody : ∀ c ∈ color.body.toList, isBlank c = false := fun c hc =>
    isBlank_eq_false_of_isColorChar (isColorChar_of_mem_body color c hc)
  have hhash : isBlank '#' = false := by
    decide
  exact ⟨visibleEnds_of_forall hbody,
    visibleEnds_of_forall (List.forall_mem_cons.mpr ⟨hhash, hbody⟩)⟩

end Readings

namespace Color

variable {text : String} {color : Color} {flaw : InvalidValue}

/-- A text reads as the color that is its body. -/
theorem parse_eq_ok_iff : parse text = .ok color ↔ IsBodyOf color.body.toList text.toList := by
  rw [isBodyOf_iff, parse]
  split_ifs with hform
  · rw [Except.ok.injEq, Color.ext_iff, ← String.toList_inj, String.toList_ofList, eq_comm]
  · refine iff_of_false (by simp) fun hbody => hform ?_
    rw [← hbody]
    exact color.wellFormed

/-- A text that does not read as a color is named by the error, as the caller gave it. -/
theorem parse_eq_error_iff :
    parse text = .error flaw ↔
      flaw = .badColor text ∧ withoutHash (trim text.toList) ∉ colorBodies := by
  rw [← isColorBody_iff_mem, parse]
  split_ifs with hform
  · exact iff_of_false (by simp) fun h => h.2 hform
  · rw [Except.error.injEq, eq_comm, and_iff_left hform]

/-- Two colors have one separator between them. -/
example : parse "#red--blue" = .error (.badColor "#red--blue") := by
  rfl

/-- A color reads as itself when it is shown. -/
theorem parse_display (color : Color) : parse color.display = .ok color := by
  rw [parse_eq_ok_iff, toList_display]
  exact ⟨[], '#' :: color.body.toList, [], by simp, nofun, nofun, color.visibleEnds_body.2,
    .inl rfl⟩

/-- A color reads as itself without a `#`, too. -/
theorem parse_body (color : Color) : parse color.body = .ok color := by
  have hhash : color.body.toList.head? ≠ some '#' := by
    intro h
    exact absurd (isColorChar_of_mem_body color '#' (List.mem_of_head? h)) (by decide)
  rw [parse_eq_ok_iff]
  exact ⟨[], color.body.toList, [], by simp, nofun, nofun, color.visibleEnds_body.1,
    .inr ⟨rfl, hhash⟩⟩

/-- A text reads as a color when its body is in the grammar, and else it is refused with an
error that names it; the color keeps the body, and it reads as itself again, shown with a
`#` or kept without. -/
theorem parse_succeeds_iff_and_reads_back (text : String) :
    ∃ body, (∀ l, IsBodyOf l text.toList ↔ l = body) ∧
      ((∃ color, parse text = .ok color) ↔ body ∈ colorBodies) ∧
      (parse text = .error (.badColor text) ↔ body ∉ colorBodies) ∧
      ∀ color, parse text = .ok color →
        color.body.toList = body ∧ parse color.display = .ok color ∧
          parse color.body = .ok color := by
  refine ⟨withoutHash (trim text.toList), fun l => isBodyOf_iff, ⟨?accepted, fun hbody => ?reads⟩,
    ?refused, fun color hcolor => ?back⟩
  case accepted =>
    rintro ⟨color, hcolor⟩
    rw [← isBodyOf_iff.mp (parse_eq_ok_iff.mp hcolor), ← isColorBody_iff_mem]
    exact color.wellFormed
  case reads =>
    exact ⟨_, dif_pos (isColorBody_iff_mem.mpr hbody)⟩
  case refused => rw [parse_eq_error_iff, and_iff_right rfl]
  case back =>
    exact ⟨isBodyOf_iff.mp (parse_eq_ok_iff.mp hcolor), parse_display color, parse_body color⟩

/-- A gradient with a wide blank behind it, of two colors that are digits and names at once.
-/
theorem parse_succeeds_iff_and_reads_back_of_wideBlank :
    ∃ color, parse "\t#FACADE|abc\u3000" = .ok color ∧ color.body = "FACADE|abc" ∧
      color.body.toList ∈ colorBodies ∧ parse color.display = .ok color ∧
      parse color.body = .ok color := by
  obtain ⟨body, _, haccepted, _, hback⟩ :=
    parse_succeeds_iff_and_reads_back "\t#FACADE|abc\u3000"
  have hcolor : parse "\t#FACADE|abc\u3000" = .ok ⟨"FACADE|abc", by decide⟩ := by
    rfl
  obtain ⟨hbody, hshown, hkept⟩ := hback _ hcolor
  refine ⟨_, hcolor, rfl, ?_, hshown, hkept⟩
  rw [hbody]
  exact haccepted.mp ⟨_, hcolor⟩

end Color

end UmlText
