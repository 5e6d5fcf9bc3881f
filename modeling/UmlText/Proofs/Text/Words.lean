import UmlText.Proofs.Text.NoteBlocks

/-!
# The first word of a line

Where the lines of a dialect begin with names that a caller has chosen, the sort of a line
shows in its first word together with what stands behind the blank after it.
-/

namespace UmlText

/-- What stands in front of the first blank of a written line, its indentation aside. -/
def firstWord (l : List Char) : List Char :=
  (unindent l).takeWhile (· ≠ ' ')

/-- What stands behind the first blank of a written line, its indentation aside. -/
def afterWord (l : List Char) : List Char :=
  ((unindent l).dropWhile (· ≠ ' ')).tail

/-- How many blanks stand in front of a written line. -/
def indentOf (l : List Char) : Nat :=
  (l.takeWhile (· = ' ')).length

section Words

variable {indent depth : Nat} {content : String} {word rest : List Char}

theorem head_ne_blank_of_word
    (hcontent : content.toList = word ++ rest)
    (hword : ∀ c ∈ word, c ≠ ' ')
    (hvisible : word ≠ []) :
    ∀ c ∈ content.toList.head?, c ≠ ' ' := by
  intro c hc
  rw [hcontent] at hc
  cases word with
  | nil => exact absurd rfl hvisible
  | cons first word =>
      cases hc
      exact hword c List.mem_cons_self

/-- A word in front of a blank, or alone on its line. -/
theorem firstWord_laid
    (hcontent : content.toList = word ++ rest)
    (hword : ∀ c ∈ word, c ≠ ' ')
    (hvisible : word ≠ [])
    (hrest : ∀ c ∈ rest.head?, c = ' ') :
    firstWord ((⟨depth, content⟩ : Line).laid indent) = word := by
  unfold firstWord
  rw [unindent_laid (head_ne_blank_of_word hcontent hword hvisible), hcontent,
    List.takeWhile_append_of_pos fun c hc => decide_eq_true (hword c hc)]
  cases rest with
  | nil => simp
  | cons c rest =>
      have hc : c = ' ' := hrest c rfl
      simp [hc]

/-- The first character of a line is that of its first word. -/
theorem head_firstWord_laid {c : Char} (hc : content.toList.head? = some c) (hblank : c ≠ ' ') :
    (firstWord ((⟨depth, content⟩ : Line).laid indent)).head? = some c := by
  have hhead : ∀ d ∈ content.toList.head?, d ≠ ' ' := by
    intro d hd
    cases Option.mem_unique hd hc
    exact hblank
  unfold firstWord
  rw [unindent_laid hhead]
  cases hcontent : content.toList with
  | nil => simp [hcontent] at hc
  | cons first rest =>
      rw [hcontent] at hc
      cases hc
      simp [hblank]

theorem indentOf_laid {c : Char} (hc : content.toList.head? = some c) (hblank : c ≠ ' ') :
    indentOf ((⟨depth, content⟩ : Line).laid indent) = depth * indent := by
  have hstop : content.toList.takeWhile (· = ' ') = [] := by
    cases hcontent : content.toList with
    | nil => rfl
    | cons first rest =>
        rw [hcontent] at hc
        cases hc
        simp [hblank]
  unfold indentOf Line.laid
  rw [List.takeWhile_append_of_pos fun d hd => by simp [List.eq_of_mem_replicate hd], hstop]
  simp

/-- What stands behind a word and a blank. -/
theorem afterWord_laid
    (hcontent : content.toList = word ++ ' ' :: rest)
    (hword : ∀ c ∈ word, c ≠ ' ')
    (hvisible : word ≠ []) :
    afterWord ((⟨depth, content⟩ : Line).laid indent) = rest := by
  unfold afterWord
  rw [unindent_laid (head_ne_blank_of_word hcontent hword hvisible), hcontent,
    List.dropWhile_append_of_pos fun c hc => decide_eq_true (hword c hc)]
  simp

/-- Nothing stands behind a word that is alone on its line. -/
theorem afterWord_laid_nil (hcontent : ∀ c ∈ content.toList, c ≠ ' ') :
    afterWord ((⟨depth, content⟩ : Line).laid indent) = [] := by
  have hdrop : content.toList.dropWhile (· ≠ ' ') = [] :=
    List.dropWhile_eq_nil_iff.mpr fun c hc => decide_eq_true (hcontent c hc)
  unfold afterWord
  rw [unindent_laid fun c hc => hcontent c (List.mem_of_mem_head? hc), hdrop]
  rfl

/-- What stands behind a word, where a blank or nothing follows it. -/
theorem afterWord_laid_tail
    (hcontent : content.toList = word ++ rest)
    (hword : ∀ c ∈ word, c ≠ ' ')
    (hvisible : word ≠ [])
    (hrest : ∀ c ∈ rest.head?, c = ' ') :
    afterWord ((⟨depth, content⟩ : Line).laid indent) = rest.tail := by
  cases rest with
  | nil =>
      rw [List.append_nil] at hcontent
      exact afterWord_laid_nil (hcontent ▸ hword)
  | cons c rest =>
      cases hrest c rfl
      exact afterWord_laid hcontent hword hvisible

end Words

end UmlText
