import UmlText.Alias

/-!
# Plain aliases

The type of aliases says how an alias begins, but not how a generated one goes on.  An alias
is *plain* when it consists of the characters that a given alias may have.  All aliases that
calls make are plain: the given ones by the check they have passed, and the generated ones
because the stem and the number are made of such characters.
-/

namespace UmlText

/-- What is said of the characters of a list is decided along the list, and not by way of all
characters that there are. -/
instance (priority := high) decidableForallMemChar
    {p : Char → Prop}
    [DecidablePred p]
    (l : List Char) :
    Decidable (∀ c ∈ l, p c) :=
  List.decidableBAll p l

theorem isAliasChar_of_isAlphanum {c : Char} (h : c.isAlphanum = true) : isAliasChar c = true := by
  simp [isAliasChar, h]

/-- A number in decimal is made of characters that an alias may have. -/
theorem isAliasChar_of_mem_repr {c : Char} {n : Nat} (h : c ∈ (toString n).toList) :
    isAliasChar c = true := by
  have hdigit : c.isDigit = true := by
    rw [Nat.toString_eq_ofList_toDigits, String.toList_ofList] at h
    exact Nat.isDigit_of_mem_toDigits (by omega) (by omega) h
  exact isAliasChar_of_isAlphanum (by simp [Char.isAlphanum, hdigit])

namespace Alias

/-- All characters are those that a given alias may have. -/
def IsPlain (a : Alias) : Prop :=
  ∀ c ∈ a.name.toList, isAliasChar c = true

instance (a : Alias) : Decidable a.IsPlain :=
  List.decidableBAll (fun c => isAliasChar c = true) a.name.toList

theorem aliasFlaw?_cons_eq_none_iff {first : Char} {rest : List Char} :
    aliasFlaw? (first :: rest) = none ↔
      ¬generatedMark <+: first :: rest ∧ first.isAlpha = true ∧
        ∀ c ∈ rest, isAliasChar c = true := by
  by_cases hmark : generatedMark <+: first :: rest
  · simp [aliasFlaw?, hmark]
  · by_cases hfirst : first.isAlpha = true <;> simp [aliasFlaw?, hmark, hfirst]

/-- What has no flaw consists of characters that an alias may have. -/
theorem isAliasChar_of_aliasFlaw? {chars : List Char} (h : aliasFlaw? chars = none) :
    ∀ c ∈ chars, isAliasChar c = true := by
  cases chars with
  | nil => cases h
  | cons first rest =>
      obtain ⟨_, hfirst, hrest⟩ := aliasFlaw?_cons_eq_none_iff.mp h
      refine List.forall_mem_cons.mpr ⟨?_, hrest⟩
      exact isAliasChar_of_isAlphanum (by simp [Char.isAlphanum, hfirst])

theorem isPlain_of_parse {text : String} {a : Alias} (h : parse text = .ok a) : a.IsPlain := by
  obtain ⟨hflaw, rfl⟩ := parse_eq_ok_iff.mp h
  exact isAliasChar_of_aliasFlaw? hflaw

/-- A generated alias is plain when its stem is. -/
theorem isPlain_generated
    {stem : String}
    (hstem : ∀ c ∈ stem.toList, isAliasChar c = true)
    (index : Nat) :
    (generated stem index).IsPlain := by
  intro c hc
  simp only [generated, String.toList_ofList, List.mem_append] at hc
  rcases hc with (hmark | hmem) | hnumber
  · have hmarks : ∀ c ∈ generatedMark, isAliasChar c = true := by decide
    exact hmarks c hmark
  · exact hstem c hmem
  · exact isAliasChar_of_mem_repr hnumber

/-- An alias is not empty; it begins with a letter or with an underscore. -/
theorem exists_name_eq_cons (a : Alias) :
    ∃ first rest, a.name.toList = first :: rest ∧ (first.isAlpha = true ∨ first = '_') := by
  cases hname : a.name.toList with
  | nil =>
      have hwell := a.wellFormed
      rw [hname] at hwell
      rcases hwell with h | h
      · cases h
      · cases h
  | cons first rest =>
      refine ⟨first, rest, rfl, ?_⟩
      have hwell := a.wellFormed
      rw [hname] at hwell
      rcases hwell with h | h
      · exact .inl (aliasFlaw?_cons_eq_none_iff.mp h).2.1
      · right
        obtain ⟨back, hback⟩ := List.isPrefixOf_iff_prefix.mp h
        exact (List.cons.inj hback).1.symm

end Alias

end UmlText
