import UmlText.Text.Check

/-!
# When checks accept

Checks of texts hand back what they were given, so a chain of checks is accepted when every
text in it is, and then nothing has changed.
-/

namespace UmlText

section Except

variable {ε α β : Type}

theorem bind_eq_ok_iff
    {first : Except ε α}
    {next : α → Except ε β}
    {value : β} :
    first >>= next = .ok value ↔ ∃ middle, first = .ok middle ∧ next middle = .ok value := by
  cases first with
  | error what =>
      constructor
      · intro h
        cases h
      · rintro ⟨middle, h, _⟩
        cases h
  | ok middle =>
      constructor
      · intro h
        exact ⟨middle, rfl, h⟩
      · rintro ⟨_, hfirst, h⟩
        cases hfirst
        exact h

theorem pure_eq_ok_iff {given value : α} :
    (pure given : Except ε α) = .ok value ↔ value = given := by
  constructor
  · intro h
    cases h
    rfl
  · rintro rfl
    rfl

theorem map_eq_ok_iff
    {first : Except ε α}
    {change : α → β}
    {value : β} :
    first.map change = .ok value ↔ ∃ middle, first = .ok middle ∧ value = change middle := by
  cases first <;> simp [Except.map, eq_comm]

end Except

/-- A text of one line is accepted as it is. -/
theorem singleLine_keeps_iff {what text : String} (kept : String) :
    singleLine what text = .ok kept ↔ (IsVisible text ∧ FitsOneLine text) ∧ kept = text := by
  rw [singleLine_eq_ok_iff, and_assoc]

section Optional

variable {text kept : Option String}

/-- A check of a text that may be missing accepts what the check of the text accepts. -/
theorem optionally_eq_ok_iff
    {check : String → Except InvalidValue String}
    {Accepted : String → Prop}
    (hcheck : ∀ text kept, check text = .ok kept ↔ Accepted text ∧ kept = text) :
    optionally check text = .ok kept ↔ (∀ t ∈ text, Accepted t) ∧ kept = text := by
  cases text with
  | none => simp [optionally, eq_comm]
  | some text =>
      simp only [optionally, map_eq_ok_iff, hcheck, Option.mem_some_iff, forall_eq']
      constructor
      · rintro ⟨_, ⟨h, rfl⟩, rfl⟩
        exact ⟨h, rfl⟩
      · rintro ⟨h, rfl⟩
        exact ⟨text, ⟨h, rfl⟩, rfl⟩

theorem optionally_freeText_eq_ok_iff {what : String} :
    optionally (freeText what) text = .ok kept ↔ (∀ t ∈ text, IsVisible t) ∧ kept = text :=
  optionally_eq_ok_iff fun _ _ => freeText_eq_ok_iff

theorem optionally_singleLine_eq_ok_iff {what : String} :
    optionally (singleLine what) text = .ok kept ↔
      (∀ t ∈ text, IsVisible t ∧ FitsOneLine t) ∧ kept = text :=
  optionally_eq_ok_iff fun _ _ => singleLine_keeps_iff _

end Optional

end UmlText
