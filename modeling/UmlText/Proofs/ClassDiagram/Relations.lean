import UmlText.Proofs.ClassDiagram.Calls
import UmlText.Proofs.Text.Edges

/-!
# Labels of relations

The arrow beside the label of a relation is a `<` in front of the escaped label or a `>`
behind it.  Neither of the two signs is escaped in a label, so a label may bring an arrow of
its own: `draws >` without an arrow is written like `draws` with one.  `ReadsAs` lists the
labels for which this happens; otherwise the line of a relation determines its label and its
arrow.
-/

namespace UmlText.ClassDiagram

section Labels

variable {text label label' : String} {arrow arrow' : Option LabelArrow}

/-- A label and the arrow beside it, as they are written. -/
def besideLabel (label : String) : Option LabelArrow → String
  | none => escape .label label
  | some .forward => escape .label label ++ " >"
  | some .backward => "< " ++ escape .label label

theorem relationLabel_some (label : String) (arrow : Option LabelArrow) :
    relationLabel (some label) arrow = " : " ++ besideLabel label arrow := by
  cases arrow with
  | none => rfl
  | some arrow =>
      cases arrow with
      | forward => rw [relationLabel, besideLabel, String.append_assoc]
      | backward =>
          rw [relationLabel, besideLabel, ← String.append_assoc]
          rfl

/-- A `>` behind a label is written as it is. -/
theorem escape_append_forward (label : String) :
    escape .label (label ++ " >") = escape .label label ++ " >" := by
  obtain ⟨atStart, hcut⟩ :=
    exists_escapeChars_append_cons (p := .label) (c := ' ') (l := label.toList) (m := ['>'])
      rfl rfl (by decide) (by decide)
  rw [escapeFrom_eq_self rfl (by decide)] at hcut
  have hlabel : (label ++ " >").toList = label.toList ++ [' ', '>'] := by
    simp
  rw [← String.toList_inj, escape, escape, hlabel, hcut, String.toList_append,
    String.toList_ofList, String.toList_ofList]
  rfl

/-- A `<` in front of a label is written as it is, and the label behind it is not at the
start of the text. -/
theorem escapeChars_backward (l : List Char) :
    escapeChars .label ('<' :: ' ' :: l) = '<' :: ' ' :: escapeFrom .label none false l := by
  rw [← escapeFrom_of_unpaired (c := ' ') (by decide)]
  rfl

/-- The texts that are written like a label with a `<` in front. -/
theorem escape_eq_backward_iff :
    escape .label text = "< " ++ escape .label label ↔
      text = "< " ++ label ∧ BeginsPlainly .label label := by
  have hsign : "< ".toList = ['<', ' '] := rfl
  simp only [← String.toList_inj, String.toList_append, escape, String.toList_ofList, hsign,
    List.cons_append, List.nil_append]
  constructor
  · intro h
    have htext : text.toList = '<' :: ' ' :: label.toList := by
      have hread := congrArg unescapeChars h
      rw [unescapeChars_escapeChars] at hread
      rw [hread]
      change '<' :: ' ' :: unescapeChars (escapeChars .label label.toList) = _
      rw [unescapeChars_escapeChars]
    refine ⟨htext, ?_⟩
    rw [htext, escapeChars_backward] at h
    exact (List.cons.inj (List.cons.inj h).2).2.symm
  · rintro ⟨htext, hplain⟩
    rw [htext, escapeChars_backward, ← hplain]
    rfl

/-- The first label, with its arrow, is written like the second one with its arrow, because
the first one holds the arrow of the second. -/
inductive ReadsAs : Option String → Option LabelArrow → Option String → Option LabelArrow → Prop
  | forward (label : String) :
      ReadsAs (some (label ++ " >")) none (some label) (some .forward)
  | backward {label : String} (hplain : BeginsPlainly .label label) :
      ReadsAs (some ("< " ++ label)) none (some label) (some .backward)
  /-- Each of the two labels holds the arrow of the other. -/
  | both {label label' : String} (hplain : BeginsPlainly .label label')
      (htexts : label ++ " >" = "< " ++ label') :
      ReadsAs (some label) (some .forward) (some label') (some .backward)

theorem ReadsAs.besideLabel_eq (h : ReadsAs (some label) arrow (some label') arrow') :
    besideLabel label arrow = besideLabel label' arrow' := by
  cases h with
  | forward => exact escape_append_forward label'
  | backward hplain => exact escape_eq_backward_iff.mpr ⟨rfl, hplain⟩
  | both hplain htexts =>
      rw [besideLabel, besideLabel, ← escape_append_forward]
      exact escape_eq_backward_iff.mpr ⟨htexts, hplain⟩

/-- A label without an arrow that is written like one with an arrow. -/
theorem readsAs_of_besideLabel_none
    {arrow : LabelArrow}
    (h : besideLabel label none = besideLabel label' (some arrow)) :
    ReadsAs (some label) none (some label') (some arrow) := by
  cases arrow with
  | forward =>
      rw [besideLabel, besideLabel, ← escape_append_forward] at h
      obtain rfl := escape_cut_end (congrArg String.toList h)
      exact .forward label'
  | backward =>
      obtain ⟨rfl, hplain⟩ := escape_eq_backward_iff.mp h
      exact .backward hplain

/-- Labels with different arrows that are written alike. -/
theorem readsAs_of_besideLabel_forward
    (h : besideLabel label (some .forward) = besideLabel label' (some .backward)) :
    ReadsAs (some label) (some .forward) (some label') (some .backward) := by
  rw [besideLabel, besideLabel, ← escape_append_forward] at h
  obtain ⟨htexts, hplain⟩ := escape_eq_backward_iff.mp h
  exact .both hplain htexts

/-- The same arrow beside two labels is cut off. -/
theorem eq_of_besideLabel_eq (h : besideLabel label arrow = besideLabel label' arrow) :
    label = label' := by
  have hescaped : escape .label label = escape .label label' := by
    cases arrow with
    | none => exact h
    | some arrow =>
        cases arrow with
        | forward => exact (String.append_left_inj _).mp h
        | backward => exact (String.append_right_inj _).mp h
  exact escape_cut_end (congrArg String.toList hescaped)

theorem besideLabel_eq_iff :
    besideLabel label arrow = besideLabel label' arrow' ↔
      (label = label' ∧ arrow = arrow') ∨ ReadsAs (some label) arrow (some label') arrow' ∨
        ReadsAs (some label') arrow' (some label) arrow := by
  constructor
  · intro h
    by_cases harrow : arrow = arrow'
    · subst harrow
      exact .inl ⟨eq_of_besideLabel_eq h, rfl⟩
    · right
      cases arrow with
      | none =>
          cases arrow' with
          | none => exact absurd rfl harrow
          | some arrow' => exact .inl (readsAs_of_besideLabel_none h)
      | some arrow =>
          cases arrow' with
          | none => exact .inr (readsAs_of_besideLabel_none h.symm)
          | some arrow' =>
              cases arrow with
              | forward =>
                  cases arrow' with
                  | forward => exact absurd rfl harrow
                  | backward => exact .inl (readsAs_of_besideLabel_forward h)
              | backward =>
                  cases arrow' with
                  | forward => exact .inr (readsAs_of_besideLabel_forward h.symm)
                  | backward => exact absurd rfl harrow
  · rintro (⟨rfl, rfl⟩ | h | h)
    · rfl
    · exact h.besideLabel_eq
    · exact h.besideLabel_eq.symm

end Labels

section Relations

variable {r : Relation Alias} {label label' : Option String} {arrow arrow' : Option LabelArrow}

/-- A relation with another label and another arrow beside it. -/
def Relation.relabelled
    {Name : Type}
    (r : Relation Name)
    (label : Option String)
    (arrow : Option LabelArrow) : Relation Name :=
  { r with label, labelArrow := arrow }

/-- The checks of a relation accept the label and the arrow beside it. -/
def LabelAccepted (label : Option String) (arrow : Option LabelArrow) : Prop :=
  ∃ given kept : Relation String, (given.relabelled label arrow).check = .ok kept

/-- An arrow is accepted beside a label only. -/
theorem LabelAccepted.arrow_eq_none (h : LabelAccepted none arrow) : arrow = none := by
  obtain ⟨given, kept, hcheck⟩ := h
  cases arrow with
  | none => rfl
  | some arrow => cases hcheck

theorem relationLabel_eq_iff
    (h : LabelAccepted label arrow)
    (h' : LabelAccepted label' arrow') :
    relationLabel label arrow = relationLabel label' arrow' ↔
      (label = label' ∧ arrow = arrow') ∨ ReadsAs label arrow label' arrow' ∨
        ReadsAs label' arrow' label arrow := by
  have hsome : ∀ (label : String) (arrow : Option LabelArrow),
      relationLabel (some label) arrow ≠ "" := by
    intro label arrow hempty
    rw [relationLabel_some] at hempty
    simpa using congrArg String.toList hempty
  cases label with
  | none =>
      obtain rfl := h.arrow_eq_none
      cases label' with
      | none =>
          obtain rfl := h'.arrow_eq_none
          simp
      | some label' =>
          refine iff_of_false (fun hempty => hsome label' arrow' hempty.symm) ?_
          rintro (⟨hlabel, _⟩ | hreads | hreads)
          · cases hlabel
          · cases hreads
          · cases hreads
  | some label =>
      cases label' with
      | none =>
          refine iff_of_false (hsome label arrow) ?_
          rintro (⟨hlabel, _⟩ | hreads | hreads)
          · cases hlabel
          · cases hreads
          · cases hreads
      | some label' =>
          have hcancel : relationLabel (some label) arrow = relationLabel (some label') arrow' ↔
              besideLabel label arrow = besideLabel label' arrow' := by
            rw [relationLabel_some, relationLabel_some, String.append_right_inj]
          rw [hcancel, besideLabel_eq_iff, Option.some_inj]

/-- The line of a relation determines its label and the arrow beside it, but where a label
holds the arrow of the other one. -/
theorem Relation.relabelled_line_eq_iff
    (h : LabelAccepted label arrow)
    (h' : LabelAccepted label' arrow') :
    (r.relabelled label arrow).line = (r.relabelled label' arrow').line ↔
      (label = label' ∧ arrow = arrow') ∨ ReadsAs label arrow label' arrow' ∨
        ReadsAs label' arrow' label arrow := by
  have hline : ∀ (label : Option String) (arrow : Option LabelArrow),
      (r.relabelled label arrow).line =
        r.source.name ++ " " ++ multiplicity r.sourceMultiplicity ++ r.sign ++ " " ++
          multiplicity r.targetMultiplicity ++ r.target.name ++ relationLabel label arrow :=
    fun _ _ => rfl
  rw [← relationLabel_eq_iff h h', hline, hline, String.append_right_inj]

/-- A relation between two classes. -/
def usage : Relation Alias :=
  { source := ⟨"Order", by decide⟩, target := ⟨"Line", by decide⟩, kind := .directed }

/-- The relation between these two classes as a call asks for it. -/
def usageCall : Relation String :=
  { source := "Order", target := "Line", kind := .directed }

theorem Relation.relabelled_line_eq_iff_of_draws :
    let label := some "< draws"
    let label' := some "draws >"
    LabelAccepted label (some .forward) ∧ LabelAccepted label' (some .backward) ∧
      ((usage.relabelled label (some .forward)).line =
          (usage.relabelled label' (some .backward)).line ↔
        (label = label' ∧ some LabelArrow.forward = some .backward) ∨
          ReadsAs label (some .forward) label' (some .backward) ∨
            ReadsAs label' (some .backward) label (some .forward)) := by
  have h : LabelAccepted (some "< draws") (some .forward) := ⟨usageCall, _, rfl⟩
  have h' : LabelAccepted (some "draws >") (some .backward) := ⟨usageCall, _, rfl⟩
  exact ⟨h, h', relabelled_line_eq_iff h h'⟩

/-- A label can bring either of the two arrows, and then the relation is written like one
that has the arrow. -/
theorem Relation.relabelled_line_eq_of_arrowInLabel :
    let plain := some "draws"
    LabelAccepted (some "draws >") none ∧ LabelAccepted plain (some .forward) ∧
      (usage.relabelled (some "draws >") none).line =
        (usage.relabelled plain (some .forward)).line ∧ some "draws >" ≠ plain ∧
      LabelAccepted (some "< draws") none ∧ LabelAccepted plain (some .backward) ∧
      (usage.relabelled (some "< draws") none).line =
        (usage.relabelled plain (some .backward)).line ∧ some "< draws" ≠ plain :=
  ⟨⟨usageCall, _, rfl⟩, ⟨usageCall, _, rfl⟩, rfl, by decide,
    ⟨usageCall, _, rfl⟩, ⟨usageCall, _, rfl⟩, rfl, by decide⟩

end Relations

end UmlText.ClassDiagram
