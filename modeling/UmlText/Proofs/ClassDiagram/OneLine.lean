import UmlText.Proofs.Authored
import UmlText.Proofs.Text.OneLine

/-!
# The lines of class diagrams fit on one line

Beside escaped texts, fixed words and colors, the lines of a class diagram hold the aliases
of classes, which are plain in every authored tree, and the numbers of notes that are
attached to nothing.
-/

namespace UmlText.ClassDiagram

section Records

theorem fitsOneLine_stereotypeSuffix (stereotype : Option String) :
    FitsOneLine (stereotypeSuffix stereotype) := by
  cases stereotype with
  | none => decide
  | some stereotype =>
      simp only [stereotypeSuffix, fitsOneLine_append]
      exact ⟨⟨by decide, fitsOneLine_escape rfl _⟩, by decide⟩

theorem fitsOneLine_class {c : Class} (hplain : c.id.IsPlain) : FitsOneLine c.line := by
  simp only [Class.line, fitsOneLine_append]
  refine ⟨⟨⟨⟨⟨⟨?_, by decide⟩, ?_⟩, fitsOneLine_alias hplain⟩, ?_⟩,
    fitsOneLine_stereotypeSuffix c.stereotype⟩, fitsOneLine_colorSuffix c.color⟩
  · cases c.kind <;> decide
  · cases c.display with
    | none => decide
    | some display =>
        simp only [fitsOneLine_append]
        exact ⟨⟨by decide, fitsOneLine_escape rfl _⟩, by decide⟩
  · cases c.generic with
    | none => decide
    | some generic =>
        simp only [fitsOneLine_append]
        exact ⟨⟨by decide, fitsOneLine_escape rfl _⟩, by decide⟩

theorem fitsOneLine_member (m : Member) : FitsOneLine m.line := by
  simp only [Member.line, fitsOneLine_append]
  refine ⟨⟨?_, ?_⟩, fitsOneLine_escape rfl _⟩
  · cases m.modifier with
    | none => decide
    | some modifier => cases modifier <;> decide
  · cases m.visibility with
    | none => decide
    | some visibility => cases visibility <;> decide

theorem allOneLine_class {c : Class} (hplain : c.id.IsPlain) (depth : Nat) :
    AllOneLine (c.lines depth) := by
  have hmembers : AllOneLine (c.members.map fun m => (⟨depth + 1, m.line⟩ : Line)) := by
    intro l hl
    obtain ⟨m, _, rfl⟩ := List.mem_map.mp hl
    exact fitsOneLine_member m
  unfold Class.lines
  split
  · exact allOneLine_cons.mpr ⟨fitsOneLine_class hplain, allOneLine_nil⟩
  · simp only [allOneLine_append, allOneLine_cons, fitsOneLine_append]
    exact ⟨⟨⟨fitsOneLine_class hplain, by decide⟩, hmembers⟩, by decide, allOneLine_nil⟩

theorem fitsOneLine_package (head : PackageHead) : FitsOneLine head.line := by
  have hkind : FitsOneLine head.kind.keyword := by
    cases head.kind <;> decide
  simp only [PackageHead.line, fitsOneLine_append]
  exact ⟨⟨⟨⟨⟨⟨hkind, by decide⟩, fitsOneLine_escape rfl _⟩, by decide⟩,
    fitsOneLine_stereotypeSuffix head.stereotype⟩, fitsOneLine_colorSuffix head.color⟩, by decide⟩

theorem fitsOneLine_multiplicity (text : Option String) : FitsOneLine (multiplicity text) := by
  cases text with
  | none => decide
  | some text =>
      simp only [multiplicity, fitsOneLine_append]
      exact ⟨⟨by decide, fitsOneLine_escape rfl _⟩, by decide⟩

theorem fitsOneLine_sign (r : Relation Alias) : FitsOneLine r.sign := by
  have hdash : FitsOneLine r.kind.dash := by
    cases r.kind <;> decide
  simp only [Relation.sign, fitsOneLine_append]
  refine ⟨⟨⟨⟨⟨?_, hdash⟩, ?_⟩, ?_⟩, hdash⟩, ?_⟩
  · cases r.kind <;> decide
  · cases r.color with
    | none => decide
    | some color =>
        simp only [fitsOneLine_append]
        exact ⟨⟨by decide, fitsOneLine_color color⟩, by decide⟩
  · cases r.direction with
    | none => decide
    | some direction => cases direction <;> decide
  · cases r.kind <;> decide

theorem fitsOneLine_relationLabel (label : Option String) (arrow : Option LabelArrow) :
    FitsOneLine (relationLabel label arrow) := by
  cases label with
  | none => simp [relationLabel, FitsOneLine]
  | some label =>
      have hlabel : FitsOneLine (escape .label label) := fitsOneLine_escape rfl label
      cases arrow with
      | none => exact fitsOneLine_append.mpr ⟨by decide, hlabel⟩
      | some arrow =>
          cases arrow with
          | forward =>
              simp only [relationLabel, fitsOneLine_append]
              exact ⟨⟨by decide, hlabel⟩, by decide⟩
          | backward => exact fitsOneLine_append.mpr ⟨by decide, hlabel⟩

theorem fitsOneLine_relation
    {r : Relation Alias}
    (hsource : r.source.IsPlain)
    (htarget : r.target.IsPlain) :
    FitsOneLine r.line := by
  simp only [Relation.line, fitsOneLine_append]
  exact ⟨⟨⟨⟨⟨⟨⟨fitsOneLine_alias hsource, by decide⟩, fitsOneLine_multiplicity _⟩,
    fitsOneLine_sign r⟩, by decide⟩, fitsOneLine_multiplicity _⟩, fitsOneLine_alias htarget⟩,
    fitsOneLine_relationLabel r.label r.labelArrow⟩

theorem allOneLine_floatingNote
    (depth number : Nat)
    (text : String)
    (color : Option Color) :
    AllOneLine (floatingNoteLines depth number text color) := by
  have hname : FitsOneLine (floatingNoteName number) :=
    fitsOneLine_append.mpr ⟨by decide, fitsOneLine_nat number⟩
  unfold floatingNoteLines
  split
  · refine allOneLine_enclosedLines ?_ (by decide) depth text
    simp only [fitsOneLine_append]
    exact ⟨⟨by decide, hname⟩, fitsOneLine_colorSuffix color⟩
  · simp only [allOneLine_cons, fitsOneLine_append]
    exact ⟨⟨⟨⟨⟨by decide, fitsOneLine_escape rfl _⟩, by decide⟩, hname⟩,
      fitsOneLine_colorSuffix color⟩, allOneLine_nil⟩

end Records

mutual

/-- The lines of an element fit on one line each when the classes in it are plain. -/
theorem allOneLine_lines :
    ∀ (node : Node) (k depth numbered : Nat),
      AllPlain (node.survey k) → AllOneLine (node.lines depth numbered)
  | .class c, k, depth, numbered, h => by
      simp only [Node.survey, allPlain_cons] at h
      exact allOneLine_class h.1 depth
  | .package head body, k, depth, numbered, h => by
      simp only [Node.survey, allPlain_cons] at h
      simp only [Node.lines, allOneLine_append, allOneLine_cons]
      exact ⟨⟨fitsOneLine_package head, allOneLine_linesFrom body _ _ _ h.2⟩, by decide,
        allOneLine_nil⟩
  | .relation r, k, depth, numbered, h => by
      simp only [Node.survey, allPlain_cons] at h
      simp only [Node.lines, allOneLine_cons]
      exact ⟨fitsOneLine_relation h.1 h.2.1, allOneLine_nil⟩
  | .note n, k, depth, numbered, h => by
      simp only [Node.survey, allPlain_cons] at h
      exact allOneLine_attachedNote h.1 depth
  | .floatingNote text color, _, depth, numbered, _ =>
      allOneLine_floatingNote depth (numbered + 1) text color

theorem allOneLine_linesFrom :
    ∀ (nodes : List Node) (k depth numbered : Nat),
      AllPlain (surveyNodes k nodes) → AllOneLine (linesFrom depth numbered nodes)
  | [], _, _, _, _ => allOneLine_nil
  | node :: rest, k, depth, numbered, h => by
      simp only [surveyNodes, allPlain_append] at h
      simp only [linesFrom, allOneLine_append]
      exact ⟨allOneLine_lines node _ _ _ h.1, allOneLine_linesFrom rest _ _ _ h.2⟩

end

theorem allOneLine_of_authored {nodes : List Node} (h : dialect.Authored nodes) :
    AllOneLine (linesOf nodes) := by
  have hplain := Kind.isPlain_of_authored .class h
  exact allOneLine_linesFrom nodes 0 0 0 (surveyNodes_eq nodes ▸ hplain)

end UmlText.ClassDiagram
