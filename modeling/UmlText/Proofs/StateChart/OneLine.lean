import UmlText.Proofs.Authored
import UmlText.Proofs.Text.OneLine

/-!
# The lines of state charts fit on one line

The lines of a state chart are made of escaped texts, of fixed words and of the aliases of
states, which are plain in every authored tree.
-/

namespace UmlText.StateChart

section Records

theorem fitsOneLine_state {s : State} (hplain : s.id.IsPlain) : FitsOneLine s.line := by
  simp only [State.line, fitsOneLine_append]
  refine ⟨⟨⟨⟨by decide, ?_⟩, fitsOneLine_alias hplain⟩, ?_⟩, fitsOneLine_colorSuffix s.color⟩
  · cases s.display with
    | none => decide
    | some display =>
        simp only [fitsOneLine_append]
        exact ⟨⟨by decide, fitsOneLine_escape rfl _⟩, by decide⟩
  · cases s.kind <;> decide

theorem allOneLine_description {s : State} (hplain : s.id.IsPlain) (depth : Nat) :
    AllOneLine (s.descriptionLines depth) := by
  intro l hl
  obtain ⟨text, _, rfl⟩ := List.mem_map.mp hl
  simp only [fitsOneLine_append]
  exact ⟨⟨fitsOneLine_alias hplain, by decide⟩, fitsOneLine_escape rfl text⟩

theorem fitsOneLine_endpoint {e : Endpoint Alias} (hplain : ∀ a ∈ e.states, a.IsPlain) :
    FitsOneLine e.sign := by
  cases e with
  | state a => exact fitsOneLine_alias (hplain a List.mem_cons_self)
  | _ => decide

theorem fitsOneLine_transition
    {t : Transition Alias}
    (hplain : ∀ a ∈ t.source.states ++ t.target.states, a.IsPlain) :
    FitsOneLine t.line := by
  obtain ⟨hsource, htarget⟩ := List.forall_mem_append.mp hplain
  simp only [Transition.line, fitsOneLine_append]
  refine ⟨⟨⟨⟨⟨⟨fitsOneLine_endpoint hsource, by decide⟩, fitsOneLine_linkStyle t.style⟩, ?_⟩,
    by decide⟩, fitsOneLine_endpoint htarget⟩, fitsOneLine_labelled (by decide) t.label⟩
  cases t.direction with
  | none => decide
  | some direction => cases direction <;> decide

/-- The states at the ends of a transition are plain when what is found in it is. -/
theorem isPlain_of_survey_transition
    {t : Transition Alias}
    {k : Nat}
    (h : AllPlain ((Node.transition t).survey k)) :
    ∀ a ∈ t.source.states ++ t.target.states, a.IsPlain :=
  fun a ha => h (.referred "transition" stateKind a) (List.mem_map.mpr ⟨a, ha, rfl⟩)

end Records

mutual

/-- The lines of an element fit on one line each when the states in it are plain. -/
theorem allOneLine_lines :
    ∀ (node : Node) (k depth : Nat), AllPlain (node.survey k) → AllOneLine (node.lines depth)
  | .state s, k, depth, h => by
      simp only [Node.survey, allPlain_cons] at h
      simp only [Node.lines, allOneLine_cons]
      exact ⟨fitsOneLine_state h.1, allOneLine_description h.1 depth⟩
  | .composite s separator regions, k, depth, h => by
      simp only [Node.survey, allPlain_append, allPlain_cons] at h
      obtain ⟨hregions, hplain, _⟩ := h
      simp only [Node.lines, allOneLine_append, allOneLine_cons, fitsOneLine_append]
      exact ⟨⟨⟨fitsOneLine_state hplain, by decide⟩,
        allOneLine_regionLines separator regions _ _ hregions⟩, by decide,
        allOneLine_description hplain depth⟩
  | .transition t, k, depth, h => by
      simp only [Node.lines, allOneLine_cons]
      exact ⟨fitsOneLine_transition (isPlain_of_survey_transition h), allOneLine_nil⟩
  | .note n, k, depth, h => by
      simp only [Node.survey, allPlain_cons] at h
      exact allOneLine_attachedNote h.1 depth

theorem allOneLine_linesOf :
    ∀ (nodes : List Node) (k depth : Nat),
      AllPlain (surveyNodes k nodes) → AllOneLine (linesOf depth nodes)
  | [], _, _, _ => allOneLine_nil
  | node :: rest, k, depth, h => by
      simp only [surveyNodes, allPlain_append] at h
      simp only [linesOf, allOneLine_append]
      exact ⟨allOneLine_lines node _ _ h.1, allOneLine_linesOf rest _ _ h.2⟩

theorem allOneLine_regionLines (separator : Separator) :
    ∀ (regions : List (List Node)) (k depth : Nat),
      AllPlain (surveyRegions k regions) → AllOneLine (regionLines depth separator regions)
  | [], _, _, _ => allOneLine_nil
  | body :: rest, k, depth, h => by
      simp only [surveyRegions, allPlain_append, allPlain_cons] at h
      have hsign : FitsOneLine separator.sign := by
        cases separator <;> decide
      simp only [regionLines, allOneLine_append]
      refine ⟨⟨allOneLine_linesOf body _ _ h.1.2, ?_⟩,
        allOneLine_regionLines separator rest _ _ h.2⟩
      split
      · exact allOneLine_nil
      · exact allOneLine_cons.mpr ⟨hsign, allOneLine_nil⟩

end

theorem allOneLine_of_authored {nodes : List Node} (h : dialect.Authored nodes) :
    AllOneLine (linesOf 0 nodes) := by
  have hplain := Kind.isPlain_of_authored .state h
  exact allOneLine_linesOf nodes 0 0 (surveyNodes_eq nodes ▸ hplain)

end UmlText.StateChart
