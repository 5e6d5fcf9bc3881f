import UmlText.Proofs.Authored
import UmlText.Proofs.Text.OneLine

/-!
# The lines of sequence diagrams fit on one line

Beside escaped texts the lines of a sequence diagram hold words, signs, numbers and the
aliases of participants, which are plain in every authored tree.
-/

namespace UmlText.Sequence

section Records

theorem fitsOneLine_participant {p : Participant} (hplain : p.id.IsPlain) : FitsOneLine p.line := by
  simp only [Participant.line, fitsOneLine_append]
  refine ⟨⟨⟨⟨⟨?_, by decide⟩, ?_⟩, fitsOneLine_alias hplain⟩, ?_⟩, fitsOneLine_colorSuffix p.color⟩
  · cases p.kind <;> decide
  · cases p.display with
    | none => decide
    | some display =>
        simp only [fitsOneLine_append]
        exact ⟨⟨by decide, fitsOneLine_escape rfl _⟩, by decide⟩
  · cases p.order with
    | none => decide
    | some order => exact fitsOneLine_append.mpr ⟨by decide, fitsOneLine_int order⟩

theorem fitsOneLine_arrow (a : Arrow) : FitsOneLine a.sign := by
  have hleft : FitsOneLine a.head.left := by
    cases a.head <;> decide
  have hright : FitsOneLine a.head.right := by
    cases a.head <;> decide
  simp only [Arrow.sign, fitsOneLine_append]
  refine ⟨⟨⟨⟨?_, by decide⟩, ?_⟩, ?_⟩, hright⟩
  · split
    · exact hleft
    · decide
  · cases a.color with
    | none => decide
    | some color =>
        simp only [fitsOneLine_append]
        exact ⟨⟨by decide, fitsOneLine_color color⟩, by decide⟩
  · split <;> decide

theorem fitsOneLine_message
    {m : Message Alias}
    (hplain : ∀ a ∈ m.source.toList ++ m.target.toList, a.IsPlain) :
    FitsOneLine m.line := by
  obtain ⟨hsource, htarget⟩ := List.forall_mem_append.mp hplain
  simp only [Message.line, fitsOneLine_append]
  refine ⟨⟨⟨⟨?_, fitsOneLine_arrow m.arrow⟩, ?_⟩, ?_⟩, fitsOneLine_labelled (by decide) m.text⟩
  · cases hend : m.source with
    | none => decide
    | some source =>
        exact fitsOneLine_append.mpr
          ⟨fitsOneLine_alias (hsource source (by simp [hend])), by decide⟩
  · cases hend : m.target with
    | none => decide
    | some target =>
        exact fitsOneLine_append.mpr
          ⟨by decide, fitsOneLine_alias (htarget target (by simp [hend]))⟩
  · cases m.activation with
    | none => decide
    | some activation => cases activation <;> decide

theorem fitsOneLine_commaList {ps : List Alias} (hplain : ∀ a ∈ ps, a.IsPlain) :
    FitsOneLine (commaList ps) := by
  refine fitsOneLine_intercalate (by decide) fun s hs => ?_
  obtain ⟨a, ha, rfl⟩ := List.mem_map.mp hs
  exact fitsOneLine_alias (hplain a ha)

theorem fitsOneLine_place
    {place : NotePlace Alias}
    (hplain : ∀ a ∈ place.participants, a.IsPlain) :
    FitsOneLine place.suffix := by
  cases place with
  | leftOf a =>
      exact fitsOneLine_append.mpr
        ⟨by decide, fitsOneLine_alias (hplain a List.mem_cons_self)⟩
  | rightOf a =>
      exact fitsOneLine_append.mpr
        ⟨by decide, fitsOneLine_alias (hplain a List.mem_cons_self)⟩
  | covering ps => exact fitsOneLine_append.mpr ⟨by decide, fitsOneLine_commaList hplain⟩
  | across => decide

theorem allOneLine_note
    {n : Note Alias}
    (hplain : ∀ a ∈ n.place.participants, a.IsPlain)
    (depth : Nat) :
    AllOneLine (n.lines depth) := by
  have hshape : FitsOneLine n.shape.keyword := by
    cases n.shape <;> decide
  refine allOneLine_noteLines ?_ (fitsOneLine_append.mpr ⟨by decide, hshape⟩) depth n.text
  simp only [fitsOneLine_append]
  exact ⟨⟨hshape, fitsOneLine_place hplain⟩, fitsOneLine_colorSuffix n.color⟩

theorem fitsOneLine_autonumber (n : Autonumber) : FitsOneLine n.line := by
  cases n with
  | start first step format =>
      simp only [Autonumber.line, fitsOneLine_append]
      refine ⟨⟨⟨by decide, ?_⟩, ?_⟩, ?_⟩
      · split
        · exact fitsOneLine_append.mpr ⟨by decide, fitsOneLine_nat _⟩
        · decide
      · cases step with
        | none => decide
        | some step => exact fitsOneLine_append.mpr ⟨by decide, fitsOneLine_nat step⟩
      · cases format with
        | none => decide
        | some format =>
            simp only [fitsOneLine_append]
            exact ⟨⟨by decide, fitsOneLine_escape rfl _⟩, by decide⟩
  | stop => decide
  | resume => decide

theorem fitsOneLine_boxOpening (title : Option String) (color : Option Color) :
    FitsOneLine (boxOpening title color) := by
  simp only [boxOpening, fitsOneLine_append]
  refine ⟨⟨by decide, ?_⟩, fitsOneLine_colorSuffix color⟩
  cases title with
  | none => decide
  | some title =>
      simp only [fitsOneLine_append]
      exact ⟨⟨by decide, fitsOneLine_escape rfl _⟩, by decide⟩

/-- The participants mentioned in an element are plain when what is found in it is. -/
theorem isPlain_of_mentions {node : String} {ps : List Alias} (h : AllPlain (mentions node ps)) :
    ∀ a ∈ ps, a.IsPlain :=
  fun a ha => h (.referred node participantKind a) (List.mem_map.mpr ⟨a, ha, rfl⟩)

theorem isPlain_of_declared
    {ps : List Participant}
    (h : AllPlain (ps.map fun p => Finding.declared participantKind p.id)) :
    ∀ p ∈ ps, p.id.IsPlain :=
  fun p hp => h (.declared participantKind p.id) (List.mem_map.mpr ⟨p, hp, rfl⟩)

theorem allOneLine_participants
    {ps : List Participant}
    (hplain : ∀ p ∈ ps, p.id.IsPlain)
    (depth : Nat) :
    AllOneLine (ps.map fun p => (⟨depth, p.line⟩ : Line)) := by
  intro l hl
  obtain ⟨p, hp, rfl⟩ := List.mem_map.mp hl
  exact fitsOneLine_participant (hplain p hp)

theorem fitsOneLine_block (kind : BlockKind) : FitsOneLine kind.keyword := by
  cases kind <;> decide

end Records

mutual

/-- The lines of an element fit on one line each when the participants in it are plain. -/
theorem allOneLine_lines :
    ∀ (node : Node) (k depth : Nat), AllPlain (node.survey k) → AllOneLine (node.lines depth)
  | .participant p, k, depth, h => by
      simp only [Node.survey, allPlain_cons] at h
      simp only [Node.lines, allOneLine_cons]
      exact ⟨fitsOneLine_participant h.1, allOneLine_nil⟩
  | .create p, k, depth, h => by
      simp only [Node.survey, allPlain_cons] at h
      simp only [Node.lines, allOneLine_cons, fitsOneLine_append]
      exact ⟨⟨by decide, fitsOneLine_participant h.1⟩, allOneLine_nil⟩
  | .message m, k, depth, h => by
      simp only [Node.lines, allOneLine_cons]
      exact ⟨fitsOneLine_message (isPlain_of_mentions h), allOneLine_nil⟩
  | .reply text, k, depth, _ => by
      simp only [Node.lines, allOneLine_cons, fitsOneLine_append]
      exact ⟨⟨by decide, fitsOneLine_labelled (by decide) text⟩, allOneLine_nil⟩
  | .note n, k, depth, h => allOneLine_note (isPlain_of_mentions h) depth
  | .ref ps text, k, depth, h => by
      refine allOneLine_noteLines ?_ (by decide) depth text
      exact fitsOneLine_append.mpr ⟨by decide, fitsOneLine_commaList (isPlain_of_mentions h)⟩
  | .activate p color, k, depth, h => by
      have hp := isPlain_of_mentions h p List.mem_cons_self
      simp only [Node.lines, allOneLine_cons, fitsOneLine_append]
      exact ⟨⟨⟨by decide, fitsOneLine_alias hp⟩, fitsOneLine_colorSuffix color⟩, allOneLine_nil⟩
  | .deactivate p, k, depth, h => by
      have hp := isPlain_of_mentions h p List.mem_cons_self
      simp only [Node.lines, allOneLine_cons, fitsOneLine_append]
      exact ⟨⟨by decide, fitsOneLine_alias hp⟩, allOneLine_nil⟩
  | .destroy p, k, depth, h => by
      have hp := isPlain_of_mentions h p List.mem_cons_self
      simp only [Node.lines, allOneLine_cons, fitsOneLine_append]
      exact ⟨⟨by decide, fitsOneLine_alias hp⟩, allOneLine_nil⟩
  | .block kind sections, k, depth, h => by
      simp only [Node.survey, allPlain_cons] at h
      simp only [Node.lines, allOneLine_append, allOneLine_cons]
      exact ⟨allOneLine_sectionLines (fitsOneLine_block kind) sections _ _ h.2, by decide,
        allOneLine_nil⟩
  | .box title color ps, k, depth, h => by
      simp only [Node.lines, allOneLine_append, allOneLine_cons]
      exact ⟨⟨fitsOneLine_boxOpening title color,
        allOneLine_participants (isPlain_of_declared h) _⟩, by decide, allOneLine_nil⟩
  | .divider text, k, depth, _ => by
      simp only [Node.lines, allOneLine_cons, fitsOneLine_append]
      exact ⟨⟨⟨by decide, fitsOneLine_escape rfl _⟩, by decide⟩, allOneLine_nil⟩
  | .delay none, k, depth, _ => by
      simp only [Node.lines, allOneLine_cons]
      exact ⟨by decide, allOneLine_nil⟩
  | .delay (some text), k, depth, _ => by
      simp only [Node.lines, allOneLine_cons, fitsOneLine_append]
      exact ⟨⟨⟨by decide, fitsOneLine_escape rfl _⟩, by decide⟩, allOneLine_nil⟩
  | .space none, k, depth, _ => by
      simp only [Node.lines, allOneLine_cons]
      exact ⟨by decide, allOneLine_nil⟩
  | .space (some pixels), k, depth, _ => by
      simp only [Node.lines, allOneLine_cons, fitsOneLine_append]
      exact ⟨⟨⟨by decide, fitsOneLine_nat pixels⟩, by decide⟩, allOneLine_nil⟩
  | .autonumber n, k, depth, _ => by
      simp only [Node.lines, allOneLine_cons]
      exact ⟨fitsOneLine_autonumber n, allOneLine_nil⟩

theorem allOneLine_linesOf :
    ∀ (nodes : List Node) (k depth : Nat),
      AllPlain (surveyNodes k nodes) → AllOneLine (linesOf depth nodes)
  | [], _, _, _ => allOneLine_nil
  | node :: rest, k, depth, h => by
      simp only [surveyNodes, allPlain_append] at h
      simp only [linesOf, allOneLine_append]
      exact ⟨allOneLine_lines node _ _ h.1, allOneLine_linesOf rest _ _ h.2⟩

theorem allOneLine_sectionLines
    {keyword : String}
    (hkeyword : FitsOneLine keyword) :
    ∀ (sections : List (Option String × List Node)) (k depth : Nat),
      AllPlain (surveySections k sections) → AllOneLine (sectionLines depth keyword sections)
  | [], _, _, _ => allOneLine_nil
  | (label, body) :: rest, k, depth, h => by
      simp only [surveySections, allPlain_append] at h
      simp only [sectionLines, allOneLine_append, allOneLine_cons, fitsOneLine_append]
      exact ⟨⟨⟨hkeyword, fitsOneLine_labelled (by decide) label⟩,
        allOneLine_linesOf body _ _ h.1⟩, allOneLine_sectionLines (by decide) rest _ _ h.2⟩

end

theorem allOneLine_of_authored {nodes : List Node} (h : dialect.Authored nodes) :
    AllOneLine (linesOf 0 nodes) := by
  have hplain := Kind.isPlain_of_authored .sequence h
  exact allOneLine_linesOf nodes 0 0 (surveyNodes_eq nodes ▸ hplain)

end UmlText.Sequence
