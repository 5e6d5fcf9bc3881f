import UmlText.Proofs.Envelopes
import UmlText.Proofs.Sequence.Outlines
import UmlText.Proofs.Sequence.Words

/-!
# With which element a text begins

The first line of an element shows its kind, unless the element is a message from a
participant whose alias is one of the words in front of free texts.  A message from `return`
cannot be told from a return at all.  The words of blocks and of their sections are harmless
where lines are indented: a block is followed by a deeper line or by its own end, and a
message by neither.
-/

namespace UmlText.Sequence

section Legible

/-- The participant that a message comes from. -/
def Node.sender : Node → Option Alias
  | .message m => m.source
  | _ => none

/-- A message does not begin with the word of a return; and without indentation it does not
begin with the word of a block or of a section either. -/
def Node.Clear (indent : Nat) (node : Node) : Prop :=
  ∀ source ∈ node.sender, source.name ≠ "return" ∧ (indent = 0 → source.name ∉ textWords)

instance (indent : Nat) (node : Node) : Decidable (node.Clear indent) :=
  inferInstanceAs (Decidable (∀ source ∈ node.sender, _))

theorem allPlain_of_mem_sections
    {part : Option String × List Node}
    {sections : List (Option String × List Node)}
    {k : Nat}
    (hsection : part ∈ sections)
    (h : AllPlain (surveySections k sections)) :
    AllPlain (surveyNodes k part.2) := by
  induction sections with
  | nil => cases hsection
  | cons first rest ih =>
      simp only [surveySections, allPlain_append] at h
      rcases List.mem_cons.mp hsection with rfl | hsection
      · exact h.1
      · exact ih hsection h.2

/-- The elements of a list can be told apart by their lines: their aliases are plain, their
blocks have sections and their messages are clear, everywhere inside them. -/
structure Legible (indent : Nat) (nodes : List Node) : Prop where
  plain : ∃ k, AllPlain (surveyNodes k nodes)
  sections : ∀ node ∈ everywhereIn nodes, node.HasSection
  clear : ∀ node ∈ everywhereIn nodes, node.Clear indent

variable {indent : Nat} {node : Node} {rest : List Node}

theorem Legible.head (h : Legible indent (node :: rest)) : Legible indent [node] := by
  obtain ⟨⟨k, hplain⟩, hsections, hclear⟩ := h
  simp only [surveyNodes, allPlain_append] at hplain
  rw [forall_everywhereIn_cons] at hsections hclear
  exact ⟨⟨k, by simpa [surveyNodes] using hplain.1⟩,
    forall_everywhereIn_singleton.mpr hsections.1, forall_everywhereIn_singleton.mpr hclear.1⟩

theorem Legible.tail (h : Legible indent (node :: rest)) : Legible indent rest := by
  obtain ⟨⟨k, hplain⟩, hsections, hclear⟩ := h
  simp only [surveyNodes, allPlain_append] at hplain
  rw [forall_everywhereIn_cons] at hsections hclear
  exact ⟨⟨k, hplain.2⟩, hsections.2, hclear.2⟩

theorem Legible.body
    {kind : BlockKind}
    {sections : List (Option String × List Node)}
    (h : Legible indent [.block kind sections]) :
    ∀ part ∈ sections, Legible indent part.2 := by
  obtain ⟨⟨k, hplain⟩, hsections, hclear⟩ := h
  simp only [surveyNodes, Node.survey, List.append_nil, allPlain_cons] at hplain
  rw [forall_everywhereIn_singleton, forall_everywhere_block] at hsections hclear
  intro part hpart
  exact ⟨⟨k + 1, allPlain_of_mem_sections hpart hplain.2⟩, hsections.2 part hpart,
    hclear.2 part hpart⟩

theorem Legible.exists_plain (h : Legible indent [node]) : ∃ k, AllPlain (node.survey k) := by
  obtain ⟨⟨k, hplain⟩, _, _⟩ := h
  exact ⟨k, by simpa [surveyNodes] using hplain⟩

theorem Legible.hasSection (h : Legible indent [node]) : node.HasSection :=
  forall_everywhereIn_singleton.mp h.sections node node.self_mem_everywhere

theorem Legible.isClear (h : Legible indent [node]) : node.Clear indent :=
  forall_everywhereIn_singleton.mp h.clear node node.self_mem_everywhere

end Legible

section Leading

variable {indent depth : Nat} {node : Node} {nodes : List Node} {r : List (List Char)}

/-- The first line of a legible element shows the kind of the element. -/
theorem Node.leads (h : Legible indent [node]) : Leads depth (node.lines depth) node.shown := by
  obtain ⟨k, hplain⟩ := h.exists_plain
  have hsection := h.hasSection
  cases node with
  | participant p =>
      simp only [survey, allPlain_cons] at hplain
      exact leads_participant hplain.1 []
  | create p =>
      simp only [survey, allPlain_cons] at hplain
      obtain ⟨rest, hline, _⟩ := not_beginsArrow_participant hplain.1
      have hdash : '-' ∉ p.kind.keyword.toList := by
        cases p.kind <;> decide
      have hcontent : ("create " ++ p.line).toList = "create".toList ++ ' ' :: p.line.toList := by
        simp
      exact leads_fixed "create" (by decide) hcontent (by simp)
        (by rw [hline]; exact not_beginsArrow_word hdash (by simp))
  | message m =>
      have hends := isPlain_of_mentions hplain
      exact leads_message (fun a ha => hends a (List.mem_append_left _ ha)) []
  | reply text => exact leads_text "return" (by decide) (by simp) (head_labelled text)
  | note n => exact leads_note n
  | ref ps text => exact leads_ref ps text
  | activate p color =>
      have hp := isPlain_of_mentions hplain p List.mem_cons_self
      exact leads_named "activate" (by decide) hp (by simp) (head_colorSuffix color)
  | deactivate p =>
      have hp := isPlain_of_mentions hplain p List.mem_cons_self
      exact leads_named "deactivate" (x := []) (by decide) hp (by simp) (by simp)
  | destroy p =>
      have hp := isPlain_of_mentions hplain p List.mem_cons_self
      exact leads_named "destroy" (x := []) (by decide) hp (by simp) (by simp)
  | block kind sections =>
      cases sections with
      | nil => exact absurd rfl hsection
      | cons first rest =>
          obtain ⟨label, body⟩ := first
          exact leads_text kind.keyword (by cases kind <;> decide) String.toList_append
            (head_labelled label)
  | box title color ps => exact leads_box title color _
  | divider text => exact leads_mark (c := '=') (by simp) (by simp [shown, kind])
  | delay text =>
      cases text with
      | none => exact leads_mark (c := '.') (by decide) (by simp [shown, kind])
      | some text => exact leads_mark (c := '.') (by simp) (by simp [shown, kind])
  | space pixels =>
      cases pixels with
      | none => exact leads_mark (c := '|') (by decide) (by simp [shown, kind])
      | some pixels => exact leads_mark (c := '|') (by simp) (by simp [shown, kind])
  | autonumber n => exact leads_autonumber n

theorem Leads.exists_head {lines : List Line} {kind : String} (h : Leads depth lines kind) :
    ∃ l ∈ (written indent lines r).head?, lineKind l = kind ∧ indentOf l = depth * indent := by
  obtain ⟨content, rest, rfl, ⟨c, hc, hblank⟩, hkind⟩ := h.exists_cons
  exact ⟨_, rfl, hkind indent, indentOf_laid hc hblank⟩

/-- An element shows its kind, unless it is a message from a word in front of free texts. -/
theorem Node.shown_cases (node : Node) :
    node.shown = node.kind ∨
      ∃ m source, node = .message m ∧ m.source = some source ∧ source.name ∈ textWords ∧
        node.shown = source.name := by
  cases node with
  | message m =>
      cases hsource : m.source with
      | none => exact .inl (by simp [shown, hsource, kind])
      | some source =>
          by_cases htext : source.name ∈ textWords
          · exact .inr ⟨m, source, rfl, hsource, htext, by simp [shown, hsource, htext]⟩
          · exact .inl (by simp [shown, hsource, htext, kind])
  | _ => exact .inl rfl

/-- The kinds of elements. -/
def kinds : List String :=
  ["participant", "create", "message", "return", "note", "ref", "activate", "deactivate", "destroy",
    "alt", "opt", "loop", "par", "break", "critical", "group", "box", "divider", "delay", "space",
    "autonumber"]

theorem Node.kind_mem (node : Node) : node.kind ∈ kinds := by
  cases node with
  | block kind sections => cases kind <;> simp [Node.kind, BlockKind.keyword, kinds]
  | _ => simp [Node.kind, kinds]

theorem Node.shown_mem (node : Node) : node.shown ∈ kinds ++ textWords := by
  rcases node.shown_cases with hshown | ⟨m, source, rfl, _, htext, hshown⟩
  · rw [hshown]
    exact List.mem_append_left _ node.kind_mem
  · rw [hshown]
    exact List.mem_append_right _ htext

theorem Node.shown_ne_end (node : Node) : node.shown ≠ "end" := by
  intro h
  have hmem := node.shown_mem
  rw [h] at hmem
  revert hmem
  decide

theorem Node.shown_ne_envelope (node : Node) : node.shown ≠ "@enduml" := by
  intro h
  have hmem := node.shown_mem
  rw [h] at hmem
  revert hmem
  decide

/-- An element that shows the word of a further section is a message from it. -/
theorem Node.eq_message_of_shown (h : node.shown = "else") :
    ∃ m source, node = .message m ∧ m.source = some source ∧ source.name = "else" := by
  rcases node.shown_cases with hshown | ⟨m, source, hnode, hsource, _, hshown⟩
  · have hmem := node.kind_mem
    rw [← hshown, h] at hmem
    exact absurd hmem (by decide)
  · exact ⟨m, source, hnode, hsource, hshown.symm.trans h⟩

/-- Only blocks and returns have a word in front of a free text for their kind. -/
theorem Node.eq_block_of_kind (h : node.kind ∈ textWords) (hreturn : node.kind ≠ "return") :
    ∃ kind sections, node = .block kind sections := by
  cases node with
  | block kind sections => exact ⟨kind, sections, rfl⟩
  | reply text => exact absurd rfl hreturn
  | _ => simp [Node.kind, textWords] at h

/-- What is written behind the elements of a list: nothing, the end of the envelope, or a
line of the block around them, which is less indented where there is an indentation. -/
def Ends (indent depth : Nat) (r : List (List Char)) : Prop :=
  ∀ l ∈ r.head?, lineKind l = "@enduml" ∨
    ((lineKind l = "end" ∨ lineKind l = "else") ∧ (0 < indent → indentOf l < depth * indent))

/-- An element does not begin where a list of elements ends. -/
theorem not_ends_node (h : Legible indent [node]) :
    ¬Ends indent depth (written indent (node.lines depth) r) := by
  intro hends
  have hleads : Leads depth (node.lines depth) node.shown := Node.leads h
  obtain ⟨l, hl, hkind, hindent⟩ := hleads.exists_head
  rcases hends l hl with henvelope | ⟨hend | helse, hless⟩
  · exact node.shown_ne_envelope (hkind.symm.trans henvelope)
  · exact node.shown_ne_end (hkind.symm.trans hend)
  · obtain ⟨m, source, rfl, hsource, hname⟩ := Node.eq_message_of_shown (hkind.symm.trans helse)
    have hclear := h.isClear source hsource
    have hzero : indent = 0 := by
      by_contra hpositive
      have hsmaller := hless (by omega)
      omega
    rw [hname] at hclear
    exact hclear.2 hzero (by decide)

/-- Where a list of elements ends there is none of them left. -/
theorem eq_nil_of_ends
    (hlegible : Legible indent nodes)
    (h : Ends indent depth (written indent (linesOf depth nodes) r)) :
    nodes = [] := by
  cases nodes with
  | nil => rfl
  | cons node rest =>
      rw [linesOf, written_append] at h
      exact absurd h (not_ends_node hlegible.head)

/-- The first line of legible elements, if there is one, shows the kind of an element and is
indented as deep as the elements are. -/
theorem head_of_nodes
    (hlegible : Legible indent nodes)
    {l : List Char}
    (hl : l ∈ (written indent (linesOf depth nodes) r).head?) :
    (nodes = [] ∧ l ∈ r.head?) ∨
      ∃ node rest, nodes = node :: rest ∧ lineKind l = node.shown ∧
        indentOf l = depth * indent := by
  cases nodes with
  | nil => exact .inl ⟨rfl, hl⟩
  | cons node rest =>
      rw [linesOf, written_append] at hl
      have hleads : Leads depth (node.lines depth) node.shown := Node.leads hlegible.head
      obtain ⟨l', hl', hkind, hindent⟩ := hleads.exists_head
      cases Option.mem_unique hl hl'
      exact .inr ⟨node, rest, rfl, hkind, hindent⟩

end Leading

section Blocks

variable {indent depth : Nat} {r s : List (List Char)}

/-- The first line of sections with the end of their block behind them. -/
theorem exists_head_of_sections
    (indent : Nat)
    {keyword : String}
    (hkeyword : keyword ∈ textWords)
    (sections : List (Option String × List Node)) :
    ∃ l ∈ (written indent (sectionLines depth keyword sections)
        (written indent [⟨depth, "end"⟩] r)).head?,
      lineKind l = (if sections = [] then "end" else keyword) ∧ indentOf l = depth * indent := by
  cases sections with
  | nil =>
      have hleads : Leads depth [⟨depth, "end"⟩] "end" :=
        leads_fixed "end" (by decide) (List.append_nil _).symm (by simp) not_beginsArrow_nil
      exact hleads.exists_head
  | cons first rest =>
      obtain ⟨label, body⟩ := first
      have hleads : Leads depth (sectionLines depth keyword ((label, body) :: rest)) keyword :=
        leads_text keyword hkeyword String.toList_append (head_labelled label)
      exact hleads.exists_head

/-- The line behind the first one of a block is deeper than the block, or divides or ends
it. -/
theorem exists_head_of_block
    {body : List Node}
    (hbody : Legible indent body)
    (sections : List (Option String × List Node)) :
    ∃ l ∈ (written indent (linesOf (depth + 1) body)
        (written indent (sectionLines depth "else" sections)
          (written indent [⟨depth, "end"⟩] s))).head?,
      lineKind l ≠ "@enduml" ∧
        (indentOf l = (depth + 1) * indent ∨
          body = [] ∧ indentOf l = depth * indent ∧
            lineKind l = if sections = [] then "end" else "else") := by
  cases body with
  | nil =>
      obtain ⟨l, hl, hkind, hindent⟩ :=
        exists_head_of_sections (r := s) indent (by decide : "else" ∈ textWords) sections
      refine ⟨l, hl, ?_, .inr ⟨rfl, hindent, hkind⟩⟩
      rw [hkind]
      split <;> decide
  | cons node rest =>
      have hleads : Leads (depth + 1) (node.lines (depth + 1)) node.shown :=
        Node.leads hbody.head
      obtain ⟨l, hl, hkind, hindent⟩ := hleads.exists_head
      rw [linesOf, written_append]
      exact ⟨l, hl, hkind ▸ node.shown_ne_envelope, .inl hindent⟩

/-- Where lines are indented, what is written in a block behind its first line could stand
behind a message only if the first section were empty, and an element began with the line
behind it. -/
theorem exists_node_of_written_eq_block
    (hpositive : 0 < indent)
    {sections : List (Option String × List Node)}
    {rest body : List Node}
    (hrest : Legible indent rest)
    (hbody : Legible indent body)
    (hends : Ends indent depth r)
    (heq : written indent (linesOf depth rest) r =
      written indent (linesOf (depth + 1) body)
        (written indent (sectionLines depth "else" sections)
          (written indent [⟨depth, "end"⟩] s))) :
    body = [] ∧ ∃ node others, rest = node :: others ∧
      node.shown = if sections = [] then "end" else "else" := by
  obtain ⟨l, hl, henvelope, hline⟩ := exists_head_of_block (s := s) hbody sections
  have hdeeper : (depth + 1) * indent = depth * indent + indent := Nat.succ_mul depth indent
  rw [← heq] at hl
  rcases head_of_nodes hrest hl with ⟨rfl, hlast⟩ | ⟨node, others, rfl, hshown, hindent⟩
  · rcases hends l hlast with hsame | ⟨_, hless⟩
    · exact absurd hsame henvelope
    · have hsmaller := hless hpositive
      rcases hline with hdeep | ⟨_, hsame, _⟩ <;> omega
  · rcases hline with hdeep | ⟨hempty, _, hkind⟩
    · omega
    · exact ⟨hempty, node, others, rfl, hshown.symm.trans hkind⟩

/-- What is written in a block behind its first line is not written behind a message, where
lines are indented. -/
theorem written_ne_block
    (hpositive : 0 < indent)
    {sections : List (Option String × List Node)}
    {rest body : List Node}
    (hrest : Legible indent rest)
    (hbody : Legible indent body)
    (hsections : ∀ part ∈ sections, Legible indent part.2)
    (hends : Ends indent depth r) :
    written indent (linesOf depth rest) r ≠
      written indent (linesOf (depth + 1) body)
        (written indent (sectionLines depth "else" sections)
          (written indent [⟨depth, "end"⟩] s)) := by
  intro heq
  induction sections generalizing rest body with
  | nil =>
      obtain ⟨_, node, _, _, hend⟩ :=
        exists_node_of_written_eq_block hpositive hrest hbody hends heq
      exact node.shown_ne_end hend
  | cons first more ih =>
      obtain ⟨hnext, hmore⟩ := List.forall_mem_cons.mp hsections
      obtain ⟨rfl, node, others, rfl, helse⟩ :=
        exists_node_of_written_eq_block hpositive hrest hbody hends heq
      obtain ⟨m, _, rfl, _, _⟩ := Node.eq_message_of_shown helse
      -- the line of the next section would be a message, with more elements behind it
      have hbehind := (List.cons.inj heq).2
      exact ih hrest.tail hnext hmore (by simpa [linesOf, sectionLines, written] using hbehind)

/-- A message from one of the words in front of free texts shows no kind but that of a
block. -/
theorem Node.eq_block_of_shown_message
    {node : Node}
    {m : Message Alias}
    {source : Alias}
    (hclear : (Node.message m).Clear indent)
    (hsource : m.source = some source)
    (htext : source.name ∈ textWords)
    (h : node.kind = source.name) :
    0 < indent ∧ ∃ kind sections, node = .block kind sections := by
  obtain ⟨hreturn, hzero⟩ := hclear source hsource
  refine ⟨?_, Node.eq_block_of_kind (h ▸ htext) (h ▸ hreturn)⟩
  by_contra hnone
  exact hzero (by omega) htext

/-- A message is not written like a block, with more elements behind both of them. -/
theorem written_message_ne_block
    {m : Message Alias}
    {kind : BlockKind}
    {sections : List (Option String × List Node)}
    {rest : List Node}
    (hpositive : 0 < indent)
    (hrest : Legible indent rest)
    (hblock : Legible indent [.block kind sections])
    (hends : Ends indent depth r) :
    written indent ((Node.message m).lines depth) (written indent (linesOf depth rest) r) ≠
      written indent ((Node.block kind sections).lines depth) s := by
  intro heq
  have hbodies := hblock.body
  have hsection := hblock.hasSection
  cases sections with
  | nil => exact hsection rfl
  | cons first more =>
      obtain ⟨hbody, hmore⟩ := List.forall_mem_cons.mp hbodies
      have hbehind := (List.cons.inj heq).2
      exact written_ne_block hpositive hrest hbody hmore hends
        (by simpa [Node.lines, sectionLines, written] using hbehind)

/-- The first elements of lists that are written alike are of one kind. -/
theorem kind_eq_of_written_eq
    {node other : Node}
    {rest rest' : List Node}
    (hlegible : Legible indent (node :: rest))
    (hlegible' : Legible indent (other :: rest'))
    (hends : Ends indent depth r)
    (hends' : Ends indent depth s)
    (h : written indent (linesOf depth (node :: rest)) r =
      written indent (linesOf depth (other :: rest')) s) :
    node.kind = other.kind := by
  rw [linesOf, linesOf, written_append, written_append] at h
  have hshown : node.shown = other.shown := by
    have hleads : Leads depth (node.lines depth) node.shown := Node.leads hlegible.head
    have hleads' : Leads depth (other.lines depth) other.shown := Node.leads hlegible'.head
    obtain ⟨l, hl, hkind, _⟩ := hleads.exists_head
    obtain ⟨l', hl', hkind', _⟩ := hleads'.exists_head
    rw [h] at hl
    cases Option.mem_unique hl hl'
    exact hkind.symm.trans hkind'
  rcases node.shown_cases with hkind | ⟨m, source, rfl, hsource, htext, hname⟩
  · rcases other.shown_cases with hkind' | ⟨m, source, rfl, hsource, htext, hname⟩
    · exact hkind.symm.trans (hshown.trans hkind')
    · obtain ⟨hpositive, kind, sections, rfl⟩ :=
        Node.eq_block_of_shown_message hlegible'.head.isClear hsource htext
          (hkind.symm.trans (hshown.trans hname))
      exact absurd h.symm
        (written_message_ne_block hpositive hlegible'.tail hlegible.head hends')
  · rcases other.shown_cases with hkind' | ⟨m', _, rfl, _, _, _⟩
    · obtain ⟨hpositive, kind, sections, rfl⟩ :=
        Node.eq_block_of_shown_message hlegible.head.isClear hsource htext
          (hkind'.symm.trans (hshown.symm.trans hname))
      exact absurd h (written_message_ne_block hpositive hlegible.tail hlegible'.head hends)
    · rfl

end Blocks

end UmlText.Sequence
