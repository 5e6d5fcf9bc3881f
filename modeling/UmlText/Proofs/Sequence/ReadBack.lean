import UmlText.Proofs.Sequence.Beginnings

/-!
# Reading the outline of sequence diagrams

The outline of a tree says of which kind its elements are, and of which kinds those inside
its blocks are.  The text of a sequence diagram determines the outline, unless a message
begins with one of the words in front of a free text: where the kinds of the first elements
are equal, so are the numbers of their lines, and then the same is true of the elements
behind them.
-/

namespace UmlText.Sequence

section Cuts

variable {indent depth : Nat} {r s : List (List Char)}

/-- Elements of one line each. -/
theorem Node.exists_line
    {node : Node}
    (hblock : node.kind ∉ textWords ∨ node.kind = "return")
    (hkind : node.kind ∉ ["note", "ref", "box"]) :
    ∃ content, node.lines depth = [⟨depth, content⟩] := by
  cases node with
  | block kind sections =>
      rcases hblock with h | h <;> cases kind <;>
        simp [Node.kind, BlockKind.keyword, textWords] at h
  | note n => simp [Node.kind] at hkind
  | ref ps text => simp [Node.kind] at hkind
  | box title color ps => simp [Node.kind] at hkind
  | delay text => cases text <;> exact ⟨_, rfl⟩
  | space pixels => cases pixels <;> exact ⟨_, rfl⟩
  | _ => exact ⟨_, rfl⟩

theorem colon_notMem_commaList {ps : List Alias} (hplain : ∀ a ∈ ps, a.IsPlain) :
    ':' ∉ (commaList ps).toList := by
  intro hmem
  rw [commaList, String.toList_intercalate] at hmem
  rcases mem_or_mem_of_mem_intercalate hmem with hmem | ⟨part, hpart, hmem⟩
  · simp at hmem
  · rw [List.map_map] at hpart
    obtain ⟨a, ha, rfl⟩ := List.mem_map.mp hpart
    have hcolon := hplain a ha ':' hmem
    revert hcolon
    decide

theorem colon_notMem_place
    {place : NotePlace Alias}
    (hplain : ∀ a ∈ place.participants, a.IsPlain) :
    ':' ∉ place.suffix.toList := by
  have hname : ∀ a ∈ place.participants, ':' ∉ a.name.toList := by
    intro a ha hmem
    have hcolon := hplain a ha ':' hmem
    revert hcolon
    decide
  cases place with
  | leftOf a => simpa [NotePlace.suffix] using hname a List.mem_cons_self
  | rightOf a => simpa [NotePlace.suffix] using hname a List.mem_cons_self
  | covering ps =>
      have hps : ':' ∉ (commaList ps).toList := colon_notMem_commaList hplain
      simpa [NotePlace.suffix] using hps
  | across => decide

theorem Note.lines_cut
    {n n' : Note Alias}
    (hplain : ∀ a ∈ n.place.participants, a.IsPlain)
    (hplain' : ∀ a ∈ n'.place.participants, a.IsPlain)
    (h : written indent (n.lines depth) r = written indent (n'.lines depth) s) :
    r = s := by
  have hopening : ∀ n : Note Alias, (∀ a ∈ n.place.participants, a.IsPlain) →
      ':' ∉ (n.shape.keyword ++ n.place.suffix ++ colorSuffix n.color).toList := by
    intro n hplain
    have hshape : ':' ∉ n.shape.keyword.toList := by
      cases n.shape <;> decide
    simp [hshape, colon_notMem_place hplain, colon_notMem_colorSuffix]
  have hclosing : ∀ n : Note Alias, closingStem <+: ("end " ++ n.shape.keyword).toList := by
    intro n
    simp [closingStem]
  exact (noteLines_cut (hopening n hplain) (hopening n' hplain') (hclosing n) (hclosing n') h).2.2

theorem ref_lines_cut
    {ps ps' : List Alias}
    {text text' : String}
    (hplain : ∀ a ∈ ps, a.IsPlain)
    (hplain' : ∀ a ∈ ps', a.IsPlain)
    (h : written indent ((Node.ref ps text).lines depth) r =
      written indent ((Node.ref ps' text').lines depth) s) :
    r = s := by
  have hopening : ∀ ps : List Alias, (∀ a ∈ ps, a.IsPlain) →
      ':' ∉ ("ref over " ++ commaList ps).toList := by
    intro ps hplain
    simp [colon_notMem_commaList hplain]
  exact (noteLines_cut (hopening ps hplain) (hopening ps' hplain') (by decide) (by decide) h).2.2

/-- The participants of a box end at its last line, which is no participant. -/
theorem box_lines_cut
    {title title' : Option String}
    {color color' : Option Color}
    {ps ps' : List Participant}
    (hplain : ∀ p ∈ ps, p.id.IsPlain)
    (hplain' : ∀ p ∈ ps', p.id.IsPlain)
    (h : written indent ((Node.box title color ps).lines depth) r =
      written indent ((Node.box title' color' ps').lines depth) s) :
    r = s := by
  have hline : ∀ ps : List Participant, (∀ p ∈ ps, p.id.IsPlain) →
      (⟨depth, "end box"⟩ : Line).laid indent ∉
        (ps.map fun p => (⟨depth + 1, p.line⟩ : Line)).map (Line.laid indent) := by
    intro ps hplain hmem
    rw [List.map_map] at hmem
    obtain ⟨p, hp, hlaid⟩ := List.mem_map.mp hmem
    have hcontent : "end box".toList = "end".toList ++ " box".toList := rfl
    have hend : lineKind ((⟨depth, "end box"⟩ : Line).laid indent) = "end" :=
      lineKind_fixed (by decide) hcontent (by simp) (by decide)
    have hleads : Leads (depth + 1) [⟨depth + 1, p.line⟩] "participant" :=
      leads_participant (hplain p hp) []
    obtain ⟨_, _, hcons, _, hkind⟩ := hleads.exists_cons
    cases hcons
    rw [← hlaid] at hend
    exact absurd ((hkind indent).symm.trans hend) (by decide)
  simp only [Node.lines, List.cons_append, written_cons] at h
  obtain ⟨_, hbehind⟩ := List.cons.inj h
  rw [written_append, written_append] at hbehind
  exact (append_cons_cut (hline ps hplain) (hline ps' hplain') hbehind).2

/-- Elements of one kind are written on equally many lines when they are written alike,
blocks aside. -/
theorem leaf_lines_cut
    {node other : Node}
    (hlegible : Legible indent [node])
    (hlegible' : Legible indent [other])
    (hleaf : ∀ kind sections, node ≠ .block kind sections)
    (hkind : node.kind = other.kind)
    (h : written indent (node.lines depth) r = written indent (other.lines depth) s) :
    r = s := by
  obtain ⟨k, hplain⟩ := hlegible.exists_plain
  obtain ⟨k', hplain'⟩ := hlegible'.exists_plain
  have hline : node.kind ∉ ["note", "ref", "box"] → r = s := by
    intro hspecial
    have htext : node.kind ∉ textWords ∨ node.kind = "return" := by
      by_contra hnone
      obtain ⟨hmem, hreturn⟩ := not_or.mp hnone
      obtain ⟨kind, sections, hblock⟩ := Node.eq_block_of_kind (not_not.mp hmem) hreturn
      exact hleaf kind sections hblock
    obtain ⟨content, hlines⟩ : ∃ content, node.lines depth = [⟨depth, content⟩] :=
      Node.exists_line htext hspecial
    obtain ⟨content', hlines'⟩ : ∃ content, other.lines depth = [⟨depth, content⟩] :=
      Node.exists_line (hkind ▸ htext) (hkind ▸ hspecial)
    rw [hlines, hlines'] at h
    exact (List.cons.inj h).2
  cases node with
  | note n =>
      cases other with
      | note n' => exact Note.lines_cut (isPlain_of_mentions hplain) (isPlain_of_mentions hplain') h
      | block kind sections => cases kind <;> simp [Node.kind, BlockKind.keyword] at hkind
      | _ => simp [Node.kind] at hkind
  | ref ps text =>
      cases other with
      | ref ps' text' =>
          exact ref_lines_cut (isPlain_of_mentions hplain) (isPlain_of_mentions hplain') h
      | block kind sections => cases kind <;> simp [Node.kind, BlockKind.keyword] at hkind
      | _ => simp [Node.kind] at hkind
  | box title color ps =>
      cases other with
      | box title' color' ps' =>
          exact box_lines_cut (isPlain_of_declared hplain) (isPlain_of_declared hplain') h
      | block kind sections => cases kind <;> simp [Node.kind, BlockKind.keyword] at hkind
      | _ => simp [Node.kind] at hkind
  | block kind sections => exact absurd rfl (hleaf kind sections)
  | _ => exact hline (by simp [Node.kind])

end Cuts

section Assembly

variable {indent depth : Nat}

/-- An element is cut off by its lines, and its outline is determined. -/
def Node.CutOff (indent : Nat) (node : Node) : Prop :=
  ∀ (other : Node) (depth : Nat) (r s : List (List Char)),
    Legible indent [node] → Legible indent [other] → node.kind = other.kind →
      written indent (node.lines depth) r = written indent (other.lines depth) s →
      node.outline = other.outline ∧ r = s

/-- The elements of a list are cut off by their lines, and their outlines are determined. -/
def NodesCutOff (indent : Nat) (nodes : List Node) : Prop :=
  ∀ (others : List Node) (depth : Nat) (r s : List (List Char)),
    Legible indent nodes → Legible indent others → Ends indent depth r → Ends indent depth s →
      written indent (linesOf depth nodes) r = written indent (linesOf depth others) s →
      outlinesOf nodes = outlinesOf others ∧ r = s

/-- The sections of a block are cut off by their lines, and their outlines are determined. -/
def SectionsCutOff (indent : Nat) (sections : List (Option String × List Node)) : Prop :=
  ∀ (others : List (Option String × List Node)) (keyword : String) (depth : Nat)
    (r s : List (List Char)),
    keyword ∈ textWords →
      (∀ part ∈ sections, Legible indent part.2) → (∀ part ∈ others, Legible indent part.2) →
      written indent (sectionLines depth keyword sections) (written indent [⟨depth, "end"⟩] r) =
        written indent (sectionLines depth keyword others) (written indent [⟨depth, "end"⟩] s) →
      outlinesOfSections sections = outlinesOfSections others ∧ r = s

theorem BlockKind.keyword_inj {kind kind' : BlockKind} (h : kind.keyword = kind'.keyword) :
    kind = kind' := by
  cases kind <;> cases kind' <;> first | rfl | exact absurd h (by decide)

theorem Node.eq_block_of_keyword
    {node : Node}
    {kind : BlockKind}
    (h : node.kind = kind.keyword) :
    ∃ sections, node = .block kind sections := by
  have hword : kind.keyword ∈ textWords ∧ kind.keyword ≠ "return" := by
    cases kind <;> decide
  obtain ⟨kind', sections, rfl⟩ := Node.eq_block_of_kind (h ▸ hword.1) (h ▸ hword.2)
  obtain rfl := BlockKind.keyword_inj h
  exact ⟨sections, rfl⟩

theorem cutOff_block
    {kind : BlockKind}
    {sections : List (Option String × List Node)}
    (hsections : SectionsCutOff indent sections) :
    (Node.block kind sections).CutOff indent := by
  intro other depth r s hlegible hlegible' hkind h
  have hword : kind.keyword ∈ textWords := by
    cases kind <;> decide
  obtain ⟨sections', rfl⟩ := Node.eq_block_of_keyword hkind.symm
  simp only [Node.lines, written_append] at h
  obtain ⟨houtlines, hrs⟩ := hsections sections' kind.keyword depth r s hword hlegible.body
    hlegible'.body h
  exact ⟨by simp only [Node.outline, houtlines], hrs⟩

theorem cutOff_leaf
    {node : Node}
    (hleaf : ∀ kind sections, node ≠ .block kind sections) :
    node.CutOff indent := by
  intro other depth r s hlegible hlegible' hkind h
  refine ⟨?_, leaf_lines_cut hlegible hlegible' hleaf hkind h⟩
  have hleaf' : ∀ kind sections, other ≠ .block kind sections := by
    rintro kind sections rfl
    obtain ⟨_, hblock⟩ := Node.eq_block_of_keyword hkind
    exact hleaf _ _ hblock
  rw [Node.outline_leaf hleaf, Node.outline_leaf hleaf', hkind]

theorem nodesCutOff_nil : NodesCutOff indent [] := by
  intro others depth r s _ hlegible' hends _ h
  rw [linesOf, written_nil] at h
  obtain rfl := eq_nil_of_ends hlegible' (h ▸ hends)
  exact ⟨rfl, h⟩

theorem nodesCutOff_cons
    {node : Node}
    {rest : List Node}
    (hnode : node.CutOff indent)
    (hrest : NodesCutOff indent rest) :
    NodesCutOff indent (node :: rest) := by
  intro others depth r s hlegible hlegible' hends hends' h
  cases others with
  | nil =>
      rw [linesOf.eq_1, written_nil] at h
      subst h
      exact absurd (eq_nil_of_ends hlegible hends') (List.cons_ne_nil node rest)
  | cons other rest' =>
      have hkind := kind_eq_of_written_eq hlegible hlegible' hends hends' h
      rw [linesOf, linesOf, written_append, written_append] at h
      obtain ⟨houtline, h⟩ := hnode other depth _ _ hlegible.head hlegible'.head hkind h
      obtain ⟨houtlines, hrs⟩ := hrest rest' depth r s hlegible.tail hlegible'.tail hends hends' h
      exact ⟨by simp only [outlinesOf, houtline, houtlines], hrs⟩

/-- What stands behind a section is a further one, or the end of the block. -/
theorem ends_sections (sections : List (Option String × List Node)) (r : List (List Char)) :
    Ends indent (depth + 1)
      (written indent (sectionLines depth "else" sections)
        (written indent [⟨depth, "end"⟩] r)) := by
  intro l hl
  obtain ⟨l', hl', hkind, hindent⟩ :=
    exists_head_of_sections (r := r) indent (by decide : "else" ∈ textWords) sections
  cases Option.mem_unique hl hl'
  have hdeeper : (depth + 1) * indent = depth * indent + indent := Nat.succ_mul depth indent
  refine .inr ⟨?_, fun hpositive => by omega⟩
  rw [hkind]
  split
  · exact .inl rfl
  · exact .inr rfl

/-- Sections and the end of their block do not begin alike. -/
theorem eq_nil_of_written_sections
    {keyword : String}
    {sections others : List (Option String × List Node)}
    (hkeyword : keyword ∈ textWords)
    (h : written indent (sectionLines depth keyword sections) (written indent [⟨depth, "end"⟩] r) =
      written indent (sectionLines depth keyword others) (written indent [⟨depth, "end"⟩] s))
    (hnil : sections = []) :
    others = [] := by
  obtain ⟨l, hl, hkind, _⟩ := exists_head_of_sections (r := r) indent hkeyword sections
  obtain ⟨l', hl', hkind', _⟩ := exists_head_of_sections (r := s) indent hkeyword others
  rw [h] at hl
  cases Option.mem_unique hl hl'
  by_contra hsome
  rw [hkind, if_pos hnil, if_neg hsome] at hkind'
  rw [← hkind'] at hkeyword
  exact absurd hkeyword (by decide)

theorem sectionsCutOff_nil : SectionsCutOff indent [] := by
  intro others keyword depth r s hkeyword _ _ h
  obtain rfl := eq_nil_of_written_sections hkeyword h rfl
  exact ⟨rfl, (List.cons.inj h).2⟩

theorem sectionsCutOff_cons
    {label : Option String}
    {body : List Node}
    {rest : List (Option String × List Node)}
    (hbody : NodesCutOff indent body)
    (hrest : SectionsCutOff indent rest) :
    SectionsCutOff indent ((label, body) :: rest) := by
  intro others keyword depth r s hkeyword hlegible hlegible' h
  cases others with
  | nil => exact absurd (eq_nil_of_written_sections hkeyword h.symm rfl) (List.cons_ne_nil _ _)
  | cons other rest' =>
      obtain ⟨label', body'⟩ := other
      obtain ⟨hlegible, hlegibleRest⟩ := List.forall_mem_cons.mp hlegible
      obtain ⟨hlegible', hlegibleRest'⟩ := List.forall_mem_cons.mp hlegible'
      simp only [sectionLines, List.cons_append, written_cons, written_append] at h
      obtain ⟨houtlines, h⟩ := hbody body' (depth + 1) _ _ hlegible hlegible'
        (ends_sections rest r) (ends_sections rest' s) (List.cons.inj h).2
      obtain ⟨houtlinesRest, hrs⟩ := hrest rest' "else" depth r s (by decide) hlegibleRest
        hlegibleRest' h
      exact ⟨by simp only [outlinesOfSections, houtlines, houtlinesRest], hrs⟩

theorem nodesCutOff (nodes : List Node) : NodesCutOff indent nodes :=
  (Node.outline.mutual_induct (Node.CutOff indent) (SectionsCutOff indent) (NodesCutOff indent)
    (fun _ _ hsections => cutOff_block hsections)
    (fun _ hleaf => cutOff_leaf hleaf)
    sectionsCutOff_nil
    (fun _ _ _ hbody hrest => sectionsCutOff_cons hbody hrest)
    nodesCutOff_nil
    (fun _ _ hnode hrest => nodesCutOff_cons hnode hrest)).2.2 nodes

end Assembly

section Texts

variable {o : Options} {first second : List Node} {text : String}

theorem legible_of_authored
    {nodes : List Node}
    {indent : Nat}
    (h : dialect.Authored nodes)
    (hclear : ∀ n ∈ everywhereIn nodes, n.Clear indent) :
    Legible indent nodes := by
  have hplain := Kind.isPlain_of_authored .sequence h
  exact ⟨⟨0, surveyNodes_eq nodes ▸ hplain⟩, hasSection_of_authored h, hclear⟩

theorem visible_linesOf
    {nodes : List Node}
    {indent : Nat}
    (hlegible : Legible indent nodes) :
    ∀ l ∈ (linesOf 0 nodes).head?, l.content ≠ "" := by
  intro l hl
  cases nodes with
  | nil => cases hl
  | cons node rest =>
      have hleads : Leads 0 (node.lines 0) node.shown := Node.leads hlegible.head
      obtain ⟨content, others, hlines, ⟨c, hc, _⟩, _⟩ := hleads.exists_cons
      rw [linesOf, hlines] at hl
      cases hl
      rintro rfl
      cases hc

/-- Behind the elements of a tree the text is at its end, or the envelope is. -/
theorem ends_envelope : Ends o.indent 0 (written o.indent (envelopeEnd o) []) := by
  intro l hl
  unfold envelopeEnd at hl
  cases hwrap : o.wrap with
  | false =>
      rw [hwrap] at hl
      cases hl
  | true =>
      rw [hwrap] at hl
      cases hl
      exact .inl (lineKind_fixed (by decide) (List.append_nil _).symm (by simp) not_beginsArrow_nil)

/-- The text of a sequence diagram determines its outline, whatever the layout, when its
messages are clear. -/
theorem outlinesOf_eq_of_render_eq
    (hfirst : dialect.Authored first)
    (hsecond : dialect.Authored second)
    (hclear : ∀ n ∈ everywhereIn first, n.Clear o.indent)
    (hclear' : ∀ n ∈ everywhereIn second, n.Clear o.indent)
    (h : Diagram.render { kind := .sequence, nodes := first } o = .ok text)
    (h' : Diagram.render { kind := .sequence, nodes := second } o = .ok text) :
    outlinesOf first = outlinesOf second := by
  have hlegible := legible_of_authored hfirst hclear
  have hlegible' := legible_of_authored hsecond hclear'
  have hwritten := Diagram.written_eq_of_render_eq .sequence
    (allOneLine_of_authored hfirst) (allOneLine_of_authored hsecond)
    (visible_linesOf hlegible) (visible_linesOf hlegible') h h'
  exact (nodesCutOff first second 0 _ _ hlegible hlegible' ends_envelope ends_envelope
    hwritten).1

/-- What a participant with the name of a section does in a block. -/
def insideAlt (inner : Call) : List (Authoring dialect) :=
  [.call (.ok (Call.participant { name := "else" })) false,
   .call (.ok (Call.participant { name := "b" })) false,
   .scope (Opening.block .alt none) false [.call (.ok inner) false]]

/-- Without indentation the words of blocks and of sections have to be left out, too: a
message from a participant with the name of a section is written like a further section. -/
example :
    let message : Call := .message { source := some "else", target := some "b" }
    let first := dialect.rootOf (insideAlt message)
    let second := dialect.rootOf (insideAlt (.otherwise (some "-> b")))
    Diagram.render { kind := .sequence, nodes := first } { indent := 0 } =
        Diagram.render { kind := .sequence, nodes := second } { indent := 0 } ∧
      (outlinesOf first).map (·.sections.length) ≠
        (outlinesOf second).map (·.sections.length) :=
  ⟨rfl, by decide +kernel⟩

/-- A loop with a message in it from a participant whose name is the word of a block; the
first number of the messages is given, or it is the usual one. -/
def loopOfAlt (firstNumber : Option Nat) : List (Authoring dialect) :=
  [.call (.ok (Call.participant { name := "alt" })) false,
   .call (.ok (Call.autonumber (.start firstNumber (some 2) none))) false,
   .scope (Opening.block .loop (some "twice")) false
    [.call (.ok (Call.message { source := some "alt", target := none, text := some "a" })) false]]

theorem outlinesOf_eq_of_render_eq_of_loopOfAlt :
    let first := dialect.rootOf (loopOfAlt none)
    let second := dialect.rootOf (loopOfAlt (some 1))
    dialect.Authored first ∧ dialect.Authored second ∧
      (∀ n ∈ everywhereIn first, n.Clear 2) ∧ (∀ n ∈ everywhereIn second, n.Clear 2) ∧
      (∃ text, Diagram.render { kind := .sequence, nodes := first } {} = .ok text ∧
        Diagram.render { kind := .sequence, nodes := second } {} = .ok text) ∧
      outlinesOf first = outlinesOf second := by
  have hauthored : ∀ firstNumber, firstNumber = none ∨ firstNumber = some 1 →
      dialect.Authored (dialect.rootOf (loopOfAlt firstNumber)) := by
    rintro firstNumber (rfl | rfl) <;> exact ⟨loopOfAlt _, rfl⟩
  have hclear : ∀ firstNumber, firstNumber = none ∨ firstNumber = some 1 →
      ∀ n ∈ everywhereIn (dialect.rootOf (loopOfAlt firstNumber)), n.Clear 2 := by
    rintro firstNumber (rfl | rfl) <;> decide +kernel
  have hrender : ∀ firstNumber, firstNumber = none ∨ firstNumber = some 1 →
      Diagram.render { kind := .sequence, nodes := dialect.rootOf (loopOfAlt firstNumber) } {} =
        .ok ("@startuml\nparticipant alt\nautonumber 1 2\nloop twice\n  alt ->] : a\nend\n" ++
          "@enduml\n") := by
    rintro firstNumber (rfl | rfl) <;> rfl
  have hnone : (none : Option Nat) = none ∨ (none : Option Nat) = some 1 := .inl rfl
  have hone : some 1 = none ∨ some 1 = some 1 := .inr rfl
  exact ⟨hauthored none hnone, hauthored (some 1) hone, hclear none hnone, hclear (some 1) hone,
    ⟨_, hrender none hnone, hrender (some 1) hone⟩,
    outlinesOf_eq_of_render_eq (hauthored none hnone) (hauthored (some 1) hone)
      (hclear none hnone) (hclear (some 1) hone) (hrender none hnone) (hrender (some 1) hone)⟩

/-- What a participant with the name of a return does at last, while another one is active.
-/
def behindReturn (last : Call) : List (Authoring dialect) :=
  [.call (.ok (Call.participant { name := "return" })) false,
   .call (.ok (Call.participant { name := "b" })) false,
   .call (.ok (Call.activate "b" none)) false,
   .call (.ok last) false]

/-- A message from a participant with the name of a return is written like a return. -/
theorem outlinesOf_ne_of_behindReturn :
    let message : Call := .message { source := some "return", target := some "b" }
    let first := dialect.rootOf (behindReturn message)
    let second := dialect.rootOf (behindReturn (.reply (some "-> b")))
    dialect.Authored first ∧ dialect.Authored second ∧
      (∃ text, Diagram.render { kind := .sequence, nodes := first } {} = .ok text ∧
        Diagram.render { kind := .sequence, nodes := second } {} = .ok text) ∧
      outlinesOf first ≠ outlinesOf second := by
  intro message first second
  refine ⟨⟨behindReturn message, rfl⟩, ⟨behindReturn (.reply (some "-> b")), rfl⟩,
    ⟨_, rfl, rfl⟩, fun h => ?_⟩
  have hkinds := congrArg (List.map Outline.kind) h
  revert hkinds
  decide +kernel

end Texts

end UmlText.Sequence
