import UmlText.Proofs.Envelopes
import UmlText.Proofs.StateChart.Fields
import UmlText.Proofs.StateChart.OneLine
import UmlText.Proofs.Text.Words

/-!
# Reading state charts back

The text of a state chart determines the tree.  A line may begin with the alias of a state,
and an alias can be any word, `state` and `note` included; so the sort of a line shows in
what stands behind its first blank.  A dash there makes it a transition and a colon a line
of a description; for the other lines the word in front decides; and the lines that divide
or close a composite state have no blank at all.

The separator of a composite state with a single region is not written.  All trees that
calls build have the horizontal one there, and at least one region (`NodesRegular`), so
nothing is lost.
-/

namespace UmlText.StateChart

section Sorts

/-- A sort of line. -/
inductive LineSort where
  | state
  | description
  | transition
  | note
  /-- The lines that divide or close a composite state, and the last one of the envelope. -/
  | divider
  deriving DecidableEq

/-- The sort of a written line. -/
def lineSort (l : List Char) : LineSort :=
  if afterWord l = [] then .divider
  else if (afterWord l).head? = some '-' then .transition
  else if (afterWord l).head? = some ':' then .description
  else if firstWord l = "note".toList then .note
  else .state

/-- The sort of the first one of written lines. -/
def firstSort (r : List (List Char)) : Option LineSort :=
  r.head?.map lineSort

/-- What is written behind the elements of a list: nothing, or a divider. -/
def Ended (r : List (List Char)) : Prop :=
  ∀ sort ∈ firstSort r, sort = .divider

variable {indent depth : Nat} {r : List (List Char)}

/-- Without a mark behind the first blank the word in front of it decides. -/
theorem lineSort_laid_of_head
    {content : String}
    {word rest : List Char}
    (hcontent : content.toList = word ++ ' ' :: rest)
    (hword : ∀ c ∈ word, c ≠ ' ')
    (hvisible : word ≠ [])
    (hnext : rest ≠ [])
    (hrest : ∀ c ∈ rest.head?, c ≠ '-' ∧ c ≠ ':') :
    lineSort ((⟨depth, content⟩ : Line).laid indent) =
      if word = "note".toList then .note else .state := by
  have hdash : ¬rest.head? = some '-' := fun h => (hrest _ h).1 rfl
  have hcolon : ¬rest.head? = some ':' := fun h => (hrest _ h).2 rfl
  unfold lineSort
  rw [afterWord_laid hcontent hword hvisible, firstWord_laid hcontent hword hvisible (by simp),
    if_neg hnext, if_neg hdash, if_neg hcolon]

/-- The sort of a line without a blank. -/
theorem lineSort_laid_divider
    {content : String}
    (hcontent : ∀ c ∈ content.toList, c ≠ ' ') :
    lineSort ((⟨depth, content⟩ : Line).laid indent) = .divider := by
  unfold lineSort
  rw [if_pos (afterWord_laid_nil hcontent)]

/-- A line that begins with a declaration. -/
theorem lineSort_state
    {s : State}
    {x : List Char}
    {content : String}
    (h : content.toList = s.line.toList ++ x) :
    lineSort ((⟨depth, content⟩ : Line).laid indent) = .state := by
  rw [State.toList_line] at h
  have hnext : ∀ (display : Option String) (a : Alias) (y : List Char),
      (display.elim [] fun display =>
        '"' :: ((escape .quoted display).toList ++ '"' :: " as ".toList)) ++
          (a.name.toList ++ y) ≠ [] := by
    intro display a y
    obtain ⟨first, rest, hcons, _⟩ := a.exists_name_eq_cons
    simp [hcons]
  have hhead : ∀ (display : Option String) (a : Alias) (y : List Char),
      ∀ c ∈ ((display.elim [] fun display =>
        '"' :: ((escape .quoted display).toList ++ '"' :: " as ".toList)) ++
          (a.name.toList ++ y)).head?, c ≠ '-' ∧ c ≠ ':' := by
    intro display a y c hc
    cases display with
    | none =>
        obtain ⟨first, rest, hcons, hfirst⟩ := a.exists_name_eq_cons
        rw [hcons] at hc
        cases hc
        refine ⟨?_, ?_⟩ <;>
        · rintro rfl
          revert hfirst
          decide
    | some display =>
        cases hc
        decide
  have hcontent : content.toList = "state".toList ++ ' ' :: _ := h
  rw [lineSort_laid_of_head hcontent (by decide) (by decide) (hnext _ _ _)
    (hhead s.display s.id (s.tail x)), if_neg (by decide)]

theorem Endpoint.sign_ne_nil (e : Endpoint Alias) : e.sign.toList ≠ [] := by
  cases e with
  | state a =>
      obtain ⟨first, rest, hcons, _⟩ := a.exists_name_eq_cons
      simp [sign, hcons]
  | _ => decide

theorem lineSort_transition
    {t : Transition Alias}
    (hplain : ∀ a ∈ t.source.states ++ t.target.states, a.IsPlain) :
    lineSort ((⟨depth, t.line⟩ : Line).laid indent) = .transition := by
  have hblank := t.source.isBlankFree_sign fun a ha => hplain a (List.mem_append_left _ ha)
  unfold lineSort
  rw [afterWord_laid t.toList_line (fun c hc => of_decide_eq_true (hblank c hc))
    t.source.sign_ne_nil]
  rfl

theorem lineSort_description {a : Alias} (hplain : a.IsPlain) (text : String) :
    lineSort ((⟨depth, a.name ++ " : " ++ escape .label text⟩ : Line).laid indent) =
      .description := by
  have hsign : (Endpoint.state a).sign = a.name := rfl
  have hblank := Endpoint.isBlankFree_sign (e := .state a) (by simpa [Endpoint.states] using hplain)
  have hvisible := Endpoint.sign_ne_nil (.state a)
  rw [hsign] at hblank hvisible
  have hcontent : (a.name ++ " : " ++ escape .label text).toList =
      a.name.toList ++ ' ' :: ':' :: ' ' :: (escape .label text).toList := by
    simp
  unfold lineSort
  rw [afterWord_laid hcontent (fun c hc => of_decide_eq_true (hblank c hc)) hvisible]
  rfl

/-- The first line of a note, whether it is the only one or not. -/
theorem firstSort_note (n : AttachedNote Alias) :
    firstSort (written indent (n.lines depth) r) = some .note := by
  have hside : ∀ (side : Side) (x : List Char),
      ∀ c ∈ (side.keyword.toList ++ x).head?, c ≠ '-' ∧ c ≠ ':' := by
    intro side x
    cases side <;> simp [Side.keyword]
  have hline : ∀ (content : String) (x : List Char),
      content.toList = "note".toList ++ ' ' :: (n.side.keyword.toList ++ x) →
        lineSort ((⟨depth, content⟩ : Line).laid indent) = .note := by
    intro content x hcontent
    have hnext : n.side.keyword.toList ++ x ≠ [] := by
      cases n.side <;> simp [Side.keyword]
    rw [lineSort_laid_of_head hcontent (by decide) (by decide) hnext (hside n.side x), if_pos rfl]
  rw [AttachedNote.lines_eq, noteLines]
  split
  · exact congrArg some (hline _ _ (by simp [AttachedNote.opening]; rfl))
  · exact congrArg some (hline _ _ (by simp [AttachedNote.opening]; rfl))

/-- The sort of the first line of an element. -/
def Node.sort : Node → LineSort
  | .state _ | .composite .. => .state
  | .transition _ => .transition
  | .note _ => .note

/-- The first line of an element is of the sort of the element. -/
theorem Node.firstSort_written
    {node : Node}
    {k : Nat}
    (hplain : AllPlain (node.survey k)) :
    firstSort (written indent (node.lines depth) r) = some node.sort := by
  cases node with
  | state s => exact congrArg some (lineSort_state (List.append_nil _).symm)
  | composite s separator regions => exact congrArg some (lineSort_state String.toList_append)
  | transition t => exact congrArg some (lineSort_transition (isPlain_of_survey_transition hplain))
  | note n => exact firstSort_note n

/-- Elements that are written alike are of one sort. -/
theorem Node.sort_eq
    {node other : Node}
    {k k' : Nat}
    {s : List (List Char)}
    (hplain : AllPlain (node.survey k))
    (hplain' : AllPlain (other.survey k'))
    (h : written indent (node.lines depth) r = written indent (other.lines depth) s) :
    node.sort = other.sort := by
  have hsorts := congrArg firstSort h
  rw [firstSort_written hplain, firstSort_written hplain'] at hsorts
  exact Option.some.inj hsorts

/-- Where a list of elements ends there is none of them left. -/
theorem eq_nil_of_ended
    {nodes : List Node}
    {k : Nat}
    (hplain : AllPlain (surveyNodes k nodes))
    (h : Ended (written indent (linesOf depth nodes) r)) :
    nodes = [] := by
  cases nodes with
  | nil => rfl
  | cons node rest =>
      simp only [surveyNodes, allPlain_append] at hplain
      rw [linesOf, written_append] at h
      have hdivider := h _ (Node.firstSort_written hplain.1)
      cases node <;> cases hdivider

/-- No line of a description follows the elements of a list. -/
theorem firstSort_ne_description
    {nodes : List Node}
    {k : Nat}
    (hplain : AllPlain (surveyNodes k nodes))
    (h : Ended r) :
    firstSort (written indent (linesOf depth nodes) r) ≠ some .description := by
  cases nodes with
  | nil =>
      intro hsort
      cases h _ hsort
  | cons node rest =>
      simp only [surveyNodes, allPlain_append] at hplain
      rw [linesOf, written_append, Node.firstSort_written hplain.1]
      cases node <;> simp [Node.sort]

end Sorts

section Regular

mutual

/-- Every composite state in an element has a region, and the horizontal separator where it
has only one. -/
def Node.Regular : Node → Prop
  | .composite _ separator regions =>
      regions ≠ [] ∧ (regions.length = 1 → separator = .horizontal) ∧ RegionsRegular regions
  | .state _ | .transition _ | .note _ => True

/-- `Node.Regular` for the elements of a list. -/
def NodesRegular : List Node → Prop
  | [] => True
  | node :: rest => node.Regular ∧ NodesRegular rest

/-- `Node.Regular` in the regions of a composite state. -/
def RegionsRegular : List (List Node) → Prop
  | [] => True
  | body :: rest => NodesRegular body ∧ RegionsRegular rest

end

theorem nodesRegular_append {first second : List Node} :
    NodesRegular (first ++ second) ↔ NodesRegular first ∧ NodesRegular second := by
  induction first with
  | nil => simp [NodesRegular]
  | cons node rest ih => simp [NodesRegular, ih, and_assoc]

theorem regionsRegular_append {first second : List (List Node)} :
    RegionsRegular (first ++ second) ↔ RegionsRegular first ∧ RegionsRegular second := by
  induction first with
  | nil => simp [RegionsRegular]
  | cons body rest ih => simp [RegionsRegular, ih, and_assoc]

theorem nodesRegular_of_forall {nodes : List Node} (h : ∀ node ∈ nodes, node.Regular) :
    NodesRegular nodes := by
  induction nodes with
  | nil => trivial
  | cons node rest ih =>
      obtain ⟨hnode, hrest⟩ := List.forall_mem_cons.mp h
      exact ⟨hnode, ih hrest⟩

/-- An open composite state has no separator before its second region. -/
structure Scope.Regular (scope : Scope) : Prop where
  separator : scope.finished = [] → scope.separator = none
  finished : RegionsRegular scope.finished
  body : NodesRegular scope.body

theorem Scope.Regular.add {scope : Scope} (h : scope.Regular) {node : Node} (hnode : node.Regular) :
    (scope.add node).Regular where
  separator := h.separator
  finished := h.finished
  body := nodesRegular_append.mpr ⟨h.body, hnode, trivial⟩

theorem Scope.Regular.toNode {scope : Scope} (h : scope.Regular) : scope.toNode.Regular := by
  refine ⟨by simp, ?_, regionsRegular_append.mpr ⟨h.finished, h.body, trivial⟩⟩
  intro hone
  have hfinished : scope.finished = [] := by
    rw [List.length_append, List.length_singleton] at hone
    exact List.eq_nil_of_length_eq_zero (by omega)
  rw [h.separator hfinished]
  rfl

/-- Composite states are regular when they are closed, however they were built. -/
theorem upholds_regular : realization.Upholds Node.Regular Scope.Regular where
  call {generated generated' call node} h := by
    cases call with
    | state s =>
        simp only [Call.read, Option.map_eq_some_iff] at h
        obtain ⟨_, _, heq⟩ := h
        cases heq
        trivial
    | transition t =>
        simp only [Call.read, Option.bind_eq_bind, Option.bind_eq_some_iff, Option.pure_def] at h
        obtain ⟨_, _, _, _, heq⟩ := h
        cases heq
        trivial
    | note n =>
        simp only [Call.read, Option.bind_eq_bind, Option.bind_eq_some_iff, Option.pure_def] at h
        obtain ⟨_, _, heq⟩ := h
        cases heq
        trivial
    | region separator => cases h
  opening {head scope} h := by
    rw [Holds.eq_of_nil h]
    exact ⟨fun _ => rfl, trivial, trivial⟩
  grow {item scope scope'} hitem hscope hgrows := by
    cases item with
    | element node =>
        cases hgrows
        exact hscope.add (hitem node rfl)
    | clause separator =>
        obtain ⟨_, _, rfl⟩ := Scope.startRegion_eq_ok_iff.mp hgrows
        exact ⟨by simp, regionsRegular_append.mpr ⟨hscope.finished, hscope.body, trivial⟩, trivial⟩
  adopt {inner outer outer'} hinner houter hadopt := by
    cases hadopt
    exact houter.add hinner.toNode
  toNode {scope node} hscope hnode := by
    cases hnode
    exact hscope.toNode

theorem nodesRegular_of_authored {nodes : List Node} (h : dialect.Authored nodes) :
    NodesRegular nodes :=
  nodesRegular_of_forall (upholds_regular.good_of_authored sound h)

end Regular

section Pieces

variable {indent depth : Nat} {r s : List (List Char)}

/-- A line of a description may stand in front of others, but not behind them. -/
theorem description_cut
    {a : Alias}
    (hplain : a.IsPlain)
    {texts texts' : List String}
    (hr : firstSort r ≠ some .description)
    (hs : firstSort s ≠ some .description)
    (h : written indent
        (texts.map fun text => ⟨depth, a.name ++ " : " ++ escape .label text⟩) r =
      written indent
        (texts'.map fun text => ⟨depth, a.name ++ " : " ++ escape .label text⟩) s) :
    texts = texts' ∧ r = s := by
  induction texts generalizing texts' with
  | nil =>
      cases texts' with
      | nil => exact ⟨rfl, h⟩
      | cons text' rest' =>
          rw [List.map_nil, written_nil] at h
          exact absurd (h ▸ congrArg some (lineSort_description hplain text')) hr
  | cons text rest ih =>
      cases texts' with
      | nil =>
          rw [List.map_nil, written_nil] at h
          exact absurd (h ▸ congrArg some (lineSort_description hplain text)) hs
      | cons text' rest' =>
          obtain ⟨hline, h⟩ := written_cons_cut h
          obtain ⟨hrest, hrs⟩ := ih h
          exact ⟨by rw [lead_escape_inj hline, hrest], hrs⟩

/-- A state is its declaration with its description. -/
theorem State.eq_of_lines
    {first second : State}
    (hplain : first.id.IsPlain)
    (hline : { first with description := [] } = { second with description := [] })
    (hr : firstSort r ≠ some .description)
    (hs : firstSort s ≠ some .description)
    (h : written indent (first.descriptionLines depth) r =
      written indent (second.descriptionLines depth) s) :
    first = second ∧ r = s := by
  obtain ⟨id, display, kind, description, color⟩ := first
  obtain ⟨id', display', kind', description', color'⟩ := second
  cases hline
  obtain ⟨rfl, hrs⟩ := description_cut hplain hr hs h
  exact ⟨rfl, hrs⟩

/-- The lines behind the first one of the regions. -/
def furtherRegionLines (depth : Nat) (separator : Separator) : List (List Node) → List Line
  | [] => []
  | body :: rest => ⟨depth, separator.sign⟩ :: regionLines depth separator (body :: rest)

theorem regionLines_cons (separator : Separator) (body : List Node) (rest : List (List Node)) :
    regionLines depth separator (body :: rest) =
      linesOf depth body ++ furtherRegionLines depth separator rest := by
  cases rest <;> simp [regionLines, furtherRegionLines]

theorem Separator.sign_inj {a b : Separator} (h : a.sign = b.sign) : a = b := by
  cases a <;> cases b <;> first | rfl | exact absurd h (by decide)

/-- What follows a region: another one, or the closing brace. -/
theorem ended_further (separator : Separator) (rest : List (List Node)) (lines : List Line) :
    Ended (written indent (furtherRegionLines (depth + 1) separator rest)
      (written indent (⟨depth, "\x7d"⟩ :: lines) r)) := by
  intro sort hsort
  cases rest with
  | nil =>
      cases hsort
      exact lineSort_laid_divider (by decide)
  | cons body rest =>
      cases hsort
      exact lineSort_laid_divider (by cases separator <;> decide)

/-- A separator is not mistaken for the closing brace, whatever blanks stand in front. -/
theorem laid_sign_ne_brace (separator : Separator) :
    (⟨depth + 1, separator.sign⟩ : Line).laid indent ≠ (⟨depth, "\x7d"⟩ : Line).laid indent := by
  intro h
  have hcontents := congrArg unindent h
  rw [unindent_laid (by cases separator <;> simp [Separator.sign]), unindent_laid (by simp)]
    at hcontents
  cases separator <;> simp [Separator.sign] at hcontents

/-- Behind a region it is read off whether another one follows. -/
theorem furtherRegionLines_cut
    {separator separator' : Separator}
    {rest rest' : List (List Node)}
    {lines lines' : List Line}
    (h : written indent (furtherRegionLines (depth + 1) separator rest)
        (written indent (⟨depth, "\x7d"⟩ :: lines) r) =
      written indent (furtherRegionLines (depth + 1) separator' rest')
        (written indent (⟨depth, "\x7d"⟩ :: lines') s)) :
    (rest = [] ∧ rest' = [] ∧ written indent lines r = written indent lines' s) ∨
    (rest ≠ [] ∧ rest' ≠ [] ∧ separator = separator' ∧
      written indent (regionLines (depth + 1) separator rest)
          (written indent (⟨depth, "\x7d"⟩ :: lines) r) =
        written indent (regionLines (depth + 1) separator' rest')
          (written indent (⟨depth, "\x7d"⟩ :: lines') s)) := by
  cases rest with
  | nil =>
      cases rest' with
      | nil => exact .inl ⟨rfl, rfl, (written_cons_cut h).2⟩
      | cons body' rest' => exact absurd (List.cons.inj h).1.symm (laid_sign_ne_brace separator')
  | cons body rest =>
      cases rest' with
      | nil => exact absurd (List.cons.inj h).1 (laid_sign_ne_brace separator)
      | cons body' rest' =>
          obtain ⟨hsign, h⟩ := written_cons_cut h
          exact .inr ⟨List.cons_ne_nil _ _, List.cons_ne_nil _ _, Separator.sign_inj hsign, h⟩

end Pieces

section Cuts

variable {indent : Nat}

/-- An element is cut off by its lines from what is behind it, and determined by them, where
no description follows. -/
def Node.IsCut (indent : Nat) (node : Node) : Prop :=
  ∀ (other : Node) (k k' depth : Nat) (r s : List (List Char)),
    AllPlain (node.survey k) → AllPlain (other.survey k') → node.Regular → other.Regular →
      firstSort r ≠ some .description → firstSort s ≠ some .description →
        written indent (node.lines depth) r = written indent (other.lines depth) s →
          node = other ∧ r = s

/-- `Node.IsCut` for the elements of a list, which end at a divider. -/
def NodesCut (indent : Nat) (nodes : List Node) : Prop :=
  ∀ (others : List Node) (k k' depth : Nat) (r s : List (List Char)),
    AllPlain (surveyNodes k nodes) → AllPlain (surveyNodes k' others) →
      NodesRegular nodes → NodesRegular others → Ended r → Ended s →
        written indent (linesOf depth nodes) r = written indent (linesOf depth others) s →
          nodes = others ∧ r = s

/-- `Node.IsCut` for the regions of a composite state up to the closing brace, and for the
separator where there are several of them. -/
def RegionsCut (indent : Nat) (regions : List (List Node)) : Prop :=
  ∀ (others : List (List Node)) (separator separator' : Separator) (k k' depth : Nat)
    (lines lines' : List Line) (r s : List (List Char)),
    AllPlain (surveyRegions k regions) → AllPlain (surveyRegions k' others) →
      RegionsRegular regions → RegionsRegular others → regions ≠ [] → others ≠ [] →
        written indent (regionLines (depth + 1) separator regions)
            (written indent (⟨depth, "\x7d"⟩ :: lines) r) =
          written indent (regionLines (depth + 1) separator' others)
            (written indent (⟨depth, "\x7d"⟩ :: lines') s) →
          regions = others ∧ (regions.length ≠ 1 → separator = separator') ∧
            written indent lines r = written indent lines' s

section Productions

theorem Node.cut_state (first : State) : (Node.state first).IsCut indent := by
  intro other k k' depth r s hplain hplain' _ _ hr hs h
  have hsort := Node.sort_eq hplain hplain' h
  simp only [Node.survey, allPlain_cons] at hplain
  cases other with
  | state second =>
      simp only [Node.survey, allPlain_cons] at hplain'
      obtain ⟨hline, h⟩ := written_cons_cut h
      obtain ⟨hstate, _⟩ := State.line_cut hplain.1 hplain'.1 (.inl rfl) (.inl rfl)
        (congrArg (String.toList · ++ []) hline)
      obtain ⟨rfl, hrs⟩ := State.eq_of_lines hplain.1 hstate hr hs h
      exact ⟨rfl, hrs⟩
  | composite second separator' regions' =>
      simp only [Node.survey, allPlain_append, allPlain_cons] at hplain'
      obtain ⟨hline, _⟩ := written_cons_cut h
      obtain ⟨_, hbrace⟩ := State.line_cut hplain.1 hplain'.2.1 (.inl rfl) (.inr rfl)
        (by simpa using congrArg String.toList hline)
      cases hbrace
  | _ => cases hsort

theorem Node.cut_composite
    {regions : List (List Node)}
    (hregions : RegionsCut indent regions)
    (first : State)
    (separator : Separator) :
    (Node.composite first separator regions).IsCut indent := by
  intro other k k' depth r s hplain hplain' hregular hregular' hr hs h
  have hsort := Node.sort_eq hplain hplain' h
  simp only [Node.survey, allPlain_append, allPlain_cons] at hplain
  obtain ⟨hsome, hone, hinner⟩ := hregular
  cases other with
  | state second =>
      simp only [Node.survey, allPlain_cons] at hplain'
      obtain ⟨hline, _⟩ := written_cons_cut h
      obtain ⟨_, hbrace⟩ := State.line_cut hplain.2.1 hplain'.1 (.inr rfl) (.inl rfl)
        (by simpa using congrArg String.toList hline)
      cases hbrace
  | composite second separator' regions' =>
      simp only [Node.survey, allPlain_append, allPlain_cons] at hplain'
      obtain ⟨hsome', hone', hinner'⟩ := hregular'
      simp only [Node.lines, List.cons_append] at h
      obtain ⟨hline, h⟩ := written_cons_cut h
      simp only [written_append] at h
      obtain ⟨hstate, _⟩ := State.line_cut hplain.2.1 hplain'.2.1 (.inr rfl) (.inr rfl)
        (by simpa using congrArg String.toList hline)
      obtain ⟨rfl, hseparator, h⟩ := hregions regions' separator separator' _ _ _ _ _ r s
        hplain.1 hplain'.1 hinner hinner' hsome hsome' h
      obtain ⟨rfl, hrs⟩ := State.eq_of_lines hplain.2.1 hstate hr hs h
      have hsame : separator = separator' := by
        by_cases hlength : regions.length = 1
        · rw [hone hlength, hone' hlength]
        · exact hseparator hlength
      exact ⟨by rw [hsame], hrs⟩
  | _ => cases hsort

theorem Node.cut_transition (t : Transition Alias) : (Node.transition t).IsCut indent := by
  intro other k k' depth r s hplain hplain' _ _ _ _ h
  have hsort := Node.sort_eq hplain hplain' h
  cases other with
  | transition t' =>
      obtain ⟨hline, hrs⟩ := written_cons_cut h
      exact ⟨by rw [Transition.line_inj (isPlain_of_survey_transition hplain)
        (isPlain_of_survey_transition hplain') hline], hrs⟩
  | _ => cases hsort

theorem Node.cut_note (n : AttachedNote Alias) : (Node.note n).IsCut indent := by
  intro other k k' depth r s hplain hplain' _ _ _ _ h
  have hsort := Node.sort_eq hplain hplain' h
  cases other with
  | note n' =>
      simp only [Node.survey, allPlain_cons] at hplain hplain'
      obtain ⟨rfl, hrs⟩ := AttachedNote.lines_cut hplain.1 hplain'.1 h
      exact ⟨rfl, hrs⟩
  | _ => cases hsort

theorem nodesCut_nil : NodesCut indent [] := by
  intro others k k' depth r s _ hplain' _ _ hr _ h
  rw [linesOf, written_nil] at h
  have hnone : others = [] := eq_nil_of_ended hplain' (h ▸ hr)
  subst hnone
  exact ⟨rfl, h⟩

theorem nodesCut_cons
    {node : Node}
    {rest : List Node}
    (hnode : node.IsCut indent)
    (hrest : NodesCut indent rest) :
    NodesCut indent (node :: rest) := by
  intro others k k' depth r s hplain hplain' hregular hregular' hr hs h
  cases others with
  | nil =>
      rw [linesOf.eq_1, written_nil] at h
      subst h
      exact absurd (eq_nil_of_ended hplain hs) (List.cons_ne_nil node rest)
  | cons other rest' =>
      simp only [surveyNodes, allPlain_append] at hplain hplain'
      simp only [linesOf, written_append] at h
      obtain ⟨rfl, hbehind⟩ := hnode other _ _ _ _ _ hplain.1 hplain'.1 hregular.1 hregular'.1
        (firstSort_ne_description hplain.2 hr) (firstSort_ne_description hplain'.2 hs) h
      obtain ⟨rfl, hrs⟩ := hrest rest' _ _ _ _ _ hplain.2 hplain'.2 hregular.2 hregular'.2
        hr hs hbehind
      exact ⟨rfl, hrs⟩

theorem regionsCut_nil : RegionsCut indent [] := by
  intro _ _ _ _ _ _ _ _ _ _ _ _ _ _ hsome
  exact absurd rfl hsome

theorem regionsCut_cons
    {body : List Node}
    {rest : List (List Node)}
    (hbody : NodesCut indent body)
    (hrest : RegionsCut indent rest) :
    RegionsCut indent (body :: rest) := by
  intro others separator separator' k k' depth lines lines' r s hplain hplain' hregular
    hregular' _ hsome' h
  cases others with
  | nil => exact absurd rfl hsome'
  | cons body' rest' =>
      simp only [surveyRegions, allPlain_append, allPlain_cons] at hplain hplain'
      simp only [regionLines_cons, written_append] at h
      obtain ⟨rfl, hbehind⟩ := hbody body' _ _ _ _ _ hplain.1.2 hplain'.1.2
        hregular.1 hregular'.1 (ended_further separator rest lines)
        (ended_further separator' rest' lines') h
      rcases furtherRegionLines_cut hbehind with
        ⟨rfl, rfl, hlines⟩ | ⟨hnext, hnext', hsame, hregions⟩
      · exact ⟨rfl, fun hone => absurd rfl hone, hlines⟩
      · obtain ⟨rfl, _, hlines⟩ := hrest rest' separator separator' _ _ _ _ _ _ _
          hplain.2 hplain'.2 hregular.2 hregular'.2 hnext hnext' hregions
        exact ⟨rfl, fun _ => hsame, hlines⟩

end Productions

mutual

/-- Every element is cut off, and determined, by its lines. -/
theorem Node.isCut : ∀ node : Node, node.IsCut indent
  | .state first => Node.cut_state first
  | .composite first separator regions =>
      Node.cut_composite (regionsCut regions) first separator
  | .transition t => Node.cut_transition t
  | .note n => Node.cut_note n
termination_by structural node => node

/-- The elements of a list are determined by their lines. -/
theorem nodesCut : ∀ nodes : List Node, NodesCut indent nodes
  | [] => nodesCut_nil
  | node :: rest => nodesCut_cons node.isCut (nodesCut rest)
termination_by structural nodes => nodes

/-- The regions of a composite state are determined by their lines. -/
theorem regionsCut : ∀ regions : List (List Node), RegionsCut indent regions
  | [] => regionsCut_nil
  | body :: rest => regionsCut_cons (nodesCut body) (regionsCut rest)
termination_by structural regions => regions

end

end Cuts

section Texts

variable {o : Options} {first second : List Node} {text : String}

/-- Every element has a first line, and it is not empty. -/
theorem Node.exists_lines (node : Node) (depth : Nat) :
    ∃ content rest, node.lines depth = ⟨depth, content⟩ :: rest ∧ content ≠ "" := by
  cases node with
  | state s => exact ⟨_, _, rfl, by simp [State.line]⟩
  | composite s separator regions => exact ⟨_, _, rfl, by simp [State.line]⟩
  | transition t => exact ⟨_, _, rfl, by simp [Transition.line]⟩
  | note n =>
      rw [lines, AttachedNote.lines, noteLines]
      split
      · exact ⟨_, _, rfl, by simp⟩
      · exact ⟨_, _, rfl, by simp⟩

theorem visible_linesOf (nodes : List Node) : ∀ l ∈ (linesOf 0 nodes).head?, l.content ≠ "" := by
  intro l hl
  cases nodes with
  | nil => cases hl
  | cons node rest =>
      obtain ⟨content, behind, hlines, hvisible⟩ := node.exists_lines 0
      rw [linesOf, hlines] at hl
      cases hl
      exact hvisible

/-- Behind the elements of a tree the text is at its end, or the envelope is. -/
theorem ended_envelope : Ended (written o.indent (envelopeEnd o) []) := by
  intro sort hsort
  unfold envelopeEnd at hsort
  cases hwrap : o.wrap with
  | false =>
      rw [hwrap] at hsort
      cases hsort
  | true =>
      rw [hwrap] at hsort
      cases hsort
      exact lineSort_laid_divider (by decide)

/-- The text of a state chart determines its tree, whatever the layout. -/
theorem eq_of_render_eq
    (hfirst : dialect.Authored first)
    (hsecond : dialect.Authored second)
    (h : Diagram.render { kind := .state, nodes := first } o = .ok text)
    (h' : Diagram.render { kind := .state, nodes := second } o = .ok text) :
    first = second := by
  have hplain := Kind.isPlain_of_authored .state hfirst
  have hplain' := Kind.isPlain_of_authored .state hsecond
  rw [← surveyNodes_eq] at hplain hplain'
  have hwritten := Diagram.written_eq_of_render_eq .state
    (allOneLine_of_authored hfirst) (allOneLine_of_authored hsecond)
    (visible_linesOf first) (visible_linesOf second) h h'
  exact (nodesCut first second 0 0 0 _ _ hplain hplain' (nodesRegular_of_authored hfirst)
    (nodesRegular_of_authored hsecond) ended_envelope ended_envelope hwritten).1

/-- A composite state whose alias is a word of the language, with two regions, a description
and a transition to itself; the alias is the name, or it is given. -/
def regionsOfNote (given : Option String) : List (Authoring dialect) :=
  [.scope { name := "note", givenAlias := given, description := ["two sides"] } false
    [.call (.ok (Call.state { name := "state" })) false,
     .call (.ok (Call.region .vertical)) false,
     .call (.ok (Call.state { name := "b", kind := .choice })) false],
   .call (.ok (Call.transition
    { source := .state "note", target := .state "note", label := some "-" })) false]

theorem eq_of_render_eq_of_regionsOfNote :
    ∃ text,
      Diagram.render { kind := .state, nodes := dialect.rootOf (regionsOfNote none) }
        { indent := 0 } = .ok text ∧
      Diagram.render { kind := .state, nodes := dialect.rootOf (regionsOfNote (some "note")) }
        { indent := 0 } = .ok text ∧
      dialect.rootOf (regionsOfNote none) = dialect.rootOf (regionsOfNote (some "note")) := by
  have hrender : ∀ given, given = none ∨ given = some "note" →
      Diagram.render { kind := .state, nodes := dialect.rootOf (regionsOfNote given) }
        { indent := 0 } = .ok ("@startuml\nstate note \x7b\nstate state\n||\n" ++
          "state b <<choice>>\n\x7d\nnote : two sides\nnote --> note : -\n@enduml\n") := by
    rintro given (rfl | rfl) <;> rfl
  exact ⟨_, hrender none (.inl rfl), hrender (some "note") (.inr rfl),
    eq_of_render_eq ⟨regionsOfNote none, rfl⟩ ⟨regionsOfNote (some "note"), rfl⟩
      (hrender none (.inl rfl)) (hrender (some "note") (.inr rfl))⟩

end Texts

end UmlText.StateChart
