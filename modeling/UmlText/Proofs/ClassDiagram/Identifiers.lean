import UmlText.Proofs.Consistency
import UmlText.Proofs.Envelopes
import UmlText.Proofs.Generated

/-!
# The names that the text of a class diagram introduces

The text of a class diagram introduces two sorts of names: the aliases of the classes, and
the names of the notes that are attached to nothing, which are numbered as they are written.
The walk that writes a tree is laid out here as a list of `Stroke`s, one after the other and
without packages inside packages, so that "before" and "after" in the document are so in the
list.

A stroke is written with the number of the floating notes before it, at whatever depth they
lie, and the name that it introduces is a word of its own in the first of its lines.  Two
names are never the same: the aliases of the classes are distinct in an accepted tree, the
numbers of the notes grow, and the stem of the one is not the stem of the other.
-/

namespace UmlText.ClassDiagram

/-- One step of the walk that writes a tree. -/
inductive Stroke where
  /-- An element inside `depth` packages begins; what is no package is complete with that. -/
  | element (depth : Nat) (node : Node)
  /-- A package inside `depth` others ends. -/
  | closing (depth : Nat)

mutual

/-- The strokes for an element that lies inside `depth` packages. -/
def Node.strokes (depth : Nat) : Node → List Stroke
  | .class c => [.element depth (.class c)]
  | .package head body =>
      .element depth (.package head body) :: strokesFrom (depth + 1) body ++ [.closing depth]
  | .relation r => [.element depth (.relation r)]
  | .note n => [.element depth (.note n)]
  | .floatingNote text color => [.element depth (.floatingNote text color)]

/-- The strokes for the elements of a list. -/
def strokesFrom (depth : Nat) : List Node → List Stroke
  | [] => []
  | node :: rest => node.strokes depth ++ strokesFrom depth rest

end

namespace Stroke

/-- The element that begins, with its depth. -/
def element? : Stroke → Option (Nat × Node)
  | .element depth node => some (depth, node)
  | .closing _ => none

/-- Whether a note that is attached to nothing is written. -/
def isFloatingNote : Stroke → Bool
  | .element _ (.floatingNote ..) => true
  | _ => false

/-- The class that is declared, if one is. -/
def classAlias? : Stroke → Option Alias
  | .element _ (.class c) => some c.id
  | _ => none

/-- The lines of a stroke with `numbered` floating notes before it. -/
def lines (numbered : Nat) : Stroke → List Line
  | .element depth (.package head _) => [⟨depth, head.line⟩]
  | .element depth node => node.lines depth numbered
  | .closing depth => [⟨depth, "\x7d"⟩]

/-- The name that a stroke with `numbered` floating notes before it introduces. -/
def name? (numbered : Nat) : Stroke → Option String
  | .element _ (.class c) => some c.id.name
  | .element _ (.floatingNote ..) => some (floatingNoteName (numbered + 1))
  | _ => none

end Stroke

/-- How many floating notes there are among the strokes. -/
def floating (strokes : List Stroke) : Nat :=
  strokes.countP Stroke.isFloatingNote

/-- The strokes, each with the number of the floating notes before it; there are `numbered`
before the first. -/
def counted (numbered : Nat) : List Stroke → List (Nat × Stroke)
  | [] => []
  | stroke :: rest => (numbered, stroke) :: counted (numbered + floating [stroke]) rest

/-- The lines of strokes with `numbered` floating notes before them. -/
def linesOfStrokes (numbered : Nat) (strokes : List Stroke) : List Line :=
  (counted numbered strokes).flatMap fun step => step.2.lines step.1

/-- The names that strokes with `numbered` floating notes before them introduce, in the
order of the document. -/
def introduced (numbered : Nat) (strokes : List Stroke) : List String :=
  (counted numbered strokes).filterMap fun step => step.2.name? step.1

/-- Right behind a name, the text ends the name: it does not go on with a character of an
alias. -/
def EndsName (back : String) : Prop :=
  ∀ c ∈ back.toList.head?, isAliasChar c = false

/-- The name is a word of its own in the first of the lines. -/
def Introduces (lines : List Line) (name : String) : Prop :=
  ∃ depth front back more,
    lines = ⟨depth, front ++ " " ++ name ++ back⟩ :: more ∧ EndsName back

/-- The alias was read from a caller's text, or generated for a class whose name cannot be
one. -/
def IsClassAlias (a : Alias) : Prop :=
  (∃ text, Alias.parse text = .ok a) ∨ ∃ index, a = Alias.generated "c" index

section Strokes

variable (first second : List Stroke) (numbered : Nat)

theorem counted_append :
    counted numbered (first ++ second) =
      counted numbered first ++ counted (numbered + floating first) second := by
  induction first generalizing numbered with
  | nil => simp [counted, floating]
  | cons stroke rest ih =>
      have hcount : floating (stroke :: rest) = floating [stroke] + floating rest := by
        rw [← List.singleton_append]
        exact List.countP_append
      rw [List.cons_append, counted, counted, ih, hcount, Nat.add_assoc, List.cons_append]

theorem linesOfStrokes_append :
    linesOfStrokes numbered (first ++ second) =
      linesOfStrokes numbered first ++ linesOfStrokes (numbered + floating first) second := by
  unfold linesOfStrokes
  rw [counted_append, List.flatMap_append]

theorem linesOfStrokes_cons (stroke : Stroke) (rest : List Stroke) :
    linesOfStrokes numbered (stroke :: rest) =
      stroke.lines numbered ++ linesOfStrokes (numbered + floating [stroke]) rest := by
  unfold linesOfStrokes
  rw [counted, List.flatMap_cons]

theorem linesOfStrokes_singleton (stroke : Stroke) :
    linesOfStrokes numbered [stroke] = stroke.lines numbered := by
  rw [linesOfStrokes_cons]
  exact List.append_nil _

theorem introduced_cons (stroke : Stroke) (rest : List Stroke) :
    introduced numbered (stroke :: rest) =
      (stroke.name? numbered).toList ++ introduced (numbered + floating [stroke]) rest := by
  unfold introduced
  rw [counted, List.filterMap_cons]
  cases stroke.name? numbered <;> rfl

end Strokes

section Walk

mutual

/-- The walk comes upon every floating note of an element. -/
theorem floating_strokes :
    ∀ (node : Node) (depth : Nat), floating (node.strokes depth) = node.floatingNotes
  | .class _, _ => rfl
  | .package head body, depth => by
      have hbody := floating_strokesFrom body (depth + 1)
      unfold floating at hbody ⊢
      rw [Node.strokes, Node.floatingNotes, List.countP_append, List.countP_cons, hbody]
      rfl
  | .relation _, _ => rfl
  | .note _, _ => rfl
  | .floatingNote .., _ => rfl

theorem floating_strokesFrom :
    ∀ (nodes : List Node) (depth : Nat),
      floating (strokesFrom depth nodes) = floatingNotesIn nodes
  | [], _ => rfl
  | node :: rest, depth => by
      have hnode := floating_strokes node depth
      have hrest := floating_strokesFrom rest depth
      unfold floating at hnode hrest ⊢
      rw [strokesFrom, floatingNotesIn, List.countP_append, hnode, hrest]

end

mutual

/-- An element is written stroke by stroke. -/
theorem lines_eq_linesOfStrokes :
    ∀ (node : Node) (depth numbered : Nat),
      node.lines depth numbered = linesOfStrokes numbered (node.strokes depth)
  | .class c, depth, numbered =>
      (linesOfStrokes_singleton numbered (.element depth (.class c))).symm
  | .package head body, depth, numbered => by
      rw [Node.strokes, Node.lines, linesFrom_eq_linesOfStrokes body (depth + 1) numbered,
        linesOfStrokes_append, linesOfStrokes_cons]
      rfl
  | .relation r, depth, numbered =>
      (linesOfStrokes_singleton numbered (.element depth (.relation r))).symm
  | .note n, depth, numbered =>
      (linesOfStrokes_singleton numbered (.element depth (.note n))).symm
  | .floatingNote text color, depth, numbered =>
      (linesOfStrokes_singleton numbered (.element depth (.floatingNote text color))).symm

theorem linesFrom_eq_linesOfStrokes :
    ∀ (nodes : List Node) (depth numbered : Nat),
      linesFrom depth numbered nodes = linesOfStrokes numbered (strokesFrom depth nodes)
  | [], _, _ => rfl
  | node :: rest, depth, numbered => by
      rw [linesFrom, strokesFrom, linesOfStrokes_append, floating_strokes,
        lines_eq_linesOfStrokes node depth numbered,
        linesFrom_eq_linesOfStrokes rest depth (numbered + node.floatingNotes)]

end

mutual

/-- The elements begin in the order of the document. -/
theorem filterMap_strokes :
    ∀ (node : Node) (depth : Nat),
      (node.strokes depth).filterMap Stroke.element? = anatomy.occurrencesOf depth node
  | .class c, depth => by
      rw [Anatomy.occurrencesOf]
      rfl
  | .package head body, depth => by
      have hbody := filterMap_strokesFrom body (depth + 1)
      rw [Node.strokes, Anatomy.occurrencesOf, List.filterMap_append, List.filterMap_cons, hbody]
      simp [Node.bodies, Anatomy.occurrencesIn, Stroke.element?]
  | .relation r, depth => by
      rw [Anatomy.occurrencesOf]
      rfl
  | .note n, depth => by
      rw [Anatomy.occurrencesOf]
      rfl
  | .floatingNote text color, depth => by
      rw [Anatomy.occurrencesOf]
      rfl

theorem filterMap_strokesFrom :
    ∀ (nodes : List Node) (depth : Nat),
      (strokesFrom depth nodes).filterMap Stroke.element? = anatomy.occurrencesIn depth nodes
  | [], _ => rfl
  | node :: rest, depth => by
      have hrest := filterMap_strokesFrom rest depth
      rw [strokesFrom, List.filterMap_append, filterMap_strokes node depth, hrest]
      rfl

end

/-- The classes that the strokes declare are those that their elements declare. -/
theorem filterMap_classAlias (strokes : List Stroke) :
    strokes.filterMap Stroke.classAlias? =
      (strokes.filterMap Stroke.element?).flatMap fun found => anatomy.declares found.2 := by
  induction strokes with
  | nil => rfl
  | cons stroke rest ih =>
      rw [List.filterMap_cons, List.filterMap_cons]
      cases stroke with
      | closing depth => exact ih
      | element depth node =>
          cases node with
          | «class» c => exact congrArg (c.id :: ·) ih
          | _ => exact ih

theorem classAliases_strokesFrom (nodes : List Node) :
    (strokesFrom 0 nodes).filterMap Stroke.classAlias? = anatomy.declared nodes := by
  rw [filterMap_classAlias, filterMap_strokesFrom]
  rfl

end Walk

section Names

variable {a : Alias} {numbered : Nat} {strokes : List Stroke} {name : String}

theorem name_generated_note (number : Nat) :
    (Alias.generated "n" number).name = floatingNoteName number := by
  rw [← String.toList_inj]
  simp [Alias.generated, floatingNoteName, generatedMark]

/-- The stems of classes and notes differ, and a caller cannot give either. -/
theorem IsClassAlias.name_ne_floatingNoteName (h : IsClassAlias a) (number : Nat) :
    a.name ≠ floatingNoteName number := by
  rw [← name_generated_note]
  intro hname
  obtain rfl := Alias.ext hname
  obtain ⟨text, htext⟩ | ⟨index, hindex⟩ := h
  · exact Alias.parse_ne_generated text "n" number htext
  · have hchars := congrArg (fun b : Alias => b.name.toList) hindex
    simp [Alias.toList_generated] at hchars

theorem floatingNoteName_inj {m n : Nat} (h : floatingNoteName m = floatingNoteName n) : m = n := by
  rw [← name_generated_note, ← name_generated_note] at h
  exact Alias.index_eq_of_generated_eq (Alias.ext h)

/-- A stroke declares a class, writes the next floating note, or introduces nothing. -/
theorem Stroke.name?_cases (stroke : Stroke) (numbered : Nat) :
    (∃ a, stroke.classAlias? = some a ∧ stroke.name? numbered = some a.name ∧
        floating [stroke] = 0) ∨
      (stroke.classAlias? = none ∧
        stroke.name? numbered = some (floatingNoteName (numbered + 1)) ∧ floating [stroke] = 1) ∨
      (stroke.classAlias? = none ∧ stroke.name? numbered = none ∧ floating [stroke] = 0) := by
  cases stroke with
  | closing depth => exact .inr (.inr ⟨rfl, rfl, rfl⟩)
  | element depth node =>
      cases node with
      | «class» c => exact .inl ⟨c.id, rfl, rfl, rfl⟩
      | floatingNote text color => exact .inr (.inl ⟨rfl, rfl, rfl⟩)
      | _ => exact .inr (.inr ⟨rfl, rfl, rfl⟩)

/-- A name is introduced by a class, or by a note with a greater number than all notes
before. -/
theorem of_mem_introduced (h : name ∈ introduced numbered strokes) :
    (∃ a ∈ strokes.filterMap Stroke.classAlias?, name = a.name) ∨
      ∃ number > numbered, name = floatingNoteName number := by
  induction strokes generalizing numbered with
  | nil => cases h
  | cons stroke rest ih =>
      rw [introduced_cons] at h
      obtain hown | hrest := List.mem_append.mp h
      · obtain ⟨a, ha, hname, _⟩ | ⟨_, hname, _⟩ | ⟨_, hname, _⟩ := stroke.name?_cases numbered
        · rw [hname] at hown
          exact .inl ⟨a, by simp [ha], by simpa using hown⟩
        · rw [hname] at hown
          exact .inr ⟨numbered + 1, Nat.lt_succ_self _, by simpa using hown⟩
        · rw [hname] at hown
          cases hown
      · obtain ⟨a, ha, rfl⟩ | ⟨number, hnumber, rfl⟩ := ih hrest
        · obtain ⟨later, hlater, ha⟩ := List.mem_filterMap.mp ha
          exact .inl ⟨a, List.mem_filterMap.mpr ⟨later, List.mem_cons_of_mem _ hlater, ha⟩, rfl⟩
        · exact .inr ⟨number, by omega, rfl⟩

/-- No name is introduced twice where no class is declared twice. -/
theorem nodup_introduced
    (hmade : ∀ a ∈ strokes.filterMap Stroke.classAlias?, IsClassAlias a)
    (hdistinct : (strokes.filterMap Stroke.classAlias?).Nodup) :
    (introduced numbered strokes).Nodup := by
  induction strokes generalizing numbered with
  | nil => exact List.nodup_nil
  | cons stroke rest ih =>
      -- the name of the first stroke is compared with all that can be introduced behind it
      rw [introduced_cons]
      obtain ⟨c, hclass, hname, hnote⟩ | ⟨hclass, hname, hnote⟩ | ⟨hclass, hname, hnote⟩ :=
        stroke.name?_cases numbered
      · rw [List.filterMap_cons_some hclass] at hmade hdistinct
        obtain ⟨hc, hmade⟩ := List.forall_mem_cons.mp hmade
        obtain ⟨hnew, hdistinct⟩ := List.nodup_cons.mp hdistinct
        rw [hname]
        refine List.nodup_cons.mpr ⟨fun hmem => ?_, ih hmade hdistinct⟩
        obtain ⟨a, ha, hsame⟩ | ⟨number, _, hsame⟩ := of_mem_introduced hmem
        · exact hnew (Alias.ext hsame ▸ ha)
        · exact hc.name_ne_floatingNoteName number hsame
      · rw [List.filterMap_cons_none hclass] at hmade hdistinct
        rw [hname, hnote]
        refine List.nodup_cons.mpr ⟨fun hmem => ?_, ih hmade hdistinct⟩
        obtain ⟨a, ha, hsame⟩ | ⟨number, hnumber, hsame⟩ := of_mem_introduced hmem
        · exact (hmade a ha).name_ne_floatingNoteName _ hsame.symm
        · -- the notes behind this one have greater numbers
          exact absurd (floatingNoteName_inj hsame) (Nat.ne_of_lt hnumber)
      · rw [List.filterMap_cons_none hclass] at hmade hdistinct
        rw [hname]
        exact ih hmade hdistinct

end Names

section Words

theorem EndsName.append {back more : String} (h : EndsName back) (hmore : EndsName more) :
    EndsName (back ++ more) := by
  unfold EndsName at h hmore ⊢
  rw [String.toList_append]
  cases hback : back.toList with
  | nil => exact hmore
  | cons first rest => simpa [hback] using h

/-- A text that begins with a blank or with a bracket ends a name, whatever follows. -/
theorem endsName_of_front
    {front : String}
    {first : Char}
    (hfront : front.toList = [first])
    (h : isAliasChar first = false)
    (rest : String) :
    EndsName (front ++ rest) := by
  intro c hc
  rw [String.toList_append, hfront] at hc
  cases hc
  exact h

theorem endsName_space (rest : String) : EndsName (" " ++ rest) :=
  endsName_of_front rfl (by decide) rest

theorem endsName_colorSuffix (color : Option Color) : EndsName (colorSuffix color) := by
  cases color with
  | none => exact fun _ h => by cases h
  | some color => exact endsName_space color.display

theorem endsName_stereotypeSuffix (stereotype : Option String) :
    EndsName (stereotypeSuffix stereotype) := by
  cases stereotype with
  | none => exact fun _ h => by cases h
  | some stereotype =>
      have hspace : stereotypeSuffix (some stereotype) =
          " " ++ ("<<" ++ escape .stereotype stereotype ++ ">>") := by
        simp [stereotypeSuffix, ← String.append_assoc]
      exact hspace ▸ endsName_space _

/-- What stands in front of the alias in the declaration of a class, without the blank
between. -/
def Class.front (c : Class) : String :=
  c.kind.keyword ++
    match c.display with
    | none => ""
    | some display => " \"" ++ escape .quoted display ++ "\" as"

/-- What stands behind the alias in the declaration of a class. -/
def Class.back (c : Class) : String :=
  (match c.generic with
    | none => ""
    | some generic => "<" ++ (escape .stereotype generic ++ ">")) ++
    stereotypeSuffix c.stereotype ++ colorSuffix c.color

theorem Class.line_eq (c : Class) : c.line = c.front ++ " " ++ c.id.name ++ c.back := by
  rw [← String.toList_inj]
  unfold Class.line Class.front Class.back
  cases c.display <;> cases c.generic <;> simp

theorem Class.endsName_back (c : Class) : EndsName c.back := by
  refine EndsName.append (EndsName.append ?_ (endsName_stereotypeSuffix c.stereotype))
    (endsName_colorSuffix c.color)
  cases c.generic with
  | none => exact fun _ h => by cases h
  | some generic => exact endsName_of_front rfl (by decide) _

/-- A class is introduced where it is declared. -/
theorem introduces_class (depth : Nat) (c : Class) : Introduces (c.lines depth) c.id.name := by
  unfold Class.lines
  split
  · exact ⟨depth, c.front, c.back, [], by rw [c.line_eq], c.endsName_back⟩
  · have hopened : c.line ++ " \x7b" = c.front ++ " " ++ c.id.name ++ (c.back ++ " \x7b") := by
      rw [c.line_eq, String.append_assoc]
    rw [hopened]
    exact ⟨depth, c.front, _, _, rfl, c.endsName_back.append (endsName_space "\x7b")⟩

/-- A note that is attached to nothing introduces its name. -/
theorem introduces_floatingNote (depth number : Nat) (text : String) (color : Option Color) :
    Introduces (floatingNoteLines depth number text color) (floatingNoteName number) := by
  unfold floatingNoteLines
  split
  · exact ⟨depth, "note as", colorSuffix color, _, rfl, endsName_colorSuffix color⟩
  · refine ⟨depth, "note \"" ++ escape .quoted text ++ "\" as", colorSuffix color, [], ?_,
      endsName_colorSuffix color⟩
    simp [String.append_assoc]

end Words

section Trees

variable {nodes : List Node} {before after : List Stroke} {stroke : Stroke}

/-- A stroke is written between those before it and those after it, and the number of the
floating notes before it is all that its lines depend on. -/
theorem linesOfStrokes_of_split (h : strokesFrom 0 nodes = before ++ stroke :: after) :
    linesOfStrokes 0 (strokesFrom 0 nodes) =
      linesOfStrokes 0 before ++ stroke.lines (floating before) ++
        linesOfStrokes (floating before + floating [stroke]) after := by
  rw [h, linesOfStrokes_append, linesOfStrokes_cons, Nat.zero_add, List.append_assoc]

/-- The name of a stroke is introduced by its lines. -/
theorem Stroke.introduces {numbered : Nat} {name : String} (h : stroke.name? numbered = some name) :
    Introduces (stroke.lines numbered) name := by
  cases stroke with
  | closing depth => cases h
  | element depth node =>
      cases node with
      | «class» c => exact Option.some.inj h ▸ introduces_class depth c
      | floatingNote text color =>
          exact Option.some.inj h ▸ introduces_floatingNote depth (numbered + 1) text color
      | _ => cases h

/-- A tree that is written is consistent, and so no class is declared twice in it. -/
theorem nodup_declared_of_render
    {name : Option String}
    {settings : Settings}
    {o : Options}
    {text : String}
    (h : Diagram.render { kind := .class, name, settings, nodes } o = .ok text) :
    (anatomy.declared nodes).Nodup := by
  unfold Diagram.render at h
  obtain ⟨⟨⟩, hcheck, -⟩ := map_eq_ok_iff.mp h
  exact (charts.consistent_iff.mp ((Kind.check_eq_ok_iff .class nodes).mp hcheck)).distinct

/-- The text of a class diagram is written stroke by stroke, in the order of the document.
Classes and floating notes introduce names; the `k`-th floating note has the name with the
number `k`, however deep it lies; and no name is introduced twice. -/
theorem introduces_distinct_names
    {name : Option String}
    {settings : Settings}
    {o : Options}
    {text : String}
    (hmade : ∀ a ∈ anatomy.declared nodes, IsClassAlias a)
    (h : Diagram.render { kind := .class, name, settings, nodes } o = .ok text) :
    text = layout o
        ((if o.wrap then [Diagram.opening { kind := .class, name, settings, nodes }] else []) ++
          settings.preamble ++ linesOfStrokes 0 (strokesFrom 0 nodes) ++ settings.epilogue ++
          envelopeEnd o) ∧
      (strokesFrom 0 nodes).filterMap Stroke.element? = anatomy.occurrences nodes ∧
      (∀ before stroke after, strokesFrom 0 nodes = before ++ stroke :: after →
        linesOfStrokes 0 (strokesFrom 0 nodes) =
            linesOfStrokes 0 before ++ stroke.lines (floating before) ++
              linesOfStrokes (floating before + floating [stroke]) after ∧
          ∀ word ∈ stroke.name? (floating before),
            Introduces (stroke.lines (floating before)) word) ∧
      (∀ before depth note color after,
        strokesFrom 0 nodes = before ++ .element depth (.floatingNote note color) :: after →
        linesOfStrokes 0 (strokesFrom 0 nodes) =
            linesOfStrokes 0 before ++ floatingNoteLines depth (floating before + 1) note color ++
              linesOfStrokes (floating before + 1) after ∧
          Introduces (floatingNoteLines depth (floating before + 1) note color)
            ("__n" ++ toString (floating before + 1))) ∧
      (introduced 0 (strokesFrom 0 nodes)).Nodup := by
  refine ⟨?_, filterMap_strokesFrom nodes 0, fun before stroke after hsplit =>
    ⟨linesOfStrokes_of_split hsplit, fun word hword => Stroke.introduces hword⟩,
    fun before depth note color after hsplit =>
      ⟨linesOfStrokes_of_split hsplit, introduces_floatingNote depth _ note color⟩, ?_⟩
  · rw [Diagram.eq_layout_of_render h, ← linesFrom_eq_linesOfStrokes]
    unfold Diagram.wrapped envelopeEnd
    cases o.wrap <;> simp [Diagram.lines, linesOf]
  · rw [← classAliases_strokesFrom] at hmade
    refine nodup_introduced hmade ?_
    rw [classAliases_strokesFrom]
    exact nodup_declared_of_render h

/-- Notes and classes inside and outside of a package; one class has a generated alias. -/
def sketch : List Node :=
  [.floatingNote "draft" none,
   .package { name := "core" }
    [.class { id := ⟨"Invoice", .inl rfl⟩ },
     .floatingNote "two\nlines" none,
     .class { id := Alias.generated "c" 1, display := some "invoice line" }],
   .floatingNote "later" none]

theorem introduces_distinct_names_of_sketch :
    (∀ a ∈ anatomy.declared sketch, IsClassAlias a) ∧
      (∃ text, Diagram.render { kind := .class, nodes := sketch } {} = .ok text) ∧
      introduced 0 (strokesFrom 0 sketch) = ["__n1", "Invoice", "__n2", "__c1", "__n3"] ∧
      (introduced 0 (strokesFrom 0 sketch)).Nodup := by
  have hclasses : anatomy.declared sketch = [⟨"Invoice", .inl rfl⟩, Alias.generated "c" 1] :=
    (classAliases_strokesFrom sketch).symm
  have hmade : ∀ a ∈ anatomy.declared sketch, IsClassAlias a := by
    rw [hclasses]
    exact List.forall_mem_cons.mpr ⟨.inl ⟨"Invoice", rfl⟩,
      List.forall_mem_singleton.mpr (.inr ⟨1, rfl⟩)⟩
  have hrender := Diagram.render_of_check
    (d := { kind := .class, nodes := sketch }) (o := {}) rfl
  exact ⟨hmade, ⟨_, hrender⟩, by decide, (introduces_distinct_names hmade hrender).2.2.2.2⟩

end Trees

end UmlText.ClassDiagram
