import UmlText.Proofs.Activity.OneLine
import UmlText.Proofs.ClassDiagram.OneLine
import UmlText.Proofs.Envelopes
import UmlText.Proofs.Sequence.OneLine
import UmlText.Proofs.Skeletons
import UmlText.Proofs.StateChart.OneLine

/-!
# How many lines a diagram has

No text of a caller can add a line to a diagram or take one away, except by the line breaks
in the texts of notes and of the legend.  A text is either escaped, or it was checked to fit
on one line when it was given, or it is an alias, a color or a number.  So all contents fit
on one line, and the text has as many line breaks as there are lines; and that many lines
can be counted in the skeleton of the diagram, which holds no texts.
-/

namespace UmlText

section Settings

/-- What is left of the settings of a diagram without their texts. -/
structure SettingsSkeleton where
  title : Bool
  header : Bool
  footer : Bool
  caption : Bool
  theme : Bool
  inclusions : Nat
  skinparams : Nat
  /-- How many line breaks there are in the legend, if there is one. -/
  legend : Option Nat
  deriving DecidableEq, Repr

/-- How many lines the settings have: one for each text, but as many for a legend as it has
lines, with a line in front of it and one behind it. -/
def SettingsSkeleton.lineCount (s : SettingsSkeleton) : Nat :=
  s.title.toNat + s.header.toNat + s.footer.toNat + s.caption.toNat + s.theme.toNat +
    s.inclusions + s.skinparams + (s.legend.elim 0 fun breaks => breaks + 3)

namespace Settings

/-- The skeleton of the settings. -/
def skeleton (s : Settings) : SettingsSkeleton where
  title := s.title.isSome
  header := s.header.isSome
  footer := s.footer.isSome
  caption := s.caption.isSome
  theme := s.theme.isSome
  inclusions := s.inclusions.length
  skinparams := s.skinparams.length
  legend := s.legend.map lineBreaks

/-- The settings have as many lines as their skeleton says. -/
theorem length_lines (s : Settings) :
    s.preamble.length + s.epilogue.length = s.skeleton.lineCount := by
  have hheading : ∀ (keyword : String) (text : Option String),
      (headingLines keyword text).length = text.isSome.toNat := by
    intro keyword text
    cases text <;> rfl
  have htheme : s.theme.toList.length = s.theme.isSome.toNat := by
    cases s.theme <;> rfl
  have hlegend : s.epilogue.length = (s.legend.map lineBreaks).elim 0 fun breaks => breaks + 3 := by
    unfold epilogue
    cases s.legend with
    | none => rfl
    | some text => exact length_enclosedLines 0
  simp only [preamble, skeleton, SettingsSkeleton.lineCount, List.length_append, List.length_map,
    hheading, htheme, hlegend]
  omega

end Settings

end Settings

section Diagrams

/-- The skeletons of the elements of a list, for each kind of diagram. -/
def Kind.skeletonsOf : (kind : Kind) → List kind.dialect.Node → List Skeleton
  | .activity => Activity.skeletonsOf
  | .sequence => Sequence.skeletonsOf
  | .state => StateChart.skeletonsOf
  | .class => ClassDiagram.skeletonsOf

theorem Kind.length_lines (kind : Kind) (nodes : List kind.dialect.Node) :
    (kind.dialect.lines nodes).length = lineCountOf (kind.skeletonsOf nodes) := by
  cases kind with
  | activity => exact Activity.length_linesOf nodes 0
  | sequence => exact Sequence.length_linesOf nodes 0
  | state => exact StateChart.length_linesOf nodes 0
  | «class» => exact ClassDiagram.length_linesFrom nodes 0 0

theorem Kind.allOneLine_of_authored
    (kind : Kind)
    {nodes : List kind.dialect.Node}
    (h : kind.dialect.Authored nodes) :
    AllOneLine (kind.dialect.lines nodes) := by
  cases kind with
  | activity => exact Activity.allOneLine_of_authored h
  | sequence => exact Sequence.allOneLine_of_authored h
  | state => exact StateChart.allOneLine_of_authored h
  | «class» => exact ClassDiagram.allOneLine_of_authored h

/-- What is left of a diagram without its texts. -/
structure DiagramSkeleton where
  settings : SettingsSkeleton
  nodes : List Skeleton

/-- How many lines a diagram has, with or without its envelope. -/
def DiagramSkeleton.lineCount (wrap : Bool) (d : DiagramSkeleton) : Nat :=
  (if wrap then 2 else 0) + d.settings.lineCount + lineCountOf d.nodes

namespace Diagram

/-- The skeleton of a diagram. -/
def skeleton (d : Diagram) : DiagramSkeleton where
  settings := d.settings.skeleton
  nodes := d.kind.skeletonsOf d.nodes

/-- A diagram has as many lines as its skeleton says. -/
theorem length_wrapped (d : Diagram) (o : Options) :
    (d.wrapped o).length = d.skeleton.lineCount o.wrap := by
  have hnodes := d.kind.length_lines d.nodes
  have hsettings := d.settings.length_lines
  unfold wrapped lines DiagramSkeleton.lineCount skeleton
  cases o.wrap with
  | false =>
      simp only [Bool.false_eq_true, if_false, List.length_append, hnodes]
      omega
  | true =>
      simp only [if_true, List.length_append, List.length_cons, List.length_nil, hnodes]
      omega

end Diagram

variable {kind : Kind} {draft : Draft kind} {diagram : Diagram}

/-- A draft is new when it is empty, or when it is empty with a name that was accepted. -/
inductive Draft.IsNew : Draft kind → Prop where
  | unnamed : Draft.IsNew {}
  | named {name : String} {draft : Draft kind} : Draft.named kind name = .ok draft → draft.IsNew

/-- The draft with its settings given and its calls made. -/
def Draft.authored
    (draft : Draft kind)
    (given : List Setting)
    (program : List (Authoring kind.dialect)) : Draft kind where
  name := draft.name
  settings := (draft.settings.setAll given).2
  engine := (Program.runAll kind.dialect.authoring { engine := draft.engine } program).after.engine

theorem Draft.IsNew.eq (h : draft.IsNew) :
    draft = { name := draft.name } ∧ ∀ name ∈ draft.name, FitsOneLine name := by
  cases h with
  | unnamed => exact ⟨rfl, by simp⟩
  | named h =>
      unfold Draft.named at h
      cases hcheck : singleLine "diagram name" _ with
      | error what =>
          rw [hcheck] at h
          cases h
      | ok kept =>
          rw [hcheck] at h
          cases h
          obtain ⟨_, hfits, rfl⟩ := singleLine_eq_ok_iff.mp hcheck
          refine ⟨rfl, ?_⟩
          rintro _ ⟨⟩
          exact hfits

theorem Draft.exists_of_finish (h : draft.finish.1 = .ok diagram) :
    ∃ nodes, (Engine.finish.run draft.engine).1 = .ok nodes ∧
      diagram = { kind, name := draft.name, settings := draft.settings, nodes } := by
  unfold Draft.finish at h
  rcases hrun : Engine.finish.run draft.engine with ⟨result | nodes, engine⟩
  · rw [hrun] at h
    cases h
  · rw [hrun] at h
    cases h
    exact ⟨nodes, rfl, rfl⟩

/-- A diagram that was built by calls can be written, without a carriage return, and with as
many line breaks as its skeleton says, whatever the texts in it are. -/
theorem Diagram.lineBreaks_of_finish
    (kind : Kind)
    (draft : Draft kind)
    (given : List Setting)
    (program : List (Authoring kind.dialect))
    (diagram : Diagram)
    (o : Options)
    (hnew : draft.IsNew)
    (hfinish : (draft.authored given program).finish.1 = .ok diagram)
    (htrailing : o.trailingNewline = true) :
    ∃ text, diagram.render o = .ok text ∧ '\r' ∉ text.toList ∧
      text.toList.count '\n' = diagram.skeleton.lineCount o.wrap := by
  obtain ⟨hdraft, hname⟩ := hnew.eq
  obtain ⟨nodes, hnodes, rfl⟩ := Draft.exists_of_finish hfinish
  have hauthored : kind.dialect.Authored nodes := by
    refine ⟨program, ?_⟩
    rw [hdraft] at hnodes
    exact hnodes
  have hsettings : ((draft.settings.setAll given).2).OneLine := by
    rw [hdraft]
    exact Settings.oneLine_new.setAll
  refine ⟨_, Diagram.render_of_check (kind.check_of_authored hauthored), ?_⟩
  rw [← Diagram.length_wrapped]
  exact lineBreaks_of_layout
    (allOneLine_wrapped hname hsettings (kind.allOneLine_of_authored hauthored)) htrailing

/-- Texts with line breaks wherever a text can be given; that of the theme is refused. -/
def brokenSettings : List Setting :=
  [.title "one\ntwo", .theme "one\ntwo", .legend "one\ntwo"]

/-- A message and a note with line breaks in their texts. -/
def brokenTexts : List (Authoring Sequence.dialect) :=
  [.call (.ok (Sequence.Call.participant { name := "a" })) false,
   .call (.ok (Sequence.Call.message
    { source := some "a", target := none, text := some "one\r\ntwo" })) false,
   .call (.ok (Sequence.Call.note { place := .across, text := "one\ntwo" })) false]

theorem Diagram.lineBreaks_of_finish_of_brokenTexts :
    ∃ draft : Draft .sequence, Draft.named .sequence "calls" = .ok draft ∧
      ∃ diagram, (draft.authored brokenSettings brokenTexts).finish.1 = .ok diagram ∧
        ∃ text, diagram.render {} = .ok text ∧ '\r' ∉ text.toList ∧
          text.toList.count '\n' = 13 := by
  have hnamed : Draft.named .sequence "calls" = .ok { name := some "calls" } := by
    rfl
  refine ⟨_, hnamed, _, rfl, ?_⟩
  exact Diagram.lineBreaks_of_finish .sequence { name := some "calls" } brokenSettings brokenTexts
    _ {} (.named hnamed) rfl rfl

end Diagrams

end UmlText
