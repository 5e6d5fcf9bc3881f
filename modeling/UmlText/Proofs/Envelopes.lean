import UmlText.Diagram
import UmlText.Proofs.Checks
import UmlText.Proofs.Text.Laid

/-!
# What stands around a tree

A diagram is written as its tree with the lines of its settings around it, in an envelope if
there is to be one.  The settings that are written as they are given were checked when they
were given, so these lines fit on one line each if the lines of the tree do.

A tree that is written alone, without a name and settings, has nothing around its lines but
the envelope.  So two trees with one text have the same written lines, as long as every
content fits on one line and the first one is visible.
-/

namespace UmlText

section Settings

namespace Settings

/-- The settings that are written as they are fit on one line each. -/
structure OneLine (s : Settings) : Prop where
  theme : ∀ name ∈ s.theme, FitsOneLine name
  inclusions : ∀ target ∈ s.inclusions, FitsOneLine target
  skinparams : ∀ param ∈ s.skinparams, FitsOneLine param.1 ∧ FitsOneLine param.2

variable {s s' : Settings}

theorem oneLine_new : OneLine {} :=
  ⟨by simp, by simp, by simp⟩

theorem fitsOneLine_of_checkKey {key kept : String} (h : checkKey key = .ok kept) :
    FitsOneLine kept := by
  simp only [checkKey, bind_eq_ok_iff, singleLine_eq_ok_iff] at h
  obtain ⟨_, ⟨_, hfits, rfl⟩, h⟩ := h
  split at h
  · cases h
  · cases h
    exact hfits

/-- A setting that is accepted leaves the others as they are, and fits on one line if it is
written as it is. -/
theorem OneLine.set {setting : Setting} (h : s.OneLine) (hset : s.set setting = .ok s') :
    s'.OneLine := by
  cases setting with
  | title text | header text | footer text | caption text | legend text =>
      simp only [Settings.set, bind_eq_ok_iff, pure_eq_ok_iff] at hset
      obtain ⟨_, _, rfl⟩ := hset
      exact ⟨h.theme, h.inclusions, h.skinparams⟩
  | theme name =>
      simp only [Settings.set, bind_eq_ok_iff, pure_eq_ok_iff, singleLine_eq_ok_iff] at hset
      obtain ⟨_, ⟨_, hfits, rfl⟩, rfl⟩ := hset
      refine ⟨?_, h.inclusions, h.skinparams⟩
      rintro _ ⟨⟩
      exact hfits
  | inclusion target =>
      simp only [Settings.set, bind_eq_ok_iff, pure_eq_ok_iff, singleLine_eq_ok_iff] at hset
      obtain ⟨_, ⟨_, hfits, rfl⟩, rfl⟩ := hset
      refine ⟨h.theme, ?_, h.skinparams⟩
      exact List.forall_mem_append.mpr ⟨h.inclusions, List.forall_mem_singleton.mpr hfits⟩
  | skinparam key value =>
      simp only [Settings.set, bind_eq_ok_iff, pure_eq_ok_iff, singleLine_eq_ok_iff] at hset
      obtain ⟨kept, hkey, _, ⟨_, hvalue, rfl⟩, rfl⟩ := hset
      refine ⟨h.theme, h.inclusions, ?_⟩
      exact List.forall_mem_append.mpr
        ⟨h.skinparams, List.forall_mem_singleton.mpr ⟨fitsOneLine_of_checkKey hkey, hvalue⟩⟩

theorem OneLine.setAll {given : List Setting} (h : s.OneLine) : (s.setAll given).2.OneLine := by
  induction given generalizing s with
  | nil => exact h
  | cons setting rest ih =>
      unfold Settings.setAll
      cases hset : s.set setting with
      | ok s' => exact ih (h.set hset)
      | error what => exact ih h

theorem allOneLine_headingLines
    {keyword : String}
    (hkeyword : FitsOneLine keyword)
    (text : Option String) :
    AllOneLine (headingLines keyword text) := by
  cases text with
  | none => exact allOneLine_nil
  | some text =>
      simp only [headingLines, allOneLine_cons, fitsOneLine_append]
      exact ⟨⟨⟨hkeyword, by decide⟩, fitsOneLine_escape rfl text⟩, allOneLine_nil⟩

theorem OneLine.preamble (h : s.OneLine) : AllOneLine s.preamble := by
  simp only [Settings.preamble, allOneLine_append]
  refine ⟨⟨⟨⟨⟨⟨?theme, ?inclusions⟩, ?skinparams⟩, ?_⟩, ?_⟩, ?_⟩, ?_⟩
  case theme =>
    intro l hl
    obtain ⟨name, hname, rfl⟩ := List.mem_map.mp hl
    exact fitsOneLine_append.mpr ⟨by decide, h.theme name (Option.mem_toList.mp hname)⟩
  case inclusions =>
    intro l hl
    obtain ⟨target, htarget, rfl⟩ := List.mem_map.mp hl
    exact fitsOneLine_append.mpr ⟨by decide, h.inclusions target htarget⟩
  case skinparams =>
    intro l hl
    obtain ⟨⟨key, value⟩, hparam, rfl⟩ := List.mem_map.mp hl
    obtain ⟨hkey, hvalue⟩ := h.skinparams (key, value) hparam
    simp only [fitsOneLine_append]
    exact ⟨⟨⟨by decide, hkey⟩, by decide⟩, hvalue⟩
  all_goals exact allOneLine_headingLines (by decide) _

theorem allOneLine_epilogue (s : Settings) : AllOneLine s.epilogue := by
  unfold epilogue
  cases s.legend with
  | none => exact allOneLine_nil
  | some text => exact allOneLine_enclosedLines (by decide) (by decide) 0 text

end Settings

end Settings

/-- The lines of the envelope behind the elements. -/
def envelopeEnd (o : Options) : List Line :=
  if o.wrap then [Diagram.closing] else []

section Envelope

variable {o : Options}

/-- The lines of a diagram fit on one line each when its name, its settings and the lines of
its elements do. -/
theorem allOneLine_wrapped
    {d : Diagram}
    (hname : ∀ name ∈ d.name, FitsOneLine name)
    (hsettings : d.settings.OneLine)
    (hlines : AllOneLine (d.kind.dialect.lines d.nodes)) :
    AllOneLine (d.wrapped o) := by
  have hopening : FitsOneLine d.opening.content := by
    unfold Diagram.opening
    cases hgiven : d.name with
    | none => decide
    | some name => exact fitsOneLine_append.mpr ⟨by decide, hname name hgiven⟩
  have hclosing : FitsOneLine Diagram.closing.content := by
    decide
  have htree : AllOneLine d.lines := by
    simp only [Diagram.lines, allOneLine_append]
    exact ⟨⟨hsettings.preamble, hlines⟩, d.settings.allOneLine_epilogue⟩
  unfold Diagram.wrapped
  split
  · simp only [allOneLine_append, allOneLine_cons]
    exact ⟨⟨hopening, htree⟩, hclosing, allOneLine_nil⟩
  · exact htree

end Envelope

section Trees

variable {kind : Kind} {o : Options} {text : String}

theorem Diagram.render_of_check {d : Diagram} (h : d.kind.dialect.check d.nodes = .ok ()) :
    d.render o = .ok (layout o (d.wrapped o)) := by
  unfold render
  rw [h]
  rfl

theorem Diagram.eq_layout_of_render {d : Diagram} (h : d.render o = .ok text) :
    text = layout o (d.wrapped o) := by
  unfold render at h
  cases hcheck : d.kind.dialect.check d.nodes with
  | error what =>
      rw [hcheck] at h
      cases h
  | ok _ =>
      rw [hcheck] at h
      cases h
      rfl

/-- The lines of a tree that is written alone. -/
theorem Diagram.wrapped_tree (nodes : List kind.dialect.Node) (o : Options) :
    Diagram.wrapped { kind, nodes } o =
      (if o.wrap then [⟨0, "@startuml"⟩] else []) ++ kind.dialect.lines nodes ++ envelopeEnd o := by
  unfold Diagram.wrapped envelopeEnd
  cases o.wrap <;> simp [Diagram.lines, Settings.preamble, Settings.headingLines, Settings.epilogue,
    Diagram.opening]

theorem visible_wrapped
    {nodes : List kind.dialect.Node}
    (hvisible : ∀ l ∈ (kind.dialect.lines nodes).head?, l.content ≠ "") :
    ∀ l ∈ (Diagram.wrapped { kind, nodes } o).head?, l.content ≠ "" := by
  rw [Diagram.wrapped_tree]
  unfold envelopeEnd
  cases o.wrap with
  | false => simpa using hvisible
  | true =>
      intro l hl
      cases hl
      decide

/-- Trees with one text are written alike. -/
theorem Diagram.written_eq_of_render_eq
    (kind : Kind)
    {first second : List kind.dialect.Node}
    (hlines : AllOneLine (kind.dialect.lines first))
    (hlines' : AllOneLine (kind.dialect.lines second))
    (hvisible : ∀ l ∈ (kind.dialect.lines first).head?, l.content ≠ "")
    (hvisible' : ∀ l ∈ (kind.dialect.lines second).head?, l.content ≠ "")
    (h : Diagram.render { kind, nodes := first } o = .ok text)
    (h' : Diagram.render { kind, nodes := second } o = .ok text) :
    written o.indent (kind.dialect.lines first) (written o.indent (envelopeEnd o) []) =
      written o.indent (kind.dialect.lines second) (written o.indent (envelopeEnd o) []) := by
  have hone : ∀ nodes : List kind.dialect.Node, AllOneLine (kind.dialect.lines nodes) →
      AllOneLine (Diagram.wrapped { kind, nodes } o) :=
    fun nodes hnodes => allOneLine_wrapped (by simp) Settings.oneLine_new hnodes
  have hlayout := (Diagram.eq_layout_of_render h).symm.trans (Diagram.eq_layout_of_render h')
  have hlaid := laid_eq_of_layout_eq (hone first hlines) (hone second hlines')
    (visible_wrapped hvisible) (visible_wrapped hvisible') hlayout
  rw [Diagram.wrapped_tree, Diagram.wrapped_tree] at hlaid
  simp only [List.map_append, List.append_assoc] at hlaid
  simpa [written] using List.append_cancel_left hlaid

end Trees

end UmlText
