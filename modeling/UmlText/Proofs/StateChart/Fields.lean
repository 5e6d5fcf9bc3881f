import UmlText.Proofs.Text.Cuts
import UmlText.StateChart.Lines

/-!
# What the lines of state charts hold

The declaration of a state, with or without an opening brace behind it, and a transition
determine what they are written from.
-/

namespace UmlText.StateChart

section States

theorem StateKind.stereotype_inj {k k' : StateKind} (h : k.stereotype = k'.stereotype) :
    k = k' := by
  revert h
  revert k'
  cases k <;> intro k' <;> cases k' <;> decide

theorem StateKind.angle_notMem_stereotype (k : StateKind) :
    ∀ stereotype ∈ k.stereotype, '>' ∉ stereotype.toList := by
  cases k <;> simp [stereotype]

/-- What stands on the line of a state behind its alias. -/
def State.tail (s : State) (x : List Char) : List Char :=
  (s.kind.stereotype.elim [] fun stereotype =>
    ' ' :: '<' :: '<' :: (stereotype.toList ++ ['>', '>'])) ++
    ((colorSuffix s.color).toList ++ x)

theorem State.toList_line (s : State) (x : List Char) :
    s.line.toList ++ x =
      "state ".toList ++
        ((s.display.elim [] fun display =>
          '"' :: ((escape .quoted display).toList ++ '"' :: " as ".toList)) ++
        (s.id.name.toList ++ s.tail x)) := by
  obtain ⟨id, display, kind, description, color⟩ := s
  cases display <;> cases kind <;> simp [line, tail, StateKind.stereotype]

/-- The line of a state ends behind its color, or a brace is there. -/
def IsLineEnd (x : List Char) : Prop :=
  x = [] ∨ x = [' ', '\x7b']

theorem head_tail {s : State} {x : List Char} (hx : IsLineEnd x) :
    ∀ c ∈ (s.tail x).head?, c = ' ' := by
  obtain ⟨id, display, kind, description, color⟩ := s
  rcases hx with rfl | rfl <;> cases kind <;> cases color <;>
    simp [State.tail, StateKind.stereotype, toList_colorSuffix]

theorem State.tail_cut
    {s s' : State}
    {x y : List Char}
    (hx : IsLineEnd x)
    (hy : IsLineEnd y)
    (h : s.tail x = s'.tail y) :
    s.kind = s'.kind ∧ s.color = s'.color ∧ x = y := by
  -- a color is not mistaken for a stereotype
  have hcolor : ∀ (color : Option Color) (x : List Char), IsLineEnd x →
      ∀ y, (colorSuffix color).toList ++ x ≠ ' ' :: '<' :: y := by
    rintro color x (rfl | rfl) y <;> cases color <;> simp [toList_colorSuffix, toList_display]
  unfold tail at h
  obtain ⟨hkind, hrest⟩ := optional_cut
    (fun stereotype hmem stereotype' hmem' h => by
      obtain ⟨hword, hrest⟩ := append_cons_cut (s.kind.angle_notMem_stereotype _ hmem)
        (s'.kind.angle_notMem_stereotype _ hmem') (by simpa using h)
      exact ⟨String.toList_inj.mp hword, (List.cons.inj hrest).2⟩)
    (fun stereotype h => hcolor _ x hx _ h) (fun stereotype h => hcolor _ y hy _ h) h
  have hclass : ∀ x, IsLineEnd x → (∀ c ∈ x.head?, isColorChar c = false) ∧ ¬[' ', '#'] <+: x := by
    rintro x (rfl | rfl)
    · simp
    · simp
      decide
  obtain ⟨hcolor, hxy⟩ := colorSuffix_cut (hclass x hx).1 (hclass y hy).1 (hclass x hx).2
    (hclass y hy).2 hrest
  exact ⟨StateKind.stereotype_inj hkind, hcolor, hxy⟩

/-- The declaration of a state is cut off in front of a brace, and determines the state,
except for its description. -/
theorem State.line_cut
    {s s' : State}
    {x y : List Char}
    (hplain : s.id.IsPlain)
    (hplain' : s'.id.IsPlain)
    (hx : IsLineEnd x)
    (hy : IsLineEnd y)
    (h : s.line.toList ++ x = s'.line.toList ++ y) :
    { s with description := [] } = { s' with description := [] } ∧ x = y := by
  rw [toList_line, toList_line] at h
  -- an alias is not mistaken for a quoted name
  have hname : ∀ (a : Alias) (x y : List Char), a.name.toList ++ x ≠ '"' :: y := by
    intro a x y h
    obtain ⟨first, rest, hcons, hfirst⟩ := a.exists_name_eq_cons
    rw [hcons] at h
    obtain ⟨rfl, _⟩ := List.cons.inj h
    revert hfirst
    decide
  obtain ⟨hdisplay, hrest⟩ := optional_cut
    (fun display _ display' _ h => by
      obtain ⟨hdisplay, hrest⟩ := escape_quoted_cut (by simpa using h)
      exact ⟨hdisplay, by simpa using hrest⟩)
    (fun display h => hname _ _ _ h) (fun display h => hname _ _ _ h) (List.append_cancel_left h)
  have hblank : ∀ (s : State) (x : List Char), IsLineEnd x →
      ∀ c ∈ (s.tail x).head?, isAliasChar c = false := by
    intro s x hx c hc
    rw [head_tail hx c hc]
    decide
  obtain ⟨hid, htail⟩ := alias_cut hplain hplain' (hblank s x hx) (hblank s' y hy) hrest
  obtain ⟨hkind, hcolor, hxy⟩ := tail_cut hx hy htail
  obtain ⟨id, display, kind, description, color⟩ := s
  obtain ⟨id', display', kind', description', color'⟩ := s'
  simp_all

end States

section Transitions

theorem direction_inj {d d' : Direction} (h : d.keyword = d'.keyword) : d = d' := by
  cases d <;> cases d' <;> first | rfl | exact absurd h (by decide)

theorem isAlpha_of_mem_direction (d : Direction) : ∀ c ∈ d.keyword.toList, c.isAlpha = true := by
  cases d <;> decide

/-- A direction that may be missing ends where a dash follows. -/
theorem direction_cut
    {d d' : Option Direction}
    {x y : List Char}
    (h : (d.elim [] fun d => d.keyword.toList) ++ '-' :: x =
      (d'.elim [] fun d => d.keyword.toList) ++ '-' :: y) :
    d = d' ∧ x = y := by
  have hhead : ∀ (d : Direction) (x y : List Char), '-' :: x ≠ d.keyword.toList ++ y := by
    intro d x y h
    cases d <;> simp [Direction.keyword] at h
  obtain ⟨hd, hxy⟩ := optional_cut
    (fun d _ d' _ h => by
      obtain ⟨hword, hrest⟩ := append_cut_of_class (isAlpha_of_mem_direction d)
        (isAlpha_of_mem_direction d') (by simp) (by simp) h
      exact ⟨direction_inj (String.toList_inj.mp hword), hrest⟩)
    (fun d h => hhead d _ _ h) (fun d h => hhead d _ _ h) h
  exact ⟨hd, (List.cons.inj hxy).2⟩

/-- No end of a transition is written with a blank. -/
theorem Endpoint.isBlankFree_sign
    {e : Endpoint Alias}
    (hplain : ∀ a ∈ e.states, a.IsPlain) :
    ∀ c ∈ e.sign.toList, decide (c ≠ ' ') = true := by
  cases e with
  | state a =>
      intro c hc
      have hchar := hplain a List.mem_cons_self c hc
      refine decide_eq_true ?_
      rintro rfl
      revert hchar
      decide
  | _ => decide

theorem Endpoint.sign_inj {e e' : Endpoint Alias} (h : e.sign = e'.sign) : e = e' := by
  -- an alias is not mistaken for a mark in brackets
  have hname : ∀ (a : Alias) (rest : List Char), a.name.toList ≠ '[' :: rest := by
    intro a rest h
    obtain ⟨first, others, hcons, hfirst⟩ := a.exists_name_eq_cons
    rw [hcons] at h
    obtain ⟨rfl, _⟩ := List.cons.inj h
    revert hfirst
    decide
  have hchars := congrArg String.toList h
  cases e with
  | state a =>
      cases e' with
      | state a' => rw [Alias.ext h]
      | _ => exact absurd hchars (hname a _)
  | terminal =>
      cases e' with
      | state a' => exact absurd hchars.symm (hname a' _)
      | terminal => rfl
      | _ => exact absurd h (by decide)
  | history =>
      cases e' with
      | state a' => exact absurd hchars.symm (hname a' _)
      | history => rfl
      | _ => exact absurd h (by decide)
  | deepHistory =>
      cases e' with
      | state a' => exact absurd hchars.symm (hname a' _)
      | deepHistory => rfl
      | _ => exact absurd h (by decide)

theorem Endpoint.sign_cut
    {e e' : Endpoint Alias}
    {x y : List Char}
    (hplain : ∀ a ∈ e.states, a.IsPlain)
    (hplain' : ∀ a ∈ e'.states, a.IsPlain)
    (hx : ∀ c ∈ x.head?, c = ' ')
    (hy : ∀ c ∈ y.head?, c = ' ')
    (h : e.sign.toList ++ x = e'.sign.toList ++ y) :
    e = e' ∧ x = y := by
  obtain ⟨hsign, hxy⟩ := append_cut_of_class (isBlankFree_sign hplain) (isBlankFree_sign hplain')
    (by simpa using hx) (by simpa using hy) h
  exact ⟨sign_inj (String.toList_inj.mp hsign), hxy⟩

theorem Transition.toList_line (t : Transition Alias) :
    t.line.toList =
      t.source.sign.toList ++ ' ' :: '-' :: (t.style.text.toList ++
        ((t.direction.elim [] fun d => d.keyword.toList) ++ '-' :: '>' :: ' ' ::
          (t.target.sign.toList ++ (labelled " : " t.label).toList))) := by
  obtain ⟨source, target, label, direction, style⟩ := t
  cases direction <;> simp [line]

theorem Transition.line_inj
    {t t' : Transition Alias}
    (hplain : ∀ a ∈ t.source.states ++ t.target.states, a.IsPlain)
    (hplain' : ∀ a ∈ t'.source.states ++ t'.target.states, a.IsPlain)
    (h : t.line = t'.line) :
    t = t' := by
  obtain ⟨hpsource, hptarget⟩ := List.forall_mem_append.mp hplain
  obtain ⟨hpsource', hptarget'⟩ := List.forall_mem_append.mp hplain'
  have hchars := congrArg String.toList h
  rw [toList_line, toList_line] at hchars
  obtain ⟨hsource, hrest⟩ := Endpoint.sign_cut hpsource hpsource' (by simp) (by simp) hchars
  have hbracket : ∀ (d : Option Direction) (x : List Char),
      ∀ c ∈ ((d.elim [] fun d => d.keyword.toList) ++ '-' :: x).head?, c ≠ '[' := by
    intro d x
    cases d with
    | none => simp
    | some d => cases d <;> simp [Direction.keyword]
  obtain ⟨hstyle, hrest⟩ := linkStyle_cut (hbracket _ _) (hbracket _ _) (by simpa using hrest)
  obtain ⟨hdirection, hrest⟩ := direction_cut hrest
  have hblank : ∀ label : Option String, ∀ c ∈ (labelled " : " label).toList.head?, c = ' ' := by
    intro label
    cases label <;> simp [labelled]
  obtain ⟨htarget, hlabel⟩ := Endpoint.sign_cut hptarget hptarget' (hblank _) (hblank _)
    (by simpa using hrest)
  have hlabel := labelled_cut_end (by decide) hlabel
  cases t
  cases t'
  simp_all

end Transitions

end UmlText.StateChart
