import UmlText.Proofs.Checks
import UmlText.Proofs.Sequence.Reading

/-!
# What the calls of sequence diagrams do

Every call does to the engine what its reading says.  The participants that a call names are
resolved before anything else happens, and so they are declared when the element that
mentions them is appended.
-/

namespace UmlText.Sequence

open UmlText.Action

/-- The open scope of a construct that holds the given items. -/
def Opening.Holds (items : List (Item Node Clause)) : Opening → Scope → Prop
  | .block kind label, scope =>
      (kind.hasSections = true ∨ (Item.split items).2 = []) ∧
        ∃ finished last body, scope = .block kind finished last body ∧
          finished ++ [(last, body)] = (label, (Item.split items).1) :: (Item.split items).2
  | .box title color, scope =>
      (Item.split items).2 = [] ∧
        ∃ ps, scope = .box title color ps ∧ participants? (Item.split items).1 = some ps

/-- How open scopes hold the items of the reading. -/
abbrev realization : Realization reading where
  Applies label scope scope' := scope.startSection label = some (.ok scope')
  Holds opening items scope := opening.Holds items scope

/-- Participants are what sequence diagrams declare. -/
abbrev inventory : Inventory reading where
  kind := participantKind
  item depth
    | .element node => node.survey depth
    | .clause _ => []
  scope depth scope := scope.toNode.survey depth
  level _ := 1

namespace Scope

theorem push_eq_ok_iff
    {scope scope' : Scope}
    {node : Node} :
    scope.push node = .ok scope' ↔
      (∃ kind finished label body, scope = .block kind finished label body ∧
        scope' = .block kind finished label (body ++ [node])) ∨
      ∃ title color ps p, scope = .box title color ps ∧ node = .participant p ∧
        scope' = .box title color (ps ++ [p]) := by
  constructor
  · intro h
    cases scope with
    | block kind finished label body =>
        cases h
        exact .inl ⟨kind, finished, label, body, rfl, rfl⟩
    | box title color ps =>
        cases node with
        | participant p =>
            cases h
            exact .inr ⟨title, color, ps, p, rfl, rfl, rfl⟩
        | _ => cases h
  · rintro (⟨kind, finished, label, body, rfl, rfl⟩ | ⟨title, color, ps, p, rfl, rfl, rfl⟩)
    · rfl
    · rfl

theorem startSection_eq_ok_iff
    {scope scope' : Scope}
    {label : Option String} :
    scope.startSection label = some (.ok scope') ↔
      ∃ kind finished last body, scope = .block kind finished last body ∧
        kind.hasSections = true ∧ scope' = .block kind (finished ++ [(last, body)]) label [] := by
  constructor
  · intro h
    cases scope with
    | block kind finished last body =>
        by_cases hkind : kind.hasSections = true
        · rw [startSection, if_pos hkind] at h
          cases h
          exact ⟨kind, finished, last, body, rfl, hkind, rfl⟩
        · rw [startSection, if_neg hkind] at h
          cases h
    | box title color ps => cases h
  · rintro ⟨kind, finished, last, body, rfl, hkind, rfl⟩
    rw [startSection, if_pos hkind]

end Scope

theorem holds_element
    {opening : Opening}
    {items : List (Item Node Clause)}
    {scope scope' : Scope}
    {node : Node}
    (h : opening.Holds items scope)
    (hpush : scope.push node = .ok scope') :
    opening.Holds (items ++ [.element node]) scope' := by
  cases opening with
  | block kind label =>
      obtain ⟨hsections, finished, last, body, rfl, hjoined⟩ := h
      cases hpush
      refine ⟨?_, finished, last, body ++ [node], rfl, ?_⟩
      · rcases hsections with hkind | hnil
        · exact .inl hkind
        · rw [Item.split_append_element_of_nil node hnil]
          exact .inr rfl
      · rw [Item.split_append_element_cons, ← hjoined, Item.pushLast_append]
  | box title color =>
      obtain ⟨hnil, ps, rfl, hps⟩ := h
      rcases Scope.push_eq_ok_iff.mp hpush with
        ⟨_, _, _, _, hscope, _⟩ | ⟨_, _, _, p, hscope, rfl, rfl⟩
      · cases hscope
      · cases hscope
        unfold Opening.Holds
        rw [Item.split_append_element_of_nil _ hnil]
        refine ⟨rfl, ps ++ [p], rfl, ?_⟩
        rw [participants?_append, hps]
        rfl

theorem holds_clause
    {opening : Opening}
    {items : List (Item Node Clause)}
    {scope scope' : Scope}
    {label : Clause}
    (h : opening.Holds items scope)
    (hstart : scope.startSection label = some (.ok scope')) :
    opening.Holds (items ++ [.clause label]) scope' := by
  obtain ⟨kind, finished, last, body, rfl, hkind, rfl⟩ := Scope.startSection_eq_ok_iff.mp hstart
  cases opening with
  | block kind' first =>
      obtain ⟨_, _, _, _, hscope, hjoined⟩ := h
      cases hscope
      refine ⟨.inl hkind, finished ++ [(last, body)], label, [], rfl, ?_⟩
      rw [Item.split_append_clause, hjoined]
      rfl
  | box title color =>
      obtain ⟨_, _, hscope, _⟩ := h
      cases hscope

/-- A construct that is closed becomes the element it is read as. -/
theorem Opening.Holds.construct
    {opening : Opening}
    {items : List (Item Node Clause)}
    {scope : Scope}
    (h : opening.Holds items scope) :
    reading.construct opening items = some (.element scope.toNode) := by
  cases opening with
  | block kind label =>
      obtain ⟨hsections, finished, last, body, rfl, hjoined⟩ := h
      refine (if_pos hsections).trans ?_
      rw [Scope.toNode, hjoined]
  | box title color =>
      obtain ⟨hnil, ps, rfl, hps⟩ := h
      refine (if_pos hnil).trans ?_
      rw [hps]
      rfl

/-- A construct that is closed becomes the element it is read as, inside another one or not.
-/
theorem faithful : realization.Faithful where
  grow {head items item scope scope'} h hgrows := by
    cases item with
    | element node => exact holds_element h hgrows
    | clause label => exact holds_clause h hgrows
  adopt h hadopt := ⟨_, Opening.Holds.construct h, hadopt⟩
  toNode h hnode := by
    cases hnode
    exact Opening.Holds.construct h

section Calls

variable {c : Call} {e e₁ : Engine grammar}

/-- A call that appends the element it is read as, which mentions declared participants. -/
theorem ends_element
    {node : Node}
    (name : String)
    (mentioned : List Alias)
    (halike : e.Alike e₁)
    (hread : c.read e.registry.generated = some (.element node, e.registry.generated))
    (hsurvey : ∀ depth, node.survey depth = mentions name mentioned)
    (hknown : ∀ a ∈ mentioned, a ∈ e.registry.aliases) :
    (append node).Ends e₁
      (fun _ e' => realization.Performed inventory c e e') (fun _ e' => e.SameTree e') := by
  refine Realization.ends_append_of_reading (z := realization) (v := inventory)
    halike.toSameTree halike.toSameCounts ?_ ?_
  · rw [halike.registry]
    exact hread
  · intro e' hregistry depth
    exact .of_mentions mentioned (hregistry.trans halike.registry) (hsurvey depth) hknown

/-- A call that appends a text and mentions nobody. -/
theorem ends_text
    {node : Node}
    (hread : c.read e.registry.generated = some (.element node, e.registry.generated))
    (hsurvey : ∀ depth, node.survey depth = []) :
    (append node).Ends e
      (fun _ e' => realization.Performed inventory c e e') (fun _ e' => e.SameTree e') :=
  ends_element "" [] ⟨⟨rfl, rfl⟩, ⟨rfl, rfl, rfl⟩, rfl⟩ hread hsurvey (by simp)

theorem ends_resolveEnd (name : Option String) :
    (resolveEnd name).Ends e
      (fun result e' => readEnd name = some result ∧
        (∀ a ∈ result.toList, a ∈ e.registry.aliases) ∧ e' = e)
      (fun _ e' => e' = e) := by
  cases name with
  | none => exact ⟨rfl, by simp, rfl⟩
  | some name =>
      rw [resolveEnd, resolveParticipant, Attempt.ends_bind]
      refine (ends_resolve_of_reading name participantKind).mono ?_ fun _ _ h => h
      rintro a _ ⟨hread, hknown, rfl⟩
      exact ⟨by rw [readEnd, hread]; rfl, by simpa using hknown, rfl⟩

theorem ends_resolveAll (names : List String) :
    (resolveAll names).Ends e
      (fun result e' => names.mapM Alias.ofName? = some result ∧
        (∀ a ∈ result, a ∈ e.registry.aliases) ∧ e' = e)
      (fun _ e' => e' = e) := by
  induction names with
  | nil => exact ⟨rfl, by simp, rfl⟩
  | cons name rest ih =>
      rw [resolveAll, resolveParticipant, Attempt.ends_bind]
      refine (ends_resolve_of_reading name participantKind).mono ?_ fun _ _ h => h
      rintro a _ ⟨hread, hknown, rfl⟩
      rw [Attempt.ends_bind]
      refine ih.mono ?_ fun _ _ h => h
      rintro as _ ⟨hreads, hknowns, rfl⟩
      refine ⟨by simp [List.mapM_cons, hread, hreads], ?_, rfl⟩
      intro b hb
      rcases List.mem_cons.mp hb with rfl | hb
      · exact hknown
      · exact hknowns b hb

theorem ends_resolvePlace (place : NotePlace String) :
    (resolvePlace place).Ends e
      (fun result e' => place.read = some result ∧
        (∀ a ∈ result.participants, a ∈ e.registry.aliases) ∧ e' = e)
      (fun _ e' => e' = e) := by
  cases place with
  | leftOf name =>
      rw [resolvePlace, resolveParticipant, Attempt.ends_bind]
      refine (ends_resolve_of_reading name participantKind).mono ?_ fun _ _ h => h
      rintro a _ ⟨hread, hknown, rfl⟩
      exact ⟨by rw [NotePlace.read, hread]; rfl, by simpa [NotePlace.participants], rfl⟩
  | rightOf name =>
      rw [resolvePlace, resolveParticipant, Attempt.ends_bind]
      refine (ends_resolve_of_reading name participantKind).mono ?_ fun _ _ h => h
      rintro a _ ⟨hread, hknown, rfl⟩
      exact ⟨by rw [NotePlace.read, hread]; rfl, by simpa [NotePlace.participants], rfl⟩
  | covering names =>
      simp only [resolvePlace, Attempt.ends_bind, Attempt.ends_ite, Attempt.ends_throw,
        Attempt.ends_pure]
      refine ⟨fun _ => trivial, fun _ => ?_⟩
      refine (ends_resolveAll names).mono ?_ fun _ _ h => h
      rintro as _ ⟨hreads, hknowns, rfl⟩
      exact ⟨by rw [NotePlace.read, hreads]; rfl, hknowns, rfl⟩
  | across => exact ⟨rfl, by simp [NotePlace.participants], rfl⟩

theorem ends_declareParticipant (p : ParticipantCall) :
    p.declare.Ends e
      (fun q e' => p.read e.registry.generated = some (q, e'.registry.generated) ∧
        Named participantKind "p" p.name p.givenAlias q.id q.display e e')
      (fun _ e' => e.SameTree e') := by
  unfold ParticipantCall.declare
  rw [Attempt.ends_bind, ends_valid]
  simp only [singleLine_eq_ok_iff]
  refine ⟨?_, fun _ _ => ⟨rfl, rfl⟩⟩
  rintro _ ⟨_, _, rfl⟩
  refine ends_chooseAlias_declare (by decide) fun a display e' hnamed => ?_
  refine ⟨?_, hnamed⟩
  rw [ParticipantCall.read, hnamed.naming]
  rfl

theorem ends_message (m : Message String) :
    (Call.perform (.message m)).Ends e
      (fun _ e' => realization.Performed inventory (.message m) e e')
      (fun _ e' => e.SameTree e') := by
  rw [Call.perform, Attempt.ends_bind]
  refine (ends_resolveEnd m.source).mono ?_ fun _ _ h => h ▸ ⟨rfl, rfl⟩
  rintro source _ ⟨hsource, hsourceKnown, rfl⟩
  rw [Attempt.ends_bind]
  refine (ends_resolveEnd m.target).mono ?_ fun _ _ h => h ▸ ⟨rfl, rfl⟩
  rintro target _ ⟨htarget, htargetKnown, rfl⟩
  simp only [Attempt.ends_bind, ends_valid, rememberOpen, ends_remember, Attempt.ends_pure,
    optionally_freeText_eq_ok_iff]
  refine ⟨fun _ _ => ?_, fun _ _ => ⟨rfl, rfl⟩⟩
  refine ⟨?_, fun _ _ => ⟨rfl, rfl⟩⟩
  rintro _ ⟨_, rfl⟩
  refine ends_element "message" (source.toList ++ target.toList)
    ⟨⟨rfl, rfl⟩, ⟨rfl, rfl, rfl⟩, rfl⟩ ?_ (fun _ => rfl) ?_
  · simp [Call.read, Call.item, hsource, htarget]
  · intro a ha
    rcases List.mem_append.mp ha with ha | ha
    · exact hsourceKnown a ha
    · exact htargetKnown a ha

/-- A call that names one declared participant and changes the open activations. -/
theorem ends_named
    {node : Alias → Node}
    {change : Alias → Activations → Activations}
    (name word : String)
    (hread : ∀ a, Alias.ofName? name = some a →
      c.read e.registry.generated = some (.element (node a), e.registry.generated))
    (hsurvey : ∀ a depth, (node a).survey depth = mentions word [a]) :
    (do
      let p ← resolveParticipant name
      rememberOpen (change p)
      append (node p)
      return none : Action grammar (Option Alias)).Ends e
      (fun _ e' => realization.Performed inventory c e e') (fun _ e' => e.SameTree e') := by
  rw [resolveParticipant, Attempt.ends_bind]
  refine (ends_resolve_of_reading name participantKind).mono ?_ fun _ _ h => h ▸ ⟨rfl, rfl⟩
  rintro a _ ⟨ha, hknown, rfl⟩
  simp only [Attempt.ends_bind, rememberOpen, ends_remember, Attempt.ends_pure]
  exact ends_element word [a] ⟨⟨rfl, rfl⟩, ⟨rfl, rfl, rfl⟩, rfl⟩ (hread a ha) (hsurvey a)
    (by simpa using hknown)

/-- A call that introduces a participant as its element. -/
theorem ends_introduction
    {node : Participant → Node}
    (p : ParticipantCall)
    (hread : ∀ q generated, p.read e.registry.generated = some (q, generated) →
      c.read e.registry.generated = some (.element (node q), generated))
    (hsurvey : ∀ q depth, (node q).survey depth = [.declared participantKind q.id]) :
    (do
      let q ← p.declare
      append (node q)
      return some q.id : Action grammar (Option Alias)).Ends e
      (fun _ e' => realization.Performed inventory c e e') (fun _ e' => e.SameTree e') := by
  rw [Attempt.ends_bind]
  refine (ends_declareParticipant p).mono ?_ fun _ _ h => h
  rintro q e₁ ⟨hq, hnamed⟩
  simp only [Attempt.ends_bind, Attempt.ends_pure]
  exact Realization.ends_append_of_reading (z := realization) (v := inventory)
    hnamed.toSameTree hnamed.toSameCounts (hread q _ hq)
    fun e' hregistry depth => hnamed.books hregistry (hsurvey q depth)

theorem ends_reply (text : Option String) :
    (Call.perform (.reply text)).Ends e
      (fun _ e' => realization.Performed inventory (.reply text) e e')
      (fun _ e' => e.SameTree e') := by
  simp only [Call.perform, Attempt.ends_bind, ends_valid, Attempt.ends_get, Attempt.ends_ite,
    ends_misplaced, rememberOpen, ends_remember, Attempt.ends_pure,
    optionally_freeText_eq_ok_iff]
  refine ⟨?_, fun _ _ => ⟨rfl, rfl⟩⟩
  rintro kept ⟨_, rfl⟩
  refine ⟨fun _ => ⟨rfl, rfl⟩, fun _ => ?_⟩
  refine (ends_text (c := .reply kept) rfl fun _ => rfl).mono ?_ fun _ _ h => h
  intro _ after h
  exact h.of_alike ⟨⟨rfl, rfl⟩, ⟨rfl, rfl, rfl⟩, rfl⟩

theorem ends_note (n : Note String) :
    (Call.perform (.note n)).Ends e
      (fun _ e' => realization.Performed inventory (.note n) e e')
      (fun _ e' => e.SameTree e') := by
  rw [Call.perform, Attempt.ends_bind]
  refine (ends_resolvePlace n.place).mono ?_ fun _ _ h => h ▸ ⟨rfl, rfl⟩
  rintro place _ ⟨hplace, hknown, rfl⟩
  simp only [Attempt.ends_bind, ends_valid, Attempt.ends_pure, freeText_eq_ok_iff]
  refine ⟨?_, fun _ _ => ⟨rfl, rfl⟩⟩
  rintro _ ⟨_, rfl⟩
  refine ends_element "note" place.participants
    ⟨⟨rfl, rfl⟩, ⟨rfl, rfl, rfl⟩, rfl⟩ ?_ (fun _ => rfl) hknown
  simp [Call.read, Call.item, hplace]

theorem ends_ref (names : List String) (text : String) :
    (Call.perform (.ref names text)).Ends e
      (fun _ e' => realization.Performed inventory (.ref names text) e e')
      (fun _ e' => e.SameTree e') := by
  simp only [Call.perform, Attempt.ends_bind, Attempt.ends_ite, Attempt.ends_throw,
    Attempt.ends_pure]
  refine ⟨fun _ => ⟨rfl, rfl⟩, fun _ => ?_⟩
  refine (ends_resolveAll names).mono ?_ fun _ _ h => h ▸ ⟨rfl, rfl⟩
  rintro as _ ⟨has, hknown, rfl⟩
  simp only [ends_valid, freeText_eq_ok_iff]
  refine ⟨?_, fun _ _ => ⟨rfl, rfl⟩⟩
  rintro _ ⟨_, rfl⟩
  refine ends_element "ref" as ⟨⟨rfl, rfl⟩, ⟨rfl, rfl, rfl⟩, rfl⟩ ?_ (fun _ => rfl) hknown
  simp [Call.read, Call.item, has]

/-- A call that appends what it has checked and mentions nobody. -/
theorem ends_checked
    {α : Type}
    {check : Except InvalidValue α}
    {node : α → Node}
    (hread : ∀ kept, check = .ok kept →
      c.read e.registry.generated = some (.element (node kept), e.registry.generated))
    (hsurvey : ∀ kept depth, (node kept).survey depth = []) :
    (do
      let kept ← valid check
      append (node kept)
      return none : Action grammar (Option Alias)).Ends e
      (fun _ e' => realization.Performed inventory c e e') (fun _ e' => e.SameTree e') := by
  simp only [Attempt.ends_bind, ends_valid, Attempt.ends_pure]
  exact ⟨fun kept hkept => ends_text (hread kept hkept) (hsurvey kept), fun _ _ => ⟨rfl, rfl⟩⟩

theorem ends_otherwise (label : Option String) :
    (Call.perform (.otherwise label)).Ends e
      (fun _ e' => realization.Performed inventory (.otherwise label) e e')
      (fun _ e' => e.SameTree e') := by
  simp only [Call.perform, Attempt.ends_bind, ends_valid, optionally_singleLine_eq_ok_iff]
  refine ⟨?_, fun _ _ => ⟨rfl, rfl⟩⟩
  rintro _ ⟨_, rfl⟩
  exact Realization.ends_mark_of_reading (z := realization) (v := inventory) rfl
    (fun _ => .inl rfl) fun _ _ h => h

/-- A call does what it is read as, or fails and leaves the tree alone. -/
theorem perform_ends (c : Call) (e : Engine grammar) :
    c.perform.Ends e
      (fun _ e' => realization.Performed inventory c e e') (fun _ e' => e.SameTree e') := by
  cases c with
  | participant p =>
      refine ends_introduction p (fun q generated hq => ?_) fun _ _ => rfl
      simp [Call.read, hq]
  | create p =>
      refine ends_introduction p (fun q generated hq => ?_) fun _ _ => rfl
      simp [Call.read, hq]
  | message m => exact ends_message m
  | reply text => exact ends_reply text
  | note n => exact ends_note n
  | ref names text => exact ends_ref names text
  | activate name color =>
      refine ends_named name "activate" (fun a ha => ?_) fun _ _ => rfl
      simp [Call.read, Call.item, ha]
  | deactivate name =>
      refine ends_named name "deactivate" (fun a ha => ?_) fun _ _ => rfl
      simp [Call.read, Call.item, ha]
  | destroy name =>
      refine ends_named name "destroy" (fun a ha => ?_) fun _ _ => rfl
      simp [Call.read, Call.item, ha]
  | divider text =>
      refine ends_checked (fun kept hkept => ?_) fun _ _ => rfl
      obtain ⟨_, _, rfl⟩ := singleLine_eq_ok_iff.mp hkept
      rfl
  | delay text =>
      refine ends_checked (fun kept hkept => ?_) fun _ _ => rfl
      obtain ⟨_, rfl⟩ := optionally_singleLine_eq_ok_iff.mp hkept
      rfl
  | space pixels => exact ends_checked (fun _ _ => rfl) fun _ _ => rfl
  | autonumber n => exact ends_checked (fun _ _ => rfl) fun _ _ => rfl
  | otherwise label => exact ends_otherwise label

end Calls

theorem prepare_ends (opening : Opening) (e : Engine grammar) :
    (dialect.scopeOf opening).Ends e
      (fun result e' => realization.Prepared inventory opening result.1 e e')
      (fun _ e' => e.SameTree e') := by
  simp only [Attempt.ends_bind, ends_valid, Attempt.ends_pure]
  refine ⟨fun scope hscope => ?_, fun _ _ => ⟨rfl, rfl⟩⟩
  cases opening with
  | block kind label =>
      simp only [Opening.scope, bind_eq_ok_iff, pure_eq_ok_iff,
        optionally_singleLine_eq_ok_iff] at hscope
      obtain ⟨kept, ⟨_, rfl⟩, rfl⟩ := hscope
      refine ⟨⟨.block kind kept, rfl, .inr rfl, [], kept, [], rfl, rfl⟩, fun depth => ?_,
        ⟨rfl, rfl⟩, ⟨rfl, rfl, rfl⟩⟩
      exact .of_nothing rfl (.inr rfl)
  | box title color =>
      simp only [Opening.scope, bind_eq_ok_iff, pure_eq_ok_iff,
        optionally_singleLine_eq_ok_iff] at hscope
      obtain ⟨kept, ⟨_, rfl⟩, rfl⟩ := hscope
      refine ⟨⟨.box kept color, rfl, rfl, [], rfl, rfl⟩, fun depth => ?_,
        ⟨rfl, rfl⟩, ⟨rfl, rfl, rfl⟩⟩
      exact .of_nothing rfl (.inl rfl)

/-- The calls of sequence diagrams do what their reading says. -/
theorem sound : realization.Sound inventory where
  call := perform_ends
  opening := prepare_ends

end UmlText.Sequence
