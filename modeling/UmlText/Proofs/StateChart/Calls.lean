import UmlText.Proofs.Checks
import UmlText.Proofs.StateChart.Reading

/-!
# What the calls of state charts do

Every call does to the engine what its reading says.  A composite state is declared when it
is opened, before anything inside it.
-/

namespace UmlText.StateChart

open UmlText.Action

/-- The open composite state that holds the given items. -/
structure Holds (s : State) (items : List (Item Node Separator)) (scope : Scope) : Prop where
  state : scope.state = s
  separator : scope.separator = separatorOf? (Item.split items).2
  same : ∀ separator ∈ (Item.split items).2.map Prod.fst,
    some separator = separatorOf? (Item.split items).2
  regions : ∃ front last,
    (Separator.horizontal, (Item.split items).1) :: (Item.split items).2 =
      front ++ [(last, scope.body)] ∧
    scope.finished = front.map Prod.snd

/-- How open scopes hold the items of the reading. -/
abbrev realization : Realization reading where
  Applies separator scope scope' := scope.startRegion separator = .ok scope'
  Holds := Holds

/-- States are what state charts declare. -/
abbrev inventory : Inventory reading where
  kind := stateKind
  item depth
    | .element node => node.survey depth
    | .clause _ => [.entered depth]
  scope depth scope := scope.toNode.survey depth
  level _ := 1

theorem Scope.startRegion_eq_ok_iff
    {scope scope' : Scope}
    {separator : Separator} :
    scope.startRegion separator = .ok scope' ↔
      scope.body.isEmpty = false ∧ (∀ given ∈ scope.separator, given = separator) ∧
        scope' = { scope with
          separator := some separator
          finished := scope.finished ++ [scope.body]
          body := [] } := by
  obtain ⟨state, given, finished, body⟩ := scope
  constructor
  · intro h
    unfold startRegion at h
    split at h
    · cases h
    · next hbody =>
        split at h
        · cases h
        · next hother =>
            cases h
            refine ⟨by simpa using hbody, ?_, rfl⟩
            rintro given rfl
            simpa using hother
  · rintro ⟨hbody, hsame, rfl⟩
    cases given with
    | none => simp_all [startRegion]
    | some given =>
        have hgiven : given = separator := hsame given rfl
        simp_all [startRegion]

theorem holds_element
    {s : State}
    {items : List (Item Node Separator)}
    {scope : Scope}
    (h : Holds s items scope)
    (node : Node) :
    Holds s (items ++ [.element node]) (scope.add node) := by
  obtain ⟨hstate, hseparator, hsame, front, last, hjoined, hfinished⟩ := h
  refine ⟨hstate, ?_, ?_, front, last, ?_, hfinished⟩
  · rw [separatorOf?, Item.clauses_append_element]
    exact hseparator
  · rw [separatorOf?, Item.clauses_append_element]
    exact hsame
  · rw [Item.split_append_element_cons, hjoined, Item.pushLast_append]
    rfl

theorem holds_clause
    {s : State}
    {items : List (Item Node Separator)}
    {scope scope' : Scope}
    {separator : Separator}
    (h : Holds s items scope)
    (hstart : scope.startRegion separator = .ok scope') :
    Holds s (items ++ [.clause separator]) scope' := by
  obtain ⟨hstate, hseparator, hsame, front, last, hjoined, hfinished⟩ := h
  obtain ⟨_, hgiven, rfl⟩ := Scope.startRegion_eq_ok_iff.mp hstart
  have hfirst : separatorOf? ((Item.split items).2 ++ [(separator, [])]) = some separator := by
    cases hsections : (Item.split items).2 with
    | nil => rfl
    | cons t rest =>
        obtain ⟨given, body⟩ := t
        rw [hsections] at hseparator
        rw [← hgiven given hseparator]
        rfl
  have hsplit := Item.split_append_clause items separator
  refine ⟨hstate, ?_, ?_, front ++ [(last, scope.body)], separator, ?_, ?_⟩
  · rw [hsplit]
    exact hfirst.symm
  · rw [hsplit, hfirst]
    intro given hmem
    rw [List.map_append, List.mem_append] at hmem
    rcases hmem with hmem | hmem
    · have hold := hsame given hmem
      rw [hgiven given (hseparator.trans hold.symm)]
    · rw [List.mem_singleton.mp hmem]
  · rw [hsplit, ← hjoined]
    rfl
  · rw [hfinished, List.map_append]
    rfl

/-- A composite state that holds nothing yet. -/
theorem Holds.eq_of_nil
    {s : State}
    {scope : Scope}
    (h : Holds s [] scope) :
    scope = { state := s } := by
  obtain ⟨state, separator, finished, body⟩ := scope
  obtain ⟨rfl, rfl, _, front, last, hjoined, rfl⟩ := h
  have hjoined : [] ++ [(Separator.horizontal, [])] = front ++ [(last, body)] := hjoined
  obtain ⟨rfl, hlast⟩ := List.append_inj' hjoined rfl
  cases hlast
  rfl

/-- A composite state that is closed becomes the element it is read as. -/
theorem Holds.construct
    {s : State}
    {items : List (Item Node Separator)}
    {scope : Scope}
    (h : Holds s items scope) :
    reading.construct s items = some (.element scope.toNode) := by
  obtain ⟨rfl, hseparator, hsame, front, last, hjoined, hfinished⟩ := h
  refine (if_pos hsame).trans ?_
  have hregions := congrArg (List.map Prod.snd) hjoined
  rw [List.map_append, List.map_cons] at hregions
  rw [Scope.toNode, hseparator, hfinished, hregions]
  rfl

/-- A composite state that is closed becomes the element it is read as, inside another or
not. -/
theorem faithful : realization.Faithful where
  grow {head items item scope scope'} h hgrows := by
    cases item with
    | element node =>
        cases hgrows
        exact holds_element h node
    | clause separator => exact holds_clause h hgrows
  adopt h hadopt := ⟨_, Holds.construct h, hadopt⟩
  toNode h hnode := by
    cases hnode
    exact Holds.construct h

section Calls

variable {e : Engine grammar}

theorem checkDescription_eq_ok
    {texts kept : List String}
    (h : checkDescription texts = .ok kept) :
    kept = texts := by
  induction texts generalizing kept with
  | nil =>
      cases h
      rfl
  | cons text rest ih =>
      simp only [checkDescription, bind_eq_ok_iff, pure_eq_ok_iff, singleLine_eq_ok_iff] at h
      obtain ⟨_, ⟨_, _, rfl⟩, restKept, hrest, rfl⟩ := h
      rw [ih hrest]

theorem ends_declareState (s : StateCall) :
    s.declare.Ends e
      (fun state e' => s.read e.registry.generated = some (state, e'.registry.generated) ∧
        Named stateKind "s" s.name s.givenAlias state.id state.display e e')
      (fun _ e' => e.SameTree e') := by
  unfold StateCall.declare
  rw [Attempt.ends_bind, ends_valid]
  refine ⟨fun name hname => ?_, fun _ _ => ⟨rfl, rfl⟩⟩
  obtain ⟨_, _, rfl⟩ := singleLine_eq_ok_iff.mp hname
  rw [Attempt.ends_bind, ends_valid]
  refine ⟨fun description hdescription => ?_, fun _ _ => ⟨rfl, rfl⟩⟩
  obtain rfl := checkDescription_eq_ok hdescription
  refine ends_chooseAlias_declare (by decide) fun a display e' hnamed => ?_
  refine ⟨?_, hnamed⟩
  rw [StateCall.read, hnamed.naming]
  rfl

theorem ends_resolveEndpoint (endpoint : Endpoint String) :
    (resolveEndpoint endpoint).Ends e
      (fun result e' => endpoint.read = some result ∧
        (∀ a ∈ result.states, a ∈ e.registry.aliases) ∧ e' = e)
      (fun _ e' => e' = e) := by
  cases endpoint with
  | state name =>
      rw [resolveEndpoint, Attempt.ends_bind]
      refine (ends_resolve_of_reading name stateKind).mono ?_ fun _ _ h => h
      rintro a _ ⟨hread, hknown, rfl⟩
      exact ⟨by rw [Endpoint.read, hread]; rfl, by simpa [Endpoint.states], rfl⟩
  | _ => exact ⟨rfl, by simp [Endpoint.states], rfl⟩

theorem perform_ends (c : Call) (e : Engine grammar) :
    c.perform.Ends e
      (fun _ e' => realization.Performed inventory c e e') (fun _ e' => e.SameTree e') := by
  cases c with
  | state s =>
      rw [Call.perform, Attempt.ends_bind]
      refine (ends_declareState s).mono ?_ fun _ _ h => h
      rintro state e₁ ⟨hread, hnamed⟩
      simp only [Attempt.ends_bind, Attempt.ends_pure]
      refine Realization.ends_append_of_reading (z := realization) (v := inventory)
        hnamed.toSameTree hnamed.toSameCounts ?_ ?_
      · simp [Call.read, hread]
      · exact fun e' hregistry depth => hnamed.books hregistry rfl
  | transition t =>
      rw [Call.perform, Attempt.ends_bind]
      refine (ends_resolveEndpoint t.source).mono ?_ fun _ _ h => h ▸ ⟨rfl, rfl⟩
      rintro source _ ⟨hsource, hsourceKnown, rfl⟩
      rw [Attempt.ends_bind]
      refine (ends_resolveEndpoint t.target).mono ?_ fun _ _ h => h ▸ ⟨rfl, rfl⟩
      rintro target _ ⟨htarget, htargetKnown, rfl⟩
      simp only [Attempt.ends_bind, ends_valid, Attempt.ends_pure, optionally_freeText_eq_ok_iff]
      refine ⟨?_, fun _ _ => ⟨rfl, rfl⟩⟩
      rintro _ ⟨_, rfl⟩
      refine Realization.ends_append_of_reading (z := realization) (v := inventory) ⟨rfl, rfl⟩
        ⟨rfl, rfl, rfl⟩ ?_ ?_
      · simp [Call.read, hsource, htarget]
      · intro e' hregistry depth
        refine .of_mentions (source.states ++ target.states) hregistry rfl fun a ha => ?_
        rcases List.mem_append.mp ha with ha | ha
        · exact hsourceKnown a ha
        · exact htargetKnown a ha
  | note n =>
      rw [Call.perform, Attempt.ends_bind]
      refine (ends_resolve_of_reading n.target stateKind).mono ?_ fun _ _ h => h ▸ ⟨rfl, rfl⟩
      rintro target _ ⟨htarget, hknown, rfl⟩
      simp only [Attempt.ends_bind, ends_valid, Attempt.ends_pure, freeText_eq_ok_iff]
      refine ⟨?_, fun _ _ => ⟨rfl, rfl⟩⟩
      rintro _ ⟨_, rfl⟩
      refine Realization.ends_append_of_reading (z := realization) (v := inventory) ⟨rfl, rfl⟩
        ⟨rfl, rfl, rfl⟩ ?_ ?_
      · simp [Call.read, htarget]
      · intro e' hregistry depth
        exact .of_mentions [target] hregistry rfl (by simpa using hknown)
  | region separator =>
      rw [Call.perform, Attempt.ends_bind]
      refine Realization.ends_mark_of_reading (z := realization) (v := inventory) rfl
        (fun _ => .inr rfl) fun scope scope' h => ?_
      exact Option.some.inj h

theorem prepare_ends (s : StateCall) (e : Engine grammar) :
    s.openComposite.Ends e
      (fun result e' => realization.Prepared inventory s result.1 e e')
      (fun _ e' => e.SameTree e') := by
  unfold StateCall.openComposite
  simp only [Attempt.ends_bind, Attempt.ends_ite, Attempt.ends_throw, Attempt.ends_pure]
  refine ⟨fun _ => ⟨rfl, rfl⟩, fun _ => ?_⟩
  refine (ends_declareState s).mono ?_ fun _ _ h => h
  rintro state e' ⟨hread, hnamed⟩
  refine ⟨⟨state, hread, ?_⟩, fun depth => ?_, hnamed.toSameTree, hnamed.toSameCounts⟩
  · exact ⟨rfl, rfl, by simp [Item.split], [], .horizontal, rfl, rfl⟩
  · refine .of_declaration rfl rfl ?_ hnamed.fresh hnamed.plain hnamed.entries
    intro n hn
    have hentered : n = depth + 1 := by
      simpa [Scope.toNode, Node.survey, surveyRegions, surveyNodes] using hn
    omega

end Calls

/-- The calls of state charts do what their reading says. -/
theorem sound : realization.Sound inventory where
  call := perform_ends
  opening := prepare_ends

end UmlText.StateChart
