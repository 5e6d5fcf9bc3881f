import UmlText.Proofs.Histories
import UmlText.Proofs.Sequence.Stretches

/-!
# Open activations follow the calls

While no call has failed, what an engine remembers as active is told by the calls made so
far, at whatever nesting they were made: it is the participants of the stretches that are
still open, in the order in which the stretches were opened.  A participant gets there by a
call that refers to it, and what a call refers to is declared; nothing is ever taken out of
the registry again.

So a return finds an open activation exactly when some stretch is open.  Its text is checked
before that is asked, like every text of a call; and the body of a box offers no return at
all.
-/

namespace UmlText.Sequence

open UmlText.Action

variable {before : List Call} {c : Call} {e e' : Engine grammar}

section Opened

variable {participant : String} {active : List String}

/-- A pulse lets nobody be active who was not, but for the participant whose stretch it
opens. -/
theorem Pulse.mem_onOpen {pulse : Pulse} (h : participant ∈ pulse.onOpen active) :
    participant ∈ active ∨ pulse = .opens participant := by
  cases pulse with
  | opens opened =>
      rcases List.mem_append.mp h with hold | hnew
      · exact .inl hold
      · exact .inr (by rw [List.mem_singleton.mp hnew])
  | closes closed =>
      rw [onOpen, List.mem_reverse] at h
      exact .inl (List.mem_reverse.mp (List.mem_of_mem_erase h))
  | ends ended => exact .inl (List.mem_of_mem_filter h)
  | returns => exact .inl (List.dropLast_subset _ h)

/-- A call lets nobody be active who was not, but for the participant whose stretch it
opens. -/
theorem Call.mem_openAfter (h : participant ∈ c.openAfter active) :
    participant ∈ active ∨ c.pulse? = some (.opens participant) := by
  unfold openAfter at h
  cases hpulse : c.pulse? with
  | none =>
      rw [hpulse] at h
      exact .inl h
  | some pulse =>
      rw [hpulse] at h
      exact (Pulse.mem_onOpen h).imp_right (congrArg some)

theorem references_mentions (node : String) (mentioned : List Alias) :
    Finding.references (mentions node mentioned) = mentioned := by
  simp [mentions, Finding.references, List.filterMap_map, Function.comp_def, Finding.reference?]

/-- A message that opens a stretch goes to its participant. -/
theorem Message.target_of_opens {m : Message String} (h : m.pulse? = some (.opens participant)) :
    m.target = some participant := by
  obtain ⟨source, target, text, arrow, activation⟩ := m
  unfold pulse? at h
  split at h
  · next htarget =>
      cases h
      exact htarget
  · cases h
  · cases h
  · cases h

/-- A call that opens a stretch refers to its participant. -/
theorem exists_reference_of_opens
    {generated generated' : Nat}
    {item : Item Node Clause}
    (hpulse : c.pulse? = some (.opens participant))
    (hread : c.read generated = some (item, generated'))
    (depth : Nat) :
    ∃ a ∈ Finding.references (inventory.item depth item), a.name = participant := by
  cases c with
  | activate name color =>
      cases hpulse
      obtain ⟨_, hitem, hpair⟩ := Option.map_eq_some_iff.mp hread
      cases hpair
      obtain ⟨a, ha, rfl⟩ := Option.map_eq_some_iff.mp hitem
      refine ⟨a, ?_, Alias.name_of_ofName? ha⟩
      change a ∈ Finding.references (mentions "activate" [a])
      rw [references_mentions]
      exact List.mem_singleton_self a
  | message m =>
      obtain ⟨_, hitem, hpair⟩ := Option.map_eq_some_iff.mp hread
      cases hpair
      obtain ⟨source, hsource, hrest⟩ := Option.bind_eq_some_iff.mp hitem
      obtain ⟨target, htarget, hsome⟩ := Option.bind_eq_some_iff.mp hrest
      cases hsome
      have hname := name_of_readEnd htarget
      rw [Message.target_of_opens hpulse] at hname
      obtain ⟨a, rfl, ha⟩ := Option.map_eq_some_iff.mp hname.symm
      refine ⟨a, ?_, ha⟩
      change a ∈ Finding.references (mentions "message" (source.toList ++ [a]))
      rw [references_mentions]
      exact List.mem_append_right _ (List.mem_singleton_self a)
  | _ => cases hpulse

end Opened

/-- What the engine remembers as active is told by the calls made before; it is declared. -/
structure Follows (before : List Call) (e : Engine grammar) : Prop where
  active : e.context.map Alias.name = Stretch.openOf (stretches before)
  declared : ∀ a ∈ e.context, a ∈ e.registry.aliases
  kinds : ∀ entry ∈ e.registry.entries, entry.2 = participantKind

namespace Follows

theorem nil : Follows [] {} :=
  ⟨rfl, fun _ h => (by cases h), fun _ h => (by cases h)⟩

/-- Whatever leaves alone what is declared and what is active makes no difference. -/
theorem of_registry
    (h : Follows before e)
    (hregistry : e'.registry = e.registry)
    (hcontext : e'.context = e.context) :
    Follows before e' := by
  obtain ⟨hactive, hdeclared, hkinds⟩ := h
  rw [← hcontext] at hactive hdeclared
  rw [← hregistry] at hdeclared hkinds
  exact ⟨hactive, hdeclared, hkinds⟩

/-- Counting a call changes nothing that is remembered. -/
theorem counted (h : Follows before e) : Follows before e.counted :=
  h.of_registry rfl rfl

/-- Whatever declares participants only, and leaves alone what is active, makes no
difference. -/
theorem of_books
    {depth : Nat}
    {findings : List Finding}
    (h : Follows before e)
    (hbooks : Books participantKind depth findings e e')
    (hcontext : e'.context = e.context) :
    Follows before e' := by
  refine ⟨?_, fun a ha => ?_, hbooks.kinds h.kinds⟩
  · rw [hcontext]
    exact h.active
  · rw [hcontext] at ha
    exact hbooks.aliases_subset (h.declared a ha)

/-- A call that has done what it is read as lets the engine follow it. -/
theorem performed
    (h : Follows before e)
    (hperformed : realization.Performed inventory c e e')
    (hactive : e'.context.map Alias.name = c.openAfter (e.context.map Alias.name)) :
    Follows (before ++ [c]) e' := by
  obtain ⟨⟨item, hread, _, hbooks⟩, _⟩ := hperformed
  refine ⟨?_, fun a ha => ?_, (hbooks 0).kinds h.kinds⟩
  · rw [hactive, h.active, openOf_stretches_concat]
  · -- whoever is active was so before the call, or the call refers to it
    have hname : a.name ∈ c.openAfter (e.context.map Alias.name) := by
      rw [← hactive]
      exact List.mem_map_of_mem ha
    rcases Call.mem_openAfter hname with hold | hopens
    · obtain ⟨b, hb, hbname⟩ := List.mem_map.mp hold
      rw [← Alias.ext hbname]
      exact (hbooks 0).aliases_subset (h.declared b hb)
    · obtain ⟨b, hb, hbname⟩ := exists_reference_of_opens hopens hread 0
      rw [← Alias.ext hbname]
      exact (hbooks 0).known b hb

end Follows

/-- No construct that is opened changes what is active. -/
theorem keepsContext_openingAction (opening : Opening) :
    KeepsContext (dialect.openingAction opening) :=
  ((keepsContext_valid _).bind fun _ => keepsContext_pure _).bind fun _ => keepsContext_pure _

/-- Every call lets the engine follow the calls, unless the build fails by it. -/
theorem keepsHistory_follows : KeepsHistory (d := dialect) Follows where
  call {before e} hnone h c := by
    have hactive : (dialect.callBuild c).Ends e
        (fun _ e' => e'.context.map Alias.name = c.openAfter (e.context.map Alias.name))
        fun _ _ => True := by
      unfold Dialect.callBuild
      rw [Engine.ends_step_of_unfailed _ hnone]
      simp only [Attempt.ends_bind, Attempt.ends_pure]
      exact ends_perform_context c e.counted
    refine ((sound.ends_callBuild c).and hactive).mono ?_ fun _ _ hbad => hbad.1.1
    rintro _ e' ⟨⟨_, hperformed⟩, hnames⟩
    exact h.counted.performed hperformed hnames
  enter {before e} hnone h opening := by
    have hcontext := (keepsContext_openingAction opening).enter e
    refine ((sound.ends_enter opening).and hcontext).mono ?_ fun _ _ hbad => hbad.1.1
    rintro _ e' ⟨⟨_, hentered⟩, hkept⟩
    obtain ⟨_, _, _, _, _, _, hbooks⟩ := hentered.opened
    exact h.of_books (hbooks 0) hkept
  close {before e} hnone h token := by
    have hcontext := ends_close_context (G := grammar) token e
    refine ((UmlText.ends_close (d := dialect) token).and hcontext).mono ?_
      fun _ _ hbad => hbad.1
    rintro _ e' ⟨⟨_, hclosed⟩, hkept⟩
    exact h.of_registry hclosed.registry hkept

/-- The call is refused because what it places does not belong there. -/
def IsMisplaced (answer : Except BuildError Reply) : Prop :=
  ∃ call what scope expected, answer = .error (.misuse call (.misplaced what scope expected))

section Return

variable {text : Option String}

/-- Outside of boxes every element can be placed. -/
theorem ends_append_outside
    {bad : Fault → Engine grammar → Prop}
    (houtside : e.innermostKind ≠ "box")
    (node : Node) :
    (append node : Action grammar Unit).Ends e (fun _ _ => True) bad := by
  rw [ends_append]
  refine ⟨fun _ => trivial, fun frame outer hstack => ⟨fun _ _ => trivial, fun what hpush => ?_⟩⟩
  have hkind : frame.scope.kind ≠ "box" := by
    unfold Engine.innermostKind at houtside
    rw [hstack] at houtside
    exact houtside
  cases hscope : frame.scope with
  | block kind finished label body =>
      rw [hscope] at hpush
      cases hpush
  | box title color participants =>
      rw [hscope] at hkind
      exact absurd rfl hkind

/-- Outside of boxes a return is placed when its text is accepted and somebody is active,
and it is misplaced when its text is accepted and nobody is. -/
theorem answer_of_reply
    (hnone : e.failedAt = none)
    (houtside : e.innermostKind ≠ "box") :
    let answer := ((dialect.callBuild (.reply text)).run e).1
    (answer = .ok .done ↔ (∀ t ∈ text, IsVisible t) ∧ e.context ≠ []) ∧
    (IsMisplaced answer ↔ (∀ t ∈ text, IsVisible t) ∧ e.context = []) := by
  refine (Attempt.ends_result_iff (P := fun answer : Except BuildError Reply =>
    (answer = .ok .done ↔ _) ∧ (IsMisplaced answer ↔ _))).mp ?_
  have hok : ¬IsMisplaced (.ok .done) := fun ⟨_, _, _, _, h⟩ => by cases h
  unfold Dialect.callBuild
  rw [Engine.ends_step_of_unfailed _ hnone]
  simp only [Call.perform, Attempt.ends_bind, Attempt.ends_pure, ends_valid, Attempt.ends_get,
    Attempt.ends_ite, ends_misplaced, rememberOpen, ends_remember]
  refine ⟨fun kept hkept => ?_, fun what hwhat => ?_⟩
  · obtain ⟨hvisible, rfl⟩ := optionally_freeText_eq_ok_iff.mp hkept
    refine ⟨fun hempty => ?_, fun hactive => ?_⟩
    · have hnil : e.context = [] := List.isEmpty_iff.mp hempty
      refine ⟨iff_of_false ?_ fun h => h.2 hnil, iff_of_true ⟨_, _, _, _, rfl⟩ ⟨hvisible, hnil⟩⟩
      intro h
      cases h
    · have hcons : e.context ≠ [] := fun hnil => hactive (List.isEmpty_iff.mpr hnil)
      refine (ends_append_outside (e := e.counted) houtside _).mono ?_ fun _ _ h => h
      exact fun _ _ _ =>
        ⟨iff_of_true rfl ⟨hvisible, hcons⟩, iff_of_false hok fun h => hcons h.2⟩
  · have hblank : ¬∀ t ∈ text, IsVisible t := by
      intro hvisible
      rw [optionally_freeText_eq_ok_iff.mpr ⟨hvisible, rfl⟩] at hwhat
      cases hwhat
    refine ⟨iff_of_false ?_ fun h => hblank h.1, iff_of_false ?_ fun h => hblank h.1⟩
    · intro h
      cases h
    · rintro ⟨_, _, _, _, ⟨⟩⟩

end Return

/-- At every turn of a run in which no call has failed, the participants that are active are
those of the stretches that are open, each of them declared.  A return is then placed when
its text is accepted and some stretch is open, and it is misplaced when its text is accepted
and every stretch is closed. -/
theorem active_follows_calls
    {done : List (AuthoringTurn dialect)}
    {s : Session grammar}
    (hleads : Leads dialect.authoring {} done s)
    (hnone : s.engine.failedAt = none) :
    let all := stretches (callsOf done)
    s.engine.context.map Alias.name = Stretch.openOf all ∧
    (∀ a ∈ s.engine.context, (a, participantKind) ∈ s.engine.registry.entries) ∧
    ∀ text : Option String, s.engine.innermostKind ≠ "box" →
      let answer := ((dialect.callBuild (.reply text)).run s.engine).1
      (answer = .ok .done ↔ (∀ t ∈ text, IsVisible t) ∧ ∃ stretch ∈ all, stretch.closed = false) ∧
      (IsMisplaced answer ↔
        (∀ t ∈ text, IsVisible t) ∧ ∀ stretch ∈ all, stretch.closed = true) := by
  intro all
  obtain ⟨hactive, hdeclared, hkinds⟩ : Follows (callsOf done) s.engine :=
    keepsHistory_follows.after_turns hleads .nil hnone
  refine ⟨hactive, fun a ha => ?_, fun text houtside => ?_⟩
  · obtain ⟨entry, hentry, rfl⟩ := List.mem_map.mp (hdeclared a ha)
    rw [← hkinds entry hentry]
    exact hentry
  · have hsome : s.engine.context ≠ [] ↔ ∃ stretch ∈ all, stretch.closed = false := by
      rw [← Stretch.openOf_ne_nil_iff, ← hactive, ne_eq, ne_eq, List.map_eq_nil_iff]
    have hclosed : s.engine.context = [] ↔ ∀ stretch ∈ all, stretch.closed = true := by
      rw [← not_iff_not, ← ne_eq, hsome]
      simp
    rw [← hsome, ← hclosed]
    exact answer_of_reply hnone houtside

/-- A participant that calls itself while it is active, inside a block, and is left with one
of its two stretches open. -/
def selfCall : List (Authoring dialect) :=
  [.call (.ok (.participant { name := "a" })) false,
   .call (.ok (.participant { name := "b" })) false,
   .call (.ok (.activate "b" none)) false,
   .scope (.block .alt none) false
     [.call (.ok (.message
        { source := some "a", target := some "a", activation := some .activateTarget })) false,
      .call (.ok (.otherwise none)) false,
      .call (.ok (.activate "a" none)) false],
   .call (.ok (.deactivate "a")) false]

theorem active_follows_calls_of_selfCall :
    let s := (Program.runAll dialect.authoring {} selfCall).after
    let done := Program.turnsAll dialect.authoring {} selfCall
    Leads dialect.authoring {} done s ∧ s.engine.failedAt = none ∧
    s.engine.innermostKind ≠ "box" ∧
    Stretch.openOf (stretches (callsOf done)) = ["b", "a"] ∧
    s.engine.context.map Alias.name = ["b", "a"] ∧
    ((dialect.callBuild (.reply none)).run s.engine).1 = .ok .done ∧
    ¬IsMisplaced ((dialect.callBuild (.reply none)).run s.engine).1 := by
  intro s done
  have hleads : Leads dialect.authoring {} done s := Program.leads_turnsAll selfCall {}
  have hnone : s.engine.failedAt = none := by rfl
  have houtside : s.engine.innermostKind ≠ "box" := by decide +kernel
  have hopen : Stretch.openOf (stretches (callsOf done)) = ["b", "a"] := by rfl
  obtain ⟨hactive, _, hreply⟩ := active_follows_calls hleads hnone
  obtain ⟨hplaced, hmisplaced⟩ := hreply none houtside
  have hsome : ∃ stretch ∈ stretches (callsOf done), stretch.closed = false := by
    rw [← Stretch.openOf_ne_nil_iff, hopen]
    decide
  refine ⟨hleads, hnone, houtside, hopen, hactive.trans hopen, ?_, fun h => ?_⟩
  · exact hplaced.mpr ⟨fun _ h => (by cases h), hsome⟩
  · obtain ⟨stretch, hmem, hstretch⟩ := hsome
    have hclosed := (hmisplaced.mp h).2 stretch hmem
    rw [hstretch] at hclosed
    cases hclosed

/-- Where nobody is active, a return with a blank text is refused for its text. -/
theorem not_misplaced_of_blankReply :
    Leads dialect.authoring {} [] {} ∧
    ((dialect.callBuild (.reply (some " "))).run {}).1 = .error (.invalid (.empty "return text")) ∧
    ¬(IsMisplaced ((dialect.callBuild (.reply (some " "))).run {}).1 ↔
      ∀ stretch ∈ stretches (callsOf (d := dialect) []), stretch.closed = true) := by
  have hanswer : ((dialect.callBuild (.reply (some " "))).run {}).1 =
      .error (.invalid (.empty "return text")) := by decide +kernel
  refine ⟨rfl, hanswer, fun h => ?_⟩
  have hmisplaced := h.mpr fun _ hmem => by cases hmem
  rw [hanswer] at hmisplaced
  obtain ⟨_, _, _, _, hcontra⟩ := hmisplaced
  cases hcontra

end UmlText.Sequence
