import UmlText.Proofs.Histories
import UmlText.Proofs.Lineages
import UmlText.Proofs.StateChart.Calls

/-!
# Regions of composite states

A composite state that a program builds has regions of a certain shape (`Shaped`): only the
last one may be empty, and a single one has nothing to keep it apart from.  This holds of
every composite state of a finished chart, however deep it lies, because it holds of every
open one at any time.

How many regions an open composite state has, and what keeps them apart, is known from the
region calls that were made directly in it (`dividersOf`), whatever was opened and closed
there in between.  So these calls, and what the current region holds, decide whether the
next region call succeeds.
-/

namespace UmlText.StateChart

open UmlText.Action

section Shapes

/-- The composite state is a plain one, has a region, has no empty region but perhaps the
last one, and a single region with the separator that is written nowhere. -/
structure Shaped (s : State) (separator : Separator) (regions : List (List Node)) : Prop where
  plain : s.kind = .plain
  divided : regions ≠ []
  filled : ∀ region ∈ regions.dropLast, region ≠ []
  single : regions.length = 1 → separator = .horizontal

/-- An element that is a composite state has its shape. -/
def Node.Shaped : Node → Prop
  | .composite s separator regions => StateChart.Shaped s separator regions
  | .state _ | .transition _ | .note _ => True

/-- Every composite state among the elements, however deep, has its shape. -/
def AllShaped (nodes : List Node) : Prop :=
  ∀ node ∈ anatomy.preorder nodes, node.Shaped

/-- An open composite state will have its shape when it is closed, and everything in it has
its shape. -/
structure Scope.Shaped (scope : Scope) : Prop where
  plain : scope.state.kind = .plain
  filled : ∀ region ∈ scope.finished, region ≠ []
  single : scope.finished = [] → scope.separator = none
  finished : AllShaped scope.finished.flatten
  body : AllShaped scope.body

theorem allShaped_nil : AllShaped [] :=
  fun _ h => by cases h

theorem allShaped_append {first second : List Node} :
    AllShaped (first ++ second) ↔ AllShaped first ∧ AllShaped second := by
  unfold AllShaped
  rw [Anatomy.preorder_append]
  exact List.forall_mem_append

theorem allShaped_singleton {node : Node} :
    AllShaped [node] ↔ node.Shaped ∧ AllShaped node.bodies.flatten := by
  unfold AllShaped
  rw [Anatomy.preorder_singleton]
  exact List.forall_mem_cons

namespace Scope.Shaped

variable {scope : Scope}

theorem add
    (h : scope.Shaped)
    {node : Node}
    (hnode : AllShaped [node]) :
    (scope.add node).Shaped where
  plain := h.plain
  filled := h.filled
  single := h.single
  finished := h.finished
  body := allShaped_append.mpr ⟨h.body, hnode⟩

theorem startRegion
    (h : scope.Shaped)
    {scope' : Scope}
    {separator : Separator}
    (hstart : scope.startRegion separator = .ok scope') :
    scope'.Shaped := by
  obtain ⟨hbody, _, rfl⟩ := Scope.startRegion_eq_ok_iff.mp hstart
  refine ⟨h.plain, ?_, by simp, ?_, allShaped_nil⟩
  · rw [List.forall_mem_append]
    refine ⟨h.filled, fun region hregion => ?_⟩
    rw [List.mem_singleton.mp hregion]
    simpa using hbody
  · rw [List.flatten_append, List.flatten_singleton]
    exact allShaped_append.mpr ⟨h.finished, h.body⟩

theorem toNode (h : scope.Shaped) : AllShaped [scope.toNode] := by
  refine allShaped_singleton.mpr ⟨⟨h.plain, by simp, ?_, fun hone => ?_⟩, ?_⟩
  · rw [List.dropLast_concat]
    exact h.filled
  · have hfinished : scope.finished = [] := by
      rw [List.length_append, List.length_singleton] at hone
      exact List.eq_nil_of_length_eq_zero (by omega)
    rw [h.single hfinished]
    rfl
  · change AllShaped (scope.finished ++ [scope.body]).flatten
    rw [List.flatten_append, List.flatten_singleton]
    exact allShaped_append.mpr ⟨h.finished, h.body⟩

end Scope.Shaped

/-- The realization of state charts, with the kind of every open composite state. -/
abbrev plainRealization : Realization reading where
  Applies := realization.Applies
  Holds s items scope := Holds s items scope ∧ s.kind = .plain

/-- Only a plain state is opened as a composite one. -/
theorem openComposite_ends_plain (s : StateCall) (e : Engine grammar) :
    s.openComposite.Ends e (fun result _ => result.1.state.kind = .plain) (fun _ _ => True) := by
  unfold StateCall.openComposite
  simp only [Attempt.ends_bind, Attempt.ends_ite, Attempt.ends_throw, Attempt.ends_pure]
  refine ⟨fun _ => trivial, fun hkind => ?_⟩
  refine (ends_declareState s).mono ?_ fun _ _ _ => trivial
  rintro state _ ⟨hread, _⟩
  obtain ⟨⟨named, number⟩, _, hpair⟩ := Option.map_eq_some_iff.mp hread
  cases hpair
  exact Decidable.not_not.mp hkind

theorem plainSound : plainRealization.Sound inventory where
  call c e := (perform_ends c e).mono (fun _ _ h => ⟨h.taken, h.counts⟩) fun _ _ h => h
  opening s e := by
    refine ((prepare_ends s e).and (openComposite_ends_plain s e)).mono ?_ fun _ _ h => h.1
    rintro result e' ⟨⟨⟨head, hread, hholds⟩, hbooked, htree, hcounts⟩, hplain⟩
    exact ⟨⟨head, hread, hholds, hholds.state ▸ hplain⟩, hbooked, htree, hcounts⟩

/-- A call that opens no scope divides a composite state or contributes an element, which is
no composite state itself. -/
theorem region_or_element
    {generated generated' : Nat}
    {call : Call}
    {item : Item Node Separator}
    (h : Call.read generated call = some (item, generated')) :
    (∃ separator, call = .region separator ∧ item = .clause separator) ∨
      (∀ separator, call ≠ .region separator) ∧
        ∃ node, item = .element node ∧ ∀ s separator regions, node ≠ .composite s separator regions
    := by
  cases call with
  | region separator =>
      cases h
      exact .inl ⟨separator, rfl, rfl⟩
  | state s =>
      obtain ⟨_, _, heq⟩ := Option.map_eq_some_iff.mp h
      exact .inr ⟨nofun, _, (congrArg Prod.fst heq).symm, fun _ _ _ h => by cases h⟩
  | transition t =>
      obtain ⟨_, _, h⟩ := Option.bind_eq_some_iff.mp h
      obtain ⟨_, _, h⟩ := Option.bind_eq_some_iff.mp h
      exact .inr ⟨nofun, _, (congrArg Prod.fst (Option.some.inj h)).symm,
        fun _ _ _ h => by cases h⟩
  | note n =>
      obtain ⟨_, _, h⟩ := Option.bind_eq_some_iff.mp h
      exact .inr ⟨nofun, _, (congrArg Prod.fst (Option.some.inj h)).symm,
        fun _ _ _ h => by cases h⟩

/-- What is no composite state holds none. -/
theorem allShaped_of_simple
    {node : Node}
    (h : ∀ s separator regions, node ≠ .composite s separator regions) :
    AllShaped [node] := by
  rw [allShaped_singleton]
  cases node with
  | composite s separator regions => exact absurd rfl (h s separator regions)
  | _ => exact ⟨trivial, allShaped_nil⟩

/-- Composite states come to have their shape, however they are built. -/
theorem upholds_shaped :
    plainRealization.Upholds (fun node => AllShaped [node]) Scope.Shaped where
  call {generated generated' call node} h := by
    rcases region_or_element h with ⟨_, _, hitem⟩ | ⟨_, _, hitem, hsimple⟩
    · cases hitem
    · cases hitem
      exact allShaped_of_simple hsimple
  opening {head scope} h := by
    obtain ⟨hholds, hplain⟩ := h
    rw [hholds.eq_of_nil]
    exact ⟨hplain, by simp, fun _ => rfl, allShaped_nil, allShaped_nil⟩
  grow {item scope scope'} hitem hscope hgrows := by
    cases item with
    | element node =>
        cases hgrows
        exact hscope.add (hitem node rfl)
    | clause separator => exact hscope.startRegion hgrows
  adopt {inner outer outer'} hinner houter hadopt := by
    cases hadopt
    exact houter.add hinner.toNode
  toNode {scope node} hscope hnode := by
    cases hnode
    exact hscope.toNode

theorem allShaped_of_authored {nodes : List Node} (h : dialect.Authored nodes) :
    AllShaped nodes := by
  have hgood := upholds_shaped.good_of_authored plainSound h
  clear h
  induction nodes with
  | nil => exact allShaped_nil
  | cons node rest ih =>
      obtain ⟨hnode, hrest⟩ := List.forall_mem_cons.mp hgood
      exact allShaped_append.mpr ⟨hnode, ih hrest⟩

end Shapes

section Dividers

/-- The separator of a region call that is made directly in the composite state with this
number. -/
def divider? (serial : Nat) (t : AuthoringTurn dialect) : Option Separator :=
  match t.act, t.before.engine.stack with
  | .perform (.ok (.region separator)), frame :: _ =>
      if frame.serial = serial then some separator else none
  | _, _ => none

/-- The separators of the region calls that were made directly in the composite state with
this number, in order. -/
def dividersOf (serial : Nat) (turns : List (AuthoringTurn dialect)) : List Separator :=
  turns.filterMap (divider? serial)

theorem divider?_eq_none
    {serial : Nat}
    {call : Call}
    {s : Session grammar}
    (h : ∀ separator, call ≠ .region separator) :
    divider? serial ⟨.perform (.ok call), s⟩ = none := by
  unfold divider?
  split
  · next separator frame outer hact _ =>
      cases hact
      exact absurd rfl (h separator)
  · rfl

/-- The open composite state was divided by region calls with these separators. -/
structure Scope.DividedBy (scope : Scope) (separators : List Separator) : Prop where
  count : scope.finished.length = separators.length
  same : ∀ separator ∈ separators, scope.separator = some separator
  undivided : separators = [] → scope.separator = none

/-- What the turns so far say of the open composite states: each was divided by the region
calls made directly in it, and a number that no scope has had yet stands for no call. -/
structure Divided (past : List (AuthoringTurn dialect)) (e : Engine grammar) : Prop where
  sorted : e.stack.Pairwise fun inner outer => outer.serial < inner.serial
  bounded : ∀ frame ∈ e.stack, frame.serial ≤ e.openings
  fresh : ∀ serial, e.openings < serial → dividersOf serial past = []
  divided : ∀ frame ∈ e.stack, frame.scope.DividedBy (dividersOf frame.serial past)

variable {past past' : List (AuthoringTurn dialect)} {e e' : Engine grammar}
variable {frame : Frame grammar} {outer : List (Frame grammar)} {scope scope' : Scope}
variable {separator : Separator} {separators : List Separator}

namespace Scope.DividedBy

theorem add
    (h : scope.DividedBy separators)
    (node : Node) :
    (scope.add node).DividedBy separators :=
  ⟨h.count, h.same, h.undivided⟩

/-- Another region may be started when something is in the current one and the separator is
that of every division before. -/
theorem startRegion_iff (h : scope.DividedBy separators) :
    (∃ scope', scope.startRegion separator = .ok scope') ↔
      scope.body ≠ [] ∧ ∀ earlier ∈ separators, earlier = separator := by
  have hgiven : (∀ given ∈ scope.separator, given = separator) ↔
      ∀ earlier ∈ separators, earlier = separator := by
    constructor
    · intro hall earlier hmem
      exact hall earlier (h.same earlier hmem)
    · intro hall given hmem
      cases separators with
      | nil =>
          rw [h.undivided rfl] at hmem
          cases hmem
      | cons earlier rest =>
          have hfirst := h.same earlier List.mem_cons_self
          rw [← Option.some.inj (hfirst.symm.trans hmem)]
          exact hall earlier List.mem_cons_self
  simp only [Scope.startRegion_eq_ok_iff, hgiven, List.isEmpty_eq_false_iff]
  constructor
  · rintro ⟨_, hbody, hall, _⟩
    exact ⟨hbody, hall⟩
  · rintro ⟨hbody, hall⟩
    exact ⟨_, hbody, hall, rfl⟩

theorem startRegion
    (h : scope.DividedBy separators)
    (hstart : scope.startRegion separator = .ok scope') :
    scope'.DividedBy (separators ++ [separator]) := by
  obtain ⟨_, hall⟩ := h.startRegion_iff.mp ⟨scope', hstart⟩
  obtain ⟨_, _, rfl⟩ := Scope.startRegion_eq_ok_iff.mp hstart
  refine ⟨?_, fun other hother => ?_, by simp⟩
  · rw [List.length_append, List.length_append, h.count]
    rfl
  · rcases List.mem_append.mp hother with hearlier | hlast
    · rw [hall other hearlier]
    · rw [List.mem_singleton.mp hlast]

end Scope.DividedBy

namespace Divided

/-- What happens to the innermost composite state leaves those around it as they are. -/
theorem of_innermost
    (h : Divided past e)
    (hstack : e.stack = frame :: outer)
    (hstack' : e'.stack = { frame with scope } :: outer)
    (hopenings : e'.openings = e.openings)
    (hown : scope.DividedBy (dividersOf frame.serial past'))
    (hothers : ∀ serial, serial ≠ frame.serial → dividersOf serial past' = dividersOf serial past) :
    Divided past' e' := by
  obtain ⟨hsorted, hbounded, hfresh, hdivided⟩ := h
  rw [hstack] at hsorted hbounded hdivided
  obtain ⟨hbelow, houter⟩ := List.pairwise_cons.mp hsorted
  obtain ⟨hframe, hrest⟩ := List.forall_mem_cons.mp hbounded
  refine ⟨?_, ?_, fun serial hserial => ?_, ?_⟩
  · rw [hstack']
    exact List.pairwise_cons.mpr ⟨hbelow, houter⟩
  · rw [hstack', hopenings]
    exact List.forall_mem_cons.mpr ⟨hframe, hrest⟩
  · rw [hopenings] at hserial
    rw [hothers serial (by omega)]
    exact hfresh serial hserial
  · rw [hstack']
    refine List.forall_mem_cons.mpr ⟨hown, fun other hother => ?_⟩
    rw [hothers other.serial (Nat.ne_of_lt (hbelow other hother))]
    exact hdivided other (List.mem_cons_of_mem _ hother)

/-- The composite states around a closed one are as they were. -/
theorem of_outer
    (h : Divided past e)
    (hstack : e.stack = frame :: outer)
    (hstack' : e'.stack = outer)
    (hopenings : e'.openings = e.openings) :
    Divided past e' := by
  obtain ⟨hsorted, hbounded, hfresh, hdivided⟩ := h
  rw [hstack] at hsorted hbounded hdivided
  refine ⟨?_, ?_, hopenings ▸ hfresh, ?_⟩
  · rw [hstack']
    exact (List.pairwise_cons.mp hsorted).2
  · rw [hstack', hopenings]
    exact (List.forall_mem_cons.mp hbounded).2
  · rw [hstack']
    exact (List.forall_mem_cons.mp hdivided).2

theorem of_takes_element
    (h : Divided past e)
    {node : Node}
    (htakes : realization.Takes (.element node) e e')
    (hopenings : e'.openings = e.openings) :
    Divided past e' := by
  unfold Realization.Takes at htakes
  cases hstack : e.stack with
  | nil =>
      rw [hstack] at htakes
      refine ⟨?_, ?_, hopenings ▸ h.fresh, ?_⟩ <;> simp [htakes.1]
  | cons frame outer =>
      rw [hstack] at htakes
      obtain ⟨_, scope, hpush, hstack'⟩ := htakes
      cases hpush
      have hframe : frame ∈ e.stack := hstack ▸ List.mem_cons_self
      exact h.of_innermost hstack hstack' hopenings ((h.divided frame hframe).add node)
        fun _ _ => rfl

theorem of_closed
    (h : Divided past e)
    {token : Token}
    (hclosed : Closed (d := dialect) token e e') :
    Divided past e' := by
  obtain ⟨frame, outer, hstack, _, hends⟩ := hclosed.closed
  cases outer with
  | nil =>
      obtain ⟨_, _, hstack', _⟩ := hends
      exact h.of_outer hstack hstack' hclosed.openings
  | cons parent rest =>
      obtain ⟨scope, hadopt, hstack', _⟩ := hends
      cases hadopt
      have hinside : Divided past { e with stack := parent :: rest } :=
        h.of_outer hstack rfl rfl
      exact hinside.of_innermost rfl hstack' hclosed.openings
        ((hinside.divided parent List.mem_cons_self).add _) fun _ _ => rfl

theorem of_entered
    (h : Divided past e)
    {s : StateCall}
    {token : Token}
    (hentered : Entered realization inventory s token e e') :
    Divided past e' := by
  obtain ⟨scope, head, _, hstack, _, hholds, _⟩ := hentered.opened
  have hserial := hentered.serial
  have hopenings := hentered.openings
  have hnew : dividersOf token.serial past = [] := h.fresh token.serial (by omega)
  refine ⟨?_, ?_, fun serial hless => h.fresh serial (by omega), ?_⟩
  · rw [hstack]
    refine List.pairwise_cons.mpr ⟨fun other hother => ?_, h.sorted⟩
    have hold := h.bounded other hother
    change other.serial < token.serial
    omega
  · rw [hstack]
    refine List.forall_mem_cons.mpr ⟨?_, fun other hother => ?_⟩
    · change token.serial ≤ e'.openings
      omega
    · have hold := h.bounded other hother
      omega
  · rw [hstack]
    refine List.forall_mem_cons.mpr ⟨?_, h.divided⟩
    change scope.DividedBy (dividersOf token.serial past)
    rw [hnew, hholds.eq_of_nil]
    exact ⟨rfl, by simp, fun _ => rfl⟩

/-- A turn that is no region call changes nothing that is known of them. -/
theorem append_quiet
    (h : Divided past e)
    {t : AuthoringTurn dialect}
    (hquiet : ∀ serial, divider? serial t = none) :
    Divided (past ++ [t]) e := by
  have hsame : ∀ serial, dividersOf serial (past ++ [t]) = dividersOf serial past := by
    intro serial
    simp [dividersOf, hquiet serial]
  refine ⟨h.sorted, h.bounded, fun serial hserial => ?_, fun frame hframe => ?_⟩
  · rw [hsame]
    exact h.fresh serial hserial
  · rw [hsame]
    exact h.divided frame hframe

/-- A region call divides the innermost composite state once more. -/
theorem append_region
    {s : Session grammar}
    (h : Divided past s.engine)
    (htakes : realization.Takes (.clause separator) s.engine e')
    (hopenings : e'.openings = s.engine.openings) :
    Divided (past ++ [⟨.perform (.ok (.region separator)), s⟩]) e' := by
  unfold Realization.Takes at htakes
  cases hstack : s.engine.stack with
  | nil =>
      rw [hstack] at htakes
      obtain ⟨_, node, hnode, _⟩ := htakes
      cases hnode
  | cons frame outer =>
      rw [hstack] at htakes
      obtain ⟨_, scope, hstart, hstack'⟩ := htakes
      have hframe : frame ∈ s.engine.stack := hstack ▸ List.mem_cons_self
      refine h.of_innermost hstack hstack' hopenings ?_ fun serial hserial => ?_
      · have hown : dividersOf frame.serial (past ++ [⟨.perform (.ok (.region separator)), s⟩]) =
            dividersOf frame.serial past ++ [separator] := by
          simp [dividersOf, divider?, hstack]
        rw [hown]
        exact (h.divided frame hframe).startRegion hstart
      · simp [dividersOf, divider?, hstack, hserial.symm]

/-- What a turn does is written down behind what the turns before it have done. -/
theorem after_turn
    {t : AuthoringTurn dialect}
    (h : Divided past t.before.engine)
    (hnone : (t.after dialect.authoring).engine.failedAt = none) :
    Divided (past ++ [t]) (t.after dialect.authoring).engine := by
  obtain ⟨act, s⟩ := t
  cases act with
  | perform leaf =>
      cases leaf with
      | error what => exact h.append_quiet fun _ => rfl
      | ok call =>
          have hperformed := ((sound.ends_callBuild (e := s.engine) call).mono
            (fun _ _ h => h.2) fun _ _ h => h.1).of_unfailed hnone
          obtain ⟨⟨item, hread, htakes, _⟩, hcounts⟩ := hperformed
          have hopenings := hcounts.openings
          rcases region_or_element hread with ⟨separator, rfl, rfl⟩ | ⟨hcall, node, rfl, _⟩
          · exact h.append_region htakes hopenings
          · exact (h.of_takes_element htakes hopenings).append_quiet
              fun serial => divider?_eq_none hcall
  | enter opening =>
      have hentered := ((sound.ends_enter (e := s.engine) opening).mono
        (fun _ e' h =>
          (⟨_, h.2⟩ : ∃ token, Entered realization inventory opening token s.engine e'))
        fun _ _ h => h.1).of_unfailed hnone
      obtain ⟨token, hentered⟩ := hentered
      exact (h.of_entered hentered).append_quiet fun _ => rfl
  | close token =>
      have hclosed := ((ends_close (e := s.engine) token).mono
        (fun _ _ h => h.2) fun _ _ h => h).of_unfailed hnone
      exact (h.of_closed hclosed).append_quiet fun _ => rfl
  | drop token => cases hnone

end Divided

/-- Whatever turns lead to a build that has not failed say how its open composite states were
divided. -/
theorem divided_of_leads
    {s : Session grammar}
    {done : List (AuthoringTurn dialect)}
    (h : Leads dialect.authoring {} done s)
    (hnone : s.engine.failedAt = none) :
    Divided done s.engine := by
  refine h.carries (I := fun past s => s.engine.failedAt = none → Divided past s.engine)
    (fun past t ht hafter => ?_) [] (fun _ => ?_) hnone
  · exact (ht (unfailed_before_turn hafter)).after_turn hafter
  · exact ⟨List.Pairwise.nil, fun _ hframe => absurd hframe List.not_mem_nil, fun _ _ => rfl,
      fun _ hframe => absurd hframe List.not_mem_nil⟩

/-- A region call does with the innermost composite state what starting a region does. -/
theorem region_ends
    (hnone : e.failedAt = none)
    (hstack : e.stack = frame :: outer)
    (separator : Separator) :
    (dialect.callBuild (.region separator)).Ends e
      (fun reply e' => reply = .done ∧ ∃ scope, frame.scope.startRegion separator = .ok scope ∧
        e'.root = e.root ∧ e'.stack = { frame with scope } :: outer)
      (fun _ _ => ∀ scope, frame.scope.startRegion separator ≠ .ok scope) := by
  rw [Dialect.callBuild, Engine.ends_step_of_unfailed _ hnone, Attempt.ends_bind]
  change Attempt.Ends (Action.mark "region" "a composite state" _ >>= fun _ => _) _ _ _
  rw [Attempt.ends_bind, Action.ends_mark]
  refine ⟨fun hempty => ?_, fun frame' outer' hcons => ?_⟩
  · cases hstack.symm.trans hempty
  · obtain ⟨rfl, rfl⟩ := List.cons.inj (hstack.symm.trans hcons)
    refine ⟨nofun, fun fault hfault scope hscope => ?_, fun scope hscope => ?_⟩
    · cases (Option.some.inj hfault).symm.trans hscope
    · exact ⟨rfl, scope, Option.some.inj hscope, rfl, rfl⟩

end Dividers

/-- Every composite state of a chart that a program builds has its shape.  And in a build
that has not failed, a region call directly in a composite state succeeds exactly if the
current region holds something and the separator is that of every region call made directly
in it before; then it starts one region and changes nothing else.  The composite state has
one finished region for each of these calls. -/
theorem composites_shaped_and_divided_by_calls :
    (∀ nodes, dialect.Authored nodes → ∀ s separator regions,
      .composite s separator regions ∈ anatomy.preorder nodes → Shaped s separator regions) ∧
    ∀ done s (frame : Frame grammar) outer, Leads dialect.authoring {} done s →
      s.engine.failedAt = none → s.engine.stack = frame :: outer →
      frame.scope.finished.length = (dividersOf frame.serial done).length ∧
      ∀ separator, let made := dialect.authoring.perform (.ok (.region separator)) s
        ((∃ reply, made.1 = .ok reply) ↔ frame.scope.body ≠ [] ∧
          ∀ earlier ∈ dividersOf frame.serial done, earlier = separator) ∧
        ∀ reply, made.1 = .ok reply → reply = .done ∧ made.2.engine.root = s.engine.root ∧
          made.2.engine.stack = { frame with
            scope := { frame.scope with
              separator := some separator
              finished := frame.scope.finished ++ [frame.scope.body]
              body := [] } } :: outer := by
  refine ⟨fun nodes hauthored s separator regions hmem => ?_, ?_⟩
  · exact allShaped_of_authored hauthored _ hmem
  · intro done s frame outer hleads hnone hstack
    have hmem : frame ∈ s.engine.stack := hstack ▸ List.mem_cons_self
    have hdivided := (divided_of_leads hleads hnone).divided frame hmem
    refine ⟨hdivided.count, fun separator => ?_⟩
    intro made
    have hends := region_ends hnone hstack separator
    rw [← hdivided.startRegion_iff]
    refine ⟨⟨?_, ?_⟩, fun reply hreply => ?_⟩
    · rintro ⟨reply, hreply⟩
      obtain ⟨_, scope, hstart, _⟩ := hends.of_ok (Prod.ext hreply rfl)
      exact ⟨scope, hstart⟩
    · rintro ⟨scope, hstart⟩
      rcases hmade : made.1 with error | reply
      · exact absurd hstart (hends.of_error (Prod.ext hmade rfl) scope)
      · exact ⟨reply, rfl⟩
    · obtain ⟨hdone, scope, hstart, hroot, hstack'⟩ := hends.of_ok (Prod.ext hreply rfl)
      obtain ⟨_, _, rfl⟩ := Scope.startRegion_eq_ok_iff.mp hstart
      exact ⟨hdone, hroot, hstack'⟩

/-- Opens a composite state and puts a state, a division and another state into it. -/
def partedActs : List (Act (Except InvalidValue Call) StateCall) :=
  [.enter { name := "A" }, .perform (.ok (.state { name := "x" })),
    .perform (.ok (.region .vertical)), .perform (.ok (.state { name := "y" }))]

/-- A program that builds a composite state with two regions. -/
def partedProgram : List (Authoring dialect) :=
  [.scope { name := "A" } false [.call (.ok (.state { name := "x" })) false,
    .call (.ok (.region .vertical)) false, .call (.ok (.state { name := "y" })) false]]

/-- The composite state that the program builds. -/
def partedNode : Node :=
  .composite { id := ⟨"A", .inl (by decide)⟩ } .vertical
    [[.state { id := ⟨"x", .inl (by decide)⟩ }], [.state { id := ⟨"y", .inl (by decide)⟩ }]]

/-- A further region call has to be made with the same separator, and the composite state
has its shape when it is closed. -/
theorem composites_shaped_and_divided_by_calls_of_parted :
    (dialect.Authored [partedNode] ∧ partedNode.Shaped) ∧
    let m := dialect.authoring
    let done := turnsOfActs m {} partedActs
    let s := afterActs m {} partedActs
    Leads m {} done s ∧ s.engine.failedAt = none ∧ dividersOf 1 done = [.vertical] ∧
      (∃ reply, (m.perform (.ok (.region .vertical)) s).1 = .ok reply) ∧
      ¬∃ reply, (m.perform (.ok (.region .horizontal)) s).1 = .ok reply := by
  obtain ⟨hshaped, hregions⟩ := composites_shaped_and_divided_by_calls
  have hauthored : dialect.Authored [partedNode] := ⟨partedProgram, rfl⟩
  have hleads := leads_turnsOfActs (m := dialect.authoring) partedActs {}
  have hdividers : dividersOf 1 (turnsOfActs dialect.authoring {} partedActs) = [.vertical] := rfl
  obtain ⟨_, hcalls⟩ := hregions _ _ _ _ hleads rfl rfl
  refine ⟨⟨hauthored, hshaped _ hauthored _ _ _ ?_⟩, hleads, rfl, hdividers,
    (hcalls .vertical).1.mpr ⟨nofun, ?_⟩, fun h => ?_⟩
  · rw [Anatomy.preorder_singleton]
    exact List.mem_cons_self
  · change ∀ earlier ∈ dividersOf 1 _, _
    rw [hdividers]
    exact fun _ => List.mem_singleton.mp
  · have hsame : ∀ earlier ∈ dividersOf 1 _, earlier = .horizontal :=
      ((hcalls .horizontal).1.mp h).2
    rw [hdividers] at hsame
    cases hsame .vertical List.mem_cons_self

end UmlText.StateChart
