import UmlText.Proofs.Nesting
import UmlText.Proofs.Sequence.Admission

/-!
# Verdicts on calls of sequence diagrams

An engine *mirrors* the surroundings of a moment when its open scopes are the blocks around
the moment, when its registry lists the aliases that the calls before have introduced, and
when it remembers the participants of the stretches of activity that are open.  In such an
engine a call without a body succeeds exactly when it is in order at the moment.
-/

namespace UmlText.Sequence

open UmlText.Action

/-- The kind of a block; a box has none. -/
def Opening.blockKind? : Opening → Option BlockKind
  | .block kind _ => some kind
  | .box .. => none

/-- The kind of an open block; an open box has none. -/
def Scope.blockKind? : Scope → Option BlockKind
  | .block kind .. => some kind
  | .box .. => none

/-- The open scopes are the constructs, the innermost one first. -/
abbrev Standing : List Opening → List (Frame grammar) → Prop :=
  List.Forall₂ fun opening frame => Scope.blockKind? frame.scope = opening.blockKind?

/-- The engine has come to where a call finds these constructs around it, and these calls
before it. -/
structure Mirrors (around : List Opening) (before : List Call) (e : Engine grammar) : Prop where
  standing : Standing around e.stack
  aliases : e.registry.aliases.map Alias.name = (aliasesFrom 0 before).reverse
  generated : e.registry.generated = generatedFrom 0 before
  kinds : ∀ entry ∈ e.registry.entries, entry.2 = participantKind
  active : e.context.map Alias.name = Stretch.openOf (stretches before)
  nested : Nested (d := dialect) e.stack
  unfailed : e.failedAt = none

variable {around : List Opening} {before : List Call} {e : Engine grammar} {c : Call}

theorem Scope.blockKind?_eq_some_iff
    {scope : Scope}
    {kind : BlockKind} :
    scope.blockKind? = some kind ↔
      ∃ finished last body, scope = .block kind finished last body := by
  cases scope <;> simp [Scope.blockKind?]

theorem Scope.blockKind?_eq_none_iff {scope : Scope} :
    scope.blockKind? = none ↔ ∃ title color ps, scope = .box title color ps := by
  cases scope <;> simp [Scope.blockKind?]

section Names

theorem known_append {first second : List String} :
    Known before (first ++ second) ↔ Known before first ∧ Known before second :=
  List.forall_mem_append

theorem known_cons {name : String} {rest : List String} :
    Known before (name :: rest) ↔ Known before [name] ∧ Known before rest := by
  rw [← known_append, List.singleton_append]

/-- The alias that is read from the texts of a participant has the name that it is known by.
-/
theorem name_of_readNaming
    {p : ParticipantCall}
    {generated generated' : Nat}
    {a : Alias}
    {display : Option String}
    (h : readNaming "p" p.name p.givenAlias generated = some ((a, display), generated')) :
    a.name = p.aliasName generated ∧ generated' = p.generatedAfter generated := by
  unfold ParticipantCall.aliasName ParticipantCall.generatedAfter ParticipantCall.isUnnamed
  unfold readNaming at h
  cases hgiven : p.givenAlias with
  | some given =>
      rw [hgiven] at h
      obtain ⟨b, hb, hpair⟩ := Option.map_eq_some_iff.mp h
      cases hpair
      exact ⟨Alias.name_of_ofName? hb, by simp⟩
  | none =>
      simp only [hgiven] at h
      by_cases hbare : isBareName p.name = true
      · rw [if_pos hbare] at h
        obtain ⟨b, hb, hpair⟩ := Option.map_eq_some_iff.mp h
        cases hpair
        simp [hbare, Alias.name_of_ofName? hb]
      · rw [if_neg hbare] at h
        cases h
        simp [hbare]

end Names

section Rules

variable (hmirrors : Mirrors around before e)

include hmirrors

/-- A name is that of a declared alias when a call has introduced it. -/
theorem exists_alias_iff {name : String} :
    (∃ a ∈ e.registry.aliases, a.name = name) ↔ name ∈ aliasesFrom 0 before := by
  rw [← List.mem_map, hmirrors.aliases, List.mem_reverse]

/-- An alias is declared when a call has introduced one of its name. -/
theorem mem_aliases_iff {a : Alias} :
    a ∈ e.registry.aliases ↔ a.name ∈ aliasesFrom 0 before := by
  rw [← exists_alias_iff hmirrors]
  constructor
  · exact fun ha => ⟨a, ha, rfl⟩
  · rintro ⟨b, hb, hname⟩
    rw [← Alias.ext hname]
    exact hb

theorem resolveParticipant_succeeds_iff (name : String) :
    (resolveParticipant name).Succeeds e ↔ Known before [name] := by
  rw [resolveParticipant, succeeds_resolve, Known, List.forall_mem_singleton,
    ← exists_alias_iff hmirrors]
  simp only [Registry.resolve_eq_ok_iff hmirrors.kinds]

theorem resolveEnd_succeeds_iff (name : Option String) :
    (resolveEnd name).Succeeds e ↔ Known before name.toList := by
  cases name with
  | none => exact iff_of_true trivial fun _ h => by cases h
  | some name =>
      rw [resolveEnd, Attempt.succeeds_bind_pure]
      exact resolveParticipant_succeeds_iff hmirrors name

theorem resolveAll_succeeds_iff (names : List String) :
    (resolveAll names).Succeeds e ↔ Known before names := by
  induction names with
  | nil => exact iff_of_true trivial fun _ h => by cases h
  | cons name rest ih =>
      rw [resolveAll, known_cons]
      refine Attempt.succeeds_bind_iff (resolveParticipant_succeeds_iff hmirrors name) ?_
      refine (ends_resolve_of_reading name participantKind).mono ?_ fun _ _ _ => trivial
      rintro a _ ⟨_, _, rfl⟩
      rw [Attempt.succeeds_bind_pure]
      exact ih

theorem resolvePlace_succeeds_iff (place : NotePlace String) :
    (resolvePlace place).Succeeds e ↔
      (∀ names, place = .covering names → names.length = 1 ∨ names.length = 2) ∧
        Known before place.participants := by
  cases place with
  | leftOf name =>
      rw [resolvePlace, Attempt.succeeds_bind_pure, resolveParticipant_succeeds_iff hmirrors]
      simp [NotePlace.participants]
  | rightOf name =>
      rw [resolvePlace, Attempt.succeeds_bind_pure, resolveParticipant_succeeds_iff hmirrors]
      simp [NotePlace.participants]
  | covering names =>
      have hsize : (names.isEmpty || 2 < names.length) = true ↔
          ¬(names.length = 1 ∨ names.length = 2) := by
        rw [Bool.or_eq_true, List.isEmpty_iff_length_eq_zero, decide_eq_true_eq]
        omega
      have hall := resolveAll_succeeds_iff hmirrors names
      unfold Attempt.Succeeds at hall ⊢
      simp only [resolvePlace, Attempt.ends_bind, Attempt.ends_ite, Attempt.ends_throw,
        Attempt.ends_pure, hall, hsize, NotePlace.participants, NotePlace.covering.injEq,
        forall_eq', imp_false, not_not]
      exact ⟨fun h => ⟨h.1, h.2 h.1⟩, fun h => ⟨h.1, fun _ => h.2⟩⟩
  | across => simp [resolvePlace, Attempt.Succeeds, NotePlace.participants, Known]

/-- A participant is declared when its name is accepted and its alias is new. -/
theorem declareParticipant_succeeds_iff (p : ParticipantCall) :
    p.declare.Succeeds e ↔ (IsVisible p.name ∧ FitsOneLine p.name) ∧ p.IsNew before := by
  rw [ParticipantCall.declare, succeeds_check_bind singleLine_keeps_iff, ParticipantCall.IsNew]
  refine and_congr_right fun _ => Attempt.succeeds_bind_iff succeeds_chooseAlias ?_
  refine (ends_chooseAlias p.name p.givenAlias (by decide)).mono ?_ fun _ _ _ => trivial
  rintro ⟨a, display⟩ e' ⟨hread, _, hentries, _⟩
  obtain ⟨haliasName, _⟩ := name_of_readNaming hread
  have haliases : e'.registry.aliases = e.registry.aliases := congrArg (List.map Prod.fst) hentries
  rw [succeeds_declare_bind]
  simp only [Registry.declare_eq_ok_iff, haliases, mem_aliases_iff hmirrors, haliasName,
    hmirrors.generated]
  constructor
  · rintro ⟨_, ⟨hnew, _⟩, _⟩
    exact hnew
  · exact fun hnew => ⟨_, ⟨hnew, rfl⟩, trivial⟩

/-- A participant has a place everywhere, and any other element outside of boxes. -/
theorem append_succeeds
    {e' : Engine grammar}
    {node : Node}
    (hstack : e'.stack = e.stack)
    (hplace : ∀ title color, around.head? = some (.box title color) →
      ∃ p, node = .participant p) :
    (append node : Action grammar Unit).Succeeds e' := by
  rw [succeeds_append, hstack]
  have hstanding := hmirrors.standing
  generalize e.stack = stack at hstanding
  rintro frame outer rfl
  cases hstanding with
  | @cons opening _ around _ hstands _ =>
      cases opening with
      | block kind label =>
          obtain ⟨_, _, _, hscope⟩ := Scope.blockKind?_eq_some_iff.mp hstands
          rw [hscope]
          exact ⟨_, rfl⟩
      | box title color =>
          obtain ⟨_, _, _, hscope⟩ := Scope.blockKind?_eq_none_iff.mp hstands
          obtain ⟨p, rfl⟩ := hplace title color rfl
          rw [hscope]
          exact ⟨_, rfl⟩

end Rules

/-- The ends of a message are checked by what is inside the diagram. -/
theorem checkEnds_eq_ok_iff
    {m : Message Alias}
    (kept : Unit) :
    m.checkEnds = .ok kept ↔ m.EndsInside ∧ kept = () := by
  obtain ⟨source, target, text, arrow, activation⟩ := m
  unfold Message.checkEnds Message.EndsInside
  cases source <;> cases target <;> cases activation with
  | none => simp
  | some activation => cases activation <;> simp

/-- The names of the ends of a message decide as the ends themselves do. -/
theorem endsInside_resolved_iff
    {m : Message String}
    {source target : Option Alias}
    (hsource : readEnd m.source = some source)
    (htarget : readEnd m.target = some target) :
    Message.EndsInside { source, target, arrow := m.arrow, activation := m.activation } ↔
      m.EndsInside := by
  unfold Message.EndsInside
  rw [name_of_readEnd hsource, name_of_readEnd htarget]
  simp

theorem succeeds_rememberOpen_bind
    {β : Type}
    {change : Activations → Activations}
    {next : Unit → Action grammar β} :
    (rememberOpen change >>= next).Succeeds e ↔
      (next ()).Succeeds { e with context := change e.context } :=
  Iff.rfl

theorem checkSpace_eq_ok_iff
    {pixels : Option Nat}
    (kept : Unit) :
    checkSpace pixels = .ok kept ↔ (∀ n ∈ pixels, 1 ≤ n ∧ n ≤ maxSpace) ∧ kept = () := by
  cases pixels with
  | none => simp [checkSpace]
  | some n => by_cases h : 1 ≤ n ∧ n ≤ maxSpace <;> simp [checkSpace, h]

theorem Autonumber.check_eq_ok_iff
    {n : Autonumber}
    (kept : Unit) :
    n.check = .ok kept ↔
      ((Call.autonumber n).Accepted ∧ ∀ first format, n ≠ .start first (some 0) format) ∧
        kept = () := by
  cases n with
  | start first step format =>
      by_cases hstep : step = some 0
      · simp [Autonumber.check, hstep]
      · simp [Autonumber.check, hstep, Call.Accepted, map_eq_ok_iff,
          optionally_singleLine_eq_ok_iff]
  | stop => simp [Autonumber.check, Call.Accepted]
  | resume => simp [Autonumber.check, Call.Accepted]

/-- Another section is started directly inside a block that may have several. -/
theorem exists_startSection_iff
    {label : Option String}
    (hstanding : Standing around e.stack) :
    (∃ frame outer scope, e.stack = frame :: outer ∧
      Scope.startSection label frame.scope = some (.ok scope)) ↔
      ∃ kind first, around.head? = some (.block kind first) ∧ kind.hasSections = true := by
  generalize e.stack = stack at hstanding
  cases hstanding with
  | nil => simp
  | @cons opening frame around outer hstands _ =>
      cases opening with
      | block kind first =>
          obtain ⟨finished, last, body, hscope⟩ := Scope.blockKind?_eq_some_iff.mp hstands
          simp [Scope.startSection_eq_ok_iff, hscope]
      | box title color =>
          obtain ⟨_, _, _, hscope⟩ := Scope.blockKind?_eq_none_iff.mp hstands
          simp [Scope.startSection, hscope]

section Calls

variable (hmirrors : Mirrors around before e)

include hmirrors

/-- A call that introduces a participant as its element. -/
theorem introduction_succeeds_iff
    {node : Participant → Node}
    (p : ParticipantCall)
    (hplace : ∀ q title color, around.head? = some (.box title color) →
      ∃ q', node q = .participant q') :
    (do
      let q ← p.declare
      append (node q)
      return some q.id : Action grammar (Option Alias)).Succeeds e ↔
      (IsVisible p.name ∧ FitsOneLine p.name) ∧ p.IsNew before := by
  rw [← declareParticipant_succeeds_iff hmirrors]
  refine Attempt.succeeds_bind_of_ends ((ends_declareParticipant p).mono ?_ fun _ _ _ => trivial)
  rintro q e' ⟨_, hnamed⟩
  rw [Attempt.succeeds_bind_pure]
  exact append_succeeds hmirrors hnamed.stack (hplace q)

variable (hplace : ∀ title color, around.head? ≠ some (.box title color))

include hplace

/-- Outside of boxes an element that is the last thing of a call has its place. -/
theorem append_pure_succeeds
    {e' : Engine grammar}
    (hstack : e'.stack = e.stack)
    (node : Node)
    (answer : Option Alias) :
    (append node >>= fun _ => pure answer : Action grammar (Option Alias)).Succeeds e' := by
  rw [Attempt.succeeds_bind_pure]
  exact append_succeeds hmirrors hstack fun title color hhead => absurd hhead (hplace title color)

theorem message_succeeds_iff (m : Message String) :
    (Call.perform (.message m)).Succeeds e ↔
      (Call.message m).Accepted ∧ (Call.message m).Placed around before := by
  have hsplit : (Call.message m).Accepted ∧ (Call.message m).Placed around before ↔
      Known before m.source.toList ∧ Known before m.target.toList ∧ m.EndsInside ∧
        ∀ t ∈ m.text, IsVisible t := by
    simp only [Call.Accepted, Call.Placed, known_append]
    tauto
  rw [hsplit, Call.perform]
  refine Attempt.succeeds_bind_iff (resolveEnd_succeeds_iff hmirrors m.source) ?_
  refine (ends_resolveEnd m.source).mono ?_ fun _ _ _ => trivial
  rintro source _ ⟨hsource, _, rfl⟩
  refine Attempt.succeeds_bind_iff (resolveEnd_succeeds_iff hmirrors m.target) ?_
  refine (ends_resolveEnd m.target).mono ?_ fun _ _ _ => trivial
  rintro target _ ⟨htarget, _, rfl⟩
  have hends : ∀ kept,
      Message.checkEnds
        { source, target, arrow := m.arrow, activation := m.activation } = .ok kept ↔
        m.EndsInside ∧ kept = () := by
    intro kept
    rw [← endsInside_resolved_iff hsource htarget, checkEnds_eq_ok_iff]
  dsimp only
  rw [succeeds_check_bind hends, succeeds_check_bind fun _ => optionally_freeText_eq_ok_iff]
  refine and_congr_right fun _ => and_iff_left ?_
  rw [succeeds_rememberOpen_bind]
  refine append_pure_succeeds hmirrors hplace ?_ _ _
  rfl

/-- A return succeeds while some activation is open. -/
theorem reply_succeeds_iff (text : Option String) :
    (Call.perform (.reply text)).Succeeds e ↔
      (Call.reply text).Accepted ∧ (Call.reply text).Placed around before := by
  have happend : (append (.reply text) : Action grammar Unit).Succeeds e :=
    append_succeeds hmirrors rfl fun title color hhead => absurd hhead (hplace title color)
  rw [Call.perform, succeeds_check_bind fun _ => optionally_freeText_eq_ok_iff]
  refine and_congr_right fun _ => ?_
  rw [Call.Placed, ← Stretch.openOf_ne_nil_iff, ← hmirrors.active]
  simp only [Attempt.Succeeds, Attempt.ends_bind, Attempt.ends_get, Attempt.ends_ite,
    ends_misplaced, imp_false]
  constructor
  · rintro ⟨hactive, _⟩ hnil
    exact hactive (List.isEmpty_iff.mpr (List.map_eq_nil_iff.mp hnil))
  · intro hactive
    refine ⟨fun hnil => hactive ?_, fun _ => happend.mono (fun _ _ _ => trivial) fun _ _ h => h⟩
    rw [List.isEmpty_iff.mp hnil]
    rfl

theorem ref_succeeds_iff (names : List String) (text : String) :
    (Call.perform (.ref names text)).Succeeds e ↔
      (Call.ref names text).Accepted ∧ (Call.ref names text).Placed around before := by
  rw [Call.perform]
  cases names with
  | nil => exact iff_of_false not_false fun h => h.2.1 rfl
  | cons name rest =>
      have hsplit : (Call.ref (name :: rest) text).Accepted ∧
          (Call.ref (name :: rest) text).Placed around before ↔
          Known before (name :: rest) ∧ IsVisible text := by
        simp only [Call.Accepted, Call.Placed, ne_eq, reduceCtorEq, not_false_eq_true, true_and]
        exact and_comm
      rw [hsplit]
      refine Attempt.succeeds_bind_iff (resolveAll_succeeds_iff hmirrors (name :: rest)) ?_
      refine (ends_resolveAll (name :: rest)).mono ?_ fun _ _ _ => trivial
      rintro participants _ ⟨_, _, rfl⟩
      rw [succeeds_check_bind fun _ => freeText_eq_ok_iff]
      exact and_iff_left (append_pure_succeeds hmirrors hplace rfl _ _)

/-- A call that names one participant and changes the open activations. -/
theorem named_succeeds_iff
    {node : Alias → Node}
    {change : Alias → Activations → Activations}
    (name : String) :
    (do
      let p ← resolveParticipant name
      rememberOpen (change p)
      append (node p)
      return none : Action grammar (Option Alias)).Succeeds e ↔ Known before [name] := by
  rw [← resolveParticipant_succeeds_iff hmirrors]
  refine Attempt.succeeds_bind_of_ends ?_
  refine (ends_resolve_of_reading name participantKind).mono ?_ fun _ _ _ => trivial
  rintro a _ ⟨_, _, rfl⟩
  rw [succeeds_rememberOpen_bind]
  refine append_pure_succeeds hmirrors hplace ?_ _ _
  rfl

end Calls

/-- Every call but one that introduces a participant is offered outside of boxes only. -/
theorem not_box_of_offered
    (hoffered : handles.call around.head? c = true)
    (hc : ∀ p, c ≠ .participant p) :
    ∀ title color, around.head? ≠ some (.box title color) := by
  intro title color hhead
  rw [hhead] at hoffered
  cases c with
  | participant p => exact hc p rfl
  | _ => cases hoffered

/-- A call without a body succeeds exactly when it is in order. -/
theorem perform_succeeds_iff
    {around : List (Plan.Enclosure dialect)}
    (hmirrors : Mirrors (Plan.openings around) before e)
    (hoffered : handles.call (Plan.openings around).head? c = true) :
    c.perform.Succeeds e ↔ Admissible ⟨.call c, around, before⟩ := by
  rw [admissible_call_iff]
  have hplace := not_box_of_offered hoffered
  cases c with
  | participant p => exact introduction_succeeds_iff hmirrors p fun q _ _ _ => ⟨q, rfl⟩
  | create p =>
      refine introduction_succeeds_iff hmirrors p fun _ title color hhead => ?_
      exact absurd hhead (hplace (by simp) title color)
  | message m => exact message_succeeds_iff hmirrors (hplace (by simp)) m
  | reply text => exact reply_succeeds_iff hmirrors (hplace (by simp)) text
  | note n =>
      rw [Call.perform, and_comm]
      refine Attempt.succeeds_bind_iff (resolvePlace_succeeds_iff hmirrors n.place) ?_
      refine (ends_resolvePlace n.place).mono ?_ fun _ _ _ => trivial
      rintro place _ ⟨_, _, rfl⟩
      rw [succeeds_check_bind fun _ => freeText_eq_ok_iff]
      exact and_iff_left (append_pure_succeeds hmirrors (hplace (by simp)) rfl _ _)
  | ref names text => exact ref_succeeds_iff hmirrors (hplace (by simp)) names text
  | activate name color =>
      exact (named_succeeds_iff hmirrors (hplace (by simp)) name).trans (and_iff_right trivial).symm
  | deactivate name =>
      exact (named_succeeds_iff hmirrors (hplace (by simp)) name).trans (and_iff_right trivial).symm
  | destroy name =>
      exact (named_succeeds_iff hmirrors (hplace (by simp)) name).trans (and_iff_right trivial).symm
  | divider text =>
      rw [Call.perform, succeeds_check_bind singleLine_keeps_iff]
      have happend := append_pure_succeeds hmirrors (hplace (by simp)) rfl (.divider text) none
      exact and_congr_right fun _ => iff_of_true happend trivial
  | delay text =>
      rw [Call.perform, succeeds_check_bind fun _ => optionally_singleLine_eq_ok_iff]
      have happend := append_pure_succeeds hmirrors (hplace (by simp)) rfl (.delay text) none
      exact and_congr_right fun _ => iff_of_true happend trivial
  | space pixels =>
      rw [Call.perform, succeeds_check_bind checkSpace_eq_ok_iff]
      have happend := append_pure_succeeds hmirrors (hplace (by simp)) rfl (.space pixels) none
      exact and_comm.trans (and_congr_left' (iff_of_true happend trivial))
  | autonumber n =>
      rw [Call.perform, succeeds_check_bind Autonumber.check_eq_ok_iff]
      exact and_iff_left (append_pure_succeeds hmirrors (hplace (by simp)) rfl _ _)
  | otherwise label =>
      rw [Call.perform, succeeds_check_bind fun _ => optionally_singleLine_eq_ok_iff,
        Attempt.succeeds_bind_pure, succeeds_mark, exists_startSection_iff hmirrors.standing]
      rfl

end UmlText.Sequence
