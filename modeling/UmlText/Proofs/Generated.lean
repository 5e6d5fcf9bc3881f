import UmlText.Proofs.Answers
import UmlText.Proofs.Kinds

/-!
# Generated aliases

An engine numbers the aliases that it generates, and the number of every one of them is
greater than all before it.  But the number stands behind the stem with nothing between
them, so two generated aliases are one and the same where the digits that one number has in
front of the other belong to the other stem: `a1` and the first number, `a` and the eleventh
(`generated_eq_iff_of_lt`).  Between stems that end in no digit this never happens, and no
generated alias is ever one that a caller could give.
-/

namespace UmlText

namespace Alias

theorem toList_generated (stem : String) (index : Nat) :
    (generated stem index).name.toList =
      generatedMark ++ (stem.toList ++ Nat.toDigits 10 index) := by
  rw [generated, String.toList_ofList, Nat.toString_eq_ofList_toDigits, String.toList_ofList,
    List.append_assoc]

/-- A number whose last digits are those of another one is not less than it. -/
theorem le_of_toDigits_eq_append
    {m n : Nat}
    {digits : List Char}
    (h : Nat.toDigits 10 n = digits ++ Nat.toDigits 10 m) :
    m ≤ n := by
  have hvalue := congrArg (fun ds => Nat.ofDigitChars 10 ds 0) h
  simp only [Nat.ofDigitChars_append, Nat.ofDigitChars_ten_toDigits] at hvalue
  rw [Nat.ofDigitChars_eq_ofDigitChars_zero, Nat.ofDigitChars_ten_toDigits] at hvalue
  exact hvalue ▸ Nat.le_add_left ..

/-- Of two generated aliases that are the same, the one with the smaller number has the
longer stem: it ends in the digits that the greater number has in front of the smaller one.
-/
theorem generated_eq_iff_of_lt
    {m n : Nat}
    (hless : m < n)
    (stem stem' : String) :
    generated stem m = generated stem' n ↔
      ∃ digits, digits ≠ [] ∧ stem.toList = stem'.toList ++ digits ∧
        Nat.toDigits 10 n = digits ++ Nat.toDigits 10 m := by
  rw [Alias.ext_iff, ← String.toList_inj, toList_generated, toList_generated,
    List.append_cancel_left_eq, List.append_eq_append_iff]
  constructor
  · rintro (⟨digits, _, hdigits⟩ | ⟨digits, hstem, hdigits⟩)
    · -- the digits of the smaller number would end in all those of the greater one
      exact absurd (le_of_toDigits_eq_append hdigits) (Nat.not_le_of_lt hless)
    · refine ⟨digits, ?_, hstem, hdigits⟩
      rintro rfl
      have hsame : Nat.toDigits 10 m = [] ++ Nat.toDigits 10 n := hdigits.symm
      exact absurd (le_of_toDigits_eq_append hsame) (Nat.not_le_of_lt hless)
  · rintro ⟨digits, _, hstem, hdigits⟩
    exact .inr ⟨digits, hstem, hdigits⟩

/-- With one stem, different numbers make different aliases. -/
theorem index_eq_of_generated_eq
    {stem : String}
    {m n : Nat}
    (h : generated stem m = generated stem n) :
    m = n := by
  rw [Alias.ext_iff, ← String.toList_inj, toList_generated, toList_generated,
    List.append_cancel_left_eq, List.append_cancel_left_eq] at h
  rw [← @Nat.ofDigitChars_ten_toDigits m, ← @Nat.ofDigitChars_ten_toDigits n, h]

/-- No caller can give a generated alias. -/
theorem parse_ne_generated (text stem : String) (index : Nat) :
    parse text ≠ .ok (generated stem index) := by
  intro h
  obtain ⟨hflaw, rfl⟩ := parse_eq_ok_iff.mp h
  rw [aliasFlaw?_eq_reserved (isGenerated_generated stem index)] at hflaw
  cases hflaw

end Alias

/-- The number of aliases that were generated never falls. -/
structure Reading.Advances {d : Dialect} (r : Reading d) : Prop where
  call : ∀ {n call item n'}, r.call n call = some (item, n') → n ≤ n'
  opening : ∀ {n opening head n'}, r.opening n opening = some (head, n') → n ≤ n'

theorem le_of_readNaming
    {stem name : String}
    {given : Option String}
    {n n' : Nat}
    {named : Alias × Option String}
    (h : readNaming stem name given n = some (named, n')) :
    n ≤ n' := by
  unfold readNaming at h
  cases given with
  | some given =>
      obtain ⟨a, _, hpair⟩ := Option.map_eq_some_iff.mp h
      exact Nat.le_of_eq (congrArg Prod.snd hpair)
  | none =>
      dsimp only at h
      split at h
      · obtain ⟨a, _, hpair⟩ := Option.map_eq_some_iff.mp h
        exact Nat.le_of_eq (congrArg Prod.snd hpair)
      · cases h
        exact Nat.le_succ n

/-- What is made of a name is numbered as the name is. -/
theorem le_of_map_readNaming
    {α : Type}
    {stem name : String}
    {given : Option String}
    {n n' : Nat}
    {make : (Alias × Option String) × Nat → α × Nat}
    {made : α}
    (h : (readNaming stem name given n).map make = some (made, n'))
    (hmake : ∀ named, (make named).2 = named.2) :
    n ≤ n' := by
  obtain ⟨⟨named, number⟩, hnamed, hpair⟩ := Option.map_eq_some_iff.mp h
  have hnumber : number = n' := (hmake (named, number)).symm.trans (congrArg Prod.snd hpair)
  exact hnumber ▸ le_of_readNaming hnamed

theorem Activity.advances : Activity.reading.Advances where
  call h := by
    obtain ⟨item, _, hpair⟩ := Option.map_eq_some_iff.mp h
    exact Nat.le_of_eq (congrArg Prod.snd hpair)
  opening h := Nat.le_of_eq (congrArg Prod.snd (Option.some.inj h))

theorem Sequence.advances : Sequence.reading.Advances where
  call {n call item n'} h := by
    cases call with
    | participant p =>
        obtain ⟨⟨read, number⟩, hread, hpair⟩ := Option.map_eq_some_iff.mp h
        cases hpair
        exact le_of_map_readNaming hread fun _ => rfl
    | create p =>
        obtain ⟨⟨read, number⟩, hread, hpair⟩ := Option.map_eq_some_iff.mp h
        cases hpair
        exact le_of_map_readNaming hread fun _ => rfl
    | _ =>
        simp only [Call.read] at h
        obtain ⟨item, _, hpair⟩ := Option.map_eq_some_iff.mp h
        exact Nat.le_of_eq (congrArg Prod.snd hpair)
  opening h := Nat.le_of_eq (congrArg Prod.snd (Option.some.inj h))

theorem StateChart.advances : StateChart.reading.Advances where
  call {n call item n'} h := by
    cases call with
    | state s =>
        obtain ⟨⟨read, number⟩, hread, hpair⟩ := Option.map_eq_some_iff.mp h
        cases hpair
        exact le_of_map_readNaming hread fun _ => rfl
    | transition t =>
        obtain ⟨source, _, h⟩ := Option.bind_eq_some_iff.mp h
        obtain ⟨target, _, h⟩ := Option.bind_eq_some_iff.mp h
        exact Nat.le_of_eq (congrArg Prod.snd (Option.some.inj h))
    | note note =>
        obtain ⟨target, _, h⟩ := Option.bind_eq_some_iff.mp h
        exact Nat.le_of_eq (congrArg Prod.snd (Option.some.inj h))
    | region separator => exact Nat.le_of_eq (congrArg Prod.snd (Option.some.inj h))
  opening {n opening head n'} h := by
    have hread : StateCall.read n opening = some (head, n') := h
    exact le_of_map_readNaming hread fun _ => rfl

theorem ClassDiagram.advances : ClassDiagram.reading.Advances where
  call {n call item n'} h := by
    cases call with
    | «class» c =>
        obtain ⟨⟨read, number⟩, hread, hpair⟩ := Option.map_eq_some_iff.mp h
        cases hpair
        exact le_of_map_readNaming hread fun _ => rfl
    | relation relation =>
        obtain ⟨source, _, h⟩ := Option.bind_eq_some_iff.mp h
        obtain ⟨target, _, h⟩ := Option.bind_eq_some_iff.mp h
        exact Nat.le_of_eq (congrArg Prod.snd (Option.some.inj h))
    | note note =>
        obtain ⟨target, _, h⟩ := Option.bind_eq_some_iff.mp h
        exact Nat.le_of_eq (congrArg Prod.snd (Option.some.inj h))
    | floatingNote text color => exact Nat.le_of_eq (congrArg Prod.snd (Option.some.inj h))
  opening h := Nat.le_of_eq (congrArg Prod.snd (Option.some.inj h))

theorem Kind.advances : ∀ kind : Kind, kind.reading.Advances
  | .activity => Activity.advances
  | .sequence => Sequence.advances
  | .state => StateChart.advances
  | .class => ClassDiagram.advances

/-- An alias that a caller has asked for, with its number. -/
structure Generation where
  stem : String
  number : Nat
  answer : Alias

/-- The alias that is asked for in a turn and answered. -/
def ScriptTurn.generation? {d : Dialect} (t : ScriptTurn d) : Option Generation :=
  match t.move?, t.answer? with
  | some (.generate stem), some (.named a) =>
      some ⟨stem, t.before.engine.registry.generated + 1, a⟩
  | _, _ => none

/-- The aliases that are asked for in these turns, in order. -/
def generationsOf {d : Dialect} (turns : List (ScriptTurn d)) : List Generation :=
  turns.filterMap ScriptTurn.generation?

/-- What the turns so far say of the aliases that were generated, and of how many there are.
-/
structure Drawn {d : Dialect} (past : List (ScriptTurn d)) (e : Engine d.toGrammar) : Prop where
  answers : ∀ g ∈ generationsOf past, g.answer = Alias.generated g.stem g.number
  rising : (generationsOf past).Pairwise fun g g' => g.number < g'.number
  bounded : e.failedAt = none → ∀ g ∈ generationsOf past, g.number ≤ e.registry.generated

section Turns

variable {d : Dialect} {r : Reading d} {z : Realization r} {v : Inventory r}
variable {e e' : Engine d.toGrammar} {t : ScriptTurn d} {past : List (ScriptTurn d)}

/-- A numbered call generates aliases or none, but takes none back. -/
theorem Move.ends_le_generated
    (hsound : z.Sound v)
    (hadvances : r.Advances)
    (move : Move d) :
    move.build.Ends e (fun _ e' => e.registry.generated ≤ e'.registry.generated)
      (fun _ _ => True) := by
  cases move with
  | leaf node =>
      rw [build, Attempt.ends_bind, Engine.ends_step]
      refine ⟨fun _ _ => trivial, fun _ => ?_⟩
      rw [Action.ends_append]
      exact ⟨fun _ => Nat.le_refl _, fun _ _ _ => ⟨fun _ _ => Nat.le_refl _, fun _ _ => trivial⟩⟩
  | openScope scope =>
      rw [build, Attempt.ends_bind, Engine.ends_step]
      refine ⟨fun _ _ => trivial, fun _ => ?_⟩
      rw [Action.ends_openScope]
      exact ⟨fun _ _ => trivial, fun _ _ => trivial, fun _ _ => Nat.le_refl _⟩
  | close token =>
      rw [build, Attempt.ends_bind]
      refine (ends_close token).mono ?_ fun _ _ _ => trivial
      rintro _ e' ⟨_, hclosed⟩
      exact Nat.le_of_eq (congrArg Registry.generated hclosed.registry).symm
  | declare a kind =>
      rw [build, Attempt.ends_bind, Engine.ends_step]
      refine ⟨fun _ _ => trivial, fun _ => ?_⟩
      rw [Action.ends_declare]
      refine ⟨fun registry hdeclare => ?_, fun _ _ => trivial⟩
      obtain ⟨_, rfl⟩ := Registry.declare_eq_ok_iff.mp hdeclare
      exact Nat.le_refl _
  | resolve name kind =>
      rw [build, Attempt.ends_bind, Engine.ends_step]
      refine ⟨fun _ _ => trivial, fun _ => ?_⟩
      rw [Action.ends_resolve]
      exact ⟨fun _ _ => Nat.le_refl _, fun _ _ => trivial⟩
  | generate stem =>
      rw [build, Attempt.ends_bind, Engine.ends_step]
      refine ⟨fun _ _ => trivial, fun _ => ?_⟩
      rw [Action.ends_generate]
      exact Nat.le_succ _
  | authoring call =>
      refine (hsound.ends_callBuild call).mono ?_ fun _ _ _ => trivial
      rintro _ e' ⟨_, ⟨item, hread, _⟩, _⟩
      exact hadvances.call hread
  | enter opening =>
      rw [build, Attempt.ends_bind]
      refine (hsound.ends_enter opening).mono ?_ fun _ _ _ => trivial
      rintro _ e' ⟨_, hentered⟩
      obtain ⟨_, _, _, _, hread, _⟩ := hentered.opened
      exact hadvances.opening hread

/-- A scope that is opened for a body takes no alias back. -/
theorem Realization.Sound.ends_enter_le_generated
    (hsound : z.Sound v)
    (hadvances : r.Advances) :
    ∀ opening : ScriptOpening d,
      (Engine.enter (d.scripting.scopeOf opening)).Ends e
        (fun _ e' => e.registry.generated ≤ e'.registry.generated) (fun _ _ => True)
  | .authoring opening => by
      refine (hsound.ends_enter opening).mono ?_ fun _ _ _ => trivial
      rintro _ e' ⟨_, hentered⟩
      obtain ⟨_, _, _, _, hread, _⟩ := hentered.opened
      exact hadvances.opening hread
  | .engine (.ok scope) => by
      rw [Engine.enter, Engine.ends_step]
      refine ⟨fun _ _ => trivial, fun _ => ?_⟩
      simp only [Dialect.scripting, pure_bind, Attempt.ends_bind, Attempt.ends_pure]
      rw [Action.ends_openScope]
      exact ⟨fun _ _ => trivial, fun _ _ => trivial, fun _ _ => Nat.le_refl _⟩
  | .engine (.error why) => by
      rw [Engine.enter, Engine.ends_step]
      exact ⟨fun _ _ => trivial, fun _ => trivial⟩

/-- The alias that is generated has the next number. -/
theorem Move.of_generate
    {stem : String}
    {reply : Reply}
    (h : (Move.generate stem).build.run e = (.ok reply, e')) :
    reply = .named (Alias.generated stem (e.registry.generated + 1)) ∧
      e'.registry.generated = e.registry.generated + 1 := by
  have hends : (Move.generate stem).build.Ends e
      (fun reply e' => reply = .named (Alias.generated stem (e.registry.generated + 1)) ∧
        e'.registry.generated = e.registry.generated + 1)
      (fun _ _ => True) := by
    rw [build, Attempt.ends_bind, Engine.ends_step]
    refine ⟨fun _ _ => trivial, fun _ => ?_⟩
    rw [Action.ends_generate]
    exact ⟨rfl, rfl⟩
  exact hends.of_ok h

/-- Behind a turn the build has failed and no alias was answered, or the turn has taken none
back and answered none but the next one. -/
theorem ScriptTurn.failed_or_draws
    (hsound : z.Sound v)
    (hadvances : r.Advances)
    (hd : d.LeavesNumbering)
    (t : ScriptTurn d) :
    ((t.after d.scripting).engine.failedAt ≠ none ∧ t.generation? = none) ∨
      t.Unfailed ∧
        t.before.engine.registry.generated ≤ (t.after d.scripting).engine.registry.generated ∧
        ∀ g, t.generation? = some g → g.answer = Alias.generated g.stem g.number ∧
          t.before.engine.registry.generated < g.number ∧
          g.number ≤ (t.after d.scripting).engine.registry.generated := by
  cases t.course hd with
  | silent journal hafter hmove _ =>
      have hgeneration : t.generation? = none := by
        rw [generation?, hmove]
      rcases failed_or_unfailed_of_silent hafter with hfailed | hunfailed
      · exact .inl ⟨hfailed, hgeneration⟩
      · refine .inr ⟨hunfailed, ?_, fun g hg => ?_⟩
        · rw [hafter]
          exact Nat.le_refl _
        · rw [hgeneration] at hg
          cases hg
  | failed hfailed hanswer =>
      refine .inl ⟨hfailed, ?_⟩
      rw [generation?, hanswer]
      split <;> simp_all
  | moved move journal reply hunfailed hmove hrun hanswer =>
      have hle := (move.ends_le_generated (e := t.before.engine.withJournal journal) hsound
        hadvances).of_ok hrun
      refine .inr ⟨hunfailed, hle, fun g hg => ?_⟩
      rw [generation?, hmove, hanswer] at hg
      cases move with
      | generate stem =>
          obtain ⟨rfl, hnumber⟩ := Move.of_generate hrun
          cases hg
          exact ⟨rfl, Nat.lt_succ_self _, Nat.le_of_eq hnumber.symm⟩
      | _ => cases hg
  | entered opening token reply hunfailed hmove hrun _ =>
      refine .inr ⟨hunfailed, (hsound.ends_enter_le_generated hadvances opening).of_ok hrun, ?_⟩
      intro g hg
      rw [generation?, hmove] at hg
      cases hg

/-- What a turn answers is written down behind what the turns before it have answered. -/
theorem Drawn.after_turn
    (hsound : z.Sound v)
    (hadvances : r.Advances)
    (hd : d.LeavesNumbering)
    (h : Drawn past t.before.engine) :
    Drawn (past ++ [t]) (t.after d.scripting).engine := by
  rcases t.failed_or_draws hsound hadvances hd with
    ⟨hfailed, hnone⟩ | ⟨⟨hbefore, _⟩, hle, hdraws⟩
  · have hsame : generationsOf (past ++ [t]) = generationsOf past := by
      simp [generationsOf, hnone]
    exact ⟨hsame ▸ h.answers, hsame ▸ h.rising, fun hunfailed => absurd hunfailed hfailed⟩
  · have hbounded := h.bounded hbefore
    have hmore : generationsOf (past ++ [t]) = generationsOf past ++ t.generation?.toList := by
      rw [generationsOf, List.filterMap_append]
      cases hg : t.generation? <;> simp [generationsOf, hg]
    have hnew : ∀ g ∈ t.generation?.toList, t.generation? = some g :=
      fun g hg => Option.mem_toList.mp hg
    refine ⟨?_, ?_, fun _ => ?_⟩
    · rw [hmore]
      intro g hg
      rcases List.mem_append.mp hg with hold | hlast
      · exact h.answers g hold
      · exact (hdraws g (hnew g hlast)).1
    · rw [hmore, List.pairwise_append]
      refine ⟨h.rising, ?_, fun g hg g' hg' => ?_⟩
      · cases t.generation? <;> simp
      · exact Nat.lt_of_le_of_lt (hbounded g hg) (hdraws g' (hnew g' hg')).2.1
    · rw [hmore]
      intro g hg
      rcases List.mem_append.mp hg with hold | hlast
      · exact Nat.le_trans (hbounded g hold) hle
      · exact (hdraws g (hnew g hlast)).2.2

end Turns

/-- Asks for an alias for each of the stems. -/
def asking (d : Dialect) (stems : List String) : List (Script d) :=
  stems.map fun stem => .call (.engine (.generate stem)) false

/-- As long as the build has not failed, an alias is answered, and the others are asked for
next. -/
theorem turnsAll_asking_cons
    (d : Dialect)
    (stem : String)
    (rest : List String)
    {s : Session d.toGrammar}
    (hnone : s.engine.failedAt = none) :
    ∃ s', s'.engine.failedAt = none ∧
      s'.engine.registry.generated = s.engine.registry.generated + 1 ∧
      generationsOf (Program.turnsAll d.scripting s (asking d (stem :: rest))) =
        ⟨stem, s.engine.registry.generated + 1,
          Alias.generated stem (s.engine.registry.generated + 1)⟩ ::
        generationsOf (Program.turnsAll d.scripting s' (asking d rest)) := by
  obtain ⟨⟨root, stack, registry, context, calls, openings, failedAt, journal⟩, tokens⟩ := s
  cases hnone
  exact ⟨(Program.run d.scripting _ (.call (.engine (.generate stem)) false)).after, rfl, rfl, rfl⟩

/-- Aliases that are asked for one after the other are numbered on from those that there
are. -/
theorem generationsOf_asking
    (d : Dialect)
    (stems : List String)
    {s : Session d.toGrammar}
    (hnone : s.engine.failedAt = none) :
    generationsOf (Program.turnsAll d.scripting s (asking d stems)) =
      (stems.zipIdx (s.engine.registry.generated + 1)).map fun asked =>
        ⟨asked.1, asked.2, Alias.generated asked.1 asked.2⟩ := by
  induction stems generalizing s with
  | nil => rfl
  | cons stem rest ih =>
      obtain ⟨s', hnone', hnumber, hcons⟩ := turnsAll_asking_cons d stem rest hnone
      rw [hcons, ih hnone', hnumber, List.zipIdx_cons, List.map_cons]

namespace Kind

variable {kind : Kind} {s : Session kind.dialect.toGrammar}
variable {turns : List (ScriptTurn kind.dialect)}

theorem drawn_of_leads (h : Leads kind.dialect.scripting {} turns s) : Drawn turns s.engine := by
  refine h.carries (I := fun past s => Drawn past s.engine) ?_ [] ⟨?_, List.Pairwise.nil, ?_⟩
  · exact fun past t ht => ht.after_turn kind.sound kind.advances kind.leavesNumbering
  · intro g hg
    cases hg
  · intro _ g hg
    cases hg

/-- Two aliases that an engine has generated are the same exactly if the digits that the
greater number has in front of the smaller one stand at the end of the stem of the latter.
So they are all different where no stem ends in a digit; and whatever the stems, no caller
could give one of them. -/
theorem generated_alike_iff_digits_in_stem
    (h : Leads kind.dialect.scripting {} turns s) :
    (∀ g ∈ generationsOf turns, g.answer = Alias.generated g.stem g.number ∧
      ∀ text, Alias.parse text ≠ .ok g.answer) ∧
    ((generationsOf turns).Pairwise fun g g' => g.number < g'.number ∧
      (g.answer = g'.answer ↔ ∃ digits, digits ≠ [] ∧ g.stem.toList = g'.stem.toList ++ digits ∧
        Nat.toDigits 10 g'.number = digits ++ Nat.toDigits 10 g.number)) ∧
    ((∀ g ∈ generationsOf turns, ∀ c ∈ g.stem.toList.getLast?, c.isDigit = false) →
      ((generationsOf turns).map Generation.answer).Nodup) := by
  have hdrawn := drawn_of_leads h
  have halike : (generationsOf turns).Pairwise fun g g' => g.number < g'.number ∧
      (g.answer = g'.answer ↔ ∃ digits, digits ≠ [] ∧ g.stem.toList = g'.stem.toList ++ digits ∧
        Nat.toDigits 10 g'.number = digits ++ Nat.toDigits 10 g.number) := by
    refine hdrawn.rising.imp_of_mem fun {g g'} hg hg' hless => ⟨hless, ?_⟩
    rw [hdrawn.answers g hg, hdrawn.answers g' hg']
    exact Alias.generated_eq_iff_of_lt hless g.stem g'.stem
  refine ⟨fun g hg => ⟨hdrawn.answers g hg, fun text => ?_⟩, halike, fun hstems => ?_⟩
  · rw [hdrawn.answers g hg]
    exact Alias.parse_ne_generated text g.stem g.number
  · rw [List.Nodup, List.pairwise_map]
    refine halike.imp_of_mem fun {g g'} hg _ hboth hsame => ?_
    obtain ⟨digits, hdigits, hstem, hnumber⟩ := hboth.2.mp hsame
    -- the last character of the longer stem would be a digit of the greater number
    have hlast : digits.getLast hdigits ∈ g.stem.toList.getLast? := by
      rw [hstem, List.getLast?_append, List.getLast?_eq_some_getLast hdigits]
      rfl
    have hdigit : (digits.getLast hdigits).isDigit = true := by
      refine Nat.isDigit_of_mem_toDigits (b := 10) (n := g'.number) (by omega) (by omega) ?_
      rw [hnumber]
      exact List.mem_append_left _ (List.getLast_mem hdigits)
    cases hdigit.symm.trans (hstems g hg _ hlast)

/-- The first alias and the eleventh one are the same: `a1` with the number 1, and `a` with
the number 11. -/
theorem generated_alike_of_eleven :
    let d := Kind.activity.dialect
    let stems := ["a1", "x", "x", "x", "x", "x", "x", "x", "x", "x", "a"]
    let answers := (generationsOf (Program.turnsAll d.scripting {} (asking d stems))).map
      Generation.answer
    answers.length = 11 ∧ answers[0]? = answers[10]? ∧ ¬answers.Nodup := by
  intro d stems answers
  have hanswers : answers = (stems.zipIdx 1).map fun asked => Alias.generated asked.1 asked.2 := by
    change (generationsOf (Program.turnsAll d.scripting {} (asking d stems))).map _ = _
    rw [generationsOf_asking d stems rfl, List.map_map]
    rfl
  rw [hanswers]
  decide +kernel

theorem generated_alike_iff_digits_in_stem_of_twoStems :
    let d := Kind.activity.dialect
    let stems := ["a", "x", "a"]
    let turns := Program.turnsAll d.scripting {} (asking d stems)
    Leads d.scripting {} turns (Program.runAll d.scripting {} (asking d stems)).after ∧
      (generationsOf turns).length = 3 ∧
      (∀ g ∈ generationsOf turns, ∀ c ∈ g.stem.toList.getLast?, c.isDigit = false) ∧
      ((generationsOf turns).map Generation.answer).Nodup := by
  intro d stems turns
  have hleads := Program.leads_turnsAll (m := d.scripting) (asking d stems) {}
  have hgenerations : generationsOf turns =
      [⟨"a", 1, Alias.generated "a" 1⟩, ⟨"x", 2, Alias.generated "x" 2⟩,
        ⟨"a", 3, Alias.generated "a" 3⟩] :=
    generationsOf_asking d stems rfl
  have hletter : ∀ letter : Char, letter.isDigit = false →
      ∀ c ∈ some letter, c.isDigit = false :=
    fun _ hletter _ hc => Option.some.inj hc ▸ hletter
  have hstems : ∀ g ∈ generationsOf turns, ∀ c ∈ g.stem.toList.getLast?, c.isDigit = false := by
    rw [hgenerations]
    exact List.forall_mem_cons.mpr ⟨hletter 'a' rfl,
      List.forall_mem_cons.mpr ⟨hletter 'x' rfl, List.forall_mem_singleton.mpr (hletter 'a' rfl)⟩⟩
  exact ⟨hleads, congrArg List.length hgenerations, hstems,
    (generated_alike_iff_digits_in_stem hleads).2.2 hstems⟩

end Kind

end UmlText
