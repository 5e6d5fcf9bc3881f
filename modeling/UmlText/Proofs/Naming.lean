import UmlText.Engine.Naming
import UmlText.Proofs.Realization

/-!
# Reading names

The alias of an element is chosen from its name, from the alias given with it, and from how
many aliases were generated before; a reference names an alias.  The lemmas `ends_…` say
that the actions behind such calls choose and find the aliases that are read off the texts
of the call.
-/

namespace UmlText

/-- The alias of an element, the name that is shown beside it, and how many generated
aliases there are then. -/
def readNaming
    (stem name : String)
    (given : Option String)
    (generated : Nat) : Option ((Alias × Option String) × Nat) :=
  match given with
  | some given =>
      (Alias.ofName? given).map fun a =>
        ((a, if name = a.name then none else some name), generated)
  | none =>
      if isBareName name then (Alias.ofName? name).map fun a => ((a, none), generated)
      else some ((Alias.generated stem (generated + 1), some name), generated + 1)

/-- An element was named and declared: its alias is the one that is read, and it is new and
plain. -/
structure Named
    {G : Grammar}
    (kind stem name : String)
    (given : Option String)
    (a : Alias)
    (display : Option String)
    (e e' : Engine G) : Prop extends Engine.SameTree e e', Engine.SameCounts e e' where
  naming : readNaming stem name given e.registry.generated =
    some ((a, display), e'.registry.generated)
  fresh : a ∉ e.registry.aliases
  plain : a.IsPlain
  entries : e'.registry.entries = (a, kind) :: e.registry.entries

namespace Named

variable {G : Grammar} {kind stem name : String} {given : Option String} {a : Alias}
variable {display : Option String} {e e₁ e' : Engine G}

/-- The books of a call that appends an element with a name of its own. -/
theorem books
    {findings : List Finding}
    {node : String}
    {depth : Nat}
    (h : Named kind stem name given a display e e₁)
    (hregistry : e'.registry = e₁.registry)
    (hfindings : findings = [.declared node a]) :
    Books kind depth findings e e' := by
  subst hfindings
  refine .of_declaration rfl rfl (by simp) h.fresh h.plain ?_
  rw [hregistry]
  exact h.entries

end Named

namespace Action

variable {G : Grammar} {e : Engine G}

theorem ends_chooseAlias
    (name : String)
    (given : Option String)
    {stem : String}
    (hstem : ∀ c ∈ stem.toList, isAliasChar c = true) :
    (chooseAlias name given stem : Action G (Alias × Option String)).Ends e
      (fun choice e' =>
        readNaming stem name given e.registry.generated =
          some (choice, e'.registry.generated) ∧
        choice.1.IsPlain ∧ e'.registry.entries = e.registry.entries ∧
        e.SameTree e' ∧ e.SameCounts e')
      (fun _ e' => e.SameTree e') := by
  unfold chooseAlias readNaming
  cases given with
  | some given =>
      simp only [Attempt.ends_bind, ends_valid, Attempt.ends_pure]
      refine ⟨fun a hparse => ?_, fun _ _ => ⟨rfl, rfl⟩⟩
      obtain ⟨_, rfl⟩ := Alias.parse_eq_ok_iff.mp hparse
      exact ⟨by simp [Alias.ofName?_name], Alias.isPlain_of_parse hparse, trivial, ⟨rfl, rfl⟩,
        ⟨rfl, rfl, rfl⟩⟩
  | none =>
      by_cases hbare : isBareName name = true
      · simp only [hbare, if_true, Attempt.ends_bind, ends_valid, Attempt.ends_pure]
        refine ⟨fun a hparse => ?_, fun _ _ => ⟨rfl, rfl⟩⟩
        obtain ⟨_, rfl⟩ := Alias.parse_eq_ok_iff.mp hparse
        exact ⟨by simp [Alias.ofName?_name], Alias.isPlain_of_parse hparse, trivial, ⟨rfl, rfl⟩,
          ⟨rfl, rfl, rfl⟩⟩
      · simp only [hbare, Bool.false_eq_true, if_false, Attempt.ends_bind, ends_generate,
          Attempt.ends_pure]
        exact ⟨rfl, Alias.isPlain_generated hstem _, rfl, ⟨rfl, rfl⟩, ⟨rfl, rfl, rfl⟩⟩

/-- An alias is chosen unless the one that is given cannot be one. -/
theorem succeeds_chooseAlias {name stem : String} {given : Option String} :
    (chooseAlias name given stem : Action G (Alias × Option String)).Succeeds e ↔
      ∀ text ∈ given, aliasFlaw? text.toList = none := by
  have hparse : ∀ (text : String) (display : Alias → Option String),
      (valid (Alias.parse text) >>= fun a => pure (a, display a) :
        Action G (Alias × Option String)).Succeeds e ↔ aliasFlaw? text.toList = none := by
    intro text display
    rw [succeeds_valid_bind]
    simp only [Alias.parse_eq_ok_iff]
    constructor
    · rintro ⟨_, ⟨hflaw, _⟩, _⟩
      exact hflaw
    · exact fun hflaw => ⟨⟨text, .inl hflaw⟩, ⟨hflaw, rfl⟩, trivial⟩
  unfold chooseAlias
  cases given with
  | some given =>
      refine (hparse given _).trans ?_
      simp
  | none =>
      by_cases hbare : isBareName name = true
      · have hflaw : aliasFlaw? name.toList = none := Option.isNone_iff_eq_none.mp hbare
        rw [if_pos hbare, hparse]
        simp [hflaw]
      · rw [if_neg hbare, Attempt.succeeds_bind_pure]
        exact iff_of_true trivial (by simp)

/-- What a reference is resolved to is the alias that is read, and it is declared. -/
theorem ends_resolve_of_reading (name kind : String) :
    (resolve name kind : Action G Alias).Ends e
      (fun a e' => Alias.ofName? name = some a ∧ a ∈ e.registry.aliases ∧ e' = e)
      (fun _ e' => e' = e) := by
  rw [ends_resolve]
  refine ⟨fun a hresolve => ?_, fun _ _ => rfl⟩
  obtain ⟨rfl, hmem⟩ := Registry.mem_entries_of_resolve hresolve
  exact ⟨Alias.ofName?_name a, List.mem_map_of_mem hmem, rfl⟩

/-- Naming and declaring an element, with what is done with its alias. -/
theorem ends_chooseAlias_declare
    {α : Type}
    {ok : α → Engine G → Prop}
    {kind stem name : String}
    {given : Option String}
    {next : Alias × Option String → Action G α}
    (hstem : ∀ c ∈ stem.toList, isAliasChar c = true)
    (hok : ∀ a display e', Named kind stem name given a display e e' →
      (next (a, display)).Ends e' ok fun _ e'' => e.SameTree e'') :
    (chooseAlias name given stem >>= fun choice =>
        declare choice.1 kind >>= fun _ => next choice : Action G α).Ends e
      ok (fun _ e' => e.SameTree e') := by
  rw [Attempt.ends_bind]
  refine (ends_chooseAlias name given hstem).mono ?_ fun _ _ h => h
  rintro ⟨a, display⟩ e₁ ⟨hread, hplain, hentries, htree, hcounts⟩
  rw [Attempt.ends_bind, ends_declare]
  refine ⟨fun registry hdeclare => ?_, fun _ _ => htree⟩
  obtain ⟨hnew, rfl⟩ := Registry.declare_eq_ok_iff.mp hdeclare
  have haliases : e₁.registry.aliases = e.registry.aliases := by
    unfold Registry.aliases
    rw [hentries]
  rw [haliases] at hnew
  exact hok a display _ ⟨⟨htree.root, htree.stack⟩,
    ⟨hcounts.calls, hcounts.openings, hcounts.failedAt⟩, hread, hnew, hplain, by rw [hentries]⟩

end Action

end UmlText
