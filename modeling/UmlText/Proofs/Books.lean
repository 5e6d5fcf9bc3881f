import UmlText.Engine.Basic
import UmlText.Proofs.PlainNames
import UmlText.Survey

/-!
# Declarations and the registry

A survey of a tree lists declarations and references, and the registry of an engine lists
the aliases that calls have declared.  `Books` says of two states of a build that the
registry of the second one has grown by the declarations of some findings and covers their
references.
-/

namespace UmlText

namespace Finding

/-- The alias that a finding declares. -/
def declaration? : Finding → Option Alias
  | .declared _ a => some a
  | _ => none

/-- The alias that a finding refers to. -/
def reference? : Finding → Option Alias
  | .referred _ _ a => some a
  | _ => none

/-- The aliases declared in a survey, in order. -/
def declarations (findings : List Finding) : List Alias :=
  findings.filterMap declaration?

/-- The aliases referred to in a survey, in order. -/
def references (findings : List Finding) : List Alias :=
  findings.filterMap reference?

end Finding

namespace Registry

/-- The declared aliases, the latest one first. -/
def aliases (r : Registry) : List Alias :=
  r.entries.map Prod.fst

/-- An alias can be declared when it is not declared yet. -/
theorem declare_eq_ok_iff
    {r r' : Registry}
    {a : Alias}
    {kind : String} :
    r.declare a kind = .ok r' ↔
      a ∉ r.aliases ∧ r' = { r with entries := (a, kind) :: r.entries } := by
  have hnone : r.kindOf? a.name = none ↔ a ∉ r.aliases := by
    simp only [kindOf?, find?, aliases, Option.map_eq_none_iff, List.find?_eq_none,
      List.mem_map, decide_eq_true_eq, ← Alias.ext_iff]
    constructor
    · rintro h ⟨entry, hentry, rfl⟩
      exact h entry hentry rfl
    · rintro h entry hentry rfl
      exact h ⟨entry, hentry, rfl⟩
  unfold declare
  split
  · next existing hsome =>
      have hmem : ¬a ∉ r.aliases := by
        rw [← hnone, hsome]
        simp
      simp [hmem]
  · next h => simp [hnone.mp h, eq_comm]

/-- What a reference is resolved to was declared under its name and kind. -/
theorem mem_entries_of_resolve
    {r : Registry}
    {name kind : String}
    {a : Alias}
    (h : r.resolve name kind = .ok a) :
    a.name = name ∧ (a, kind) ∈ r.entries := by
  unfold resolve at h
  split at h
  · next found foundKind hfind =>
      split at h
      · next hkind =>
          cases h
          subst hkind
          unfold find? at hfind
          have hname := List.find?_some hfind
          have hmem := List.mem_of_find?_eq_some hfind
          exact ⟨by simpa using hname, hmem⟩
      · cases h
  · cases h

/-- Where everything is declared under one kind, a name is resolved to the alias that has
it. -/
theorem resolve_eq_ok_iff
    {r : Registry}
    {name kind : String}
    {a : Alias}
    (hkinds : ∀ entry ∈ r.entries, entry.2 = kind) :
    r.resolve name kind = .ok a ↔ a ∈ r.aliases ∧ a.name = name := by
  constructor
  · intro hresolve
    obtain ⟨hname, hmem⟩ := mem_entries_of_resolve hresolve
    exact ⟨List.mem_map_of_mem hmem, hname⟩
  · rintro ⟨hmem, rfl⟩
    obtain ⟨entry, hentry, rfl⟩ := List.mem_map.mp hmem
    have hsome : (r.find? entry.1.name).isSome = true := by
      unfold find?
      rw [List.find?_isSome]
      exact ⟨entry, hentry, by simp⟩
    obtain ⟨⟨found, foundKind⟩, hfind⟩ := Option.isSome_iff_exists.mp hsome
    have hkind : foundKind = kind := hkinds _ (List.mem_of_find?_eq_some hfind)
    have hname : found.name = entry.1.name := by
      unfold find? at hfind
      simpa using List.find?_some hfind
    simp [resolve, hfind, hkind, Alias.ext hname]

end Registry

/-- The registry has taken the declarations among some findings, which were new to it and
plain, and knows the aliases that the findings refer to; and none of the findings lies
deeper than `depth`. -/
structure Books
    {G : Grammar}
    (kind : String)
    (depth : Nat)
    (findings : List Finding)
    (e e' : Engine G) : Prop where
  entries : e'.registry.entries =
    (Finding.declarations findings).map (fun a => (a, kind)) ++ e.registry.entries
  distinct : (Finding.declarations findings).Nodup
  fresh : ∀ a ∈ Finding.declarations findings, a ∉ e.registry.aliases
  plain : ∀ a ∈ Finding.declarations findings, a.IsPlain
  known : ∀ a ∈ Finding.references findings, a ∈ e'.registry.aliases
  shallow : ∀ n, .entered n ∈ findings → n ≤ depth

namespace Books

variable {G : Grammar} {kind : String} {depth : Nat} {findings : List Finding} {e e' : Engine G}

/-- The aliases of the registry are those it had, with the declarations in front. -/
theorem aliases (h : Books kind depth findings e e') :
    e'.registry.aliases = Finding.declarations findings ++ e.registry.aliases := by
  unfold Registry.aliases
  rw [h.entries, List.map_append, List.map_map]
  simp [Function.comp_def]

/-- What was declared stays declared. -/
theorem aliases_subset (h : Books kind depth findings e e') :
    e.registry.aliases ⊆ e'.registry.aliases := by
  rw [h.aliases]
  exact List.subset_append_right _ _

/-- Where everything was declared under the kind, everything is. -/
theorem kinds
    (h : Books kind depth findings e e')
    (hkinds : ∀ entry ∈ e.registry.entries, entry.2 = kind) :
    ∀ entry ∈ e'.registry.entries, entry.2 = kind := by
  intro entry hmem
  rw [h.entries] at hmem
  rcases List.mem_append.mp hmem with hnew | hold
  · obtain ⟨a, _, rfl⟩ := List.mem_map.mp hnew
    rfl
  · exact hkinds entry hold

/-- A call that refers to declared aliases and declares none leaves the registry as it is. -/
theorem of_references
    (hregistry : e'.registry = e.registry)
    (hdeclared : Finding.declarations findings = [])
    (hknown : ∀ a ∈ Finding.references findings, a ∈ e.registry.aliases)
    (hshallow : ∀ n, .entered n ∈ findings → n ≤ depth) :
    Books kind depth findings e e' := by
  refine ⟨?_, ?_, ?_, ?_, ?_, hshallow⟩
  · rw [hregistry, hdeclared]
    rfl
  · rw [hdeclared]
    exact List.nodup_nil
  · rw [hdeclared]
    intro a ha
    cases ha
  · rw [hdeclared]
    intro a ha
    cases ha
  · rw [hregistry]
    exact hknown

/-- Where nothing is found, or a list of children is found, the registry is left as it is. -/
theorem of_nothing
    (hregistry : e'.registry = e.registry)
    (hfindings : findings = [] ∨ findings = [.entered depth]) :
    Books kind depth findings e e' := by
  rcases hfindings with rfl | rfl
  · exact of_references hregistry rfl (by simp [Finding.references]) (by simp)
  · exact of_references hregistry rfl (by simp [Finding.references, Finding.reference?])
      (by simp)

/-- A call that mentions declared aliases. -/
theorem of_mentions
    {node expected : String}
    (mentioned : List Alias)
    (hregistry : e'.registry = e.registry)
    (hfindings : findings = mentioned.map (.referred node expected))
    (hknown : ∀ a ∈ mentioned, a ∈ e.registry.aliases) :
    Books kind depth findings e e' := by
  subst hfindings
  refine of_references hregistry ?_ ?_ ?_
  · simp [Finding.declarations, Finding.declaration?]
  · intro a ha
    have hmem : a ∈ mentioned := by
      simpa [Finding.references, List.filterMap_map, Finding.reference?] using ha
    exact hknown a hmem
  · simp

/-- A call that declares one alias adds it to the registry. -/
theorem of_declaration
    {a : Alias}
    (hdeclared : Finding.declarations findings = [a])
    (hreferred : Finding.references findings = [])
    (hshallow : ∀ n, .entered n ∈ findings → n ≤ depth)
    (hnew : a ∉ e.registry.aliases)
    (hplain : a.IsPlain)
    (hentries : e'.registry.entries = (a, kind) :: e.registry.entries) :
    Books kind depth findings e e' := by
  refine ⟨?_, ?_, ?_, ?_, ?_, hshallow⟩
  · rw [hdeclared]
    exact hentries
  · rw [hdeclared]
    simp
  · rw [hdeclared]
    intro b hb
    rw [List.mem_singleton.mp hb]
    exact hnew
  · rw [hdeclared]
    intro b hb
    rw [List.mem_singleton.mp hb]
    exact hplain
  · rw [hreferred]
    intro b hb
    cases hb

end Books

end UmlText
