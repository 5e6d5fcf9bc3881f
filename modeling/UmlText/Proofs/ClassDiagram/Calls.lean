import UmlText.ClassDiagram.Calls
import UmlText.Proofs.Checks
import UmlText.Proofs.Naming

/-!
# What the calls of class diagrams do

The only construct is the package, and no call divides it, so a package holds what its calls
contribute in their order.  Every call does to the engine what its reading says.
-/

namespace UmlText.ClassDiagram

open UmlText.Action

/-- The class that a call makes from its texts. -/
def ClassCall.read (generated : Nat) (c : ClassCall) : Option (Class × Nat) :=
  (readNaming "c" c.name c.givenAlias generated).map fun ((a, display), generated) =>
    ({ kind := c.kind, id := a, display, generic := c.generic, stereotype := c.stereotype,
       color := c.color, members := c.members }, generated)

/-- What a call contributes after so many generated aliases, and how many there are then. -/
def Call.read (generated : Nat) : Call → Option (Item Node Empty × Nat)
  | .class c => (c.read generated).map fun (c, generated) => (.element (.class c), generated)
  | .relation r => do
      let source ← Alias.ofName? r.source
      let target ← Alias.ofName? r.target
      return (.element (.relation { r with source, target }), generated)
  | .note n => do
      let target ← Alias.ofName? n.target
      return (.element (.note { n with target }), generated)
  | .floatingNote text color => some (.element (.floatingNote text color), generated)

/-- How programs of class diagrams are read. -/
abbrev reading : Reading dialect where
  Clause := Empty
  Head := PackageHead
  call := Call.read
  opening generated head := some (head, generated)
  construct head items := some (.element (.package head (Item.split items).1))

/-- How open scopes hold the items of the reading. -/
abbrev realization : Realization reading where
  Applies _ _ _ := False
  Holds head items scope := scope = ⟨head, (Item.split items).1⟩

/-- Classes are what class diagrams declare. -/
abbrev inventory : Inventory reading where
  kind := classKind
  item depth
    | .element node => node.survey depth
    | .clause _ => []
  scope depth scope := scope.toNode.survey depth
  level _ := 1

/-- A package that is closed becomes the element it is read as, inside another one or not. -/
theorem faithful : realization.Faithful where
  grow {head items item scope scope'} h hgrows := by
    subst h
    cases item with
    | element node =>
        have hnil : (Item.split items).2 = [] := by
          cases hsections : (Item.split items).2 with
          | nil => rfl
          | cons s rest => exact s.1.elim
        cases hgrows
        change Scope.add _ node = Scope.mk head (Item.split (items ++ [.element node])).1
        rw [Item.split_append_element_of_nil node hnil]
        rfl
    | clause c => exact c.elim
  adopt {head items scope outer outer'} h hadopt := by
    subst h
    exact ⟨_, rfl, hadopt⟩
  toNode {head items scope node} h hnode := by
    subst h
    cases hnode
    rfl

section Calls

variable {e : Engine grammar}

theorem checkMembers_eq_ok
    {members kept : List Member}
    (h : checkMembers members = .ok kept) :
    kept = members := by
  induction members generalizing kept with
  | nil =>
      cases h
      rfl
  | cons m rest ih =>
      simp only [checkMembers, bind_eq_ok_iff, pure_eq_ok_iff, singleLine_eq_ok_iff] at h
      obtain ⟨_, ⟨_, _, rfl⟩, restKept, hrest, rfl⟩ := h
      rw [ih hrest]

theorem Relation.check_eq_ok
    {Name : Type}
    {r kept : Relation Name}
    (h : r.check = .ok kept) :
    kept = r := by
  unfold check at h
  rw [bind_eq_ok_iff] at h
  obtain ⟨label, hlabel, h⟩ := h
  obtain ⟨_, rfl⟩ := optionally_singleLine_eq_ok_iff.mp hlabel
  split at h
  · cases h
  · simp only [bind_eq_ok_iff, pure_eq_ok_iff, optionally_singleLine_eq_ok_iff] at h
    obtain ⟨_, ⟨_, rfl⟩, _, ⟨_, rfl⟩, rfl⟩ := h
    rfl

theorem ends_declareClass (c : ClassCall) :
    c.declare.Ends e
      (fun made e' => c.read e.registry.generated = some (made, e'.registry.generated) ∧
        Named classKind "c" c.name c.givenAlias made.id made.display e e')
      (fun _ e' => e.SameTree e') := by
  unfold ClassCall.declare
  rw [Attempt.ends_bind, ends_valid]
  refine ⟨fun name hname => ?_, fun _ _ => ⟨rfl, rfl⟩⟩
  obtain ⟨_, _, rfl⟩ := singleLine_eq_ok_iff.mp hname
  rw [Attempt.ends_bind, ends_valid]
  refine ⟨fun generic hgeneric => ?_, fun _ _ => ⟨rfl, rfl⟩⟩
  obtain ⟨_, rfl⟩ := optionally_singleLine_eq_ok_iff.mp hgeneric
  rw [Attempt.ends_bind, ends_valid]
  refine ⟨fun stereotype hstereotype => ?_, fun _ _ => ⟨rfl, rfl⟩⟩
  obtain ⟨_, rfl⟩ := optionally_singleLine_eq_ok_iff.mp hstereotype
  rw [Attempt.ends_bind, ends_valid]
  refine ⟨fun members hmembers => ?_, fun _ _ => ⟨rfl, rfl⟩⟩
  obtain rfl := checkMembers_eq_ok hmembers
  refine ends_chooseAlias_declare (by decide) fun a display e' hnamed => ?_
  refine ⟨?_, hnamed⟩
  rw [ClassCall.read, hnamed.naming]
  rfl

theorem perform_ends (c : Call) (e : Engine grammar) :
    c.perform.Ends e
      (fun _ e' => realization.Performed inventory c e e') (fun _ e' => e.SameTree e') := by
  cases c with
  | «class» c =>
      rw [Call.perform, Attempt.ends_bind]
      refine (ends_declareClass c).mono ?_ fun _ _ h => h
      rintro made e₁ ⟨hread, hnamed⟩
      simp only [Attempt.ends_bind, Attempt.ends_pure]
      refine Realization.ends_append_of_reading (z := realization) (v := inventory)
        hnamed.toSameTree hnamed.toSameCounts ?_ ?_
      · simp [Call.read, hread]
      · exact fun e' hregistry depth => hnamed.books hregistry rfl
  | relation r =>
      rw [Call.perform, Attempt.ends_bind]
      refine (ends_resolve_of_reading r.source classKind).mono ?_ fun _ _ h => h ▸ ⟨rfl, rfl⟩
      rintro source _ ⟨hsource, hsourceKnown, rfl⟩
      rw [Attempt.ends_bind]
      refine (ends_resolve_of_reading r.target classKind).mono ?_ fun _ _ h => h ▸ ⟨rfl, rfl⟩
      rintro target _ ⟨htarget, htargetKnown, rfl⟩
      rw [Attempt.ends_bind, ends_valid]
      refine ⟨fun kept hkept => ?_, fun _ _ => ⟨rfl, rfl⟩⟩
      obtain rfl := Relation.check_eq_ok hkept
      rw [Attempt.ends_bind]
      refine Realization.ends_append_of_reading (z := realization) (v := inventory) ⟨rfl, rfl⟩
        ⟨rfl, rfl, rfl⟩ ?_ ?_
      · simp [Call.read, hsource, htarget]
      · intro e' hregistry depth
        refine .of_mentions [source, target] hregistry rfl fun a ha => ?_
        rcases List.mem_cons.mp ha with rfl | ha
        · exact hsourceKnown
        · rw [List.mem_singleton.mp ha]
          exact htargetKnown
  | note n =>
      rw [Call.perform, Attempt.ends_bind]
      refine (ends_resolve_of_reading n.target classKind).mono ?_ fun _ _ h => h ▸ ⟨rfl, rfl⟩
      rintro target _ ⟨htarget, hknown, rfl⟩
      simp only [Attempt.ends_bind, ends_valid, Attempt.ends_pure, freeText_eq_ok_iff]
      refine ⟨?_, fun _ _ => ⟨rfl, rfl⟩⟩
      rintro _ ⟨_, rfl⟩
      refine Realization.ends_append_of_reading (z := realization) (v := inventory) ⟨rfl, rfl⟩
        ⟨rfl, rfl, rfl⟩ ?_ ?_
      · simp [Call.read, htarget]
      · intro e' hregistry depth
        exact .of_mentions [target] hregistry rfl (by simpa using hknown)
  | floatingNote text color =>
      simp only [Call.perform, Attempt.ends_bind, ends_valid, Attempt.ends_pure,
        freeText_eq_ok_iff]
      refine ⟨?_, fun _ _ => ⟨rfl, rfl⟩⟩
      rintro _ ⟨_, rfl⟩
      refine Realization.ends_append_of_reading (z := realization) (v := inventory) ⟨rfl, rfl⟩
        ⟨rfl, rfl, rfl⟩ rfl ?_
      exact fun e' hregistry depth => .of_nothing hregistry (.inl rfl)

theorem prepare_ends (head : PackageHead) (e : Engine grammar) :
    (dialect.scopeOf head).Ends e
      (fun result e' => realization.Prepared inventory head result.1 e e')
      (fun _ e' => e.SameTree e') := by
  simp only [Attempt.ends_bind, ends_valid, Attempt.ends_pure]
  refine ⟨fun scope hscope => ?_, fun _ _ => ⟨rfl, rfl⟩⟩
  simp only [PackageHead.scope, bind_eq_ok_iff, pure_eq_ok_iff, singleLine_eq_ok_iff,
    optionally_singleLine_eq_ok_iff] at hscope
  obtain ⟨_, ⟨_, _, rfl⟩, _, ⟨_, rfl⟩, rfl⟩ := hscope
  refine ⟨⟨head, rfl, rfl⟩, fun depth => ?_, ⟨rfl, rfl⟩, ⟨rfl, rfl, rfl⟩⟩
  exact .of_nothing rfl (.inr rfl)

end Calls

/-- The calls of class diagrams do what their reading says. -/
theorem sound : realization.Sound inventory where
  call := perform_ends
  opening := prepare_ends

end UmlText.ClassDiagram
