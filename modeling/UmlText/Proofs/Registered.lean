import UmlText.Proofs.Consistency
import UmlText.Proofs.Export
import UmlText.Proofs.Turns

/-!
# The registry mirrors the tree

An alias is registered in one step of a call and comes into the tree in another one, a
composite state even long before it is an element.  All the same, whenever a call finds an
engine that has not failed, the registry holds exactly the aliases that are declared in the
tree: in the elements at the root, by the open scopes, and in the elements that the open
scopes hold.

That the registry agrees with what is found in a tree is an invariant of every step of a
run; here it is followed through all the sessions that a run comes through, and told in
terms of the tree alone.
-/

namespace UmlText

/-- The registry holds the aliases that are declared in the tree, each of them once, and
those that are referred to in it. -/
structure Anatomy.Mirrors
    {G : Grammar}
    (A : Anatomy G)
    (e : Engine G) : Prop where
  registered : ∀ a, a ∈ e.registry.aliases ↔ a ∈ A.declaredSoFar e
  once : (A.declaredSoFar e).Nodup
  size : e.registry.size = (A.declaredSoFar e).length
  known : ∀ a ∈ A.referredSoFar e, a ∈ e.registry.aliases

namespace Inventory.Charts

open Finding

variable {d : Dialect} {r : Reading d} {v : Inventory r} {A : Anatomy d.toGrammar}
variable (h : v.Charts A)

/-- What is selected from all findings, when it is known what is selected in lists of
elements and what is selected in the open scopes besides. -/
theorem filterMap_engine
    (select : Finding → Option Alias)
    (inNodes : List d.Node → List Alias)
    (inScope : d.Scope → List Alias)
    (hnodes : ∀ (depth : Nat) (nodes : List d.Node),
      ((nodes.flatMap fun node => v.item depth (.element node)).filterMap select).Perm
        (inNodes nodes))
    (hscope : ∀ (depth : Nat) (scope : d.Scope), ∃ own,
      (v.scope depth scope).Perm (own ++ v.inside (depth + 1) (A.held scope)) ∧
        own.filterMap select = inScope scope)
    (e : Engine d.toGrammar) :
    ((v.engine e).filterMap select).Perm
      (inNodes e.root ++ e.stack.flatMap fun frame =>
        inScope frame.scope ++ (A.held frame.scope).flatMap inNodes) := by
  have hinside : ∀ depth bodies,
      ((v.inside depth bodies).filterMap select).Perm (bodies.flatMap inNodes) := by
    intro depth bodies
    unfold Inventory.inside
    rw [List.filterMap_flatMap]
    exact List.Perm.flatMap_left _ fun body _ => hnodes depth body
  unfold Inventory.engine
  rw [List.filterMap_append]
  refine (hnodes 0 e.root).append ?_
  induction e.stack with
  | nil => exact List.Perm.refl _
  | cons frame outer ih =>
      obtain ⟨own, hdivided, hown⟩ := hscope (v.depth outer) frame.scope
      have hframe : ((v.scope (v.depth outer) frame.scope).filterMap select).Perm
          (inScope frame.scope ++ (A.held frame.scope).flatMap inNodes) := by
        refine (hdivided.filterMap select).trans ?_
        rw [List.filterMap_append, hown]
        exact (hinside _ _).append_left _
      rw [Inventory.frames, List.filterMap_append, List.flatMap_cons]
      exact (ih.append hframe).trans List.perm_append_comm

include h

theorem declarations_engine (e : Engine d.toGrammar) :
    (declarations (v.engine e)).Perm (A.declaredSoFar e) := by
  refine filterMap_engine declaration? A.declared A.announces h.declarations_perm
    (fun depth scope => ?_) e
  obtain ⟨_, own, hdivided, hdeclared, -, -⟩ := h.scope depth scope
  exact ⟨own, hdivided, hdeclared⟩

theorem references_engine (e : Engine d.toGrammar) :
    (references (v.engine e)).Perm (A.referredSoFar e) := by
  refine filterMap_engine reference? A.referred (fun _ => []) h.references_perm
    (fun depth scope => ?_) e
  obtain ⟨_, own, hdivided, -, hreferred, -⟩ := h.scope depth scope
  exact ⟨own, hdivided, hreferred⟩

/-- A registry that agrees with what is found in the tree mirrors it. -/
theorem mirrors_of_agrees
    {e : Engine d.toGrammar}
    (hagrees : v.Agrees e) :
    A.Mirrors e := by
  have hdeclared : e.registry.aliases.Perm (A.declaredSoFar e) :=
    hagrees.declared.symm.trans (h.declarations_engine e)
  have hreferred := h.references_engine e
  refine ⟨fun a => hdeclared.mem_iff, hdeclared.nodup_iff.mp hagrees.distinct, ?_,
    fun a ha => hagrees.known a (hreferred.mem_iff.mpr ha)⟩
  rw [← hdeclared.length_eq]
  exact (List.length_map _).symm

end Inventory.Charts

namespace Kind

/-- Whatever calls a program makes, inside bodies and outside, the registry mirrors the tree
of every engine that a call finds, and of the one that the program leaves behind, as long as
no call has failed. -/
theorem registry_mirrors_tree
    (kind : Kind)
    (program : List (Authoring kind.dialect)) :
    let m := kind.dialect.authoring
    (∀ t ∈ Program.turnsAll m {} program,
      t.before.engine.failedAt = none → kind.anatomy.Mirrors t.before.engine) ∧
    ((Program.runAll m {} program).after.engine.failedAt = none →
      kind.anatomy.Mirrors (Program.runAll m {} program).after.engine) := by
  intro m
  have hkeeps := kind.surveyed.keeps_agrees kind.sound
  refine ⟨fun t ht hnone => ?_, fun hnone => ?_⟩
  · have hagrees := hkeeps.before_turn (Program.leads_turnsAll program {})
      (fun _ => kind.inventory.agrees_new) t ht
    exact kind.charts.mirrors_of_agrees (hagrees hnone)
  · have hagrees := hkeeps.runAll program {} fun _ => kind.inventory.agrees_new
    exact kind.charts.mirrors_of_agrees (hagrees hnone)

/-- While the last call in the body of the composite state is made, the registry holds the
composite state itself, which is not an element yet, and the two states inside it. -/
theorem registry_mirrors_tree_of_twoRegions :
    ∃ t ∈ Program.turnsAll Kind.state.dialect.authoring {} twoRegions,
      t.before.engine.failedAt = none ∧
      t.before.engine.root.length = 0 ∧
      t.before.engine.registry.aliases.map Alias.name = ["__s1", "idle", "core"] ∧
      Kind.state.anatomy.Mirrors t.before.engine := by
  have hfacts : (Program.turnsAll Kind.state.dialect.authoring {} twoRegions)[5]?.map
      (fun t => (t.before.engine.failedAt, t.before.engine.root.length,
        t.before.engine.registry.aliases.map Alias.name)) =
      some (none, 0, ["__s1", "idle", "core"]) := by
    decide +kernel
  obtain ⟨t, ht, hfacts⟩ := Option.map_eq_some_iff.mp hfacts
  simp only [Prod.mk.injEq] at hfacts
  obtain ⟨hnone, hroot, hnames⟩ := hfacts
  have hmem := List.mem_of_getElem? ht
  exact ⟨t, hmem, hnone, hroot, hnames, (registry_mirrors_tree .state twoRegions).1 t hmem hnone⟩

end Kind

end UmlText
