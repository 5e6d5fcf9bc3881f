import UmlText.Proofs.Books
import UmlText.Proofs.Ends
import UmlText.Proofs.Reading

/-!
# Readings and the engine

What a reading says of a call is related here to what the call does to an engine:

* a `Realization` of a reading says what a clause does with an open scope, and which open
  scopes hold which items;
* `Takes` says that the tree of an engine has taken one more item, at the end of its
  innermost scope or of its root;
* a realization is `Sound` when every call of the dialect does to the engine what its
  reading says, or fails and leaves the tree alone.
-/

namespace UmlText

/-- How open scopes come to hold the items of a reading. -/
structure Realization {d : Dialect} (r : Reading d) where
  /-- The clause turns the first open scope into the second. -/
  Applies : r.Clause → d.Scope → d.Scope → Prop
  /-- The open scope holds these items under this head. -/
  Holds : r.Head → List r.Item → d.Scope → Prop

namespace Realization

variable {d : Dialect} {r : Reading d}

/-- The item turns the first open scope into the second. -/
def Grows (z : Realization r) : r.Item → d.Scope → d.Scope → Prop
  | .element node, scope, scope' => d.push scope node = .ok scope'
  | .clause c, scope, scope' => z.Applies c scope scope'

/-- The tree has taken an item: at the end of its innermost scope, or at the end of its
root, where only elements have a place. -/
def Takes (z : Realization r) (item : r.Item) (e e' : Engine d.toGrammar) : Prop :=
  match e.stack with
  | [] => e'.stack = [] ∧ ∃ node, item = .element node ∧ e'.root = e.root ++ [node]
  | frame :: outer =>
      e'.root = e.root ∧
        ∃ scope, z.Grows item frame.scope scope ∧ e'.stack = { frame with scope } :: outer

section Rules

variable {z : Realization r} {e : Engine d.toGrammar}

/-- Appending an element changes nothing but the tree, which takes the element. -/
theorem ends_append_of_takes
    {ok : Unit → Engine d.toGrammar → Prop}
    {bad : Fault → Engine d.toGrammar → Prop}
    {node : d.Node}
    (hok : ∀ e', z.Takes (.element node) e e' → e.SameCounts e' →
      e'.registry = e.registry → ok () e')
    (hbad : ∀ fault e', e.SameTree e' → bad fault e') :
    (Action.append node).Ends e ok bad := by
  rw [Action.ends_append]
  refine ⟨fun hstack => ?_, fun frame outer hstack => ⟨fun scope hpush => ?_, fun what _ => ?_⟩⟩
  · refine hok _ ?_ ⟨rfl, rfl, rfl⟩ rfl
    unfold Takes
    rw [hstack]
    exact ⟨hstack, node, rfl, rfl⟩
  · refine hok _ ?_ ⟨rfl, rfl, rfl⟩ rfl
    unfold Takes
    rw [hstack]
    exact ⟨rfl, scope, hpush, rfl⟩
  · exact hbad _ _ ⟨rfl, rfl⟩

/-- A mark changes nothing but the innermost scope, to which its clause applies. -/
theorem ends_mark_of_takes
    {ok : Unit → Engine d.toGrammar → Prop}
    {bad : Fault → Engine d.toGrammar → Prop}
    {what expected : String}
    {clause : d.Scope → Option (Except Fault d.Scope)}
    {c : r.Clause}
    (happlies : ∀ scope scope', clause scope = some (.ok scope') → z.Applies c scope scope')
    (hok : ∀ e', z.Takes (.clause c) e e' → e.SameCounts e' →
      e'.registry = e.registry → ok () e')
    (hbad : ∀ fault e', e.SameTree e' → bad fault e') :
    (Action.mark what expected clause : Action d.toGrammar Unit).Ends e ok bad := by
  rw [Action.ends_mark]
  refine ⟨fun _ => ?_, fun frame outer hstack => ⟨fun _ => ?_, fun fault _ => ?_,
    fun scope hclause => ?_⟩⟩
  · exact hbad _ _ ⟨rfl, rfl⟩
  · exact hbad _ _ ⟨rfl, rfl⟩
  · exact hbad _ _ ⟨rfl, rfl⟩
  · refine hok _ ?_ ⟨rfl, rfl, rfl⟩ rfl
    unfold Takes
    rw [hstack]
    exact ⟨rfl, scope, happlies _ _ hclause, rfl⟩

end Rules

end Realization

/-- What is found in the elements and the open scopes of a dialect, and under which kind it
declares its aliases. -/
structure Inventory {d : Dialect} (r : Reading d) where
  /-- The kind under which all aliases are declared. -/
  kind : String
  /-- What is found in an item that lies so deep. -/
  item : Nat → r.Item → List Finding
  /-- What is found in an open scope that lies so deep. -/
  scope : Nat → d.Scope → List Finding
  /-- How much deeper the children of an open scope lie: by one step, or not at all. -/
  level : d.Scope → Nat

namespace Realization

variable {d : Dialect} {r : Reading d}

/-- What a call has done to an engine, by its reading. -/
structure Performed
    (z : Realization r)
    (v : Inventory r)
    (call : d.Call)
    (e e' : Engine d.toGrammar) : Prop where
  taken : ∃ item, r.call e.registry.generated call = some (item, e'.registry.generated) ∧
    z.Takes item e e' ∧ ∀ depth, Books v.kind depth (v.item depth item) e e'
  counts : e.SameCounts e'

/-- What the preparation of a scope has done to an engine, by its reading. -/
structure Prepared
    (z : Realization r)
    (v : Inventory r)
    (opening : d.Opening)
    (scope : d.Scope)
    (e e' : Engine d.toGrammar) : Prop where
  head : ∃ head, r.opening e.registry.generated opening = some (head, e'.registry.generated) ∧
    z.Holds head [] scope
  booked : ∀ depth, Books v.kind (depth + 1) (v.scope depth scope) e e'
  tree : e.SameTree e'
  counts : e.SameCounts e'

/-- Every call does to the engine what its reading says, or fails and leaves the tree alone.
-/
structure Sound (z : Realization r) (v : Inventory r) : Prop where
  call : ∀ call e,
    (d.perform call).Ends e (fun _ e' => z.Performed v call e e') (fun _ e' => e.SameTree e')
  opening : ∀ opening e,
    (d.scopeOf opening).Ends e
      (fun result e' => z.Prepared v opening result.1 e e') (fun _ e' => e.SameTree e')

section Rules

variable {z : Realization r} {v : Inventory r} {call : d.Call} {e e₁ : Engine d.toGrammar}

/-- What is remembered behind a call does not change what the call has done. -/
theorem Performed.of_alike
    {e₂ : Engine d.toGrammar}
    (h : z.Performed v call e e₁)
    (halike : e₁.Alike e₂) :
    z.Performed v call e e₂ := by
  obtain ⟨⟨item, hitem, htakes, hbooks⟩, hcounts⟩ := h
  refine ⟨⟨item, ?_, ?_, fun depth => ?_⟩, ?_⟩
  · rw [halike.registry]
    exact hitem
  · unfold Takes at htakes ⊢
    rw [halike.root, halike.stack]
    exact htakes
  · obtain ⟨hentries, hdistinct, hfresh, hplain, hknown, hshallow⟩ := hbooks depth
    refine ⟨?_, hdistinct, hfresh, hplain, ?_, hshallow⟩
    · rw [halike.registry]
      exact hentries
    · rw [halike.registry]
      exact hknown
  · exact ⟨halike.calls.trans hcounts.calls, halike.openings.trans hcounts.openings,
      halike.failedAt.trans hcounts.failedAt⟩

/-- A call that ends by appending the element it is read as. -/
theorem ends_append_of_reading
    {node : d.Node}
    (htree : e.SameTree e₁)
    (hcounts : e.SameCounts e₁)
    (hitem : r.call e.registry.generated call =
      some (.element node, e₁.registry.generated))
    (hbooks : ∀ e', e'.registry = e₁.registry →
      ∀ depth, Books v.kind depth (v.item depth (.element node)) e e') :
    (Action.append node).Ends e₁
      (fun _ e' => z.Performed v call e e') (fun _ e' => e.SameTree e') := by
  refine ends_append_of_takes (z := z) ?_ ?_
  · intro e' htakes hcounts' hregistry
    refine ⟨⟨.element node, ?_, ?_, hbooks e' hregistry⟩, ?_⟩
    · rw [hregistry]
      exact hitem
    · unfold Takes at htakes ⊢
      rw [htree.root, htree.stack] at htakes
      exact htakes
    · exact ⟨hcounts'.calls.trans hcounts.calls, hcounts'.openings.trans hcounts.openings,
        hcounts'.failedAt.trans hcounts.failedAt⟩
  · intro _ e' htree'
    exact ⟨htree'.root.trans htree.root, htree'.stack.trans htree.stack⟩

/-- A call that ends by applying the clause it is read as. -/
theorem ends_mark_of_reading
    {c : r.Clause}
    {what expected : String}
    {change : d.Scope → Option (Except Fault d.Scope)}
    (hitem : r.call e.registry.generated call = some (.clause c, e.registry.generated))
    (hsurvey : ∀ depth, v.item depth (.clause c) = [] ∨ v.item depth (.clause c) = [.entered depth])
    (hchange : ∀ scope scope', change scope = some (.ok scope') → z.Applies c scope scope') :
    (Action.mark what expected change : Action d.toGrammar Unit).Ends e
      (fun _ e' => z.Performed v call e e') (fun _ e' => e.SameTree e') := by
  refine ends_mark_of_takes (z := z) (c := c) hchange ?_ ?_
  · intro e' htakes hcounts hregistry
    refine ⟨⟨.clause c, ?_, htakes, fun depth => ?_⟩, hcounts⟩
    · rw [hregistry]
      exact hitem
    · exact .of_nothing hregistry (hsurvey depth)
  · intro _ _ h
    exact h

end Rules

/-- What an open scope holds is what is taken when it is closed. -/
structure Faithful (z : Realization r) : Prop where
  grow : ∀ {head items item scope scope'},
    z.Holds head items scope → z.Grows item scope scope' → z.Holds head (items ++ [item]) scope'
  adopt : ∀ {head items scope outer outer'},
    z.Holds head items scope → d.adopt outer scope = .ok outer' →
    ∃ item, r.construct head items = some item ∧ z.Grows item outer outer'
  toNode : ∀ {head items scope node},
    z.Holds head items scope → d.toNode scope = .ok node →
    r.construct head items = some (.element node)

end Realization

end UmlText
