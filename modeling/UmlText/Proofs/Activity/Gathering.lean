import UmlText.Proofs.Activity.Calls
import UmlText.Proofs.Anatomy
import UmlText.Proofs.Builds

/-!
# What an activity diagram has gathered so far

While an activity diagram is built, some of its constructs are still open.  Put one after
the other, from the outside to the inside, the children at the root and in the open
constructs are in the order of the document (`childrenSoFar`).  What a call brings along
comes to the end of them, whatever branch or case it goes into; opening a construct changes
nothing; and closing one only puts the children it holds, which are the last ones, into one
element.
-/

namespace UmlText.Activity

/-- The children that an item brings along: an element itself, or those of a parallel
branch. -/
def brought : Item Node Clause → List Node
  | .element node => [node]
  | .clause (.branch body) => body
  | .clause _ => []

/-- The children that the root and the open constructs have so far, from the outside to the
inside. -/
def childrenSoFar (e : Engine grammar) : List Node :=
  e.root ++ e.stack.reverse.flatMap fun frame => frame.scope.held.flatten

section Held

variable {scope scope' : Scope} {node : Node}

theorem Alternatives.bodies_of_push_eq_none
    {rest : Alternatives}
    (h : rest.push node = none) :
    rest.bodies = [] := by
  cases rest with
  | nothing => rfl
  | elseif guard body rest =>
      rw [Alternatives.push] at h
      split at h <;> cases h
  | otherwise label body => cases h

theorem Alternatives.flatten_bodies_of_push :
    ∀ {rest rest' : Alternatives}, rest.push node = some rest' →
      rest'.bodies.flatten = rest.bodies.flatten ++ [node]
  | .nothing, _, h => by cases h
  | .elseif guard body rest, _, h => by
      rw [Alternatives.push] at h
      split at h
      · next hnone =>
          cases h
          simp [Alternatives.bodies, Alternatives.bodies_of_push_eq_none hnone]
      · next pushed hpushed =>
          cases h
          simp [Alternatives.bodies, Alternatives.flatten_bodies_of_push hpushed]
  | .otherwise label body, _, h => by
      cases h
      simp [Alternatives.bodies]

theorem Alternatives.bodies_extend
    {more : Alternatives} :
    ∀ {rest : Alternatives}, rest.isClosed = false →
      (rest.extend more).bodies = rest.bodies ++ more.bodies
  | .nothing, _ => rfl
  | .elseif guard body rest, h => by
      have hrest : rest.isClosed = false := h
      simp [Alternatives.extend, Alternatives.bodies, Alternatives.bodies_extend hrest]
  | .otherwise label body, h => by cases h

theorem flatten_pushCase :
    ∀ {cases : List (String × List Node)}, cases ≠ [] →
      ((pushCase node cases).map Prod.snd).flatten = (cases.map Prod.snd).flatten ++ [node]
  | [], h => absurd rfl h
  | [(label, body)], _ => by simp [pushCase]
  | first :: second :: rest, _ => by
      have hrest : ((pushCase node (second :: rest)).map Prod.snd).flatten = _ :=
        flatten_pushCase (by simp)
      simp only [pushCase, List.map_cons, List.flatten_cons, hrest, List.append_assoc]

/-- An element that an open construct takes is its last child. -/
theorem Scope.flatten_held_of_push (h : scope.push node = .ok scope') :
    scope'.held.flatten = scope.held.flatten ++ [node] := by
  obtain ⟨hnone, rfl⟩ := Scope.push_eq_ok_iff.mp h
  cases scope with
  | decision guard body rest =>
      cases hrest : rest.push node with
      | none =>
          simp [Scope.add, hrest, Scope.held, Alternatives.bodies_of_push_eq_none hrest]
      | some pushed =>
          simp [Scope.add, hrest, Scope.held, Alternatives.flatten_bodies_of_push hrest]
  | switch test cases =>
      have hcases : cases ≠ [] := by
        rintro rfl
        cases hnone
      exact flatten_pushCase hcases
  | fork ending branches => cases hnone
  | split branches => cases hnone
  | _ => simp [Scope.add, Scope.held]

/-- The children of an open construct are those it had, and then those that are brought
along. -/
theorem Scope.flatten_held_of_grows
    {item : Item Node Clause}
    (h : realization.Grows item scope scope') :
    scope'.held.flatten = scope.held.flatten ++ brought item := by
  cases item with
  | element node => exact Scope.flatten_held_of_push h
  | clause c =>
      cases c with
      | elseif guard =>
          obtain ⟨_, _, _, rfl, hopen, rfl⟩ := Scope.addElseif_eq_ok_iff.mp h
          simp [Scope.held, Alternatives.bodies_extend hopen, Alternatives.bodies, brought]
      | otherwise label =>
          obtain ⟨_, _, _, rfl, hopen, rfl⟩ := Scope.addOtherwise_eq_ok_iff.mp h
          simp [Scope.held, Alternatives.bodies_extend hopen, Alternatives.bodies, brought]
      | case label =>
          obtain ⟨_, _, rfl, rfl⟩ := Scope.addCase_eq_ok_iff.mp h
          simp [Scope.held, brought]
      | backward text =>
          obtain ⟨_, _, rfl, rfl⟩ := Scope.setBackward_eq_ok_iff.mp h
          simp [Scope.held, brought]
      | ending e =>
          obtain ⟨_, rfl, rfl⟩ := Scope.setEnding_eq_ok_iff.mp h
          simp [Scope.held, brought]
      | branch body =>
          rcases Scope.adopt_branch_eq_ok_iff.mp h with ⟨_, _, rfl, rfl⟩ | ⟨_, rfl, rfl⟩
          · simp [Scope.held, brought]
          · simp [Scope.held, brought]

/-- An element has the children that its construct has held. -/
theorem Scope.bodies_of_toNode (h : scope.toNode = .ok node) : node.bodies = scope.held := by
  cases scope <;> cases h <;> rfl

theorem Scope.held_holding (opening : Opening) : (opening.holding [] []).held.flatten = [] := by
  cases opening <;> rfl

/-- A construct is adopted as an element, or as a parallel branch. -/
theorem Scope.adopt_grows
    {outer inner outer' : Scope}
    (h : outer.adopt inner = .ok outer') :
    ∃ item, realization.Grows item outer outer' ∧
      (inner.isBranch = true ∧ item = .clause (.branch inner.held.flatten) ∨
        ∃ node, item = .element node ∧ inner.toNode = .ok node) := by
  cases hbranch : inner.isBranch with
  | true =>
      cases inner <;> cases hbranch
      next body => exact ⟨.clause (.branch body), h, .inl ⟨rfl, by simp [Scope.held]⟩⟩
  | false =>
      obtain ⟨node, hnode, hpush⟩ := (Scope.adopt_eq_ok_iff hbranch).mp h
      exact ⟨.element node, hpush, .inr ⟨node, rfl, hnode⟩⟩

end Held

section Steps

variable {e e' : Engine grammar}

/-- What the tree takes comes to the end of its children. -/
theorem childrenSoFar_of_takes
    {item : Item Node Clause}
    (h : realization.Takes item e e') :
    childrenSoFar e' = childrenSoFar e ++ brought item := by
  unfold Realization.Takes at h
  unfold childrenSoFar
  cases hstack : e.stack with
  | nil =>
      rw [hstack] at h
      obtain ⟨hstack', node, rfl, hroot'⟩ := h
      simp [hstack', hroot', brought]
  | cons frame outer =>
      rw [hstack] at h
      obtain ⟨hroot', scope, hgrows, hstack'⟩ := h
      simp [hstack', hroot', Scope.flatten_held_of_grows hgrows]

/-- The last children of the tree become those of one element, or stay what they are when a
parallel branch is closed. -/
theorem childrenSoFar_of_closed
    {token : Token}
    (h : Closed (d := dialect) token e e') :
    ∃ frame outer earlier, e.stack = frame :: outer ∧
      childrenSoFar e = earlier ++ frame.scope.held.flatten ∧
      (childrenSoFar e' = childrenSoFar e ∨
        ∃ node, frame.scope.toNode = .ok node ∧ childrenSoFar e' = earlier ++ [node]) := by
  obtain ⟨frame, outer, hstack, _, hends⟩ := h.closed
  refine ⟨frame, outer, e.root ++ outer.reverse.flatMap fun frame => frame.scope.held.flatten,
    hstack, by simp [childrenSoFar, hstack], ?_⟩
  cases outer with
  | nil =>
      obtain ⟨node, hnode, hstack', hroot'⟩ := hends
      exact .inr ⟨node, hnode, by simp [childrenSoFar, hstack', hroot']⟩
  | cons parent rest =>
      obtain ⟨scope, hadopt, hstack', hroot'⟩ := hends
      obtain ⟨item, hgrows, hitem⟩ := Scope.adopt_grows hadopt
      have hheld := Scope.flatten_held_of_grows hgrows
      rcases hitem with ⟨_, rfl⟩ | ⟨node, rfl, hnode⟩
      · exact .inl (by simp [childrenSoFar, hstack, hstack', hroot', hheld, brought])
      · exact .inr ⟨node, hnode, by simp [childrenSoFar, hstack', hroot', hheld, brought]⟩

end Steps

end UmlText.Activity
