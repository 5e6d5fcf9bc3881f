import UmlText.Proofs.Activity.Reading
import UmlText.Proofs.Checks
import UmlText.Proofs.Realization

/-!
# Open constructs and what is read

An open construct holds the items of its body: the elements in front of the first clause,
and the sections behind it.  Every clause and every element that the construct takes changes
it as the reading of its items says.
-/

namespace UmlText.Activity

/-- The clause turns the first open scope into the second. -/
def Clause.Applies : Clause → Scope → Scope → Prop
  | .elseif guard, scope, scope' => scope.addElseif guard = some (.ok scope')
  | .otherwise label, scope, scope' => scope.addOtherwise label = some (.ok scope')
  | .case label, scope, scope' => scope.addCase label = some (.ok scope')
  | .backward text, scope, scope' => scope.setBackward text = some (.ok scope')
  | .ending e, scope, scope' => scope.setEnding e = some (.ok scope')
  | .branch body, scope, scope' => scope.adopt (.branch body) = .ok scope'

/-- The open scope of a construct with the given elements and sections. -/
def Opening.holding (body : List Node) (sections : List Section) : Opening → Scope
  | .decision guard => .decision guard body (alternativesOf sections)
  | .switch test => .switch test (casesOf sections)
  | .whileLoop head => .whileLoop head body
  | .repeatLoop head => .repeatLoop head body (backwardOf sections)
  | .fork => .fork (endingOf sections) (branchesOf sections)
  | .split => .split (branchesOf sections)
  | .branch => .branch body
  | .partition name color => .partition name color body
  | .group name => .group name body

/-- The open scope of a construct that holds the given items. -/
def Opening.Holds (opening : Opening) (items : List (Item Node Clause)) (scope : Scope) : Prop :=
  scope = opening.holding (Item.split items).1 (Item.split items).2 ∧
    opening.Fits (Item.split items).1 (Item.split items).2

/-- How open scopes hold the items of the reading. -/
abbrev realization : Realization reading where
  Applies := Clause.Applies
  Holds := Opening.Holds

section Sections

theorem push_alternativesOf
    (node : Node) :
    ∀ sections : List Section, sections ≠ [] → areBranches sections →
      (alternativesOf sections).push node =
        some (alternativesOf (Item.pushLast node sections))
  | [], h, _ => absurd rfl h
  | [(.elseif guard, body)], _, _ => rfl
  | [(.otherwise label, body)], _, _ => rfl
  | (.elseif guard, body) :: s :: rest, _, h => by
      have hrest := push_alternativesOf node (s :: rest) (by simp) h
      simp [alternativesOf, Alternatives.push, Item.pushLast, hrest]

/-- A further section is the last one of a decision that has not come to its last branch. -/
theorem alternativesOf_append
    (s : Section) :
    ∀ sections : List Section, areBranches sections →
      (alternativesOf sections).isClosed = false →
      alternativesOf (sections ++ [s]) =
        (alternativesOf sections).extend (alternativesOf [s])
  | [], _, _ => rfl
  | [(.otherwise label, body)], _, h => by simp [alternativesOf, Alternatives.isClosed] at h
  | (.elseif guard, body) :: rest, hfits, h => by
      have hrest := alternativesOf_append s rest hfits h
      simp [alternativesOf, Alternatives.extend, hrest]

theorem areBranches_append
    (s : Section)
    (hs : areBranches [s]) :
    ∀ sections : List Section, areBranches sections →
      (alternativesOf sections).isClosed = false → areBranches (sections ++ [s])
  | [], _, _ => hs
  | [(.otherwise _, _)], _, h => by simp [alternativesOf, Alternatives.isClosed] at h
  | (.elseif _, _) :: rest, hfits, h => areBranches_append s hs rest hfits h

theorem areBranches_pushLast
    (node : Node) :
    ∀ sections : List Section, areBranches sections →
      areBranches (Item.pushLast node sections)
  | [], h => h
  | [(.elseif _, _)], h => h
  | [(.otherwise _, _)], h => h
  | (.elseif _, _) :: s :: rest, h => areBranches_pushLast node (s :: rest) h

theorem casesOf_append (first second : List Section) :
    casesOf (first ++ second) = casesOf first ++ casesOf second := by
  induction first with
  | nil => rfl
  | cons s rest ih =>
      obtain ⟨c, body⟩ := s
      cases c <;> simp [casesOf, ih]

theorem pushCase_casesOf
    (node : Node) :
    ∀ sections : List Section, (∀ s ∈ sections, s.1.isCase = true) →
      pushCase node (casesOf sections) = casesOf (Item.pushLast node sections)
  | [], _ => rfl
  | [(c, body)], h => by
      have hc : c.isCase = true := h (c, body) (by simp)
      cases c <;> cases hc
      rfl
  | (c, body) :: (c', body') :: rest, h => by
      have hrest := pushCase_casesOf node ((c', body') :: rest)
        fun s hs => h s (List.mem_cons_of_mem _ hs)
      have hc : c.isCase = true := h (c, body) (by simp)
      have hc' : c'.isCase = true := h (c', body') (by simp)
      cases c <;> cases hc
      cases c' <;> cases hc'
      simp only [casesOf, Item.pushLast, pushCase] at hrest ⊢
      rw [hrest]

/-- A loop without an edge back to its start has not come to a section. -/
theorem eq_nil_of_backwardOf
    {sections : List Section}
    (hfits : ∀ s ∈ sections, s.1.isBackward = true ∧ s.2 = [])
    (h : backwardOf sections = none) :
    sections = [] := by
  cases sections with
  | nil => rfl
  | cons s rest =>
      obtain ⟨c, body⟩ := s
      have hc := (hfits (c, body) (by simp)).1
      cases c <;> cases hc
      cases h

/-- A fork whose end is not given has no section that gives it. -/
theorem filter_isEnding_of_endingOf
    {sections : List Section}
    (h : endingOf sections = none) :
    sections.filter (fun s => s.1.isEnding) = [] := by
  induction sections with
  | nil => rfl
  | cons s rest ih =>
      obtain ⟨c, body⟩ := s
      cases c with
      | ending e => cases h
      | _ => exact ih h

theorem endingOf_append (first second : List Section) :
    endingOf (first ++ second) = (endingOf first).or (endingOf second) := by
  induction first with
  | nil => rfl
  | cons s rest ih =>
      obtain ⟨c, body⟩ := s
      cases c <;> simp [endingOf, ih]

theorem branchesOf_append (first second : List Section) :
    branchesOf (first ++ second) = branchesOf first ++ branchesOf second := by
  induction first with
  | nil => rfl
  | cons s rest ih =>
      obtain ⟨c, body⟩ := s
      cases c <;> simp [branchesOf, ih]

end Sections

namespace Scope

theorem push_eq_ok_iff
    {scope scope' : Scope}
    {node : Node} :
    scope.push node = .ok scope' ↔ scope.expectation = none ∧ scope' = scope.add node := by
  unfold push
  split
  · next expected h => simp [h]
  · next h => simp [h, eq_comm]

theorem addElseif_eq_ok_iff
    {scope scope' : Scope}
    {guard : Guard} :
    scope.addElseif guard = some (.ok scope') ↔
      ∃ first body rest, scope = .decision first body rest ∧ rest.isClosed = false ∧
        scope' = .decision first body (rest.extend (.elseif guard [] .nothing)) := by
  constructor
  · intro h
    cases scope with
    | decision first body rest =>
        cases hrest : rest.isClosed with
        | true => simp [addElseif, hrest] at h
        | false =>
            simp only [addElseif, hrest, Bool.false_eq_true, if_false] at h
            cases h
            exact ⟨first, body, rest, rfl, hrest, rfl⟩
    | _ => cases h
  · rintro ⟨first, body, rest, rfl, hrest, rfl⟩
    simp [addElseif, hrest]

theorem addOtherwise_eq_ok_iff
    {scope scope' : Scope}
    {label : Option String} :
    scope.addOtherwise label = some (.ok scope') ↔
      ∃ first body rest, scope = .decision first body rest ∧ rest.isClosed = false ∧
        scope' = .decision first body (rest.extend (.otherwise label [])) := by
  constructor
  · intro h
    cases scope with
    | decision first body rest =>
        cases hrest : rest.isClosed with
        | true => simp [addOtherwise, hrest] at h
        | false =>
            simp only [addOtherwise, hrest, Bool.false_eq_true, if_false] at h
            cases h
            exact ⟨first, body, rest, rfl, hrest, rfl⟩
    | _ => cases h
  · rintro ⟨first, body, rest, rfl, hrest, rfl⟩
    simp [addOtherwise, hrest]

theorem addCase_eq_ok_iff
    {scope scope' : Scope}
    {label : String} :
    scope.addCase label = some (.ok scope') ↔
      ∃ test cases, scope = .switch test cases ∧
        scope' = .switch test (cases ++ [(label, [])]) := by
  constructor
  · intro h
    cases scope with
    | switch test cases =>
        cases h
        exact ⟨test, cases, rfl, rfl⟩
    | _ => cases h
  · rintro ⟨test, cases, rfl, rfl⟩
    rfl

theorem setBackward_eq_ok_iff
    {scope scope' : Scope}
    {text : String} :
    scope.setBackward text = some (.ok scope') ↔
      ∃ head body, scope = .repeatLoop head body none ∧
        scope' = .repeatLoop head body (some text) := by
  constructor
  · intro h
    cases scope with
    | repeatLoop head body given =>
        cases given with
        | none =>
            cases h
            exact ⟨head, body, rfl, rfl⟩
        | some given => cases h
    | _ => cases h
  · rintro ⟨head, body, rfl, rfl⟩
    rfl

theorem setEnding_eq_ok_iff
    {scope scope' : Scope}
    {ending : ForkEnd} :
    scope.setEnding ending = some (.ok scope') ↔
      ∃ branches, scope = .fork none branches ∧ scope' = .fork (some ending) branches := by
  constructor
  · intro h
    cases scope with
    | fork given branches =>
        cases given with
        | none =>
            cases h
            exact ⟨branches, rfl, rfl⟩
        | some given => cases h
    | _ => cases h
  · rintro ⟨branches, rfl, rfl⟩
    rfl

theorem adopt_branch_eq_ok_iff
    {outer outer' : Scope}
    {body : List Node} :
    outer.adopt (.branch body) = .ok outer' ↔
      (∃ ending branches, outer = .fork ending branches ∧
        outer' = .fork ending (branches ++ [body])) ∨
      ∃ branches, outer = .split branches ∧ outer' = .split (branches ++ [body]) := by
  constructor
  · intro h
    cases outer with
    | fork ending branches =>
        cases h
        exact .inl ⟨ending, branches, rfl, rfl⟩
    | split branches =>
        cases h
        exact .inr ⟨branches, rfl, rfl⟩
    | _ => cases h
  · rintro (⟨ending, branches, rfl, rfl⟩ | ⟨branches, rfl, rfl⟩)
    · rfl
    · rfl

/-- A scope that is no branch is adopted as the element it becomes. -/
theorem adopt_eq_ok_iff
    {outer inner outer' : Scope}
    (hbranch : inner.isBranch = false) :
    outer.adopt inner = .ok outer' ↔
      ∃ node, inner.toNode = .ok node ∧ outer.push node = .ok outer' := by
  have hobstacle : outer.obstacle inner = outer.expectation := by
    rw [obstacle, hbranch]
    rfl
  cases hexpected : outer.expectation with
  | some expected =>
      have hrefused :
          outer.adopt inner = .error (.misplaced inner.kind outer.kind expected) := by
        unfold adopt
        split
        · cases hbranch
        · cases hbranch
        · simp only [hobstacle, hexpected]
      simp [hrefused, push_eq_ok_iff, hexpected]
  | none =>
      have hadopted : outer.adopt inner = inner.toNode >>= outer.push := by
        unfold adopt
        split
        · cases hbranch
        · cases hbranch
        · simp only [hobstacle, hexpected]
      rw [hadopted]
      exact bind_eq_ok_iff

end Scope

/-- A construct is opened without items. -/
theorem holds_nil (opening : Opening) : opening.Holds [] (opening.holding [] []) := by
  refine ⟨rfl, ?_⟩
  cases opening <;> simp [Opening.Fits, Item.split, areBranches]

theorem holds_element
    {opening : Opening}
    {items : List (Item Node Clause)}
    {scope scope' : Scope}
    {node : Node}
    (h : opening.Holds items scope)
    (hpush : scope.push node = .ok scope') :
    opening.Holds (items ++ [.element node]) scope' := by
  obtain ⟨rfl, hfits⟩ := h
  obtain ⟨hnone, rfl⟩ := Scope.push_eq_ok_iff.mp hpush
  unfold Opening.Holds
  by_cases hs : (Item.split items).2 = []
  · rw [Item.split_append_element_of_nil node hs]
    rw [hs] at hnone hfits ⊢
    cases opening <;>
      simp_all [Opening.holding, Opening.Fits, Scope.add, alternativesOf, Alternatives.push,
        casesOf, Scope.expectation]
  · rw [Item.split_append_element node hs]
    cases opening with
    | decision guard =>
        have hpushed := push_alternativesOf node _ hs hfits
        exact ⟨by simp [Opening.holding, Scope.add, hpushed], areBranches_pushLast node _ hfits⟩
    | switch test =>
        have hpushed := pushCase_casesOf node _ hfits.2
        refine ⟨by simp [Opening.holding, Scope.add, hpushed], hfits.1, fun s hmem => ?_⟩
        obtain ⟨t, ht, hst⟩ := Item.mem_pushLast hmem
        rw [← hst]
        exact hfits.2 t ht
    | repeatLoop head =>
        -- nothing follows the edge back to the start, and so nothing was pushed
        have hgiven : backwardOf (Item.split items).2 ≠ none :=
          fun h => hs (eq_nil_of_backwardOf hfits.2 h)
        obtain ⟨text, htext⟩ := Option.ne_none_iff_exists'.mp hgiven
        simp [Opening.holding, htext, Scope.expectation] at hnone
    | fork => simp [Opening.holding, Scope.expectation] at hnone
    | split => simp [Opening.holding, Scope.expectation] at hnone
    | whileLoop head => exact absurd hfits hs
    | branch => exact absurd hfits hs
    | partition name color => exact absurd hfits hs
    | group name => exact absurd hfits hs

section Clauses

variable {opening : Opening} {items : List (Item Node Clause)}

/-- A clause starts a new section behind the ones that are there. -/
theorem holds_append_clause {c : Clause} {scope : Scope} :
    opening.Holds (items ++ [.clause c]) scope ↔
      scope = opening.holding (Item.split items).1 ((Item.split items).2 ++ [(c, [])]) ∧
        opening.Fits (Item.split items).1 ((Item.split items).2 ++ [(c, [])]) := by
  rw [Opening.Holds, Item.split_append_clause]

/-- Up to its last branch a decision takes a further one. -/
theorem holds_further_branch
    {c : Clause}
    {guard : Guard}
    {body : List Node}
    {rest : Alternatives}
    (h : opening.Holds items (.decision guard body rest))
    (hopen : rest.isClosed = false)
    (hc : areBranches [(c, [])] = true) :
    opening.Holds (items ++ [.clause c])
      (.decision guard body (rest.extend (alternativesOf [(c, [])]))) := by
  obtain ⟨hscope, hfits⟩ := h
  cases opening <;> cases hscope
  rw [holds_append_clause]
  exact ⟨by rw [Opening.holding, alternativesOf_append (c, []) _ hfits hopen],
    areBranches_append (c, []) hc _ hfits hopen⟩

theorem holds_case
    {test : String}
    {cases : List (String × List Node)}
    (h : opening.Holds items (.switch test cases))
    (label : String) :
    opening.Holds (items ++ [.clause (.case label)]) (.switch test (cases ++ [(label, [])])) := by
  obtain ⟨hscope, hfits⟩ := h
  cases opening <;> cases hscope
  rw [holds_append_clause]
  refine ⟨by simp [Opening.holding, casesOf_append, casesOf], hfits.1, ?_⟩
  exact List.forall_mem_append.mpr ⟨hfits.2, List.forall_mem_singleton.mpr rfl⟩

theorem holds_backward
    {head : RepeatHead}
    {body : List Node}
    (h : opening.Holds items (.repeatLoop head body none))
    (text : String) :
    opening.Holds (items ++ [.clause (.backward text)]) (.repeatLoop head body (some text)) := by
  obtain ⟨hscope, hfits⟩ := h
  cases opening <;> simp only [Opening.holding, reduceCtorEq, Scope.repeatLoop.injEq] at hscope
  obtain ⟨rfl, rfl, hnone⟩ := hscope
  have hnil := eq_nil_of_backwardOf hfits.2 hnone.symm
  rw [holds_append_clause, hnil]
  exact ⟨rfl, Nat.le_refl 1, List.forall_mem_singleton.mpr ⟨rfl, rfl⟩⟩

theorem holds_ending
    {branches : List (List Node)}
    (h : opening.Holds items (.fork none branches))
    (ending : ForkEnd) :
    opening.Holds (items ++ [.clause (.ending ending)]) (.fork (some ending) branches) := by
  obtain ⟨hscope, hfits⟩ := h
  cases opening <;> simp only [Opening.holding, reduceCtorEq, Scope.fork.injEq] at hscope
  obtain ⟨hnone, rfl⟩ := hscope
  obtain ⟨hbody, -, hall⟩ := hfits
  rw [holds_append_clause]
  refine ⟨by simp [Opening.holding, endingOf_append, ← hnone, branchesOf_append, endingOf,
    branchesOf], hbody, ?_, ?_⟩
  · rw [List.filter_append, filter_isEnding_of_endingOf hnone.symm]
    exact Nat.le_refl 1
  · exact List.forall_mem_append.mpr ⟨hall, List.forall_mem_singleton.mpr ⟨.inl rfl, rfl⟩⟩

theorem holds_branch_of_fork
    {ending : Option ForkEnd}
    {branches : List (List Node)}
    (h : opening.Holds items (.fork ending branches))
    (body : List Node) :
    opening.Holds (items ++ [.clause (.branch body)]) (.fork ending (branches ++ [body])) := by
  obtain ⟨hscope, hfits⟩ := h
  cases opening <;> cases hscope
  obtain ⟨hbody, hcount, hall⟩ := hfits
  rw [holds_append_clause]
  refine ⟨by simp [Opening.holding, endingOf_append, endingOf, branchesOf_append, branchesOf],
    hbody, ?_, ?_⟩
  · simpa [Clause.isEnding] using hcount
  · exact List.forall_mem_append.mpr ⟨hall, List.forall_mem_singleton.mpr ⟨.inr rfl, rfl⟩⟩

theorem holds_branch_of_split
    {branches : List (List Node)}
    (h : opening.Holds items (.split branches))
    (body : List Node) :
    opening.Holds (items ++ [.clause (.branch body)]) (.split (branches ++ [body])) := by
  obtain ⟨hscope, hfits⟩ := h
  cases opening <;> cases hscope
  obtain ⟨hbody, hall⟩ := hfits
  rw [holds_append_clause]
  refine ⟨by simp [Opening.holding, branchesOf_append, branchesOf], hbody, ?_⟩
  exact List.forall_mem_append.mpr ⟨hall, List.forall_mem_singleton.mpr ⟨rfl, rfl⟩⟩

theorem holds_clause
    {scope scope' : Scope}
    {c : Clause}
    (h : opening.Holds items scope)
    (happly : c.Applies scope scope') :
    opening.Holds (items ++ [.clause c]) scope' := by
  cases c with
  | elseif guard =>
      obtain ⟨first, body, rest, rfl, hopen, rfl⟩ := Scope.addElseif_eq_ok_iff.mp happly
      exact holds_further_branch h hopen rfl
  | otherwise label =>
      obtain ⟨first, body, rest, rfl, hopen, rfl⟩ := Scope.addOtherwise_eq_ok_iff.mp happly
      exact holds_further_branch h hopen rfl
  | case label =>
      obtain ⟨test, cases, rfl, rfl⟩ := Scope.addCase_eq_ok_iff.mp happly
      exact holds_case h label
  | backward text =>
      obtain ⟨head, body, rfl, rfl⟩ := Scope.setBackward_eq_ok_iff.mp happly
      exact holds_backward h text
  | ending ending =>
      obtain ⟨branches, rfl, rfl⟩ := Scope.setEnding_eq_ok_iff.mp happly
      exact holds_ending h ending
  | branch body =>
      rcases Scope.adopt_branch_eq_ok_iff.mp happly with
        ⟨ending, branches, rfl, rfl⟩ | ⟨branches, rfl, rfl⟩
      · exact holds_branch_of_fork h body
      · exact holds_branch_of_split h body

end Clauses

section Kinds

theorem Scope.kind_add (scope : Scope) (node : Node) :
    (scope.add node).kind = scope.kind := by
  cases scope with
  | decision guard body rest =>
      simp only [Scope.add]
      cases rest.push node <;> rfl
  | _ => rfl

theorem Scope.isBranch_eq (scope : Scope) :
    scope.isBranch = decide (scope.kind = "branch") := by
  cases scope <;> rfl

theorem Scope.isParallel_eq (scope : Scope) :
    scope.isParallel = decide (scope.kind = "fork" ∨ scope.kind = "split") := by
  cases scope <;> rfl

variable {item : Item Node Clause} {scope scope' : Scope}

/-- What is put into a scope never makes a scope of another kind of it. -/
theorem kind_of_grows (h : realization.Grows item scope scope') :
    scope'.kind = scope.kind := by
  cases item with
  | element node =>
      obtain ⟨_, rfl⟩ := Scope.push_eq_ok_iff.mp h
      exact Scope.kind_add scope node
  | clause c =>
      cases c with
      | elseif guard =>
          obtain ⟨_, _, _, rfl, _, rfl⟩ := Scope.addElseif_eq_ok_iff.mp h
          rfl
      | otherwise label =>
          obtain ⟨_, _, _, rfl, _, rfl⟩ := Scope.addOtherwise_eq_ok_iff.mp h
          rfl
      | case label =>
          obtain ⟨_, _, rfl, rfl⟩ := Scope.addCase_eq_ok_iff.mp h
          rfl
      | backward text =>
          obtain ⟨_, _, rfl, rfl⟩ := Scope.setBackward_eq_ok_iff.mp h
          rfl
      | ending e =>
          obtain ⟨_, rfl, rfl⟩ := Scope.setEnding_eq_ok_iff.mp h
          rfl
      | branch body =>
          rcases Scope.adopt_branch_eq_ok_iff.mp h with ⟨_, _, rfl, rfl⟩ | ⟨_, rfl, rfl⟩
          · rfl
          · rfl

theorem isBranch_of_grows (h : realization.Grows item scope scope') :
    scope'.isBranch = scope.isBranch := by
  rw [Scope.isBranch_eq, Scope.isBranch_eq, kind_of_grows h]

theorem isParallel_of_grows (h : realization.Grows item scope scope') :
    scope'.isParallel = scope.isParallel := by
  simp only [Scope.isParallel_eq, kind_of_grows h]

end Kinds

end UmlText.Activity
