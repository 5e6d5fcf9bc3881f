import UmlText.Program

/-!
# How attempts end

`a.Ends s ok bad` says that the attempt `a`, made in the state `s`, ends with a value and a
state that satisfy `ok`, or with an error and a state that satisfy `bad`.  The lemmas
`ends_…` compute this statement for every operation of attempts, actions and builds, so that
a statement about a call unfolds into statements about its checks and about the tree it
finds.

* `succeeds_iff_ends`: an attempt succeeds when it ends well in anything and badly in
  nothing;
* `ends_append`, `ends_openScope`, `ends_closeScope`, `ends_mark`: the operations that touch
  the tree, by the stack they find;
* `ends_step`: one numbered call.
-/

namespace UmlText

namespace Attempt

variable {σ ε α β : Type}

/-- Made in the state `s`, the attempt ends with a value in `ok` or with an error in `bad`.
-/
def Ends
    (a : Attempt σ ε α)
    (s : σ)
    (ok : α → σ → Prop)
    (bad : ε → σ → Prop) : Prop :=
  match a.run s with
  | (.ok value, after) => ok value after
  | (.error error, after) => bad error after

/-- Made in the state `s`, the attempt ends with a value. -/
def Succeeds (a : Attempt σ ε α) (s : σ) : Prop :=
  a.Ends s (fun _ _ => True) (fun _ _ => False)

section Rules

variable {s : σ} {ok : α → σ → Prop} {bad : ε → σ → Prop}

/-- A weaker ending follows from a stronger one. -/
theorem Ends.mono
    {a : Attempt σ ε α}
    {ok' : α → σ → Prop}
    {bad' : ε → σ → Prop}
    (h : a.Ends s ok bad)
    (hok : ∀ value after, ok value after → ok' value after)
    (hbad : ∀ error after, bad error after → bad' error after) :
    a.Ends s ok' bad' := by
  unfold Ends at h ⊢
  rcases hrun : a.run s with ⟨error | value, after⟩
  · rw [hrun] at h
    exact hbad error after h
  · rw [hrun] at h
    exact hok value after h

/-- What is known of a run that has ended with a value. -/
theorem Ends.of_ok
    {a : Attempt σ ε α}
    {value : α}
    {after : σ}
    (h : a.Ends s ok bad)
    (hrun : a.run s = (.ok value, after)) :
    ok value after := by
  unfold Ends at h
  rw [hrun] at h
  exact h

/-- What is known of a run that has ended with an error. -/
theorem Ends.of_error
    {a : Attempt σ ε α}
    {error : ε}
    {after : σ}
    (h : a.Ends s ok bad)
    (hrun : a.run s = (.error error, after)) :
    bad error after := by
  unfold Ends at h
  rw [hrun] at h
  exact h

/-- An attempt that cannot end with an error has a value. -/
theorem Ends.exists_ok
    {a : Attempt σ ε α}
    (h : a.Ends s ok fun _ _ => False) :
    ∃ value after, a.run s = (.ok value, after) ∧ ok value after := by
  rcases hrun : a.run s with ⟨error | value, after⟩
  · exact (h.of_error hrun).elim
  · exact ⟨value, after, rfl, h.of_ok hrun⟩

/-- What is known of an ending for two reasons. -/
theorem Ends.and
    {a : Attempt σ ε α}
    {ok' : α → σ → Prop}
    {bad' : ε → σ → Prop}
    (h : a.Ends s ok bad)
    (h' : a.Ends s ok' bad') :
    a.Ends s (fun value after => ok value after ∧ ok' value after)
      (fun error after => bad error after ∧ bad' error after) := by
  unfold Ends at h h' ⊢
  rcases hrun : a.run s with ⟨error | value, after⟩
  · rw [hrun] at h h'
    exact ⟨h, h'⟩
  · rw [hrun] at h h'
    exact ⟨h, h'⟩

/-- What is known of the state that an attempt leaves behind, whatever it ends with. -/
theorem ends_state_iff
    {a : Attempt σ ε α}
    {P : σ → Prop} :
    a.Ends s (fun _ after => P after) (fun _ after => P after) ↔ P (a.run s).2 := by
  unfold Ends
  rcases a.run s with ⟨_ | _, _⟩ <;> rfl

/-- What is known of the answer of an attempt, whatever state it leaves behind. -/
theorem ends_result_iff
    {a : Attempt σ ε α}
    {P : Except ε α → Prop} :
    a.Ends s (fun value _ => P (.ok value)) (fun error _ => P (.error error)) ↔ P (a.run s).1 := by
  unfold Ends
  rcases a.run s with ⟨_ | _, _⟩ <;> rfl

/-- What decides whether an attempt succeeds is known from how it ends. -/
theorem Ends.of_succeeds_iff
    {a : Attempt σ ε α}
    {P : Prop}
    (h : a.Succeeds s ↔ P) :
    a.Ends s (fun _ _ => P) (fun _ _ => ¬P) := by
  unfold Succeeds Ends at h
  unfold Ends
  rcases hrun : a.run s with ⟨error | value, after⟩
  · rw [hrun] at h
    exact fun hP => h.mpr hP
  · rw [hrun] at h
    exact h.mp trivial

@[simp] theorem ends_pure (value : α) :
    (pure value : Attempt σ ε α).Ends s ok bad ↔ ok value s :=
  Iff.rfl

@[simp] theorem ends_throw (error : ε) :
    (throw error : Attempt σ ε α).Ends s ok bad ↔ bad error s :=
  Iff.rfl

@[simp] theorem ends_get {ok : σ → σ → Prop} :
    (get : Attempt σ ε σ).Ends s ok bad ↔ ok s s :=
  Iff.rfl

@[simp] theorem ends_set {ok : PUnit → σ → Prop} (new : σ) :
    (set new : Attempt σ ε PUnit).Ends s ok bad ↔ ok ⟨⟩ new :=
  Iff.rfl

@[simp] theorem ends_modify {ok : PUnit → σ → Prop} (change : σ → σ) :
    (modify change : Attempt σ ε PUnit).Ends s ok bad ↔ ok ⟨⟩ (change s) :=
  Iff.rfl

@[simp] theorem ends_bind
    {ok : β → σ → Prop}
    (a : Attempt σ ε α)
    (next : α → Attempt σ ε β) :
    (a >>= next).Ends s ok bad ↔
      a.Ends s (fun value after => (next value).Ends after ok bad) bad := by
  unfold Ends
  rw [run_bind]
  rcases a.run s with ⟨_ | _, _⟩ <;> rfl

@[simp] theorem ends_map
    {ok : β → σ → Prop}
    (change : α → β)
    (a : Attempt σ ε α) :
    (change <$> a).Ends s ok bad ↔
      a.Ends s (fun value after => ok (change value) after) bad := by
  rw [map_eq_pure_bind, ends_bind]
  rfl

@[simp] theorem ends_ite
    (p : Prop)
    [Decidable p]
    (a b : Attempt σ ε α) :
    (if p then a else b).Ends s ok bad ↔
      (p → a.Ends s ok bad) ∧ (¬p → b.Ends s ok bad) := by
  by_cases h : p <;> simp [h]

/-- What comes after an attempt and always succeeds does not decide whether the whole does.
-/
theorem succeeds_bind_of_succeeds
    {a : Attempt σ ε α}
    {next : α → Attempt σ ε β}
    (hnext : ∀ value after, (next value).Succeeds after) :
    (a >>= next).Succeeds s ↔ a.Succeeds s := by
  unfold Succeeds at hnext ⊢
  rw [ends_bind]
  constructor
  · intro h
    exact h.mono (fun _ _ _ => trivial) fun _ _ hfalse => hfalse
  · intro h
    exact h.mono (fun value after _ => hnext value after) fun _ _ hfalse => hfalse

/-- A value made from that of an attempt does not decide whether the attempt succeeds. -/
theorem succeeds_bind_pure
    {a : Attempt σ ε α}
    {change : α → β} :
    (a >>= fun value => pure (change value)).Succeeds s ↔ a.Succeeds s :=
  succeeds_bind_of_succeeds fun _ _ => trivial

/-- Two attempts one after the other succeed when the first one does, and the second one
from what the first one leaves behind. -/
theorem succeeds_bind_iff
    {P R : Prop}
    {a : Attempt σ ε α}
    {next : α → Attempt σ ε β}
    (hfirst : a.Succeeds s ↔ P)
    (hnext : a.Ends s (fun value after => (next value).Succeeds after ↔ R) fun _ _ => True) :
    (a >>= next).Succeeds s ↔ P ∧ R := by
  unfold Succeeds Ends at hfirst
  unfold Ends at hnext
  unfold Succeeds
  rw [ends_bind, Ends]
  rcases hrun : a.run s with ⟨error | value, after⟩
  · rw [hrun] at hfirst
    exact iff_of_false not_false fun h => hfirst.mpr h.1
  · rw [hrun] at hfirst hnext
    exact hnext.trans (and_iff_right (hfirst.mp trivial)).symm

/-- What always succeeds after what an attempt leaves behind does not decide whether the
whole does. -/
theorem succeeds_bind_of_ends
    {a : Attempt σ ε α}
    {next : α → Attempt σ ε β}
    (hnext : a.Ends s (fun value after => (next value).Succeeds after) fun _ _ => True) :
    (a >>= next).Succeeds s ↔ a.Succeeds s := by
  have hiff := hnext.mono (fun _ _ h => iff_of_true h trivial) fun _ _ _ => trivial
  exact (succeeds_bind_iff Iff.rfl hiff).trans (and_iff_left trivial)

end Rules

end Attempt

namespace Engine

variable {G : Grammar}

/-- Two states of a build with the same elements and the same open scopes. -/
structure SameTree (e e' : Engine G) : Prop where
  root : e'.root = e.root
  stack : e'.stack = e.stack

/-- Two states of a build with the same counters: calls, openings, and the call that failed.
-/
structure SameCounts (e e' : Engine G) : Prop where
  calls : e'.calls = e.calls
  openings : e'.openings = e.openings
  failedAt : e'.failedAt = e.failedAt

/-- Two states of a build that differ in the context and the journal only. -/
structure Alike (e e' : Engine G) : Prop extends SameTree e e', SameCounts e e' where
  registry : e'.registry = e.registry

end Engine

namespace Action

variable {G : Grammar} {α : Type} {e : Engine G}
variable {ok : α → Engine G → Prop} {bad : Fault → Engine G → Prop}

@[simp] theorem ends_refuse (what : Misuse) :
    (refuse what : Action G α).Ends e ok bad ↔ bad (.misuse what) e :=
  Iff.rfl

@[simp] theorem ends_misplaced (what expected : String) :
    (misplaced what expected : Action G α).Ends e ok bad ↔
      bad (.misuse (.misplaced what e.innermostKind expected)) e :=
  Iff.rfl

@[simp] theorem ends_valid (check : Except InvalidValue α) :
    (valid check : Action G α).Ends e ok bad ↔
      (∀ value, check = .ok value → ok value e) ∧
      ∀ what, check = .error what → bad (.invalid what) e := by
  cases check <;> simp [valid]

@[simp] theorem ends_allowed (change : Except Misuse α) :
    (allowed change : Action G α).Ends e ok bad ↔
      (∀ value, change = .ok value → ok value e) ∧
      ∀ what, change = .error what → bad (.misuse what) e := by
  cases change <;> simp [allowed]

@[simp] theorem ends_resolve
    {ok : Alias → Engine G → Prop}
    (name kind : String) :
    (resolve name kind : Action G Alias).Ends e ok bad ↔
      (∀ a, e.registry.resolve name kind = .ok a → ok a e) ∧
      ∀ what, e.registry.resolve name kind = .error what → bad (.misuse what) e := by
  simp [resolve]

@[simp] theorem ends_declare
    {ok : Unit → Engine G → Prop}
    (a : Alias)
    (kind : String) :
    (declare a kind : Action G Unit).Ends e ok bad ↔
      (∀ registry, e.registry.declare a kind = .ok registry → ok () { e with registry }) ∧
      ∀ what, e.registry.declare a kind = .error what → bad (.misuse what) e := by
  simp [declare]

@[simp] theorem ends_generate
    {ok : Alias → Engine G → Prop}
    (stem : String) :
    (generate stem : Action G Alias).Ends e ok bad ↔
      ok (e.registry.generate stem).1 { e with registry := (e.registry.generate stem).2 } :=
  Iff.rfl

@[simp] theorem ends_remember
    {ok : Unit → Engine G → Prop}
    (change : G.Context → G.Context) :
    (remember change : Action G Unit).Ends e ok bad ↔
      ok () { e with context := change e.context } :=
  Iff.rfl

/-- The state of a build whose journal says that an element is handed to the innermost
scope. -/
def noted (e : Engine G) (node : G.Node) : Engine G :=
  e.record (.appended e.calls (G.nodeKind node) e.innermostKind)

theorem ends_append
    {ok : Unit → Engine G → Prop}
    (node : G.Node) :
    (append node : Action G Unit).Ends e ok bad ↔
      (e.stack = [] → ok () { noted e node with root := e.root ++ [node] }) ∧
      ∀ frame outer, e.stack = frame :: outer →
        (∀ scope, G.push frame.scope node = .ok scope →
          ok () { noted e node with stack := { frame with scope } :: outer }) ∧
        ∀ what, G.push frame.scope node = .error what →
          bad (.misuse what) (noted e node) := by
  cases h : e.stack <;> simp [append, h, noted, Engine.record]

theorem ends_openScope
    {ok : Token → Engine G → Prop}
    (scope : G.Scope) :
    (openScope scope : Action G Token).Ends e ok bad ↔
      (∀ expected, obstacle? e scope = some expected →
        bad (.misuse (.misplaced (G.scopeKind scope) e.innermostKind expected)) e) ∧
      (obstacle? e scope = none → maxDepth ≤ e.depth →
        bad (.misuse (.tooDeep (e.depth + 1) maxDepth)) e) ∧
      (obstacle? e scope = none → e.depth < maxDepth →
        ok ⟨e.depth, e.openings + 1, G.scopeKind scope⟩
          { e.record (.opened e.calls (G.scopeKind scope) e.depth) with
            openings := e.openings + 1
            stack := ⟨scope, e.openings + 1, e.calls⟩ :: e.stack }) := by
  cases h : obstacle? e scope with
  | none => simp [openScope, h]
  | some expected => simp [openScope, h]

theorem ends_closeScope
    {ok : Unit → Engine G → Prop}
    (token : Token) :
    (closeScope token : Action G Unit).Ends e ok bad ↔
      (e.stack = [] → bad (.misuse (.closeWithoutOpen token.kind)) e) ∧
      ∀ frame outer, e.stack = frame :: outer →
        (frame.serial ≠ token.serial →
          bad (.misuse (.closeOutOfOrder token.kind (G.scopeKind frame.scope))) e) ∧
        (frame.serial = token.serial →
          let popped : Engine G :=
            { e.record (.closed e.calls token.kind token.depth) with stack := outer }
          (outer = [] →
            (∀ node, G.toNode frame.scope = .ok node →
              ok () { popped with root := e.root ++ [node] }) ∧
            ∀ what, G.toNode frame.scope = .error what → bad (.misuse what) popped) ∧
          ∀ parent rest, outer = parent :: rest →
            (∀ scope, G.adopt parent.scope frame.scope = .ok scope →
              ok () { popped with stack := { parent with scope } :: rest }) ∧
            ∀ what, G.adopt parent.scope frame.scope = .error what →
              bad (.misuse what) popped) := by
  rcases h : e.stack with _ | ⟨frame, _ | ⟨parent, rest⟩⟩
  · simp [closeScope, h]
  · by_cases hs : frame.serial = token.serial <;>
      simp [closeScope, h, hs, Engine.record]
  · by_cases hs : frame.serial = token.serial <;>
      simp [closeScope, h, hs, Engine.record]

theorem ends_mark
    {ok : Unit → Engine G → Prop}
    (what expected : String)
    (clause : G.Scope → Option (Except Fault G.Scope)) :
    (mark what expected clause : Action G Unit).Ends e ok bad ↔
      (e.stack = [] → bad (.misuse (.misplaced what e.innermostKind expected)) e) ∧
      ∀ frame outer, e.stack = frame :: outer →
        (clause frame.scope = none →
          bad (.misuse (.misplaced what e.innermostKind expected)) e) ∧
        (∀ fault, clause frame.scope = some (.error fault) → bad fault e) ∧
        ∀ scope, clause frame.scope = some (.ok scope) →
          ok () { e with stack := { frame with scope } :: outer } := by
  cases h : e.stack with
  | nil => simp [mark, h]
  | cons frame outer =>
      rcases hc : clause frame.scope with _ | _ | _ <;> simp [mark, h, hc]

section Success

variable {β : Type} {next : α → Action G β}

theorem succeeds_valid_bind {check : Except InvalidValue α} :
    (valid check >>= next).Succeeds e ↔
      ∃ value, check = .ok value ∧ (next value).Succeeds e := by
  unfold Attempt.Succeeds
  cases check <;> simp

/-- A check that hands back what it was given only decides whether to go on. -/
theorem succeeds_check_bind
    {check : Except InvalidValue α}
    {given : α}
    {P : Prop}
    (hcheck : ∀ kept, check = .ok kept ↔ P ∧ kept = given) :
    (valid check >>= next).Succeeds e ↔ P ∧ (next given).Succeeds e := by
  rw [succeeds_valid_bind]
  constructor
  · rintro ⟨kept, hkept, hnext⟩
    obtain ⟨hP, rfl⟩ := (hcheck kept).mp hkept
    exact ⟨hP, hnext⟩
  · rintro ⟨hP, hnext⟩
    exact ⟨given, (hcheck given).mpr ⟨hP, rfl⟩, hnext⟩

theorem succeeds_declare_bind
    {next : Unit → Action G β}
    {a : Alias}
    {kind : String} :
    (declare a kind >>= next).Succeeds e ↔
      ∃ registry, e.registry.declare a kind = .ok registry ∧
        (next ()).Succeeds { e with registry } := by
  unfold Attempt.Succeeds
  cases h : e.registry.declare a kind <;> simp [h]

theorem succeeds_resolve {name kind : String} :
    (resolve name kind : Action G Alias).Succeeds e ↔
      ∃ a, e.registry.resolve name kind = .ok a := by
  unfold Attempt.Succeeds
  cases h : e.registry.resolve name kind <;> simp [h]

theorem succeeds_resolve_bind
    {next : Alias → Action G β}
    {name kind : String} :
    (resolve name kind >>= next).Succeeds e ↔
      ∃ a, e.registry.resolve name kind = .ok a ∧ (next a).Succeeds e := by
  unfold Attempt.Succeeds
  cases h : e.registry.resolve name kind <;> simp [h]

/-- An element is appended where the innermost scope takes it, or where no scope is open. -/
theorem succeeds_append {node : G.Node} :
    (append node : Action G Unit).Succeeds e ↔
      ∀ frame outer, e.stack = frame :: outer → ∃ scope, G.push frame.scope node = .ok scope := by
  unfold Attempt.Succeeds
  rw [ends_append]
  constructor
  · rintro ⟨_, h⟩ frame outer hstack
    obtain ⟨_, hbad⟩ := h frame outer hstack
    cases hpush : G.push frame.scope node with
    | error what => exact (hbad what hpush).elim
    | ok scope => exact ⟨scope, rfl⟩
  · intro h
    refine ⟨fun _ => trivial, fun frame outer hstack => ⟨fun _ _ => trivial, ?_⟩⟩
    intro what hpush
    obtain ⟨scope, hscope⟩ := h frame outer hstack
    rw [hscope] at hpush
    cases hpush

/-- A mark succeeds where the innermost scope has its clause and takes it. -/
theorem succeeds_mark
    {what expected : String}
    {clause : G.Scope → Option (Except Fault G.Scope)} :
    (mark what expected clause : Action G Unit).Succeeds e ↔
      ∃ frame outer scope, e.stack = frame :: outer ∧ clause frame.scope = some (.ok scope) := by
  unfold Attempt.Succeeds
  rw [ends_mark]
  constructor
  · rintro ⟨hempty, h⟩
    cases hstack : e.stack with
    | nil => exact (hempty hstack).elim
    | cons frame outer =>
        obtain ⟨hnone, herror, _⟩ := h frame outer hstack
        rcases hclause : clause frame.scope with _ | fault | scope
        · exact (hnone hclause).elim
        · exact (herror fault hclause).elim
        · exact ⟨frame, outer, scope, rfl, hclause⟩
  · rintro ⟨frame, outer, scope, hstack, hclause⟩
    refine ⟨fun hempty => ?_, fun frame' outer' hstack' => ⟨fun hnone => ?_, fun fault herror => ?_,
      fun _ _ => trivial⟩⟩
    · rw [hstack] at hempty
      cases hempty
    · rw [hstack] at hstack'
      cases hstack'
      rw [hclause] at hnone
      cases hnone
    · rw [hstack] at hstack'
      cases hstack'
      rw [hclause] at herror
      cases herror

end Success

end Action

namespace Engine

variable {G : Grammar} {α : Type} {e : Engine G}

/-- The state of a build with one more call counted. -/
def counted (e : Engine G) : Engine G :=
  { e with calls := e.calls + 1 }

/-- The state in which the last call counted has failed with an error. -/
def failed (e : Engine G) (call : Nat) (error : BuildError) : Engine G :=
  { e.record (.failed call G.name error) with failedAt := some call }

/-- A call of a build that has not failed is made with one more call counted. -/
theorem run_step
    (action : Action G α)
    (h : e.failedAt = none) :
    (step action).run e =
      match action.run e.counted with
      | (.ok value, after) => (.ok value, after)
      | (.error fault, after) =>
          (.error (fault.atCall (e.calls + 1)),
            after.failed (e.calls + 1) (fault.atCall (e.calls + 1))) := by
  unfold Attempt.run step
  split
  · next call hfailed =>
      rw [h] at hfailed
      cases hfailed
  · rfl

/-- A call of a build that has failed does nothing. -/
theorem run_step_of_failed
    {call : Nat}
    (action : Action G α)
    (h : e.failedAt = some call) :
    (step action).run e = (.error (.abandoned call), e) := by
  simp [Attempt.run, step, h]

theorem ends_step
    {ok : α → Engine G → Prop}
    {bad : BuildError → Engine G → Prop}
    (action : Action G α) :
    (step action).Ends e ok bad ↔
      (∀ call, e.failedAt = some call → bad (.abandoned call) e) ∧
      (e.failedAt = none →
        action.Ends e.counted ok fun fault after =>
          bad (fault.atCall (e.calls + 1))
            (after.failed (e.calls + 1) (fault.atCall (e.calls + 1)))) := by
  unfold Attempt.Ends
  cases h : e.failedAt with
  | some call => simp [run_step_of_failed action h]
  | none =>
      rw [run_step action h]
      rcases action.run e.counted with ⟨_ | _, _⟩ <;> simp

/-- While the build has not failed, a call ends as its action does. -/
theorem ends_step_of_unfailed
    {ok : α → Engine G → Prop}
    {bad : BuildError → Engine G → Prop}
    (action : Action G α)
    (h : e.failedAt = none) :
    (step action).Ends e ok bad ↔
      action.Ends e.counted ok fun fault after =>
        bad (fault.atCall (e.calls + 1))
          (after.failed (e.calls + 1) (fault.atCall (e.calls + 1))) := by
  rw [ends_step]
  simp [h]

end Engine

end UmlText
