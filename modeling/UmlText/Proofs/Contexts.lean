import UmlText.Engine.Naming
import UmlText.Proofs.Ends

/-!
# What actions remember

What a grammar remembers of the whole diagram is changed by `remember` alone; an action made
of other steps leaves it as it is.
-/

namespace UmlText.Action

variable {G : Grammar} {α β : Type}

/-- An action that leaves alone what is remembered of the diagram. -/
def KeepsContext (a : Action G α) : Prop :=
  ∀ e, a.Ends e (fun _ e' => e'.context = e.context) fun _ _ => True

theorem KeepsContext.bind
    {a : Action G α}
    {next : α → Action G β}
    (ha : KeepsContext a)
    (hnext : ∀ value, KeepsContext (next value)) :
    KeepsContext (a >>= next) := by
  intro e
  rw [Attempt.ends_bind]
  refine (ha e).mono ?_ fun _ _ _ => trivial
  intro value e₁ hcontext
  refine (hnext value e₁).mono ?_ fun _ _ _ => trivial
  intro _ e' hcontext'
  exact hcontext'.trans hcontext

theorem keepsContext_pure (value : α) : KeepsContext (pure value : Action G α) :=
  fun _ => rfl

theorem keepsContext_throw (fault : Fault) : KeepsContext (throw fault : Action G α) :=
  fun _ => trivial

theorem keepsContext_valid (check : Except InvalidValue α) :
    KeepsContext (valid check : Action G α) := by
  intro e
  rw [ends_valid]
  exact ⟨fun _ _ => rfl, fun _ _ => trivial⟩

theorem keepsContext_declare (a : Alias) (kind : String) :
    KeepsContext (declare a kind : Action G Unit) := by
  intro e
  rw [ends_declare]
  exact ⟨fun _ _ => rfl, fun _ _ => trivial⟩

theorem keepsContext_resolve (name kind : String) :
    KeepsContext (resolve name kind : Action G Alias) := by
  intro e
  rw [ends_resolve]
  exact ⟨fun _ _ => rfl, fun _ _ => trivial⟩

theorem keepsContext_generate (stem : String) : KeepsContext (generate stem : Action G Alias) :=
  fun _ => rfl

theorem keepsContext_chooseAlias (name : String) (given : Option String) (stem : String) :
    KeepsContext (chooseAlias name given stem : Action G (Alias × Option String)) := by
  unfold chooseAlias
  cases given with
  | some given => exact (keepsContext_valid _).bind fun _ => keepsContext_pure _
  | none =>
      dsimp only
      split
      · exact (keepsContext_valid _).bind fun _ => keepsContext_pure _
      · exact (keepsContext_generate stem).bind fun _ => keepsContext_pure _

theorem keepsContext_append (node : G.Node) : KeepsContext (append node : Action G Unit) := by
  intro e
  rw [ends_append]
  exact ⟨fun _ => rfl, fun _ _ _ => ⟨fun _ _ => rfl, fun _ _ => trivial⟩⟩

theorem keepsContext_mark
    (what expected : String)
    (clause : G.Scope → Option (Except Fault G.Scope)) :
    KeepsContext (mark what expected clause : Action G Unit) := by
  intro e
  rw [ends_mark]
  exact ⟨fun _ => trivial, fun _ _ _ => ⟨fun _ => trivial, fun _ _ => trivial, fun _ _ => rfl⟩⟩

theorem keepsContext_append_pure (node : G.Node) (value : α) :
    KeepsContext (append node >>= fun _ => pure value : Action G α) :=
  (keepsContext_append node).bind fun _ => keepsContext_pure value

theorem keepsContext_mark_pure
    (what expected : String)
    (clause : G.Scope → Option (Except Fault G.Scope))
    (value : α) :
    KeepsContext (mark what expected clause >>= fun _ => pure value : Action G α) :=
  (keepsContext_mark what expected clause).bind fun _ => keepsContext_pure value

theorem keepsContext_openScope (scope : G.Scope) :
    KeepsContext (openScope scope : Action G Token) := by
  intro e
  rw [ends_openScope]
  exact ⟨fun _ _ => trivial, fun _ _ => trivial, fun _ _ => rfl⟩

theorem keepsContext_closeScope (token : Token) :
    KeepsContext (closeScope token : Action G Unit) := by
  intro e
  rw [ends_closeScope]
  refine ⟨fun _ => trivial, fun _ _ _ => ⟨fun _ => trivial, fun _ => ⟨fun _ => ?_, ?_⟩⟩⟩
  · exact ⟨fun _ _ => rfl, fun _ _ => trivial⟩
  · exact fun _ _ _ => ⟨fun _ _ => rfl, fun _ _ => trivial⟩

/-- A call of a build leaves alone what its action leaves alone. -/
theorem KeepsContext.step {a : Action G α} (ha : KeepsContext a) (e : Engine G) :
    (Engine.step a).Ends e (fun _ e' => e'.context = e.context) fun _ _ => True := by
  rw [Engine.ends_step]
  exact ⟨fun _ _ => trivial, fun _ => ha e.counted⟩

/-- A call that opens a scope leaves alone what the preparation of the scope leaves alone. -/
theorem KeepsContext.enter
    {make : Action G (G.Scope × α)}
    (hmake : KeepsContext make)
    (e : Engine G) :
    (Engine.enter make).Ends e (fun _ e' => e'.context = e.context) fun _ _ => True :=
  KeepsContext.step (hmake.bind fun _ => (keepsContext_openScope _).bind fun _ =>
    keepsContext_pure _) e

theorem ends_close_context (token : Token) (e : Engine G) :
    (Engine.close token).Ends e (fun _ e' => e'.context = e.context) fun _ _ => True :=
  (keepsContext_closeScope token).step e

end UmlText.Action
