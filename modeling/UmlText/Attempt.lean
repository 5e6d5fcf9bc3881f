/-!
# Attempts

An *attempt* works on a state and ends with a value or with an error.  It hands on the state
it leaves behind in either case: what was changed before the error stays changed.

Attempts form a monad, and the lemmas `run_…` say what each of its operations does to a
state, so that a proof about an attempt can follow its steps by `simp` and never has to look
into the monad.
-/

namespace UmlText

/-- A computation on a state of type `σ` that may fail with an error of type `ε`. -/
def Attempt (σ ε α : Type) : Type :=
  σ → Except ε α × σ

namespace Attempt

variable {σ ε α β : Type}

/-- The outcome of an attempt, and the state it leaves behind. -/
def run (a : Attempt σ ε α) (s : σ) : Except ε α × σ :=
  a s

/-- One attempt after another; the first error ends both. -/
def andThen (a : Attempt σ ε α) (next : α → Attempt σ ε β) : Attempt σ ε β := fun s =>
  match a.run s with
  | (.ok value, after) => (next value).run after
  | (.error error, after) => (.error error, after)

/-- The attempt that changes nothing and succeeds. -/
def succeed (value : α) : Attempt σ ε α := fun s =>
  (.ok value, s)

/-- The attempt that changes nothing and fails. -/
def fail (error : ε) : Attempt σ ε α := fun s =>
  (.error error, s)

instance : Monad (Attempt σ ε) where
  pure := succeed
  bind := andThen

instance : MonadStateOf σ (Attempt σ ε) where
  get := fun s => (.ok s, s)
  set := fun s _ => (.ok (), s)
  modifyGet := fun change s => (.ok (change s).1, (change s).2)

instance : MonadExcept ε (Attempt σ ε) where
  throw := fail
  tryCatch := fun a handle s =>
    match a.run s with
    | (.ok value, after) => (.ok value, after)
    | (.error error, after) => (handle error).run after

@[simp] theorem run_pure (value : α) (s : σ) :
    (pure value : Attempt σ ε α).run s = (.ok value, s) :=
  rfl

@[simp] theorem run_throw (error : ε) (s : σ) :
    (throw error : Attempt σ ε α).run s = (.error error, s) :=
  rfl

@[simp] theorem run_get (s : σ) :
    (get : Attempt σ ε σ).run s = (.ok s, s) :=
  rfl

@[simp] theorem run_set (new s : σ) :
    (set new : Attempt σ ε PUnit).run s = (.ok (), new) :=
  rfl

@[simp] theorem run_modify (change : σ → σ) (s : σ) :
    (modify change : Attempt σ ε PUnit).run s = (.ok (), change s) :=
  rfl

@[simp] theorem run_bind (a : Attempt σ ε α) (next : α → Attempt σ ε β) (s : σ) :
    (a >>= next).run s =
      match a.run s with
      | (.ok value, after) => (next value).run after
      | (.error error, after) => (.error error, after) :=
  rfl

theorem run_bind_of_ok
    {a : Attempt σ ε α}
    {next : α → Attempt σ ε β}
    {s after : σ}
    {value : α}
    (h : a.run s = (.ok value, after)) :
    (a >>= next).run s = (next value).run after := by
  rw [run_bind, h]

@[ext] theorem ext {a b : Attempt σ ε α} (h : ∀ s, a.run s = b.run s) : a = b :=
  funext h

instance : LawfulMonad (Attempt σ ε) := by
  refine LawfulMonad.mk' _ ?id_map ?pure_bind ?bind_assoc
  case id_map =>
    intro α a
    refine Attempt.ext fun s => ?_
    change (a >>= fun value => pure (id value)).run s = a.run s
    rw [run_bind]
    rcases a.run s with ⟨_ | _, _⟩ <;> rfl
  case pure_bind =>
    intro α β value next
    rfl
  case bind_assoc =>
    intro α β γ a f g
    refine Attempt.ext fun s => ?_
    simp only [run_bind]
    rcases a.run s with ⟨_ | _, _⟩ <;> rfl

end Attempt

end UmlText
