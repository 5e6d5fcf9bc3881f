import UmlText.Proofs.Moves

/-!
# Which scopes are open

A numbered call opens one scope, closes the innermost one, or leaves the open scopes open;
what changes in the scopes that stay open is at most what the innermost one holds (`Shift`).
So a scope *stands* on the scopes around it, whatever is opened and closed inside it, until
it is closed by its own number or dropped.

A session is `Orderly` when its open scopes have places in each other and no token it holds
is that of a scope still to be opened.  Scripts keep their sessions orderly.
-/

namespace UmlText

/-- The same scopes are open, though the innermost one may hold something else. -/
def SameFrames {G : Grammar} : List (Frame G) → List (Frame G) → Prop
  | [], stack => stack = []
  | frame :: outer, stack => ∃ scope, stack = { frame with scope } :: outer

/-- The scope with this number is open, `base` are the scopes around it, and the scopes
inside it have other numbers. -/
def Standing {G : Grammar} (serial : Nat) (base stack : List (Frame G)) : Prop :=
  ∃ above frame, stack = above ++ frame :: base ∧ frame.serial = serial ∧
    ∀ inner ∈ above, inner.serial ≠ serial

section Stacks

variable {G : Grammar} {serial depth : Nat} {frame : Frame G} {base stack stack' : List (Frame G)}

theorem SameFrames.refl : ∀ stack : List (Frame G), SameFrames stack stack
  | [] => rfl
  | frame :: _ => ⟨frame.scope, rfl⟩

namespace Standing

theorem opened (h : frame.serial = serial) : Standing serial base (frame :: base) :=
  ⟨[], frame, rfl, h, fun _ hmem => by cases hmem⟩

theorem of_sameFrames
    (h : Standing serial base stack)
    (hsame : SameFrames stack stack') :
    Standing serial base stack' := by
  obtain ⟨above, frame, rfl, hserial, habove⟩ := h
  cases above with
  | nil =>
      obtain ⟨scope, rfl⟩ := hsame
      exact opened hserial
  | cons inner rest =>
      obtain ⟨scope, rfl⟩ := hsame
      refine ⟨{ inner with scope } :: rest, frame, rfl, hserial, ?_⟩
      intro other hother
      rcases List.mem_cons.mp hother with rfl | hrest
      · exact habove inner (List.mem_cons_self ..)
      · exact habove other (List.mem_cons_of_mem _ hrest)

theorem cons
    (h : Standing serial base stack)
    (hframe : frame.serial ≠ serial) :
    Standing serial base (frame :: stack) := by
  obtain ⟨above, own, rfl, hserial, habove⟩ := h
  refine ⟨frame :: above, own, rfl, hserial, ?_⟩
  intro inner hinner
  rcases List.mem_cons.mp hinner with rfl | hrest
  · exact hframe
  · exact habove inner hrest

/-- Only the scope itself has its number, so another innermost scope lies inside it. -/
theorem tail
    (h : Standing serial base (frame :: stack))
    (hframe : frame.serial ≠ serial) :
    Standing serial base stack := by
  obtain ⟨above, own, hstack, hserial, habove⟩ := h
  cases above with
  | nil =>
      cases hstack
      exact absurd hserial hframe
  | cons inner rest =>
      cases hstack
      exact ⟨rest, own, rfl, hserial, fun other hother =>
        habove other (List.mem_cons_of_mem _ hother)⟩

/-- Where the innermost scope has the number, it is the scope itself. -/
theorem eq_base
    (h : Standing serial base (frame :: stack))
    (hframe : frame.serial = serial) :
    stack = base := by
  obtain ⟨above, own, hstack, _, habove⟩ := h
  cases above with
  | nil =>
      cases hstack
      rfl
  | cons inner rest =>
      cases hstack
      exact absurd hframe (habove frame (List.mem_cons_self ..))

theorem length_lt (h : Standing serial base stack) : base.length < stack.length := by
  obtain ⟨above, own, rfl, _, _⟩ := h
  rw [List.length_append, List.length_cons]
  omega

/-- When nothing is open inside the scope, it is the innermost one. -/
theorem innermost
    (h : Standing serial base stack)
    (hlength : stack.length = base.length + 1) :
    ∃ frame, stack = frame :: base ∧ frame.serial = serial := by
  obtain ⟨above, own, rfl, hserial, _⟩ := h
  have hnil : above.length = 0 := by
    rw [List.length_append, List.length_cons] at hlength
    omega
  rw [List.length_eq_zero_iff.mp hnil]
  exact ⟨own, rfl, hserial⟩

/-- Dropping a scope that lies inside another one leaves the outer one standing. -/
theorem drop
    (h : Standing serial base stack)
    (hdepth : base.length < depth) :
    Standing serial base (stack.drop (stack.length - depth)) := by
  obtain ⟨above, own, rfl, hserial, habove⟩ := h
  have hle : (above ++ own :: base).length - depth ≤ above.length := by
    rw [List.length_append, List.length_cons]
    omega
  rw [List.drop_append_of_le_length hle]
  exact ⟨_, own, rfl, hserial, fun inner hinner => habove inner (List.mem_of_mem_drop hinner)⟩

/-- Dropping the scope itself gives back the scopes around it. -/
theorem drop_base (h : Standing serial base stack) :
    stack.drop (stack.length - base.length) = base := by
  obtain ⟨above, own, rfl, _, _⟩ := h
  have hlength : (above ++ own :: base).length - base.length = (above ++ [own]).length := by
    simp only [List.length_append, List.length_cons, List.length_nil]
    omega
  have hstack : above ++ own :: base = (above ++ [own]) ++ base := List.append_cons above own base
  rw [hlength, hstack, List.drop_left]

end Standing

end Stacks

section Moves

variable {d : Dialect} {e e' : Engine d.toGrammar} {move : Move d}

/-- What a numbered call may do to the open scopes. -/
inductive Shift (move : Move d) (e e' : Engine d.toGrammar) : Prop where
  /-- The same scopes are open. -/
  | kept (h : SameFrames e.stack e'.stack)
  /-- A scope was opened, with a number that no scope had before. -/
  | opened (frame : Frame d.toGrammar) (h : e'.stack = frame :: e.stack)
      (hserial : frame.serial = e.openings + 1)
  /-- The innermost scope was closed by its number. -/
  | closed (token : Token) (frame : Frame d.toGrammar) (outer : List (Frame d.toGrammar))
      (hmove : move = .close token) (h : e.stack = frame :: outer)
      (hserial : frame.serial = token.serial) (hsame : SameFrames outer e'.stack)

/-- A scope stands until it is closed by its own number. -/
theorem Standing.of_shift
    {serial : Nat}
    {base : List (Frame d.toGrammar)}
    (h : Standing serial base e.stack)
    (hshift : Shift move e e')
    (hold : serial ≤ e.openings)
    (hother : ∀ token, move = .close token → token.serial ≠ serial) :
    Standing serial base e'.stack := by
  cases hshift with
  | kept hsame => exact h.of_sameFrames hsame
  | opened frame hstack hserial =>
      rw [hstack]
      refine h.cons ?_
      omega
  | closed token frame outer hmove hstack hserial hsame =>
      rw [hstack] at h
      have hframe : frame.serial ≠ serial := by
        rw [hserial]
        exact hother token hmove
      exact (h.tail hframe).of_sameFrames hsame

theorem SameFrames.of_sameTree (h : e.SameTree e') : SameFrames e.stack e'.stack := by
  rw [h.stack]
  exact .refl _

variable {r : Reading d} {z : Realization r} {v : Inventory r}

theorem SameFrames.of_takes
    {item : r.Item}
    (h : z.Takes item e e') :
    SameFrames e.stack e'.stack := by
  unfold Realization.Takes at h
  cases hstack : e.stack with
  | nil =>
      rw [hstack] at h
      exact h.1
  | cons frame outer =>
      rw [hstack] at h
      obtain ⟨_, scope, _, hstack'⟩ := h
      exact ⟨scope, hstack'⟩

theorem SameFrames.of_closed
    {token : Token}
    (h : Closed token e e') :
    ∃ frame outer, e.stack = frame :: outer ∧ frame.serial = token.serial ∧
      SameFrames outer e'.stack := by
  obtain ⟨frame, outer, hstack, hserial, houter⟩ := h.closed
  refine ⟨frame, outer, hstack, hserial, ?_⟩
  cases outer with
  | nil =>
      obtain ⟨_, _, hstack', _⟩ := houter
      exact hstack'
  | cons parent rest =>
      obtain ⟨scope, _, hstack', _⟩ := houter
      exact ⟨scope, hstack'⟩

namespace Realization

/-- A numbered call that succeeds shifts the open scopes. -/
theorem Sound.ends_shift
    (hsound : z.Sound v)
    (move : Move d) :
    move.build.Ends e (fun _ e' => Shift move e e') (fun _ _ => True) := by
  cases move with
  | leaf node =>
      rw [Move.build, Attempt.ends_bind, Engine.ends_step]
      refine ⟨fun _ _ => trivial, fun _ => ends_append_of_takes (z := z) ?_ fun _ _ _ => trivial⟩
      intro e' htakes _ _
      exact .kept (.of_takes (e := e.counted) htakes)
  | openScope scope =>
      rw [Move.build, Attempt.ends_bind, Engine.ends_step]
      refine ⟨fun _ _ => trivial, fun _ => ?_⟩
      rw [Action.ends_openScope]
      exact ⟨fun _ _ => trivial, fun _ _ => trivial, fun _ _ => .opened _ rfl rfl⟩
  | close token =>
      rw [Move.build, Attempt.ends_bind]
      refine (ends_close token).mono ?_ fun _ _ _ => trivial
      intro _ e' hclosed
      obtain ⟨frame, outer, hstack, hserial, hsame⟩ := SameFrames.of_closed hclosed.2
      exact .closed token frame outer rfl hstack hserial hsame
  | declare a kind =>
      rw [Move.build, Attempt.ends_bind, Engine.ends_step]
      refine ⟨fun _ _ => trivial, fun _ => ?_⟩
      rw [Action.ends_declare]
      exact ⟨fun _ _ => .kept (.refl _), fun _ _ => trivial⟩
  | resolve name kind =>
      rw [Move.build, Attempt.ends_bind, Engine.ends_step]
      refine ⟨fun _ _ => trivial, fun _ => ?_⟩
      rw [Action.ends_resolve]
      exact ⟨fun _ _ => .kept (.refl _), fun _ _ => trivial⟩
  | generate stem =>
      rw [Move.build, Attempt.ends_bind, Engine.ends_step]
      refine ⟨fun _ _ => trivial, fun _ => ?_⟩
      rw [Action.ends_generate]
      exact .kept (.refl _)
  | authoring call =>
      refine (hsound.ends_callBuild call).mono ?_ fun _ _ _ => trivial
      rintro _ e' ⟨_, ⟨item, _, htakes, _⟩, _⟩
      exact .kept (.of_takes (e := e.counted) htakes)
  | enter opening =>
      rw [Move.build, Attempt.ends_bind]
      refine (hsound.ends_enter opening).mono ?_ fun _ _ _ => trivial
      rintro ⟨token, reply⟩ e' ⟨_, hentered⟩
      obtain ⟨scope, _, _, hstack, _⟩ := hentered.opened
      exact .opened _ hstack hentered.serial

/-- Every numbered call shifts the open scopes, whether it succeeds or not. -/
theorem Settled.shift
    (hsettled : z.Settled)
    (hsound : z.Sound v)
    (hnested : Nested e.stack)
    (move : Move d) :
    Shift move e (move.build.run e).2 := by
  refine Attempt.ends_state_iff.mp ?_
  have hends := (hsound.ends_shift (e := e) move).and (hsettled.ends_move hsound move hnested)
  refine hends.mono (fun _ _ h => h.1) ?_
  intro _ e' h
  exact .kept (.of_sameTree h.2)

end Realization

end Moves

end UmlText
