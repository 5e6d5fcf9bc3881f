import UmlText.Proofs.Frames

/-!
# What raw calls do to the open scopes

A raw call opens a scope, appends an element or closes a scope by its token.  Of an open
scope only its `Tag` can be told from outside: the number of its opening, its kind and the
call that opened it.  What is put into a scope changes no tag, so a raw call that succeeds
puts one tag on the others, takes the innermost one away, or leaves them all alone
(`RawCall.Effect`).  Every numbered call does one of the three as well (`Retag`), and from
this alone it follows that the tags are always in order: a scope inside another one was
opened later.
-/

namespace UmlText

/-- The token that was answered. -/
def Reply.token? : Reply → Option Token
  | .token t => some t
  | _ => none

/-- A raw call of an engine. -/
inductive RawCall (d : Dialect) where
  /-- Opens a scope; the answer is its token. -/
  | opens (scope : d.Scope)
  /-- Appends an element. -/
  | leaf (node : d.Node)
  /-- Closes the scope of a token. -/
  | close (token : Token)

/-- The numbered call that a raw call makes. -/
def RawCall.move {d : Dialect} : RawCall d → Move d
  | .opens scope => .openScope scope
  | .leaf node => .leaf node
  | .close token => .close token

/-- What is known of an open scope from outside: the number of its opening, its kind, and
the call that opened it. -/
structure Tag where
  serial : Nat
  kind : String
  openedAt : Nat

/-- What is known of the open scopes from outside, the innermost one first. -/
def Engine.tags {G : Grammar} (e : Engine G) : List Tag :=
  e.stack.map fun frame => ⟨frame.serial, G.scopeKind frame.scope, frame.openedAt⟩

/-- At most so many scopes are open as may be, and a scope inside another one was opened
later, under a greater number. -/
structure Engine.Ordered {G : Grammar} (e : Engine G) : Prop where
  shallow : e.tags.length ≤ maxDepth
  sorted : e.tags.Pairwise fun inner outer =>
    outer.serial < inner.serial ∧ outer.openedAt < inner.openedAt
  bounded : ∀ tag ∈ e.tags, tag.serial ≤ e.openings ∧ tag.openedAt ≤ e.calls

/-- What a raw call that succeeds answers, and what it does to the open scopes. -/
inductive RawCall.Effect {d : Dialect} (e e' : Engine d.toGrammar) : RawCall d → Reply → Prop
  | opened
      {scope : d.Scope}
      {token : Token}
      (hshallow : e.tags.length < maxDepth)
      (hserial : token.serial = e.openings + 1)
      (hopenings : e'.openings = e.openings + 1)
      (htags : e'.tags = ⟨token.serial, token.kind, e.calls + 1⟩ :: e.tags) :
      RawCall.Effect e e' (.opens scope) (.token token)
  | kept
      {node : d.Node}
      (hopenings : e'.openings = e.openings)
      (htags : e'.tags = e.tags) :
      RawCall.Effect e e' (.leaf node) .done
  | closed
      {token : Token}
      {kind : String}
      {openedAt : Nat}
      (hopenings : e'.openings = e.openings)
      (htags : e.tags = ⟨token.serial, kind, openedAt⟩ :: e'.tags) :
      RawCall.Effect e e' (.close token) .done

/-- What a call that succeeds does to the open scopes, whatever else it does: it opens a
scope under a token, closes the innermost one, or leaves the open scopes open. -/
inductive Retag {G : Grammar} (e e' : Engine G) : Option Token → Prop
  | opened
      {token : Token}
      (hshallow : e.tags.length < maxDepth)
      (hserial : token.serial = e.openings + 1)
      (hopenings : e'.openings = e.openings + 1)
      (htags : e'.tags = ⟨token.serial, token.kind, e.calls + 1⟩ :: e.tags) :
      Retag e e' (some token)
  | kept
      (hopenings : e'.openings = e.openings)
      (htags : e'.tags = e.tags) :
      Retag e e' none
  | closed
      {tag : Tag}
      (hopenings : e'.openings = e.openings)
      (htags : e.tags = tag :: e'.tags) :
      Retag e e' none

section Effects

variable {d : Dialect} {r : Reading d} {z : Realization r} {v : Inventory r}
variable {e e' : Engine d.toGrammar}

theorem RawCall.Effect.retag
    {call : RawCall d}
    {reply : Reply}
    (h : call.Effect e e' reply) :
    Retag e e' reply.token? := by
  cases h with
  | opened hshallow hserial hopenings htags => exact .opened hshallow hserial hopenings htags
  | kept hopenings htags => exact .kept hopenings htags
  | closed hopenings htags => exact .closed hopenings htags

/-- What is put into a scope never makes a scope of another kind of it. -/
def Realization.KeepsKinds (z : Realization r) : Prop :=
  ∀ {item scope scope'}, z.Grows item scope scope' → d.scopeKind scope' = d.scopeKind scope

theorem Engine.tags_of_takes
    (hkinds : z.KeepsKinds)
    {item : r.Item}
    (h : z.Takes item e e') :
    e'.tags = e.tags := by
  unfold Realization.Takes at h
  unfold Engine.tags
  cases hstack : e.stack with
  | nil =>
      rw [hstack] at h
      rw [h.1]
  | cons frame outer =>
      rw [hstack] at h
      obtain ⟨_, scope, hgrows, hstack'⟩ := h
      rw [hstack', List.map_cons, List.map_cons, hkinds hgrows]

theorem Engine.tags_of_closed
    (hsettled : z.Settled)
    (hkinds : z.KeepsKinds)
    {token : Token}
    (h : Closed token e e') :
    ∃ kind openedAt, e.tags = ⟨token.serial, kind, openedAt⟩ :: e'.tags := by
  obtain ⟨frame, outer, hstack, hserial, houter⟩ := h.closed
  refine ⟨d.scopeKind frame.scope, frame.openedAt, ?_⟩
  unfold Engine.tags
  rw [hstack, List.map_cons, hserial]
  cases outer with
  | nil =>
      obtain ⟨_, _, hstack', _⟩ := houter
      rw [hstack']
  | cons parent rest =>
      obtain ⟨scope, hadopt, hstack', _⟩ := houter
      obtain ⟨item, hgrows⟩ := hsettled.grows hadopt
      rw [hstack', List.map_cons, List.map_cons, hkinds hgrows]

/-- A raw call that succeeds has its effect on the open scopes. -/
theorem RawCall.ends_effect
    (hsettled : z.Settled)
    (hkinds : z.KeepsKinds)
    (call : RawCall d) :
    call.move.build.Ends e (fun reply e' => call.Effect e e' reply) (fun _ _ => True) := by
  cases call with
  | opens scope =>
      rw [move, Move.build, Attempt.ends_bind, Engine.ends_step]
      refine ⟨fun _ _ => trivial, fun _ => ?_⟩
      rw [Action.ends_openScope]
      refine ⟨fun _ _ => trivial, fun _ _ => trivial, fun _ hshallow => ?_⟩
      refine .opened ?_ rfl rfl rfl
      rw [Engine.tags, List.length_map]
      exact hshallow
  | leaf node =>
      rw [move, Move.build, Attempt.ends_bind, Engine.ends_step]
      refine ⟨fun _ _ => trivial, fun _ =>
        Realization.ends_append_of_takes (z := z) ?_ fun _ _ _ => trivial⟩
      intro e' htakes hcounts _
      exact .kept hcounts.openings (Engine.tags_of_takes (e := e.counted) hkinds htakes)
  | close token =>
      rw [move, Move.build, Attempt.ends_bind]
      refine (ends_close token).mono ?_ fun _ _ _ => trivial
      intro _ e' hclosed
      obtain ⟨kind, openedAt, htags⟩ := Engine.tags_of_closed hsettled hkinds hclosed.2
      exact .closed hclosed.2.openings htags

/-- A numbered call is counted and succeeds, or the build has failed behind it. -/
theorem Move.ends_counts
    (hd : d.LeavesNumbering)
    (move : Move d) :
    move.build.Ends e
      (fun _ e' => e.failedAt = none ∧ e'.failedAt = none ∧ e'.calls = e.calls + 1)
      (fun _ e' => e'.failedAt ≠ none ∧ e.calls ≤ e'.calls) := by
  rw [build_eq]
  cases hfailed : e.failedAt with
  | some call =>
      unfold Attempt.Ends
      rw [Engine.run_step_of_failed _ hfailed]
      exact ⟨by simp [hfailed], Nat.le_refl _⟩
  | none =>
      refine ((move.unnumbered_action hd).uncounted.ends_step_of_unfailed hfailed).mono ?_ ?_
      · rintro _ e' ⟨hcalls, hnone⟩
        exact ⟨rfl, hnone, hcalls⟩
      · rintro _ e' ⟨hcalls, hsome⟩
        exact ⟨by simp [hsome], by omega⟩

/-- What a call does that changes no tag and opens nothing. -/
theorem Retag.of_sameTree
    (htree : e.SameTree e')
    (hopenings : e'.openings = e.openings) :
    Retag e e' none := by
  refine .kept hopenings ?_
  unfold Engine.tags
  rw [htree.stack]

/-- A numbered call that is no opening of the dialect does one of the three, and answers
with the token of the scope that it opens. -/
theorem Move.ends_retag
    (hsettled : z.Settled)
    (hsound : z.Sound v)
    (hkinds : z.KeepsKinds)
    (move : Move d)
    (hmove : ∀ opening, move ≠ .enter opening) :
    move.build.Ends e (fun reply e' => Retag e e' reply.token?) (fun _ _ => True) := by
  have hraw : ∀ call : RawCall d,
      call.move.build.Ends e (fun reply e' => Retag e e' reply.token?) (fun _ _ => True) :=
    fun call => (call.ends_effect hsettled hkinds).mono (fun _ _ h => h.retag) fun _ _ h => h
  cases move with
  | leaf node => exact hraw (.leaf node)
  | openScope scope => exact hraw (.opens scope)
  | close token => exact hraw (.close token)
  | declare a kind =>
      rw [build, Attempt.ends_bind, Engine.ends_step]
      refine ⟨fun _ _ => trivial, fun _ => ?_⟩
      rw [Action.ends_declare]
      exact ⟨fun _ _ => .of_sameTree ⟨rfl, rfl⟩ rfl, fun _ _ => trivial⟩
  | resolve name kind =>
      rw [build, Attempt.ends_bind, Engine.ends_step]
      refine ⟨fun _ _ => trivial, fun _ => ?_⟩
      rw [Action.ends_resolve]
      exact ⟨fun _ _ => .of_sameTree ⟨rfl, rfl⟩ rfl, fun _ _ => trivial⟩
  | generate stem =>
      rw [build, Attempt.ends_bind, Engine.ends_step]
      refine ⟨fun _ _ => trivial, fun _ => ?_⟩
      rw [Action.ends_generate]
      exact .of_sameTree ⟨rfl, rfl⟩ rfl
  | authoring call =>
      unfold build Dialect.callBuild
      rw [Engine.ends_step]
      refine ⟨fun _ _ => trivial, fun _ => ?_⟩
      simp only [Attempt.ends_bind, Attempt.ends_pure]
      refine (hsound.call call e.counted).mono ?_ fun _ _ _ => trivial
      rintro named e' ⟨⟨item, _, htakes, _⟩, hcounts⟩
      have hsilent : (Reply.ofAlias? named).token? = none := by
        cases named <;> rfl
      rw [hsilent]
      exact .kept hcounts.openings (Engine.tags_of_takes (e := e.counted) hkinds htakes)
  | enter opening => exact absurd rfl (hmove opening)

theorem Engine.Ordered.of_retag
    {token? : Option Token}
    (h : e.Ordered)
    (hretag : Retag e e' token?)
    (hcalls : e'.calls = e.calls + 1) :
    e'.Ordered := by
  cases hretag with
  | opened hshallow hserial hopenings htags =>
      refine ⟨?_, ?_, ?_⟩
      · rw [htags, List.length_cons]
        exact hshallow
      · rw [htags, List.pairwise_cons]
        refine ⟨fun outer houter => ?_, h.sorted⟩
        obtain ⟨hold, hcalled⟩ := h.bounded outer houter
        exact ⟨by dsimp only; omega, by dsimp only; omega⟩
      · rw [htags, hcalls, hopenings]
        intro tag htag
        rcases List.mem_cons.mp htag with rfl | htag
        · exact ⟨by dsimp only; omega, Nat.le_refl _⟩
        · obtain ⟨hold, hcalled⟩ := h.bounded tag htag
          omega
  | kept hopenings htags =>
      refine ⟨htags ▸ h.shallow, htags ▸ h.sorted, ?_⟩
      rw [htags, hopenings, hcalls]
      intro tag htag
      obtain ⟨hold, hcalled⟩ := h.bounded tag htag
      omega
  | closed hopenings htags =>
      obtain ⟨hshallow, hsorted, hbounded⟩ := h
      rw [htags] at hshallow hsorted hbounded
      refine ⟨Nat.le_of_succ_le hshallow, (List.pairwise_cons.mp hsorted).2, ?_⟩
      rw [hopenings, hcalls]
      intro tag htag
      obtain ⟨hold, hcalled⟩ := hbounded tag (List.mem_cons_of_mem _ htag)
      omega

theorem Engine.Ordered.of_sameTree
    (h : e.Ordered)
    (htree : e.SameTree e')
    (hopenings : e.openings ≤ e'.openings)
    (hcalls : e.calls ≤ e'.calls) :
    e'.Ordered := by
  have htags : e'.tags = e.tags := by
    unfold Engine.tags
    rw [htree.stack]
  refine ⟨htags ▸ h.shallow, htags ▸ h.sorted, ?_⟩
  rw [htags]
  intro tag htag
  obtain ⟨hold, hcalled⟩ := h.bounded tag htag
  omega

end Effects

theorem Activity.keepsKinds : Activity.realization.KeepsKinds :=
  fun h => Activity.kind_of_grows h

theorem Sequence.keepsKinds : Sequence.realization.KeepsKinds := by
  intro item scope scope' h
  cases item with
  | element node =>
      rcases Sequence.Scope.push_eq_ok_iff.mp h with
        ⟨_, _, _, _, rfl, rfl⟩ | ⟨_, _, _, _, rfl, _, rfl⟩
      · rfl
      · rfl
  | clause label =>
      obtain ⟨_, _, _, _, rfl, _, rfl⟩ := Sequence.Scope.startSection_eq_ok_iff.mp h
      rfl

namespace Kind

theorem keepsKinds : ∀ kind : Kind, kind.realization.KeepsKinds
  | .activity => Activity.keepsKinds
  | .sequence => Sequence.keepsKinds
  | .state => fun _ => rfl
  | .class => fun _ => rfl

end Kind

end UmlText
