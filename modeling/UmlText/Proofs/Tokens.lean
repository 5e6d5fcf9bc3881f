import UmlText.Proofs.Authored
import UmlText.Proofs.Tags

/-!
# Tokens are given back in reverse order

A caller that opens scopes by raw calls is given a token for each of them, and closes a
scope by handing its token back.  The engine knows nothing of what the caller holds: it
compares the number of the token with that of the innermost scope.  The *history* of the raw
calls, each with its answer, says without the engine which scopes are open: those whose
token was issued and not given back, the latest one innermost (`standing`).

For callers that use only tokens that they were given, and each of them once (`Handled`),
the open scopes of the engine are those of the history.  So the token of the innermost scope
closes it and no other token closes anything; and an engine is finished exactly if every
token was given back.
-/

namespace UmlText

/-- A raw call with its answer. -/
structure Exchange (d : Dialect) where
  call : RawCall d
  answer : Except BuildError Reply

namespace Exchange

variable {d : Dialect}

/-- The token that the caller was given. -/
def issued? : Exchange d → Option Token
  | ⟨.opens _, .ok (.token token)⟩ => some token
  | _ => none

/-- The token that the caller has used, whatever came of it. -/
def used? : Exchange d → Option Token
  | ⟨.close token, _⟩ => some token
  | _ => none

/-- The token that has closed its scope. -/
def closed? : Exchange d → Option Token
  | ⟨.close token, .ok _⟩ => some token
  | _ => none

/-- The call has succeeded. -/
def Succeeded (x : Exchange d) : Prop :=
  ∃ reply, x.answer = .ok reply

end Exchange

/-- The tokens that the caller was given, the latest one first. -/
def issued {d : Dialect} (past : List (Exchange d)) : List Token :=
  past.filterMap Exchange.issued?

/-- The tokens that the caller has used, the latest one first. -/
def used {d : Dialect} (past : List (Exchange d)) : List Token :=
  past.filterMap Exchange.used?

/-- The tokens that have closed their scopes, the latest one first. -/
def closed {d : Dialect} (past : List (Exchange d)) : List Token :=
  past.filterMap Exchange.closed?

/-- The tokens of the scopes that are open after a history, the innermost one first, each
with the number of the call that opened its scope. -/
def standing {d : Dialect} : List (Exchange d) → List (Token × Nat)
  | [] => []
  | x :: past =>
      match x.issued?, x.closed? with
      | some token, _ => (token, past.length + 1) :: standing past
      | none, some token => (standing past).filter fun entry => entry.1 ≠ token
      | none, none => standing past

/-- The histories of an engine, the latest call first, of a caller that uses only tokens it
was given by this engine, and each of them once. -/
inductive Handled {d : Dialect} : List (Exchange d) → Engine d.toGrammar → Prop
  | new : Handled [] {}
  | call
      {past : List (Exchange d)}
      {e : Engine d.toGrammar}
      (h : Handled past e)
      (call : RawCall d)
      (hown : ∀ token, call = .close token → token ∈ issued past ∧ token ∉ used past) :
      Handled (⟨call, (call.move.build.run e).1⟩ :: past) (call.move.build.run e).2

/-- What the history of an engine that has not failed says of it. -/
structure Tracked {d : Dialect} (past : List (Exchange d)) (e : Engine d.toGrammar) : Prop where
  succeeded : ∀ x ∈ past, x.Succeeded
  calls : e.calls = past.length
  tags : e.tags = (standing past).map fun entry => ⟨entry.1.serial, entry.1.kind, entry.2⟩
  old : ∀ token ∈ issued past, token.serial ≤ e.openings
  distinct : ∀ token ∈ issued past, ∀ other ∈ issued past,
    token.serial = other.serial → token = other
  open_iff : ∀ token, token ∈ (standing past).map Prod.fst ↔ token ∈ issued past ∧ token ∉ used past
  closed_eq : closed past = used past

section Histories

variable {d : Dialect} {r : Reading d} {z : Realization r} {v : Inventory r}
variable {e e' : Engine d.toGrammar} {past : List (Exchange d)}

theorem Handled.reachable (h : Handled past e) : Reachable e := by
  induction h with
  | new => exact .new
  | call _ call _ ih => exact .call call.move ih

/-- Only tokens that were given are used, and each of them once. -/
theorem Handled.used_nodup (h : Handled past e) :
    (used past).Nodup ∧ ∀ token ∈ used past, token ∈ issued past := by
  induction h with
  | new => exact ⟨List.nodup_nil, fun _ h => by cases h⟩
  | @call past e h call hown ih =>
      obtain ⟨hnodup, hissued⟩ := ih
      have hmore : ∀ token ∈ issued past,
          token ∈ issued (⟨call, (call.move.build.run e).1⟩ :: past) := by
        intro token htoken
        exact (List.sublist_cons_self _ _).filterMap _ |>.subset htoken
      cases call with
      | close token =>
          obtain ⟨hmem, hnew⟩ := hown token rfl
          refine ⟨List.nodup_cons.mpr ⟨hnew, hnodup⟩, fun other hother => hmore other ?_⟩
          rcases List.mem_cons.mp hother with rfl | hother
          · exact hmem
          · exact hissued other hother
      | _ => exact ⟨hnodup, fun token htoken => hmore token (hissued token htoken)⟩

/-- Histories keep the open scopes in order, whether their calls succeed or not. -/
theorem Handled.ordered
    (hsettled : z.Settled)
    (hsound : z.Sound v)
    (hkinds : z.KeepsKinds)
    (hd : d.LeavesNumbering)
    (h : Handled past e) :
    e.Ordered := by
  induction h with
  | new => exact ⟨Nat.zero_le _, List.Pairwise.nil, fun _ h => by cases h⟩
  | @call past e h call hown ih =>
      have hnested := hsettled.nested_of_reachable hsound h.reachable
      have hopenings := call.move.openings_le hd e
      have hends := ((call.ends_effect hsettled hkinds (e := e)).and
        (hsettled.ends_move hsound call.move hnested)).and (call.move.ends_counts hd)
      rcases hrun : call.move.build.run e with ⟨error | reply, after⟩
      · rw [hrun] at hopenings
        obtain ⟨⟨_, htree⟩, _, hcalls⟩ := hends.of_error hrun
        exact ih.of_sameTree htree hopenings hcalls
      · obtain ⟨⟨heffect, _⟩, _, _, hcalls⟩ := hends.of_ok hrun
        exact ih.of_retag heffect.retag hcalls

namespace Tracked

/-- A token that was given and not used is that of an open scope. -/
theorem exists_standing
    (h : Tracked past e)
    {token : Token}
    (hissued : token ∈ issued past)
    (hnew : token ∉ used past) :
    ∃ inner openedAt rest, standing past = (inner, openedAt) :: rest := by
  have hopen := (h.open_iff token).mpr ⟨hissued, hnew⟩
  cases hstanding : standing past with
  | nil =>
      rw [hstanding] at hopen
      cases hopen
  | cons entry rest => exact ⟨entry.1, entry.2, rest, rfl⟩

theorem issued_of_standing
    (h : Tracked past e)
    {inner : Token}
    {openedAt : Nat}
    {rest : List (Token × Nat)}
    (hstanding : standing past = (inner, openedAt) :: rest) :
    inner ∈ issued past := by
  have hopen : inner ∈ (standing past).map Prod.fst := by
    rw [hstanding]
    exact List.mem_cons_self
  exact ((h.open_iff inner).mp hopen).1

/-- The numbers tell the tokens apart, so the token of the innermost scope is the innermost
one. -/
theorem eq_of_serial
    (h : Tracked past e)
    {token inner : Token}
    {openedAt : Nat}
    {rest : List (Token × Nat)}
    (hissued : token ∈ issued past)
    (hstanding : standing past = (inner, openedAt) :: rest)
    (hserial : token.serial = inner.serial) :
    token = inner :=
  h.distinct token hissued inner (h.issued_of_standing hstanding) hserial

/-- Opening a scope makes its token the innermost one. -/
theorem of_opened
    (h : Tracked past e)
    (hused : ∀ token ∈ used past, token ∈ issued past)
    {scope : d.Scope}
    {token : Token}
    (hserial : token.serial = e.openings + 1)
    (hopenings : e'.openings = e.openings + 1)
    (htags : e'.tags = ⟨token.serial, token.kind, e.calls + 1⟩ :: e.tags)
    (hcalls : e'.calls = e.calls + 1) :
    Tracked (⟨.opens scope, .ok (.token token)⟩ :: past) e' := by
  have hissued : issued (⟨.opens scope, .ok (.token token)⟩ :: past : List (Exchange d)) =
      token :: issued past := rfl
  have hstanding : standing (⟨.opens scope, .ok (.token token)⟩ :: past : List (Exchange d)) =
      (token, past.length + 1) :: standing past := rfl
  have hfresh : ∀ other ∈ issued past, token.serial ≠ other.serial := by
    intro other hother
    have hold := h.old other hother
    omega
  refine ⟨?_, ?_, ?_, ?_, ?_, ?_, h.closed_eq⟩
  · exact List.forall_mem_cons.mpr ⟨⟨_, rfl⟩, h.succeeded⟩
  · rw [hcalls, h.calls]
    rfl
  · rw [htags, hstanding, List.map_cons, h.tags, h.calls]
  · rw [hissued, hopenings]
    intro other hother
    rcases List.mem_cons.mp hother with rfl | hother
    · omega
    · have hold := h.old other hother
      omega
  · rw [hissued]
    intro first hfirst second hsecond hsame
    rcases List.mem_cons.mp hfirst with rfl | hold
    · rcases List.mem_cons.mp hsecond with rfl | hother
      · rfl
      · exact absurd hsame (hfresh second hother)
    · rcases List.mem_cons.mp hsecond with rfl | hother
      · exact absurd hsame.symm (hfresh first hold)
      · exact h.distinct first hold second hother hsame
  · intro other
    change other ∈ token :: (standing past).map Prod.fst ↔
      other ∈ token :: issued past ∧ other ∉ used past
    rw [List.mem_cons, List.mem_cons, h.open_iff]
    have hunused : token ∉ used past := fun hmem => hfresh token (hused token hmem) rfl
    constructor
    · rintro (rfl | ⟨hmem, hnew⟩)
      · exact ⟨.inl rfl, hunused⟩
      · exact ⟨.inr hmem, hnew⟩
    · rintro ⟨rfl | hmem, hnew⟩
      · exact .inl rfl
      · exact .inr ⟨hmem, hnew⟩

/-- The tags behind the innermost one have smaller numbers, so their tokens are others. -/
theorem tags_of_closed
    (h : Tracked past e)
    (hordered : e.Ordered)
    {token : Token}
    {kind : String}
    {openedAt : Nat}
    {tags : List Tag}
    (hissued : token ∈ issued past)
    (htags : e.tags = ⟨token.serial, kind, openedAt⟩ :: tags) :
    tags = ((standing past).filter fun entry => entry.1 ≠ token).map
      fun entry => ⟨entry.1.serial, entry.1.kind, entry.2⟩ := by
  have hsorted := hordered.sorted
  have hown := h.tags
  rw [htags] at hown hsorted
  cases hpast : standing past with
  | nil =>
      rw [hpast] at hown
      cases hown
  | cons entry rest =>
      rw [hpast, List.map_cons] at hown
      obtain ⟨hhead, htail⟩ := List.cons.inj hown
      have hserial : token.serial = entry.1.serial := congrArg Tag.serial hhead
      have htoken : token = entry.1 := h.eq_of_serial hissued hpast hserial
      have hothers : ∀ other ∈ rest, other.1 ≠ token := by
        intro other hother heq
        have hmem : (⟨other.1.serial, other.1.kind, other.2⟩ : Tag) ∈ tags := by
          rw [htail]
          exact List.mem_map_of_mem hother
        have hless := ((List.pairwise_cons.mp hsorted).1 _ hmem).1
        rw [heq] at hless
        exact Nat.lt_irrefl _ hless
      rw [List.filter_cons_of_neg (by simp [htoken]),
        List.filter_eq_self.mpr (by simpa using hothers), htail]

/-- Closing a scope takes away the innermost token, which is the one that was used. -/
theorem of_closed
    (h : Tracked past e)
    (hordered : e.Ordered)
    {token : Token}
    {kind : String}
    {openedAt : Nat}
    (hissued : token ∈ issued past)
    (hopenings : e'.openings = e.openings)
    (htags : e.tags = ⟨token.serial, kind, openedAt⟩ :: e'.tags)
    (hcalls : e'.calls = e.calls + 1) :
    Tracked (⟨.close token, .ok .done⟩ :: past) e' := by
  have hused : used (⟨.close token, .ok .done⟩ :: past : List (Exchange d)) =
      token :: used past := rfl
  have hclosed : closed (⟨.close token, .ok .done⟩ :: past : List (Exchange d)) =
      token :: closed past := rfl
  have hstanding : standing (⟨.close token, .ok .done⟩ :: past : List (Exchange d)) =
      (standing past).filter fun entry => entry.1 ≠ token := rfl
  refine ⟨?_, ?_, h.tags_of_closed hordered hissued htags, ?_, h.distinct, ?_, ?_⟩
  · exact List.forall_mem_cons.mpr ⟨⟨_, rfl⟩, h.succeeded⟩
  · rw [hcalls, h.calls]
    rfl
  · rw [hopenings]
    exact h.old
  · intro other
    have hfilter : other ∈ ((standing past).filter fun entry => entry.1 ≠ token).map Prod.fst ↔
        other ∈ (standing past).map Prod.fst ∧ other ≠ token := by
      simp only [List.mem_map, List.mem_filter, decide_eq_true_eq]
      constructor
      · rintro ⟨entry, ⟨hentry, hne⟩, rfl⟩
        exact ⟨⟨entry, hentry, rfl⟩, hne⟩
      · rintro ⟨⟨entry, hentry, rfl⟩, hne⟩
        exact ⟨entry, ⟨hentry, hne⟩, rfl⟩
    rw [hstanding, hfilter, h.open_iff, hused, List.mem_cons]
    constructor
    · rintro ⟨⟨hmem, hnew⟩, hne⟩
      exact ⟨hmem, fun hor => hor.elim hne hnew⟩
    · rintro ⟨hmem, hnone⟩
      exact ⟨⟨hmem, fun hnew => hnone (.inr hnew)⟩, fun hne => hnone (.inl hne)⟩
  · rw [hclosed, hused, h.closed_eq]

/-- A raw call that succeeds changes what is known of the engine as it changes the history.
-/
theorem of_effect
    (h : Tracked past e)
    (hordered : e.Ordered)
    (hused : ∀ token ∈ used past, token ∈ issued past)
    {call : RawCall d}
    {reply : Reply}
    (hown : ∀ token, call = .close token → token ∈ issued past ∧ token ∉ used past)
    (heffect : call.Effect e e' reply)
    (hcalls : e'.calls = e.calls + 1) :
    Tracked (⟨call, .ok reply⟩ :: past) e' := by
  cases heffect with
  | opened hshallow hserial hopenings htags =>
      exact h.of_opened hused hserial hopenings htags hcalls
  | kept hopenings htags =>
      refine ⟨List.forall_mem_cons.mpr ⟨⟨_, rfl⟩, h.succeeded⟩, ?_, htags.trans h.tags, ?_,
        h.distinct, h.open_iff, h.closed_eq⟩
      · rw [hcalls, h.calls]
        rfl
      · rw [hopenings]
        exact h.old
  | closed hopenings htags =>
      exact h.of_closed hordered (hown _ rfl).1 hopenings htags hcalls

end Tracked

/-- While no call has failed, the history knows the engine; afterwards it knows the failure.
-/
theorem Handled.tracked
    (hsettled : z.Settled)
    (hsound : z.Sound v)
    (hkinds : z.KeepsKinds)
    (hd : d.LeavesNumbering)
    (h : Handled past e) :
    (e.failedAt = none → Tracked past e) ∧
      (e.failedAt ≠ none → ∃ x ∈ past, ¬x.Succeeded) := by
  induction h with
  | new =>
      refine ⟨fun _ => ⟨?_, rfl, rfl, ?_, ?_, ?_, rfl⟩, fun hfailed => absurd rfl hfailed⟩
      · exact fun _ h => by cases h
      · exact fun _ h => by cases h
      · exact fun _ h => by cases h
      · exact fun token => by simp [standing, issued]
  | @call past e h call hown ih =>
      have hordered := h.ordered hsettled hsound hkinds hd
      have hends := (call.ends_effect hsettled hkinds (e := e)).and (call.move.ends_counts hd)
      rcases hrun : call.move.build.run e with ⟨error | reply, after⟩
      · obtain ⟨_, hfailed, _⟩ := hends.of_error hrun
        refine ⟨fun hnone => absurd hnone hfailed, fun _ => ⟨_, List.mem_cons_self, ?_⟩⟩
        rintro ⟨reply, hreply⟩
        cases hreply
      · obtain ⟨heffect, hbefore, hnone, hcalls⟩ := hends.of_ok hrun
        refine ⟨fun _ => ?_, fun hfailed => absurd hnone hfailed⟩
        exact (ih.1 hbefore).of_effect hordered h.used_nodup.2 hown heffect hcalls

/-- Closing by a token succeeds if it has the number of the innermost scope, and else names
the kind of that scope. -/
theorem ends_close_innermost
    (hsettled : z.Settled)
    (hnested : Nested e.stack)
    (hnone : e.failedAt = none)
    {frame : Frame d.toGrammar}
    {outer : List (Frame d.toGrammar)}
    (hstack : e.stack = frame :: outer)
    (token : Token) :
    (Engine.close token).Ends e
      (fun _ _ => token.serial = frame.serial)
      (fun error _ => token.serial ≠ frame.serial ∧
        error = .misuse (e.calls + 1) (.closeOutOfOrder token.kind (d.scopeKind frame.scope))) := by
  have hrefusal : (Action.closeScope token : Action d.toGrammar Unit).Ends e.counted
      (fun _ _ => token.serial = frame.serial)
      (fun fault _ => token.serial ≠ frame.serial →
        fault = .misuse (.closeOutOfOrder token.kind (d.scopeKind frame.scope))) := by
    rw [Action.ends_closeScope]
    refine ⟨fun hempty => ?_, fun frame' outer' hcons => ?_⟩
    · change e.stack = [] at hempty
      rw [hstack] at hempty
      cases hempty
    · obtain ⟨rfl, rfl⟩ := List.cons.inj (hstack.symm.trans hcons)
      refine ⟨fun _ _ => rfl, fun hserial => ⟨fun _ => ⟨fun _ _ => hserial.symm, ?_⟩,
        fun _ _ _ => ⟨fun _ _ => hserial.symm, ?_⟩⟩⟩
      · exact fun _ _ hne => absurd hserial.symm hne
      · exact fun _ _ hne => absurd hserial.symm hne
  rw [Engine.close, Engine.ends_step_of_unfailed _ hnone]
  refine (hrefusal.and (hsettled.ends_closeScope (e := e.counted) token hnested)).mono
    (fun _ _ h => h.1) ?_
  rintro fault e' ⟨hfault, _, hother⟩
  have hserial : token.serial ≠ frame.serial := fun h => hother frame outer hstack h.symm
  refine ⟨hserial, ?_⟩
  rw [hfault hserial]
  rfl

namespace Tracked

/-- Every token has closed its scope, once, exactly if no scope is open. -/
theorem standing_eq_nil_iff
    (h : Tracked past e)
    (hnodup : (used past).Nodup) :
    standing past = [] ↔ ∀ token ∈ issued past, (closed past).count token = 1 := by
  have hcount : ∀ token, (closed past).count token = 1 ↔ token ∈ used past := by
    intro token
    rw [h.closed_eq, hnodup.count]
    simp
  simp only [hcount]
  constructor
  · intro hnil token hissued
    refine Decidable.byContradiction fun hnew => ?_
    obtain ⟨inner, openedAt, rest, hstanding⟩ := h.exists_standing hissued hnew
    rw [hnil] at hstanding
    cases hstanding
  · intro hall
    cases hstanding : standing past with
    | nil => rfl
    | cons entry rest =>
        have hopen : entry.1 ∈ (standing past).map Prod.fst := by
          rw [hstanding]
          exact List.mem_cons_self
        obtain ⟨hissued, hnew⟩ := (h.open_iff entry.1).mp hopen
        exact absurd (hall entry.1 hissued) hnew

/-- The innermost scope of the engine is that of the innermost token. -/
theorem exists_frame
    (h : Tracked past e)
    {inner : Token}
    {openedAt : Nat}
    {rest : List (Token × Nat)}
    (hstanding : standing past = (inner, openedAt) :: rest) :
    ∃ frame outer, e.stack = frame :: outer ∧ frame.serial = inner.serial ∧
      d.scopeKind frame.scope = inner.kind ∧ frame.openedAt = openedAt ∧
      e.depth = (standing past).length := by
  have htags := h.tags
  have hlength := congrArg List.length htags
  unfold Engine.tags at htags hlength
  rw [hstanding] at htags
  rw [List.length_map, List.length_map] at hlength
  cases hstack : e.stack with
  | nil =>
      rw [hstack] at htags
      cases htags
  | cons frame outer =>
      rw [hstack, List.map_cons, List.map_cons] at htags
      obtain ⟨hhead, _⟩ := List.cons.inj htags
      exact ⟨frame, outer, rfl, congrArg Tag.serial hhead, congrArg Tag.kind hhead,
        congrArg Tag.openedAt hhead, hlength⟩

theorem stack_eq_nil_iff (h : Tracked past e) : e.stack = [] ↔ standing past = [] := by
  have hlength := congrArg List.length h.tags
  unfold Engine.tags at hlength
  rw [List.length_map, List.length_map] at hlength
  rw [← List.length_eq_zero_iff, ← List.length_eq_zero_iff, hlength]

theorem innermostKind_eq
    (h : Tracked past e)
    {inner : Token}
    {openedAt : Nat}
    {rest : List (Token × Nat)}
    (hstanding : standing past = (inner, openedAt) :: rest) :
    e.innermostKind = inner.kind := by
  obtain ⟨frame, outer, hstack, -, hkind, -⟩ := h.exists_frame hstanding
  rw [Engine.innermostKind, hstack]
  exact hkind

/-- Only the innermost token closes a scope. -/
theorem ends_close
    (h : Tracked past e)
    (hsettled : z.Settled)
    (hnested : Nested e.stack)
    (hnone : e.failedAt = none)
    {token inner : Token}
    {openedAt : Nat}
    {rest : List (Token × Nat)}
    (hissued : token ∈ issued past)
    (hstanding : standing past = (inner, openedAt) :: rest) :
    (Engine.close token).Ends e
      (fun _ _ => token = inner)
      (fun error _ => token ≠ inner ∧
        error = .misuse (e.calls + 1) (.closeOutOfOrder token.kind inner.kind)) := by
  obtain ⟨frame, outer, hstack, hserial, hkind, -⟩ := h.exists_frame hstanding
  refine (ends_close_innermost hsettled hnested hnone hstack token).mono ?_ ?_
  · intro _ _ hsame
    exact h.eq_of_serial hissued hstanding (hsame.trans hserial)
  · rintro error _ ⟨hother, rfl⟩
    exact ⟨fun heq => hother (heq ▸ hserial.symm), by rw [hkind]⟩

/-- An engine that has not failed is finished exactly if every token has closed its scope. -/
theorem finishes_iff
    (h : Tracked past e)
    (hnodup : (used past).Nodup)
    (hnone : e.failedAt = none) :
    (∃ nodes, (Engine.finish.run e).1 = .ok nodes) ↔
      ∀ token ∈ issued past, (closed past).count token = 1 := by
  rw [← h.standing_eq_nil_iff hnodup, ← h.stack_eq_nil_iff]
  constructor
  · rintro ⟨nodes, hfinish⟩
    exact (Engine.finish_eq_ok_iff.mp hfinish).2.1
  · intro hstack
    exact ⟨e.root, Engine.finish_eq_ok_iff.mpr ⟨hnone, hstack, rfl⟩⟩

/-- Otherwise the error describes the innermost scope. -/
theorem finish_unclosed
    (h : Tracked past e)
    (hnone : e.failedAt = none)
    {inner : Token}
    {openedAt : Nat}
    {rest : List (Token × Nat)}
    (hstanding : standing past = (inner, openedAt) :: rest) :
    (Engine.finish.run e).1 = .error (.unclosed inner.kind openedAt (standing past).length) := by
  obtain ⟨frame, outer, hstack, -, hkind, hopened, hdepth⟩ := h.exists_frame hstanding
  rw [← hdepth, ← hkind, ← hopened]
  simp [Attempt.run, Engine.finish, hnone, hstack]

end Tracked

end Histories

namespace Kind

/-- For a caller that uses only tokens it was given, and each of them once: while the build
has not failed, a token closes its scope if it is that of the innermost one, and else the
closing names the kinds of both.  The open scopes are in order, whatever has failed.  And
the engine can be finished exactly if no call has failed and every token has closed its
scope; if only the latter is missing, the error describes the innermost scope and how many
are open. -/
theorem tokens_last_in_first_out
    (kind : Kind)
    (past : List (Exchange kind.dialect))
    (e : Engine kind.dialect.toGrammar)
    (h : Handled past e) :
    (e.failedAt = none → ∀ token ∈ issued past, token ∉ used past →
      ∃ inner openedAt rest, standing past = (inner, openedAt) :: rest ∧
        e.innermostKind = inner.kind ∧
        ((∃ e', (Engine.close token).run e = (.ok (), e')) ↔ token = inner) ∧
        (token ≠ inner → ∃ e', (Engine.close token).run e =
          (.error (.misuse (e.calls + 1) (.closeOutOfOrder token.kind inner.kind)), e'))) ∧
    (e.stack.length ≤ maxDepth ∧
      (e.stack.Pairwise fun inner outer =>
        outer.serial < inner.serial ∧ outer.openedAt < inner.openedAt) ∧
      ∀ frame ∈ e.stack, frame.openedAt ≤ e.calls) ∧
    ((∃ nodes, (Engine.finish.run e).1 = .ok nodes) ↔
      (∀ x ∈ past, x.Succeeded) ∧ ∀ token ∈ issued past, (closed past).count token = 1) ∧
    ((∀ x ∈ past, x.Succeeded) → ¬(∀ token ∈ issued past, (closed past).count token = 1) →
      ∃ inner openedAt rest, standing past = (inner, openedAt) :: rest ∧
        (Engine.finish.run e).1 =
          .error (.unclosed inner.kind openedAt (standing past).length)) := by
  have hnested := kind.settled.nested_of_reachable kind.sound h.reachable
  have hordered := h.ordered kind.settled kind.sound kind.keepsKinds kind.leavesNumbering
  obtain ⟨htracked, hfailed⟩ :=
    h.tracked kind.settled kind.sound kind.keepsKinds kind.leavesNumbering
  have hnodup := h.used_nodup.1
  have hnone : (∀ x ∈ past, x.Succeeded) → e.failedAt = none := by
    intro hall
    cases hcall : e.failedAt with
    | none => rfl
    | some call =>
        obtain ⟨x, hx, hnot⟩ := hfailed (by simp [hcall])
        exact absurd (hall x hx) hnot
  refine ⟨fun hclear token hissued hnew => ?_, ⟨?_, ?_, ?_⟩, ?_, fun hall hopen => ?_⟩
  · have ht := htracked hclear
    obtain ⟨inner, openedAt, rest, hstanding⟩ := ht.exists_standing hissued hnew
    have hends := ht.ends_close kind.settled hnested hclear hissued hstanding
    refine ⟨inner, openedAt, rest, hstanding, ht.innermostKind_eq hstanding, ?_, ?_⟩
    · rcases hrun : (Engine.close token).run e with ⟨error | ⟨⟩, after⟩
      · simp [(hends.of_error hrun).1]
      · simp [hends.of_ok hrun]
    · intro hother
      rcases hrun : (Engine.close token).run e with ⟨error | ⟨⟩, after⟩
      · obtain ⟨_, rfl⟩ := hends.of_error hrun
        exact ⟨after, rfl⟩
      · exact absurd (hends.of_ok hrun) hother
  · have hshallow := hordered.shallow
    rwa [Engine.tags, List.length_map] at hshallow
  · have hsorted := hordered.sorted
    rwa [Engine.tags, List.pairwise_map] at hsorted
  · intro frame hframe
    exact (hordered.bounded _ (List.mem_map_of_mem hframe)).2
  · constructor
    · rintro ⟨nodes, hfinish⟩
      have hclear := (Engine.finish_eq_ok_iff.mp hfinish).1
      have ht := htracked hclear
      exact ⟨ht.succeeded, (ht.finishes_iff hnodup hclear).mp ⟨nodes, hfinish⟩⟩
    · rintro ⟨hall, hclosed⟩
      exact ((htracked (hnone hall)).finishes_iff hnodup (hnone hall)).mpr hclosed
  · have ht := htracked (hnone hall)
    cases hstanding : standing past with
    | nil => exact absurd ((ht.standing_eq_nil_iff hnodup).mp hstanding) hopen
    | cons entry rest =>
        have hunclosed := ht.finish_unclosed (hnone hall) hstanding
        rw [hstanding] at hunclosed
        exact ⟨entry.1, entry.2, rest, rfl, hunclosed⟩

/-- A caller has opened a partition. -/
def partitionOpened : Except BuildError Reply × Engine Kind.activity.dialect.toGrammar :=
  (RawCall.opens (Activity.Scope.partition "build" none [])).move.build.run {}

/-- A caller has opened a loop inside the partition. -/
def loopOpened : Except BuildError Reply × Engine Kind.activity.dialect.toGrammar :=
  (RawCall.opens (Activity.Scope.whileLoop { condition := "more" } [])).move.build.run
    partitionOpened.2

/-- The history of the caller. -/
def loopInPartition : List (Exchange Kind.activity.dialect) :=
  [⟨.opens (Activity.Scope.whileLoop { condition := "more" } []), loopOpened.1⟩,
    ⟨.opens (Activity.Scope.partition "build" none []), partitionOpened.1⟩]

theorem tokens_last_in_first_out_of_loopInPartition :
    Handled loopInPartition loopOpened.2 ∧
    (∃ e', (Engine.close ⟨0, 1, "partition"⟩).run loopOpened.2 =
      (.error (.misuse 3 (.closeOutOfOrder "partition" "while")), e')) ∧
    (Engine.finish.run loopOpened.2).1 = .error (.unclosed "while" 2 2) := by
  have hhandled : Handled loopInPartition loopOpened.2 :=
    .call (.call .new _ fun _ h => by cases h) _ fun _ h => by cases h
  have hissued : issued loopInPartition = [⟨1, 2, "while"⟩, ⟨0, 1, "partition"⟩] := rfl
  have hused : used loopInPartition = [] := rfl
  have hclosed : closed loopInPartition = [] := rfl
  have hpast : standing loopInPartition = [(⟨1, 2, "while"⟩, 2), (⟨0, 1, "partition"⟩, 1)] := rfl
  have hall : ∀ x ∈ loopInPartition, x.Succeeded :=
    List.forall_mem_cons.mpr ⟨⟨_, rfl⟩, List.forall_mem_cons.mpr ⟨⟨_, rfl⟩, by simp⟩⟩
  obtain ⟨hcloses, -, -, hfinish⟩ := tokens_last_in_first_out .activity _ _ hhandled
  refine ⟨hhandled, ?_, ?_⟩
  · obtain ⟨inner, openedAt, rest, hstanding, -, -, hother⟩ :=
      hcloses rfl ⟨0, 1, "partition"⟩ (by simp [hissued]) (by simp [hused])
    rw [hpast] at hstanding
    cases hstanding
    exact hother (by decide)
  · obtain ⟨inner, openedAt, rest, hstanding, hunclosed⟩ :=
      hfinish hall (by rw [hissued, hclosed]; decide)
    rw [hpast] at hstanding hunclosed
    cases hstanding
    exact hunclosed

end Kind

end UmlText
