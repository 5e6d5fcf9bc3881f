import UmlText.Proofs.Answers
import UmlText.Proofs.Scopes
import UmlText.Proofs.Tokens

/-!
# Which scope a token closes

A token names its scope by the number of the opening, and no engine looks at more than that.
Within one engine this is enough: a token closes the scope it was issued for and no other
one.  But every engine numbers its openings from 1, so the `k`-th token of one engine is as
good as the `k`-th token of any other one, whatever the kinds of their scopes and wherever
they stand.

What an engine has issued is read off the turns of its run, and the open scopes are compared
with it by their tags.
-/

namespace UmlText

/-- A token that was issued, with the number of the call that has opened its scope. -/
structure Issue where
  token : Token
  openedAt : Nat

/-- What is known from outside of the scope that a token was issued for. -/
def Issue.tag (issue : Issue) : Tag :=
  ⟨issue.token.serial, issue.token.kind, issue.openedAt⟩

namespace ScriptTurn

variable {d : Dialect}

/-- The token that is issued in a turn. -/
def token? (t : ScriptTurn d) : Option Token :=
  t.answer?.bind Reply.token?

/-- The token that is issued in a turn, with the number of the call that the turn makes. -/
def issue? (t : ScriptTurn d) : Option Issue :=
  t.token?.map fun token => ⟨token, t.before.engine.calls + 1⟩

end ScriptTurn

/-- What is issued in these turns, in order. -/
def issuesOf {d : Dialect} (turns : List (ScriptTurn d)) : List Issue :=
  turns.filterMap ScriptTurn.issue?

/-- What the turns so far say of the engine they lead to: the tokens are numbered in the
order in which they were issued, and one of them was issued for every open scope. -/
structure Ledger {d : Dialect} (past : List (ScriptTurn d)) (e : Engine d.toGrammar) : Prop where
  numbered : ∀ k issue, (issuesOf past)[k]? = some issue → issue.token.serial = k + 1
  openings : e.failedAt = none → e.openings = (issuesOf past).length
  known : e.failedAt = none → ∀ tag ∈ e.tags, ∃ issue ∈ issuesOf past, issue.tag = tag

section Turns

variable {d : Dialect} {r : Reading d} {z : Realization r} {v : Inventory r}
variable {e e' : Engine d.toGrammar} {issued : Option Token} {t : ScriptTurn d}
variable {past : List (ScriptTurn d)}

theorem Retag.of_withJournal
    {journal : List Event}
    (h : Retag (e.withJournal journal) e' issued) :
    Retag e e' issued := by
  cases h with
  | opened hshallow hserial hopenings htags => exact .opened hshallow hserial hopenings htags
  | kept hopenings htags => exact .kept hopenings htags
  | closed hopenings htags => exact .closed hopenings htags

theorem Dialect.LeavesNumbering.uncounted_scopeOf
    (hd : d.LeavesNumbering) :
    ∀ opening : ScriptOpening d, Action.Uncounted (d.scripting.scopeOf opening)
  | .authoring opening => (hd.openingAction opening).uncounted
  | .engine (.ok _) => (Action.unnumbered_pure _).uncounted
  | .engine (.error _) => fun e => .refl e

/-- The scope that a call opens for a body has the number and the kind of the token, and the
number of the call. -/
theorem Engine.ends_enter_tag
    {α : Type}
    {make : Action d.toGrammar (d.Scope × α)}
    (hmake : Action.Uncounted make) :
    (Engine.enter make).Ends e
      (fun entered e' => e'.tags.length ≤ maxDepth ∧
        e'.tags.head? = some ⟨entered.1.serial, entered.1.kind, e.calls + 1⟩)
      (fun _ _ => True) := by
  unfold Engine.enter
  rw [Engine.ends_step]
  refine ⟨fun _ _ => trivial, fun _ => ?_⟩
  rw [Attempt.ends_bind]
  refine (hmake e.counted).mono ?_ fun _ _ _ => trivial
  rintro ⟨scope, value⟩ e₁ hsame
  rw [Attempt.ends_bind, Action.ends_openScope]
  refine ⟨fun _ _ => trivial, fun _ _ => trivial, fun _ hshallow => ⟨?_, ?_⟩⟩
  · rw [Engine.tags, List.length_map]
    exact hshallow
  · change some (Tag.mk (e₁.openings + 1) (d.scopeKind scope) e₁.calls) = _
    rw [hsame.calls]
    rfl

/-- The call that opens a scope for a body puts its tag on the others. -/
theorem Realization.Sound.ends_enter_retag
    (hsound : z.Sound v)
    (hd : d.LeavesNumbering)
    (opening : ScriptOpening d) :
    (Engine.enter (d.scripting.scopeOf opening)).Ends e
      (fun entered e' => Retag e e' (some entered.1)) (fun _ _ => True) := by
  refine ((hsound.ends_enter_scripting hd opening).and
    (Engine.ends_enter_tag (hd.uncounted_scopeOf opening))).mono ?_ fun _ _ _ => trivial
  rintro ⟨token, reply⟩ e' ⟨hopened, hshallow, hhead⟩
  obtain ⟨frame, hstack, _, _⟩ := hopened.stack
  have htags : e'.tags = ⟨frame.serial, d.scopeKind frame.scope, frame.openedAt⟩ :: e.tags := by
    rw [Engine.tags, hstack, List.map_cons]
    rfl
  rw [htags] at hhead hshallow
  refine .opened hshallow hopened.serial hopened.openings ?_
  rw [htags, Option.some.inj hhead]

/-- Behind a turn the build has failed and nothing was issued, or the turn has done one of
the three things that calls do to the open scopes. -/
theorem ScriptTurn.failed_or_retag
    (hsettled : z.Settled)
    (hsound : z.Sound v)
    (hkinds : z.KeepsKinds)
    (hd : d.LeavesNumbering)
    (t : ScriptTurn d) :
    ((t.after d.scripting).engine.failedAt ≠ none ∧ t.token? = none) ∨
      t.Unfailed ∧ Retag t.before.engine (t.after d.scripting).engine t.token? := by
  cases t.course hd with
  | silent journal hafter _ hanswer =>
      have htoken : t.token? = none := by
        cases hreply : t.answer? with
        | none => rw [token?, hreply, Option.bind_none]
        | some reply =>
            obtain ⟨kind, rfl⟩ := hanswer reply hreply
            rw [token?, hreply]
            rfl
      rcases failed_or_unfailed_of_silent hafter with hfailed | hunfailed
      · exact .inl ⟨hfailed, htoken⟩
      · refine .inr ⟨hunfailed, ?_⟩
        rw [htoken, hafter]
        exact .of_sameTree ⟨rfl, rfl⟩ rfl
  | failed hfailed hanswer =>
      refine .inl ⟨hfailed, ?_⟩
      rw [token?, hanswer, Option.bind_none]
  | moved move journal reply hunfailed hmove hrun hanswer =>
      have hretag := (move.ends_retag hsettled hsound hkinds (move?_ne_enter hmove)).of_ok hrun
      rw [token?, hanswer]
      exact .inr ⟨hunfailed, hretag.of_withJournal⟩
  | entered opening token reply hunfailed _ hrun hanswer =>
      rw [token?, hanswer]
      exact .inr ⟨hunfailed, (hsound.ends_enter_retag hd opening).of_ok hrun⟩

namespace Ledger

/-- Where nothing is issued, what is known of the tokens stays as it is. -/
theorem of_silent
    (h : Ledger past e)
    (htoken : t.token? = none)
    (hengine : e'.failedAt = none → e.failedAt = none ∧ e'.openings = e.openings ∧
      ∀ tag ∈ e'.tags, tag ∈ e.tags) :
    Ledger (past ++ [t]) e' := by
  have hissues : issuesOf (past ++ [t]) = issuesOf past := by
    simp [issuesOf, ScriptTurn.issue?, htoken]
  refine ⟨hissues ▸ h.numbered, fun hnone => ?_, fun hnone tag htag => ?_⟩
  · obtain ⟨hbefore, hopenings, _⟩ := hengine hnone
    rw [hissues, hopenings]
    exact h.openings hbefore
  · obtain ⟨hbefore, _, htags⟩ := hengine hnone
    rw [hissues]
    exact h.known hbefore tag (htags tag htag)

/-- What a turn does is written down behind what the turns before it have done. -/
theorem after_turn
    (hsettled : z.Settled)
    (hsound : z.Sound v)
    (hkinds : z.KeepsKinds)
    (hd : d.LeavesNumbering)
    (h : Ledger past t.before.engine) :
    Ledger (past ++ [t]) (t.after d.scripting).engine := by
  rcases t.failed_or_retag hsettled hsound hkinds hd with
    ⟨hfailed, htoken⟩ | ⟨⟨hbefore, hafter⟩, hretag⟩
  · exact h.of_silent htoken fun hnone => absurd hnone hfailed
  generalize htoken : t.token? = issued at hretag
  cases hretag with
  | kept hopenings htags =>
      refine h.of_silent htoken fun _ => ⟨hbefore, hopenings, fun tag htag => ?_⟩
      rw [htags] at htag
      exact htag
  | closed hopenings htags =>
      refine h.of_silent htoken fun _ => ⟨hbefore, hopenings, fun tag htag => ?_⟩
      rw [htags]
      exact List.mem_cons_of_mem _ htag
  | @opened token _ hserial hopenings htags =>
      have hissues : issuesOf (past ++ [t]) =
          issuesOf past ++ [⟨token, t.before.engine.calls + 1⟩] := by
        simp [issuesOf, ScriptTurn.issue?, htoken]
      have hcount := h.openings hbefore
      refine ⟨fun k issue hissue => ?_, fun _ => ?_, fun _ tag htag => ?_⟩
      · rw [hissues, List.getElem?_append] at hissue
        split at hissue
        · exact h.numbered k issue hissue
        · next hlast =>
            rw [List.getElem?_singleton] at hissue
            split at hissue
            · next hindex =>
                obtain rfl := Option.some.inj hissue
                change token.serial = k + 1
                omega
            · cases hissue
      · rw [hissues, hopenings, hcount, List.length_append]
        rfl
      · rw [hissues]
        rw [htags] at htag
        rcases List.mem_cons.mp htag with rfl | hold
        · exact ⟨_, List.mem_append_right _ (List.mem_singleton_self _), rfl⟩
        · obtain ⟨issue, hissue, hsame⟩ := h.known hbefore tag hold
          exact ⟨issue, List.mem_append_left _ hissue, hsame⟩

/-- The scope with the `k`-th number is the one that the `k`-th token was issued for. -/
theorem issue_of_serial
    (h : Ledger past e)
    (hnone : e.failedAt = none)
    {tag : Tag}
    (htag : tag ∈ e.tags)
    {k : Nat}
    (hserial : tag.serial = k + 1) :
    ∃ issue, (issuesOf past)[k]? = some issue ∧ issue.tag = tag := by
  obtain ⟨issue, hmem, rfl⟩ := h.known hnone tag htag
  obtain ⟨index, hindex⟩ := List.mem_iff_getElem?.mp hmem
  have hnumber : issue.token.serial = index + 1 := h.numbered index issue hindex
  have hsame : index = k := Nat.succ.inj (hnumber.symm.trans hserial)
  exact ⟨issue, hsame ▸ hindex, rfl⟩

/-- A closing that succeeds by the `k`-th number closes the scope of the `k`-th token. -/
theorem of_close
    (h : Ledger past e)
    (hsettled : z.Settled)
    (hkinds : z.KeepsKinds)
    {token : Token}
    {k : Nat}
    (hserial : token.serial = k + 1)
    (hclose : (Engine.close token).run e = (.ok (), e')) :
    e.failedAt = none ∧
      ∃ own, (issuesOf past)[k]? = some own ∧ e.tags = own.tag :: e'.tags := by
  obtain ⟨hnone, hclosed⟩ := (ends_close token).of_ok hclose
  obtain ⟨kind, openedAt, htags⟩ := Engine.tags_of_closed hsettled hkinds hclosed
  have hmem : ⟨token.serial, kind, openedAt⟩ ∈ e.tags := by
    rw [htags]
    exact List.mem_cons_self
  obtain ⟨own, hown, hsame⟩ := h.issue_of_serial hnone hmem hserial
  exact ⟨hnone, own, hown, hsame ▸ htags⟩

/-- A token with the `k`-th number closes the innermost scope if the `k`-th token was issued
for it. -/
theorem close_of_innermost
    (h : Ledger past e)
    (hsettled : z.Settled)
    (hnested : Nested e.stack)
    (hnone : e.failedAt = none)
    {token : Token}
    {own : Issue}
    {k : Nat}
    (hserial : token.serial = k + 1)
    (hown : (issuesOf past)[k]? = some own)
    (hinnermost : e.tags.head? = some own.tag) :
    ∃ e', (Engine.close token).run e = (.ok (), e') := by
  cases hstack : e.stack with
  | nil =>
      rw [Engine.tags, hstack] at hinnermost
      cases hinnermost
  | cons frame outer =>
      rw [Engine.tags, hstack] at hinnermost
      have hframe : frame.serial = own.token.serial :=
        congrArg Tag.serial (Option.some.inj hinnermost)
      have hends := ends_close_innermost hsettled hnested hnone hstack token
      rcases hrun : (Engine.close token).run e with ⟨error | ⟨⟩, e'⟩
      · have hother := (hends.of_error hrun).1
        rw [hframe, h.numbered k own hown] at hother
        exact absurd hserial hother
      · exact ⟨e', rfl⟩

end Ledger

end Turns

namespace Kind

variable {kind : Kind} {s s' : Session kind.dialect.toGrammar}
variable {turns others : List (ScriptTurn kind.dialect)}

/-- Whatever turns lead from a new engine to another one say what it has issued. -/
theorem ledger_of_leads (h : Leads kind.dialect.scripting {} turns s) : Ledger turns s.engine := by
  refine h.carries (I := fun past s => Ledger past s.engine) ?_ [] ⟨?_, ?_, ?_⟩
  · exact fun past t ht =>
      ht.after_turn kind.settled kind.sound kind.keepsKinds kind.leavesNumbering
  · intro k issue hissue
    cases hissue
  · exact fun _ => rfl
  · intro _ tag htag
    cases htag

theorem orderly_of_leads (h : Leads kind.dialect.scripting {} turns s) : s.Orderly :=
  h.carries (I := fun _ s => s.Orderly)
    (fun _ _ ht => (kind.settled.maintains_orderly kind.sound kind.leavesNumbering).after_turn ht)
    [] Session.orderly_new

/-- The `k`-th token of an engine, used in another engine of the same grammar, closes its
innermost scope exactly if that is the scope of the `k`-th token of this other engine, and
else leaves its tree alone.  In the engine that has issued it, a token closes no scope but
its own. -/
theorem close_succeeds_iff_numbered_alike
    (hturns : Leads kind.dialect.scripting {} turns s)
    (hothers : Leads kind.dialect.scripting {} others s')
    {k : Nat}
    {issue : Issue}
    (hissue : (issuesOf turns)[k]? = some issue) :
    let closing := (Engine.close issue.token).run s'.engine
    (closing.1 = .ok () ↔ s'.engine.failedAt = none ∧
      ∃ own, (issuesOf others)[k]? = some own ∧ s'.engine.tags.head? = some own.tag) ∧
    (∀ own, (issuesOf others)[k]? = some own → closing.1 = .ok () →
      s'.engine.tags = own.tag :: closing.2.tags) ∧
    (∀ error, closing.1 = .error error →
      closing.2.root = s'.engine.root ∧ closing.2.stack = s'.engine.stack) ∧
    ∀ e, (Engine.close issue.token).run s.engine = (.ok (), e) →
      s.engine.tags = issue.tag :: e.tags := by
  intro closing
  have hserial : issue.token.serial = k + 1 := (ledger_of_leads hturns).numbered k issue hissue
  have hledger := ledger_of_leads hothers
  have hnested := (orderly_of_leads hothers).nested
  refine ⟨⟨fun hok => ?_, ?_⟩, fun own hown hok => ?_, fun error herror => ?_, fun e hclose => ?_⟩
  · obtain ⟨hnone, own, hown, htags⟩ :=
      hledger.of_close kind.settled kind.keepsKinds hserial (Prod.ext hok rfl)
    exact ⟨hnone, own, hown, by rw [htags, List.head?_cons]⟩
  · rintro ⟨hnone, own, hown, hinnermost⟩
    obtain ⟨e, hclose⟩ :=
      hledger.close_of_innermost kind.settled hnested hnone hserial hown hinnermost
    exact congrArg Prod.fst hclose
  · obtain ⟨_, own', hown', htags⟩ :=
      hledger.of_close kind.settled kind.keepsKinds hserial (Prod.ext hok rfl)
    rw [hown] at hown'
    obtain rfl := Option.some.inj hown'
    exact htags
  · have hends := kind.settled.ends_move kind.sound (.close issue.token) hnested
    rw [Move.build, Attempt.ends_bind] at hends
    have htree := hends.of_error (Prod.ext herror rfl)
    exact ⟨htree.root, htree.stack⟩
  · obtain ⟨_, own, hown, htags⟩ :=
      (ledger_of_leads hturns).of_close kind.settled kind.keepsKinds hserial hclose
    rw [hissue] at hown
    obtain rfl := Option.some.inj hown
    exact htags

/-- Opens a scope by a raw call and leaves it open. -/
def leftOpen (scope : Activity.Scope) : List (Script Kind.activity.dialect) :=
  [.call (.engine (.openScope scope "t")) false]

/-- The token of a group, used in another engine, closes a loop there. -/
theorem close_of_foreign_group :
    let m := Kind.activity.dialect.scripting
    let group := leftOpen (.group "g" [])
    let loop := leftOpen (.whileLoop ⟨"more", none, none⟩ [])
    let issued := issuesOf (Program.turnsAll m {} group)
    let e := (Program.runAll m {} loop).after.engine
    issued = [⟨⟨0, 1, "group"⟩, 1⟩] ∧ e.tags = [⟨1, "while", 1⟩] ∧ e.root = [] ∧
      ∃ e', (Engine.close ⟨0, 1, "group"⟩).run e = (.ok (), e') ∧ e'.stack = [] ∧
        e'.root = [.whileLoop ⟨"more", none, none⟩ []] :=
  ⟨rfl, rfl, rfl, _, rfl, rfl, rfl⟩

theorem close_succeeds_iff_numbered_alike_of_loop :
    let m := Kind.activity.dialect.scripting
    let turns := Program.turnsAll m {} (leftOpen (.group "g" []))
    let others := Program.turnsAll m {} (leftOpen (.whileLoop ⟨"more", none, none⟩ []))
    let e := (Program.runAll m {} (leftOpen (.whileLoop ⟨"more", none, none⟩ []))).after.engine
    Leads m {} turns (Program.runAll m {} (leftOpen (.group "g" []))).after ∧
      (issuesOf turns)[0]? = some ⟨⟨0, 1, "group"⟩, 1⟩ ∧
      (issuesOf others)[0]? = some ⟨⟨0, 1, "while"⟩, 1⟩ ∧
      ((Engine.close ⟨0, 1, "group"⟩).run e).1 = .ok () := by
  intro m turns others e
  have hturns := Program.leads_turnsAll (m := m) (leftOpen (.group "g" [])) {}
  have hothers := Program.leads_turnsAll (m := m)
    (leftOpen (.whileLoop ⟨"more", none, none⟩ [])) {}
  have hissue : (issuesOf turns)[0]? = some ⟨⟨0, 1, "group"⟩, 1⟩ := rfl
  have hown : (issuesOf others)[0]? = some ⟨⟨0, 1, "while"⟩, 1⟩ := rfl
  obtain ⟨hiff, _⟩ := close_succeeds_iff_numbered_alike hturns hothers hissue
  exact ⟨hturns, hissue, hown, hiff.mpr ⟨rfl, _, hown, rfl⟩⟩

end Kind

end UmlText
