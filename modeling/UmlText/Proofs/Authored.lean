import UmlText.Proofs.Export

/-!
# Trees that programs build

A tree is *authored* when a program of calls ends with it as a finished tree, whichever
failures the program has caught on the way.  Two sorts of facts about authored trees are
needed wherever their text is read back.

* All their aliases are plain, because the aliases of the tree are those of the registry.
* What is true of every element when it is placed, and of every open scope while it grows,
  is true of every element in the end; `Upholds` says what a dialect has to satisfy for
  that.
-/

namespace UmlText

/-- The elements at the root that a program of calls leaves behind. -/
def Dialect.rootOf (d : Dialect) (program : List (Authoring d)) : List d.Node :=
  (Program.runAll d.authoring {} program).after.engine.root

/-- A program of calls can end with the tree. -/
def Dialect.Authored (d : Dialect) (nodes : List d.Node) : Prop :=
  ∃ program : List (Authoring d),
    (Engine.finish.run (Program.runAll d.authoring {} program).after.engine).1 = .ok nodes

/-- A build can be finished without a failure and with every scope closed, and in no other
way. -/
theorem Engine.finish_eq_ok_iff
    {G : Grammar}
    {e : Engine G}
    {nodes : List G.Node} :
    (Engine.finish.run e).1 = .ok nodes ↔ e.failedAt = none ∧ e.stack = [] ∧ e.root = nodes := by
  unfold Attempt.run finish
  cases hfailed : e.failedAt with
  | some call => simp
  | none =>
      cases hstack : e.stack with
      | nil => simp
      | cons frame outer => simp

/-- What calls leave behind unless the build fails by them holds where it has not failed. -/
theorem Attempt.Ends.of_unfailed
    {G : Grammar}
    {α : Type}
    {I : Engine G → Prop}
    {calls : Build G α}
    {e : Engine G}
    (h : calls.Ends e (fun _ e' => I e') (fun _ e' => e'.failedAt ≠ none)) :
    (calls.run e).2.failedAt = none → I (calls.run e).2 := by
  have hkept : calls.Ends e (fun _ e' => e'.failedAt = none → I e')
      (fun _ e' => e'.failedAt = none → I e') :=
    h.mono (fun _ _ h _ => h) fun _ _ hfailed hnone => absurd hnone hfailed
  exact Attempt.ends_state_iff.mp hkept

/-- What every call of a build that has not failed leaves behind it, unless the build fails
by it, is kept by programs as long as no call has failed. -/
theorem Dialect.keeps_while_unfailed
    {d : Dialect}
    {I : Engine d.toGrammar → Prop}
    (hcall : ∀ call e, (e.failedAt = none → I e) →
      (d.callBuild call).Ends e (fun _ e' => I e') (fun _ e' => e'.failedAt ≠ none))
    (henter : ∀ opening e, (e.failedAt = none → I e) →
      (Engine.enter (d.openingAction opening)).Ends e
        (fun _ e' => I e') (fun _ e' => e'.failedAt ≠ none))
    (hclose : ∀ token e, (e.failedAt = none → I e) →
      (Engine.close token).Ends e (fun _ e' => I e') (fun _ e' => e'.failedAt ≠ none)) :
    Program.Keeps d.authoring fun e => e.failedAt = none → I e := by
  refine ⟨fun leaf s h => ?_, fun opening e h => (henter opening e h).of_unfailed,
    fun token e h => (hclose token e h).of_unfailed, fun _ _ _ h => nomatch h⟩
  cases leaf with
  | error what => exact h
  | ok call => exact (hcall call s.engine h).of_unfailed

/-- The aliases in a finding are plain. -/
def Finding.IsPlain : Finding → Prop
  | .entered _ => True
  | .declared _ a => a.IsPlain
  | .referred _ _ a => a.IsPlain

/-- The aliases in all findings are plain. -/
def AllPlain (findings : List Finding) : Prop :=
  ∀ f ∈ findings, f.IsPlain

section Findings

variable {f : Finding} {first second : List Finding}

@[simp] theorem allPlain_nil : AllPlain [] := by
  simp [AllPlain]

@[simp] theorem allPlain_cons : AllPlain (f :: first) ↔ f.IsPlain ∧ AllPlain first := by
  simp [AllPlain]

@[simp] theorem allPlain_append :
    AllPlain (first ++ second) ↔ AllPlain first ∧ AllPlain second := by
  simp [AllPlain, or_imp, forall_and]

end Findings

namespace Realization

variable {d : Dialect} {r : Reading d} {z : Realization r} {v : Inventory r}

/-- An authored tree is that of an engine that agrees with what is found in it. -/
theorem Surveyed.exists_agrees_of_authored
    (hsurveyed : z.Surveyed v)
    (hsound : z.Sound v)
    {nodes : List d.Node}
    (h : d.Authored nodes) :
    ∃ e, v.Agrees e ∧ v.engine e = v.nodes nodes := by
  obtain ⟨program, hfinish⟩ := h
  have hkept := (hsurveyed.keeps_agrees hsound).runAll program {} fun _ => v.agrees_new
  generalize (Program.runAll d.authoring {} program).after.engine = e at hfinish hkept
  obtain ⟨hnone, hstack, rfl⟩ := Engine.finish_eq_ok_iff.mp hfinish
  refine ⟨e, hkept hnone, ?_⟩
  unfold Inventory.engine
  rw [hstack]
  exact List.append_nil _

/-- All aliases in an authored tree are plain. -/
theorem Surveyed.isPlain_of_authored
    (hsurveyed : z.Surveyed v)
    (hsound : z.Sound v)
    {nodes : List d.Node}
    (h : d.Authored nodes) :
    AllPlain (v.nodes nodes) := by
  obtain ⟨e, hagrees, hfound⟩ := hsurveyed.exists_agrees_of_authored hsound h
  intro f hf
  rw [← hfound] at hf
  cases f with
  | entered n => exact trivial
  | declared node a =>
      have hdeclared : a ∈ Finding.declarations (v.engine e) :=
        List.mem_filterMap.mpr ⟨_, hf, rfl⟩
      exact hagrees.plain a (hagrees.declared.mem_iff.mp hdeclared)
  | referred node expected a =>
      have hreferred : a ∈ Finding.references (v.engine e) :=
        List.mem_filterMap.mpr ⟨_, hf, rfl⟩
      exact hagrees.plain a (hagrees.known a hreferred)

/-- An authored tree is consistent, and so its check accepts it. -/
theorem Surveyed.check_of_authored
    (hsurveyed : z.Surveyed v)
    (hsound : z.Sound v)
    {nodes : List d.Node}
    (h : d.Authored nodes) :
    d.check nodes = .ok () := by
  obtain ⟨e, hagrees, hfound⟩ := hsurveyed.exists_agrees_of_authored hsound h
  refine hsurveyed.check ?_
  rw [← hfound]
  refine ⟨hagrees.shallow, hagrees.declared.nodup_iff.mpr hagrees.distinct, ?_⟩
  intro a ha
  exact hagrees.declared.mem_iff.mpr (hagrees.known a ha)

/-- What is true of the elements and of the open scopes of a dialect, however they come
about. -/
structure Upholds
    (z : Realization r)
    (Good : d.Node → Prop)
    (GoodScope : d.Scope → Prop) : Prop where
  call : ∀ {generated generated' call node},
    r.call generated call = some (.element node, generated') → Good node
  opening : ∀ {head scope}, z.Holds head [] scope → GoodScope scope
  grow : ∀ {item scope scope'},
    (∀ node, item = .element node → Good node) → GoodScope scope → z.Grows item scope scope' →
      GoodScope scope'
  adopt : ∀ {inner outer outer'},
    GoodScope inner → GoodScope outer → d.adopt outer inner = .ok outer' → GoodScope outer'
  toNode : ∀ {scope node}, GoodScope scope → d.toNode scope = .ok node → Good node

namespace Upholds

variable {Good : d.Node → Prop} {GoodScope : d.Scope → Prop} {e e' : Engine d.toGrammar}

/-- All elements at the root and all open scopes are good. -/
structure Everywhere
    (Good : d.Node → Prop)
    (GoodScope : d.Scope → Prop)
    (e : Engine d.toGrammar) : Prop where
  root : ∀ node ∈ e.root, Good node
  stack : ∀ frame ∈ e.stack, GoodScope frame.scope

theorem everywhere_of_takes
    (hupholds : z.Upholds Good GoodScope)
    {item : r.Item}
    (hitem : ∀ node, item = .element node → Good node)
    (htakes : z.Takes item e e')
    (h : Everywhere Good GoodScope e) :
    Everywhere Good GoodScope e' := by
  unfold Takes at htakes
  cases hstack : e.stack with
  | nil =>
      rw [hstack] at htakes
      obtain ⟨hstack', node, rfl, hroot'⟩ := htakes
      refine ⟨?_, by simp [hstack']⟩
      intro other hother
      rw [hroot'] at hother
      rcases List.mem_append.mp hother with hother | hother
      · exact h.root other hother
      · rw [List.mem_singleton.mp hother]
        exact hitem node rfl
  | cons frame outer =>
      rw [hstack] at htakes
      obtain ⟨hroot', scope, hgrows, hstack'⟩ := htakes
      have hframes := h.stack
      rw [hstack] at hframes
      obtain ⟨hframe, houter⟩ := List.forall_mem_cons.mp hframes
      refine ⟨hroot' ▸ h.root, ?_⟩
      rw [hstack']
      exact List.forall_mem_cons.mpr ⟨hupholds.grow hitem hframe hgrows, houter⟩

theorem everywhere_of_closed
    (hupholds : z.Upholds Good GoodScope)
    {token : Token}
    (hclosed : Closed token e e')
    (h : Everywhere Good GoodScope e) :
    Everywhere Good GoodScope e' := by
  obtain ⟨frame, outer, hstack, _, hends⟩ := hclosed.closed
  have hframes := h.stack
  rw [hstack] at hframes
  obtain ⟨hframe, houter⟩ := List.forall_mem_cons.mp hframes
  cases outer with
  | nil =>
      obtain ⟨node, hnode, hstack', hroot'⟩ := hends
      refine ⟨?_, by simp [hstack']⟩
      intro other hother
      rw [hroot'] at hother
      rcases List.mem_append.mp hother with hother | hother
      · exact h.root other hother
      · rw [List.mem_singleton.mp hother]
        exact hupholds.toNode hframe hnode
  | cons parent rest =>
      obtain ⟨scope, hadopt, hstack', hroot'⟩ := hends
      obtain ⟨hparent, hrest⟩ := List.forall_mem_cons.mp houter
      refine ⟨hroot' ▸ h.root, ?_⟩
      rw [hstack']
      exact List.forall_mem_cons.mpr ⟨hupholds.adopt hframe hparent hadopt, hrest⟩

/-- While no call has failed, everything is good, whatever a program does. -/
theorem keeps_everywhere
    (hupholds : z.Upholds Good GoodScope)
    (hsound : z.Sound v) :
    Program.Keeps d.authoring fun e => e.failedAt = none → Everywhere Good GoodScope e where
  perform leaf s h := by
    cases leaf with
    | error what => exact h
    | ok call =>
        change ((d.callBuild call).run s.engine).2.failedAt = none →
          Everywhere Good GoodScope ((d.callBuild call).run s.engine).2
        have hends := hsound.ends_callBuild (e := s.engine) call
        rcases hrun : (d.callBuild call).run s.engine with ⟨error | reply, after⟩
        · exact fun hnone => absurd hnone (hends.of_error hrun).1
        · intro _
          obtain ⟨hnone, ⟨item, hread, htakes, _⟩, _⟩ := hends.of_ok hrun
          refine hupholds.everywhere_of_takes ?_ htakes ⟨(h hnone).root, (h hnone).stack⟩
          rintro node rfl
          exact hupholds.call hread
  enter opening e h := by
    change ((Engine.enter (d.openingAction opening)).run e).2.failedAt = none →
      Everywhere Good GoodScope ((Engine.enter (d.openingAction opening)).run e).2
    have hends := hsound.ends_enter (e := e) opening
    rcases hrun : (Engine.enter (d.openingAction opening)).run e with ⟨error | opened, after⟩
    · exact fun hnone => absurd hnone (hends.of_error hrun).1
    · intro _
      obtain ⟨hnone, hentered⟩ := hends.of_ok hrun
      obtain ⟨scope, head, _, hstack, _, hholds, _⟩ := hentered.opened
      refine ⟨hentered.root ▸ (h hnone).root, ?_⟩
      rw [hstack]
      exact List.forall_mem_cons.mpr ⟨hupholds.opening hholds, (h hnone).stack⟩
  close token e h := by
    have hends := ends_close (e := e) token
    rcases hrun : (Engine.close token).run e with ⟨error | ⟨⟩, after⟩
    · exact fun hnone => absurd hnone (hends.of_error hrun)
    · intro _
      obtain ⟨hnone, hclosed⟩ := hends.of_ok hrun
      exact hupholds.everywhere_of_closed hclosed (h hnone)
  discard token e _ h := by
    cases h

/-- Every element of an authored tree is good. -/
theorem good_of_authored
    (hupholds : z.Upholds Good GoodScope)
    (hsound : z.Sound v)
    {nodes : List d.Node}
    (h : d.Authored nodes) :
    ∀ node ∈ nodes, Good node := by
  obtain ⟨program, hfinish⟩ := h
  have hkept := (hupholds.keeps_everywhere hsound).runAll program {}
    fun _ => ⟨by simp, by simp⟩
  obtain ⟨hnone, _, rfl⟩ := Engine.finish_eq_ok_iff.mp hfinish
  exact (hkept hnone).root

end Upholds

end Realization

/-- All aliases in an authored tree of any kind are plain. -/
theorem Kind.isPlain_of_authored
    (kind : Kind)
    {nodes : List kind.dialect.Node}
    (h : kind.dialect.Authored nodes) :
    AllPlain (kind.inventory.nodes nodes) :=
  kind.surveyed.isPlain_of_authored kind.sound h

/-- Every authored tree of any kind is accepted when it is written. -/
theorem Kind.check_of_authored
    (kind : Kind)
    {nodes : List kind.dialect.Node}
    (h : kind.dialect.Authored nodes) :
    kind.dialect.check nodes = .ok () :=
  kind.surveyed.check_of_authored kind.sound h

end UmlText
