import UmlText.Proofs.Builds
import UmlText.Proofs.Runs
import UmlText.Proofs.Surveys

/-!
# Finished diagrams can be written

The engine keeps a registry of aliases and bounds the number of open scopes; the check of a
finished tree collects the aliases anew and counts constructs on its own.  The invariant
that ties the two together is about everything found in the elements at the root and in the
open scopes: its declarations are the registry's aliases, its references are among them, and
no list in it lies deeper than as many scopes as may be open.
-/

namespace UmlText

namespace Inventory

variable {d : Dialect} {r : Reading d}

/-- How deep the children of the innermost scope lie. -/
def depth (v : Inventory r) : List (Frame d.toGrammar) → Nat
  | [] => 0
  | frame :: outer => v.depth outer + v.level frame.scope

/-- What is found in the open scopes. -/
def frames (v : Inventory r) : List (Frame d.toGrammar) → List Finding
  | [] => []
  | frame :: outer => v.frames outer ++ v.scope (v.depth outer) frame.scope

/-- What is found in the elements at the root and in the open scopes. -/
def engine (v : Inventory r) (e : Engine d.toGrammar) : List Finding :=
  v.nodes e.root ++ v.frames e.stack

theorem nodes_concat (v : Inventory r) (nodes : List d.Node) (node : d.Node) :
    v.nodes (nodes ++ [node]) = v.nodes nodes ++ v.item 0 (.element node) := by
  simp [Inventory.nodes]

/-- The registry and the depth of the open scopes agree with what is found in the tree. -/
structure Agrees (v : Inventory r) (e : Engine d.toGrammar) : Prop where
  stack : e.stack.length ≤ maxDepth
  shallow : ∀ n, .entered n ∈ v.engine e → n ≤ maxDepth
  declared : (Finding.declarations (v.engine e)).Perm e.registry.aliases
  plain : ∀ a ∈ e.registry.aliases, a.IsPlain
  distinct : e.registry.aliases.Nodup
  known : ∀ a ∈ Finding.references (v.engine e), a ∈ e.registry.aliases

/-- An empty engine agrees with its empty tree. -/
theorem agrees_new (v : Inventory r) : v.Agrees {} := by
  refine ⟨Nat.zero_le _, ?_, List.Perm.refl _, ?_, List.nodup_nil, ?_⟩
  · intro n hn
    cases hn
  · intro a ha
    cases ha
  · intro a ha
    cases ha

theorem Agrees.counted
    {v : Inventory r}
    {e : Engine d.toGrammar}
    (h : v.Agrees e) :
    v.Agrees e.counted :=
  ⟨h.stack, h.shallow, h.declared, h.plain, h.distinct, h.known⟩

/-- A call that adds findings to the tree and writes them into the books keeps the
agreement. -/
theorem Agrees.extend
    {v : Inventory r}
    {e e' : Engine d.toGrammar}
    {kind : String}
    {depth : Nat}
    {findings : List Finding}
    (h : v.Agrees e)
    (hfound : (v.engine e').Perm (v.engine e ++ findings))
    (hbooks : Books kind depth findings e e')
    (hdepth : depth ≤ maxDepth)
    (hstack : e'.stack.length ≤ maxDepth) :
    v.Agrees e' := by
  refine ⟨hstack, ?_, ?_, ?_, ?_, ?_⟩
  · intro n hn
    rcases List.mem_append.mp (hfound.mem_iff.mp hn) with hn | hn
    · exact h.shallow n hn
    · exact Nat.le_trans (hbooks.shallow n hn) hdepth
  · have hdeclared := hfound.filterMap Finding.declaration?
    rw [List.filterMap_append] at hdeclared
    rw [hbooks.aliases]
    exact hdeclared.trans ((h.declared.append_right _).trans List.perm_append_comm)
  · rw [hbooks.aliases]
    intro a ha
    rcases List.mem_append.mp ha with ha | ha
    · exact hbooks.plain a ha
    · exact h.plain a ha
  · rw [hbooks.aliases, List.nodup_append]
    refine ⟨hbooks.distinct, h.distinct, ?_⟩
    rintro a ha b hb rfl
    exact hbooks.fresh a ha hb
  · intro a ha
    have hmem := (hfound.filterMap Finding.reference?).mem_iff.mp ha
    rw [List.filterMap_append] at hmem
    rcases List.mem_append.mp hmem with hmem | hmem
    · rw [hbooks.aliases]
      exact List.mem_append_right _ (h.known a hmem)
    · exact hbooks.known a hmem

end Inventory

namespace Realization.Surveyed

variable {d : Dialect} {r : Reading d} {z : Realization r} {v : Inventory r}
variable {e e' : Engine d.toGrammar}

theorem depth_le (hsurveyed : z.Surveyed v) (stack : List (Frame d.toGrammar)) :
    v.depth stack ≤ stack.length := by
  induction stack with
  | nil => exact Nat.le_refl 0
  | cons frame outer ih =>
      have hlevel := hsurveyed.level_le frame.scope
      rw [Inventory.depth, List.length_cons]
      omega

/-- What is found in the tree grows by what is found in the item that is taken. -/
theorem engine_of_takes
    (hsurveyed : z.Surveyed v)
    {item : r.Item}
    (h : z.Takes item e e') :
    (v.engine e').Perm (v.engine e ++ v.item (v.depth e.stack) item) ∧
      e'.stack.length = e.stack.length := by
  unfold Takes at h
  unfold Inventory.engine
  cases hstack : e.stack with
  | nil =>
      rw [hstack] at h
      obtain ⟨hstack', node, rfl, hroot'⟩ := h
      rw [hstack', hroot', v.nodes_concat]
      simp [Inventory.frames, Inventory.depth]
  | cons frame outer =>
      rw [hstack] at h
      obtain ⟨hroot', scope, hgrows, hstack'⟩ := h
      rw [hstack', hroot']
      refine ⟨?_, rfl⟩
      have hscope := hsurveyed.grow hgrows (v.depth outer)
      rw [Inventory.frames, Inventory.frames, Inventory.depth, List.append_assoc,
        List.append_assoc]
      exact (hscope.append_left _).append_left _

/-- What is found in the tree when a scope is opened is what is found in the scope besides.
-/
theorem engine_of_entered
    {token : Token}
    {opening : d.Opening}
    (h : Entered z v opening token e e') :
    ∃ scope, (v.engine e').Perm (v.engine e ++ v.scope (v.depth e.stack) scope) ∧
      Books v.kind (v.depth e.stack + 1) (v.scope (v.depth e.stack) scope) e e' ∧
      e'.stack.length = e.stack.length + 1 := by
  obtain ⟨scope, head, _, hstack, _, _, hbooked⟩ := h.opened
  refine ⟨scope, ?_, hbooked _, ?_⟩
  · unfold Inventory.engine
    rw [hstack, h.root, Inventory.frames, List.append_assoc]
  · rw [hstack, List.length_cons]

/-- Closing a scope changes nothing in what is found. -/
theorem engine_of_closed
    (hsurveyed : z.Surveyed v)
    {token : Token}
    (h : Closed token e e') :
    (v.engine e').Perm (v.engine e) ∧ e'.stack.length ≤ e.stack.length := by
  obtain ⟨frame, outer, hstack, _, hclosed⟩ := h.closed
  unfold Inventory.engine
  rw [hstack]
  cases outer with
  | nil =>
      obtain ⟨node, hnode, hstack', hroot'⟩ := hclosed
      rw [hstack', hroot', v.nodes_concat, hsurveyed.toNode hnode]
      simp [Inventory.frames, Inventory.depth]
  | cons parent rest =>
      obtain ⟨scope, hadopt, hstack', hroot'⟩ := hclosed
      obtain ⟨item, hgrows, hitem⟩ := hsurveyed.adopt hadopt
      rw [hstack', hroot']
      refine ⟨?_, by simp⟩
      have hscope := hsurveyed.grow hgrows (v.depth rest)
      rw [hitem] at hscope
      rw [Inventory.frames, Inventory.frames, Inventory.frames, Inventory.depth, List.append_assoc]
      exact (hscope.append_left _).append_left _

/-- While no call has failed, the registry agrees with the tree, whatever a program does. -/
theorem keeps_agrees
    (hsurveyed : z.Surveyed v)
    (hsound : z.Sound v) :
    Program.Keeps d.authoring fun e => e.failedAt = none → v.Agrees e where
  perform leaf s h := by
    cases leaf with
    | error what => exact h
    | ok call =>
        change ((d.callBuild call).run s.engine).2.failedAt = none →
          v.Agrees ((d.callBuild call).run s.engine).2
        have hends := hsound.ends_callBuild (e := s.engine) call
        rcases hrun : (d.callBuild call).run s.engine with ⟨error | reply, after⟩
        · exact fun hnone => absurd hnone (hends.of_error hrun).1
        · intro _
          obtain ⟨hnone, ⟨item, _, htakes, hbooks⟩, _⟩ := hends.of_ok hrun
          have hagrees : v.Agrees s.engine.counted := (h hnone).counted
          obtain ⟨hfound, hlength⟩ := hsurveyed.engine_of_takes htakes
          have hdepth := hsurveyed.depth_le s.engine.stack
          exact hagrees.extend hfound (hbooks _) (Nat.le_trans hdepth hagrees.stack)
            (hlength.symm ▸ hagrees.stack)
  enter opening e h := by
    change ((Engine.enter (d.openingAction opening)).run e).2.failedAt = none →
      v.Agrees ((Engine.enter (d.openingAction opening)).run e).2
    have hends := hsound.ends_enter (e := e) opening
    rcases hrun : (Engine.enter (d.openingAction opening)).run e with ⟨error | opened, after⟩
    · exact fun hnone => absurd hnone (hends.of_error hrun).1
    · intro _
      obtain ⟨hnone, hentered⟩ := hends.of_ok hrun
      obtain ⟨scope, hfound, hbooks, hlength⟩ := engine_of_entered hentered
      have hdepth := hsurveyed.depth_le e.stack
      have hshallow := hentered.shallow
      have hstack : after.stack.length ≤ maxDepth := by omega
      exact (h hnone).extend hfound hbooks (by omega) hstack
  close token e h := by
    have hends := ends_close (e := e) token
    rcases hrun : (Engine.close token).run e with ⟨error | ⟨⟩, after⟩
    · exact fun hnone => absurd hnone (hends.of_error hrun)
    · intro _
      obtain ⟨hnone, hclosed⟩ := hends.of_ok hrun
      have hagrees := h hnone
      obtain ⟨hfound, hlength⟩ := hsurveyed.engine_of_closed hclosed
      have hbooks : Books v.kind 0 [] e after := .of_nothing hclosed.registry (.inl rfl)
      refine hagrees.extend ?_ hbooks (Nat.zero_le _) (Nat.le_trans hlength hagrees.stack)
      rw [List.append_nil]
      exact hfound
  discard token e _ h := by
    cases h

end Realization.Surveyed

namespace Kind

/-- Whatever a program has made of a draft, and whichever failures it has caught: when the
draft is finished as a diagram, the diagram can be written with any options. -/
theorem render_of_finish
    (kind : Kind)
    (program : List (Authoring kind.dialect))
    (name : Option String)
    (settings : Settings)
    (diagram : Diagram)
    (o : Options)
    (h : ({ name, settings,
            engine := (Program.runAll kind.dialect.authoring {} program).after.engine } :
          Draft kind).finish.1 = .ok diagram) :
    ∃ text, diagram.render o = .ok text := by
  have hkeeps := kind.surveyed.keeps_agrees kind.sound
  have hagrees := hkeeps.runAll program {} fun _ => kind.inventory.agrees_new
  generalize (Program.runAll kind.dialect.authoring {} program).after.engine = e at h hagrees
  -- a draft is finished only without a failure and with every scope closed
  have hfinished : e.failedAt = none ∧ e.stack = [] ∧
      diagram = { kind, name, settings, nodes := e.root } := by
    unfold Draft.finish Attempt.run Engine.finish at h
    cases hfailed : e.failedAt with
    | some call => simp [hfailed, Except.map] at h
    | none =>
        cases hstack : e.stack with
        | cons frame outer => simp [hfailed, hstack, Except.map] at h
        | nil =>
            simp [hfailed, hstack, Except.map] at h
            exact ⟨rfl, rfl, h.symm⟩
  obtain ⟨hnone, hstack, rfl⟩ := hfinished
  have hagreed := hagrees hnone
  have hfound : kind.inventory.engine e = kind.inventory.nodes e.root := by
    unfold Inventory.engine
    rw [hstack]
    exact List.append_nil _
  have hconsistent : Finding.Consistent (kind.inventory.nodes e.root) := by
    rw [← hfound]
    refine ⟨hagreed.shallow, hagreed.declared.nodup_iff.mpr hagreed.distinct, ?_⟩
    intro a ha
    exact hagreed.declared.mem_iff.mpr (hagreed.known a ha)
  have hcheck := kind.surveyed.check hconsistent
  refine ⟨layout o (Diagram.wrapped { kind, name, settings, nodes := e.root } o), ?_⟩
  rw [Diagram.render, hcheck]
  rfl

/-- A composite state with two regions and a transition between them; a text that was
refused has been ignored on the way. -/
def twoRegions : List (Authoring Kind.state.dialect) :=
  [.scope ({ name := "core" } : StateChart.StateCall) false
    [.call (.ok (StateChart.Call.state { name := "idle" })) false,
     .call (.error (.empty "state name")) true,
     .call (.ok (StateChart.Call.region .vertical)) false,
     .call (.ok (StateChart.Call.state { name := "the rest" })) false,
     .call (.ok (StateChart.Call.transition
      { source := .state "idle", target := .state "__s1" })) false]]

/-- The draft that the program leaves behind. -/
def twoRegionsDraft : Draft .state where
  engine := (Program.runAll Kind.state.dialect.authoring {} twoRegions).after.engine

theorem render_of_finish_of_twoRegions :
    ∃ diagram, twoRegionsDraft.finish.1 = .ok diagram ∧
      ∃ text, diagram.render {} = .ok text := by
  have hok : twoRegionsDraft.finish.1.isOk = true := by
    decide +kernel
  cases hfinish : twoRegionsDraft.finish.1 with
  | error what =>
      rw [hfinish] at hok
      cases hok
  | ok diagram =>
      exact ⟨diagram, rfl, render_of_finish .state twoRegions none {} diagram {} hfinish⟩

end Kind

end UmlText
