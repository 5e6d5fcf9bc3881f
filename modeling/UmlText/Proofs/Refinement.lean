import UmlText.Proofs.Builds
import UmlText.Proofs.Kinds
import UmlText.Proofs.Runs

/-!
# Programs build what is read off them

When no call of a program fails, the engine ends with every scope closed and with the tree
that is read off the program.  The simulation follows the program: a call takes one item, a
list of calls takes the items of its calls one after the other, and a scope takes the items
of its body while it is open and is taken itself when it is closed.
-/

namespace UmlText

namespace Realization

variable {d : Dialect} {r : Reading d}

/-- The tree has taken several items, one after the other. -/
def TakesAll (z : Realization r) : List r.Item → Engine d.toGrammar → Engine d.toGrammar → Prop
  | [], e, e' => e.SameTree e'
  | item :: rest, e, e' => ∃ e₁, z.Takes item e e₁ ∧ z.TakesAll rest e₁ e'

/-- The calls have taken what is read off them, and were counted; no call has failed. -/
structure Carried
    {α : Type}
    (read : Nat → Option (α × Nat))
    (takes : α → Engine d.toGrammar → Engine d.toGrammar → Prop)
    (count : Nat)
    (e e' : Engine d.toGrammar) : Prop where
  taken : ∃ items, read e.registry.generated = some (items, e'.registry.generated) ∧
    takes items e e'
  calls : e'.calls = e.calls + count
  failedAt : e'.failedAt = none

section Simulation

variable {z : Realization r} {v : Inventory r} {e e' : Engine d.toGrammar}

/-- Outside every scope the items are elements, and go to the end of the root. -/
theorem TakesAll.of_root
    {items : List r.Item}
    (h : z.TakesAll items e e')
    (hstack : e.stack = []) :
    e'.stack = [] ∧ ∃ nodes, Item.elements? items = some nodes ∧ e'.root = e.root ++ nodes := by
  induction items generalizing e with
  | nil =>
      refine ⟨h.stack.trans hstack, [], rfl, ?_⟩
      rw [List.append_nil]
      exact h.root
  | cons item rest ih =>
      obtain ⟨e₁, htakes, hrest⟩ := h
      unfold Takes at htakes
      rw [hstack] at htakes
      obtain ⟨hstack₁, node, rfl, hroot₁⟩ := htakes
      obtain ⟨hstack', nodes, hnodes, hroot'⟩ := ih hrest hstack₁
      refine ⟨hstack', node :: nodes, ?_, ?_⟩
      · rw [Item.elements?, hnodes]
        rfl
      · rw [hroot', hroot₁, List.append_assoc]
        rfl

/-- Inside a scope the items go to the end of what the scope holds. -/
theorem TakesAll.of_frame
    (hfaithful : z.Faithful)
    {items before : List r.Item}
    {head : r.Head}
    {frame : Frame d.toGrammar}
    {outer : List (Frame d.toGrammar)}
    (h : z.TakesAll items e e')
    (hstack : e.stack = frame :: outer)
    (hholds : z.Holds head before frame.scope) :
    e'.root = e.root ∧ ∃ scope, z.Holds head (before ++ items) scope ∧
      e'.stack = { frame with scope } :: outer := by
  induction items generalizing e frame before with
  | nil =>
      refine ⟨h.root, frame.scope, ?_, h.stack.trans hstack⟩
      rw [List.append_nil]
      exact hholds
  | cons item rest ih =>
      obtain ⟨e₁, htakes, hrest⟩ := h
      unfold Takes at htakes
      rw [hstack] at htakes
      obtain ⟨hroot₁, scope₁, hgrows, hstack₁⟩ := htakes
      have hholds₁ := hfaithful.grow hholds hgrows
      obtain ⟨hroot', scope', hholds', hstack'⟩ := ih hrest hstack₁ hholds₁
      refine ⟨hroot'.trans hroot₁, scope', ?_, hstack'⟩
      rw [List.append_assoc] at hholds'
      exact hholds'

/-- A scope that is closed is taken as what is read off it. -/
theorem takes_of_closed
    (hfaithful : z.Faithful)
    {opening : d.Opening}
    {items : List r.Item}
    {token : Token}
    {e₁ e₂ : Engine d.toGrammar}
    (hentered : Entered z v opening token e e₁)
    (hbody : z.TakesAll items e₁ e₂)
    (hclosed : Closed token e₂ e') :
    ∃ head item, r.opening e.registry.generated opening = some (head, e₁.registry.generated) ∧
      r.construct head items = some item ∧ z.Takes item e e' := by
  obtain ⟨scope, head, _, hstack₁, hread, hholds, _⟩ := hentered.opened
  obtain ⟨hroot₂, scope₂, hholds₂, hstack₂⟩ := hbody.of_frame hfaithful hstack₁ hholds
  obtain ⟨frame, outer, hstack, _, houter⟩ := hclosed.closed
  rw [hstack₂] at hstack
  cases hstack
  have hroot : e₂.root = e.root := hroot₂.trans hentered.root
  cases hparent : e.stack with
  | nil =>
      rw [hparent] at houter
      obtain ⟨node, hnode, hstack', hroot'⟩ := houter
      refine ⟨head, .element node, hread, hfaithful.toNode hholds₂ hnode, ?_⟩
      unfold Takes
      rw [hparent]
      exact ⟨hstack', node, rfl, by rw [hroot', hroot]⟩
  | cons parent rest =>
      rw [hparent] at houter
      obtain ⟨scope', hadopt, hstack', hroot'⟩ := houter
      obtain ⟨item, hitem, hgrows⟩ := hfaithful.adopt hholds₂ hadopt
      refine ⟨head, item, hread, hitem, ?_⟩
      unfold Takes
      rw [hparent]
      exact ⟨hroot'.trans hroot, scope', hgrows, hstack'⟩

mutual

theorem run_carries
    (hsound : z.Sound v)
    (hfaithful : z.Faithful) :
    ∀ (p : Authoring d) (s : Session d.toGrammar),
      (Program.run d.authoring s p).flawless = true →
      Carried (fun generated => r.read generated p) z.Takes p.callCount
        s.engine (Program.run d.authoring s p).after.engine
  | .call (.error what) _, s, h => by
      cases h
  | .call (.ok call) caught, s, h => by
      have hends := hsound.ends_callBuild (e := s.engine) call
      have hrun : Program.run d.authoring s (.call (.ok call) caught) =
          ⟨((d.callBuild call).run s.engine).1,
            { s with engine := ((d.callBuild call).run s.engine).2 }, []⟩ := rfl
      obtain ⟨⟨reply, hreply⟩, _⟩ := Report.flawless_iff.mp h
      rw [hrun] at hreply ⊢
      obtain ⟨hnone, ⟨item, hread, htakes, _⟩, hcounts⟩ := hends.of_ok (Prod.ext hreply rfl)
      exact ⟨⟨item, hread, htakes⟩, hcounts.calls, hcounts.failedAt.trans hnone⟩
  | .scope opening caught body, s, h => by
      obtain ⟨token, reply, opened, closed, henter, hbody, hclose, hafter⟩ :=
        Program.of_flawless_scope h
      obtain ⟨hnone, hentered⟩ := (hsound.ends_enter opening).of_ok henter
      obtain ⟨⟨items, hitems, htakes⟩, hcalls, hnone₂⟩ :=
        runAll_carries hsound hfaithful body _ hentered.failedAt hbody
      obtain ⟨_, hclosed⟩ := (ends_close token).of_ok hclose
      obtain ⟨head, item, hhead, hitem, htaken⟩ :=
        takes_of_closed hfaithful hentered htakes hclosed
      rw [hafter]
      refine ⟨⟨item, ?_, htaken⟩, ?_, hclosed.failedAt⟩
      · simp only [Reading.read, hhead, hitems, hitem, hclosed.registry, Option.bind_eq_bind,
          Option.bind_some]
        rfl
      · rw [hclosed.calls, hcalls, hentered.calls, Program.callCount]
        omega

theorem runAll_carries
    (hsound : z.Sound v)
    (hfaithful : z.Faithful) :
    ∀ (ps : List (Authoring d)) (s : Session d.toGrammar),
      s.engine.failedAt = none →
      Report.allFlawless (Program.runAll d.authoring s ps).reports = true →
      Carried (fun generated => r.readAll generated ps) z.TakesAll (callCountOf ps)
        s.engine (Program.runAll d.authoring s ps).after.engine
  | [], s, hnone, _ => ⟨⟨[], rfl, rfl, rfl⟩, rfl, hnone⟩
  | p :: rest, s, hnone, h => by
      obtain ⟨hfirst, hrest⟩ := Program.allFlawless_runAll_cons.mp h
      obtain ⟨hok, _⟩ := Report.flawless_iff.mp hfirst
      obtain ⟨⟨item, hread, htakes⟩, hcalls, hnone₁⟩ :=
        run_carries hsound hfaithful p s hfirst
      obtain ⟨⟨items, hreads, htakesRest⟩, hcallsRest, hnone'⟩ :=
        runAll_carries hsound hfaithful rest _ hnone₁ hrest
      rw [Program.runAll_cons_of_goes_on rfl (.inl hok)]
      refine ⟨⟨item :: items, ?_, _, htakes, htakesRest⟩, ?_, hnone'⟩
      · simp only [Reading.readAll, hread, hreads, Option.bind_eq_bind, Option.bind_some]
        rfl
      · rw [hcallsRest, hcalls, callCountOf]
        omega

end

end Simulation

end Realization

namespace Kind

/-- A program in which no call fails ends with every scope closed and every call counted,
and the finished diagram is the tree that is read off the program. -/
theorem finish_eq_tree_of_allFlawless
    (kind : Kind)
    (program : List (Authoring kind.dialect))
    (name : Option String)
    (settings : Settings)
    (h : Report.allFlawless (Program.runAll kind.dialect.authoring {} program).reports = true) :
    let engine := (Program.runAll kind.dialect.authoring {} program).after.engine
    ∃ nodes, kind.reading.tree program = some nodes ∧ engine.root = nodes ∧ engine.depth = 0 ∧
      engine.calls = callCountOf program ∧
      ({ name, settings, engine } : Draft kind).finish.1 =
        .ok { kind, name, settings, nodes } := by
  intro engine
  obtain ⟨⟨items, hread, htakes⟩, hcalls, hnone⟩ :=
    Realization.runAll_carries kind.sound kind.faithful program {} rfl h
  obtain ⟨hstack, nodes, hnodes, hroot⟩ := htakes.of_root rfl
  have hfinish : Engine.finish.run engine =
      (.ok engine.root,
        engine.record (.finished kind.dialect.name engine.root.length engine.calls)) := by
    unfold Attempt.run Engine.finish
    rw [hnone, hstack]
  refine ⟨nodes, ?_, hroot, ?_, ?_, ?_⟩
  · unfold Reading.tree
    have hreads : kind.reading.readAll 0 program = some (items, engine.registry.generated) := hread
    rw [hreads]
    exact hnodes
  · unfold Engine.depth
    rw [hstack]
    rfl
  · rw [hcalls]
    exact Nat.zero_add _
  · unfold Draft.finish
    simp only [hfinish]
    rw [hroot]
    rfl

/-- A decision with two branches, the second of which holds a fork. -/
def nestedProgram : List (Authoring Kind.activity.dialect) :=
  [.scope (Activity.Opening.decision { condition := "ready" }) false
    [.call (.ok (Activity.Call.action { text := "go" })) false,
     .call (.ok (Activity.Call.otherwise none)) false,
     .scope Activity.Opening.fork false
       [.scope Activity.Opening.branch false
         [.call (.ok (Activity.Call.point .stop)) false],
        .call (.ok Activity.Call.endMerge) false]]]

theorem finish_eq_tree_of_nestedProgram :
    Report.allFlawless
        (Program.runAll Kind.activity.dialect.authoring {} nestedProgram).reports = true ∧
      let engine := (Program.runAll Kind.activity.dialect.authoring {} nestedProgram).after.engine
      ∃ nodes, Kind.activity.reading.tree nestedProgram = some nodes ∧ engine.root = nodes ∧
        engine.depth = 0 ∧ engine.calls = callCountOf nestedProgram ∧
        ({ name := none, settings := {}, engine } : Draft .activity).finish.1 =
          .ok { kind := .activity, name := none, settings := {}, nodes } :=
  ⟨by decide +kernel,
    finish_eq_tree_of_allFlawless .activity nestedProgram none {} (by decide +kernel)⟩

end Kind

end UmlText
