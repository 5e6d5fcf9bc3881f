import UmlText.Proofs.Activity.Gathering
import UmlText.Proofs.Activity.Steps
import UmlText.Proofs.Authored
import UmlText.Proofs.Lineages

/-!
# Rules across an activity diagram

Some elements of an activity diagram are in order only beside others.  A `break` lies in a
loop; a jump goes to a label that was placed before, under a name that no other label has; a
lane has its color and its label where it is first used.

Calls check these rules against the open scopes, the registry and the known lanes, and none
of these is part of the finished tree.  But the labels, jumps and lanes come into the tree
in the order of their calls and keep this order when constructs are closed, so the registry
and the lanes always are those of the tree so far.  And a `break` inside an open loop lies
inside the element that the loop becomes.
-/

namespace UmlText.Activity

open UmlText.Action

namespace Node

/-- The elements that a `break` leaves. -/
def isLoop : Node → Bool
  | .whileLoop .. | .repeatLoop .. => true
  | _ => false

/-- The elements that are in order only behind certain others. -/
def isSign : Node → Bool
  | .label _ | .goto _ | .swimlane _ => true
  | _ => false

/-- The label that an element places. -/
def label? : Node → Option Alias
  | .label target => some target
  | _ => none

/-- The name of the lane that an element switches to. -/
def lane? : Node → Option String
  | .swimlane lane => some lane.name
  | _ => none

/-- The element is in order behind these: a label is new, a jump goes to one of the labels,
and a lane that is among the lanes has no color and no label. -/
def Heeds (before : List Node) : Node → Prop
  | .label target => .label target ∉ before
  | .goto target => .label target ∈ before
  | .swimlane lane =>
      (∃ first, .swimlane first ∈ before ∧ first.name = lane.name) →
        lane.color = none ∧ lane.label = none
  | _ => True

/-- Elements that are no labels, jumps or lanes do not count for what comes behind them. -/
theorem heeds_filter_iff {before : List Node} {node : Node} :
    node.Heeds (before.filter isSign) ↔ node.Heeds before := by
  cases node <;> simp [Heeds, isSign]

end Node

/-- The labels, jumps and lanes of a tree in the order of the document. -/
def signs (nodes : List Node) : List Node :=
  (anatomy.preorder nodes).filter Node.isSign

/-- Every `break` of a tree lies inside a loop of the tree. -/
def Sheltered (nodes : List Node) : Prop :=
  ∀ found ∈ anatomy.lineages nodes, found.2 = .point .leaveLoop →
    ∃ outer ∈ found.1, outer.isLoop = true

section Trees

variable {node : Node} {nodes first second : List Node} {scope : Scope}

theorem signs_append : signs (first ++ second) = signs first ++ signs second := by
  unfold signs
  rw [Anatomy.preorder_append, List.filter_append]

/-- An element without children is a sign itself or brings no sign along. -/
theorem signs_of_bodies_eq_nil (h : node.bodies = []) :
    signs [node] = [node].filter Node.isSign := by
  have hpreorder : anatomy.preorder [node] = [node] := by
    rw [Anatomy.preorder_singleton]
    change node :: anatomy.preorder node.bodies.flatten = [node]
    rw [h]
    rfl
  rw [signs, hpreorder]

/-- When a construct is closed, the signs inside it stay as they are. -/
theorem signs_of_toNode (h : scope.toNode = .ok node) :
    signs [node] = signs scope.held.flatten := by
  have hsign : node.isSign = false := by cases scope <;> cases h <;> rfl
  rw [← Scope.bodies_of_toNode h, signs, Anatomy.preorder_singleton, List.filter_cons, hsign]
  rfl

theorem sheltered_append : Sheltered (first ++ second) ↔ Sheltered first ∧ Sheltered second := by
  unfold Sheltered
  rw [Anatomy.lineages_append]
  simp only [List.mem_append, or_imp, forall_and]

theorem sheltered_nil : Sheltered [] :=
  fun _ h => nomatch h

/-- A loop shelters what is inside it, and a `break` is sheltered by what is around it
alone. -/
theorem sheltered_singleton
    (hnode : node ≠ .point .leaveLoop)
    (hinside : node.isLoop = true ∨ Sheltered node.bodies.flatten) :
    Sheltered [node] := by
  intro found hfound hbreak
  rw [Anatomy.lineages_singleton] at hfound
  rcases List.mem_cons.mp hfound with rfl | hfound
  · exact absurd hbreak hnode
  · obtain ⟨inner, hinner, rfl⟩ := List.mem_map.mp hfound
    rcases hinside with hloop | hsheltered
    · exact ⟨node, List.mem_append_right _ (List.mem_singleton_self node), hloop⟩
    · obtain ⟨outer, houter, hloop⟩ := hsheltered inner hinner hbreak
      exact ⟨outer, List.mem_append_left _ houter, hloop⟩

end Trees

section Lanes

/-- One more lane comes to the end of the distinct ones, unless it is one of them. -/
theorem eraseDups_append_toList (names : List String) (lane? : Option String) :
    (names ++ lane?.toList).eraseDups = withLane names.eraseDups lane? := by
  cases lane? with
  | none => simp [withLane]
  | some name =>
      rw [List.eraseDups_append, withLane]
      have hsingle : [name].eraseDups = [name] := rfl
      by_cases hmem : name ∈ names
      · simp [List.removeAll, hmem]
      · simp [List.removeAll, hmem, hsingle]

theorem nodup_withLane
    {lanes : Lanes}
    {lane? : Option String}
    (h : lanes.Nodup) :
    (withLane lanes lane?).Nodup := by
  cases lane? with
  | none => exact h
  | some name =>
      rw [withLane]
      split
      · exact h
      · next hnew =>
          refine List.nodup_append.mpr ⟨h, List.pairwise_singleton _ name, ?_⟩
          rintro used hused _ hname rfl
          exact hnew (List.mem_singleton.mp hname ▸ hused)

end Lanes

section Signs

variable {c : Call} {e e' : Engine grammar} {placed : List Node}

/-- The registry and the known lanes are those of these labels, jumps and lanes, and every
one of these is in order behind those before it. -/
structure Kept (placed : List Node) (e : Engine grammar) : Prop where
  labels : placed.filterMap Node.label? = e.registry.aliases.reverse
  lanes : e.context = (placed.filterMap Node.lane?).eraseDups
  once : e.context.Nodup
  heeded : ∀ before node after, placed = before ++ node :: after → node.Heeds before

theorem kept_new : Kept [] ({} : Engine grammar) :=
  ⟨rfl, rfl, List.nodup_nil, by simp⟩

theorem Kept.of_same
    (h : Kept placed e)
    (hregistry : e'.registry.aliases = e.registry.aliases)
    (hcontext : e'.context = e.context) :
    Kept placed e' :=
  ⟨by rw [hregistry]; exact h.labels, hcontext.trans h.lanes, hcontext ▸ h.once, h.heeded⟩

theorem Kept.mem_labels_iff
    (h : Kept placed e)
    {target : Alias} :
    .label target ∈ placed ↔ target ∈ e.registry.aliases := by
  have hlabels : target ∈ e.registry.aliases ↔ target ∈ placed.filterMap Node.label? := by
    rw [h.labels, List.mem_reverse]
  rw [hlabels, List.mem_filterMap]
  constructor
  · intro hmem
    exact ⟨_, hmem, rfl⟩
  · rintro ⟨node, hmem, hlabel⟩
    cases node <;> cases hlabel
    exact hmem

theorem Kept.mem_lanes_iff
    (h : Kept placed e)
    {name : String} :
    name ∈ e.context ↔ ∃ lane, .swimlane lane ∈ placed ∧ lane.name = name := by
  rw [h.lanes, List.mem_eraseDups, List.mem_filterMap]
  constructor
  · rintro ⟨node, hmem, hlane⟩
    cases node <;> cases hlane
    exact ⟨_, hmem, rfl⟩
  · rintro ⟨lane, hmem, rfl⟩
    exact ⟨_, hmem, rfl⟩

/-- A sign that heeds those before it is one more of them. -/
theorem Kept.snoc
    {node : Node}
    (h : Kept placed e)
    (hlabels : e'.registry.aliases = node.label?.toList ++ e.registry.aliases)
    (hlanes : e'.context = withLane e.context node.lane?)
    (hheeds : node.Heeds placed) :
    Kept (placed ++ [node]) e' := by
  have hlabel : [node].filterMap Node.label? = node.label?.toList := by
    cases hnode : node.label? <;> simp [hnode]
  have hlane : [node].filterMap Node.lane? = node.lane?.toList := by
    cases hnode : node.lane? <;> simp [hnode]
  refine ⟨?_, ?_, hlanes ▸ nodup_withLane h.once, fun before last after hsplit => ?_⟩
  · rw [hlabels, List.filterMap_append, h.labels, hlabel, List.reverse_append]
    cases node.label? <;> rfl
  · rw [hlanes, List.filterMap_append, hlane, eraseDups_append_toList, ← h.lanes]
  · rcases List.eq_nil_or_concat after with rfl | ⟨after, final, rfl⟩
    · obtain ⟨rfl, hlast⟩ := List.append_inj' hsplit rfl
      cases hlast
      exact hheeds
    · have hplaced : placed ++ [node] = (before ++ last :: after) ++ [final] := by
        rw [hsplit]
        simp
      exact h.heeded before last after (List.append_inj' hplaced rfl).1

/-- No call brings along more than one element, and nothing is inside that. -/
theorem signs_brought
    {item : Item Node Clause}
    (h : c.item = some item) :
    signs (brought item) = (brought item).filter Node.isSign := by
  have hnil : signs [] = [] := rfl
  cases c with
  | label name | goto name =>
      obtain ⟨target, _, rfl⟩ := Option.map_eq_some_iff.mp h
      exact signs_of_bodies_eq_nil rfl
  | elseif _ | otherwise _ | case _ | backward _ | endMerge | endJoin _ =>
      cases h
      exact hnil
  | _ =>
      cases h
      exact signs_of_bodies_eq_nil rfl

/-- A call brings at most one sign along, and the sign is in order. -/
theorem Kept.performed
    (h : Kept placed e)
    (hperformed : realization.Performed inventory c e e')
    (hobeyed : Obeyed c e e') :
    ∃ item, c.item = some item ∧ realization.Takes item e e' ∧
      Kept (placed ++ signs (brought item)) e' := by
  obtain ⟨⟨item, hread, htakes, hbooks⟩, _⟩ := hperformed
  obtain ⟨item', hitem, hpair⟩ := Option.map_eq_some_iff.mp hread
  obtain rfl : item' = item := congrArg Prod.fst hpair
  refine ⟨item', hitem, htakes, ?_⟩
  rw [signs_brought hitem]
  have haliases := (hbooks 0).aliases
  have hfresh := (hbooks 0).fresh
  have hknown := (hbooks 0).known
  have hlanes := hobeyed.lanes
  cases c with
  | label name =>
      obtain ⟨target, _, rfl⟩ := Option.map_eq_some_iff.mp hitem
      exact h.snoc haliases hlanes fun hmem =>
        hfresh target (List.mem_singleton_self target) (h.mem_labels_iff.mp hmem)
  | goto name =>
      obtain ⟨target, _, rfl⟩ := Option.map_eq_some_iff.mp hitem
      have htarget := hknown target (List.mem_singleton_self target)
      rw [haliases] at htarget
      exact h.snoc haliases hlanes (h.mem_labels_iff.mpr htarget)
  | swimlane lane =>
      cases hitem
      exact h.snoc haliases hlanes fun hfirst =>
        hobeyed.options lane rfl (h.mem_lanes_iff.mpr hfirst)
  | _ =>
      cases hitem
      have hkept : Kept (placed ++ []) e' := by
        rw [List.append_nil]
        exact h.of_same haliases hlanes
      exact hkept

end Signs

section Loops

variable {e e' : Engine grammar}

theorem Scope.isLoop_eq (scope : Scope) :
    scope.isLoop = decide (scope.kind = "while" ∨ scope.kind = "repeat") := by
  cases scope <;> rfl

theorem isLoop_of_grows
    {item : Item Node Clause}
    {scope scope' : Scope}
    (h : realization.Grows item scope scope') :
    scope'.isLoop = scope.isLoop := by
  rw [Scope.isLoop_eq, Scope.isLoop_eq, kind_of_grows h]

theorem isLoop_of_isBranch
    {scope : Scope}
    (h : scope.isBranch = true) :
    scope.isLoop = false := by
  cases scope <;> cases h
  rfl

theorem isLoop_of_toNode
    {scope : Scope}
    {node : Node}
    (h : scope.toNode = .ok node) :
    node.isLoop = scope.isLoop := by
  cases scope <;> cases h <;> rfl

/-- One of the open constructs is a loop. -/
def InLoop (stack : List (Frame grammar)) : Prop :=
  ∃ frame ∈ stack, frame.scope.isLoop = true

/-- Where no loop is around, every `break` of an open construct lies inside a loop that is
closed already. -/
def Covered : List (Frame grammar) → Prop
  | [] => True
  | frame :: outer =>
      (InLoop (frame :: outer) ∨ Sheltered frame.scope.held.flatten) ∧ Covered outer

/-- Every `break` lies inside a loop, an open one or a closed one. -/
structure BreaksInLoops (e : Engine grammar) : Prop where
  root : Sheltered e.root
  stack : Covered e.stack

theorem inLoop_cons_iff
    {frame : Frame grammar}
    {outer : List (Frame grammar)} :
    InLoop (frame :: outer) ↔ frame.scope.isLoop = true ∨ InLoop outer := by
  simp [InLoop]

theorem not_inLoop_nil : ¬InLoop [] := by
  simp [InLoop]

/-- What the innermost construct takes may hold a `break` outside of loops only when there
is an open loop. -/
theorem Covered.grow
    {item : Item Node Clause}
    {frame : Frame grammar}
    {outer : List (Frame grammar)}
    {scope : Scope}
    (h : Covered (frame :: outer))
    (hgrows : realization.Grows item frame.scope scope)
    (hbrought : InLoop (frame :: outer) ∨ Sheltered (brought item)) :
    Covered ({ frame with scope } :: outer) := by
  obtain ⟨hframe, houter⟩ := h
  have hloop : InLoop ({ frame with scope } :: outer) ↔ InLoop (frame :: outer) := by
    rw [inLoop_cons_iff, inLoop_cons_iff, isLoop_of_grows hgrows]
  refine ⟨?_, houter⟩
  rw [hloop, Scope.flatten_held_of_grows hgrows, sheltered_append]
  rcases hframe with hin | hframe
  · exact .inl hin
  · rcases hbrought with hin | hbrought
    · exact .inl hin
    · exact .inr ⟨hframe, hbrought⟩

namespace BreaksInLoops

theorem of_takes
    {item : Item Node Clause}
    (h : BreaksInLoops e)
    (htakes : realization.Takes item e e')
    (hbrought : InLoop e.stack ∨ Sheltered (brought item)) :
    BreaksInLoops e' := by
  unfold Realization.Takes at htakes
  have hcovered := h.stack
  generalize e.stack = stack at htakes hbrought hcovered
  cases stack with
  | nil =>
      obtain ⟨hstack', node, rfl, hroot'⟩ := htakes
      refine ⟨?_, by rw [hstack']; trivial⟩
      rw [hroot', sheltered_append]
      exact ⟨h.root, hbrought.resolve_left not_inLoop_nil⟩
  | cons frame outer =>
      obtain ⟨hroot', scope, hgrows, hstack'⟩ := htakes
      refine ⟨hroot' ▸ h.root, ?_⟩
      rw [hstack']
      exact hcovered.grow hgrows hbrought

/-- A closed loop shelters what it holds, and any other construct holds only what is
sheltered or lies in a loop that is still open. -/
theorem of_closed
    {token : Token}
    (h : BreaksInLoops e)
    (hclosed : Closed (d := dialect) token e e') :
    BreaksInLoops e' := by
  obtain ⟨frame, outer, hstack, _, hends⟩ := hclosed.closed
  have hcovered := h.stack
  rw [hstack] at hcovered
  obtain ⟨hframe, houter⟩ := hcovered
  have hnode : ∀ node, frame.scope.toNode = .ok node → InLoop outer ∨ Sheltered [node] := by
    intro node hnode
    have hbreak : node ≠ .point .leaveLoop := by
      rintro rfl
      generalize frame.scope = scope at hnode
      cases scope <;> cases hnode
    rw [inLoop_cons_iff, or_assoc] at hframe
    rcases hframe with hloop | hin | hsheltered
    · exact .inr (sheltered_singleton hbreak (.inl ((isLoop_of_toNode hnode).trans hloop)))
    · exact .inl hin
    · refine .inr (sheltered_singleton hbreak (.inr ?_))
      rw [Scope.bodies_of_toNode hnode]
      exact hsheltered
  cases outer with
  | nil =>
      obtain ⟨node, htoNode, hstack', hroot'⟩ := hends
      refine ⟨?_, by rw [hstack']; trivial⟩
      rw [hroot', sheltered_append]
      exact ⟨h.root, (hnode node htoNode).resolve_left not_inLoop_nil⟩
  | cons parent rest =>
      obtain ⟨scope, hadopt, hstack', hroot'⟩ := hends
      obtain ⟨item, hgrows, hitem⟩ := Scope.adopt_grows hadopt
      refine ⟨hroot' ▸ h.root, ?_⟩
      rw [hstack']
      refine houter.grow hgrows ?_
      rcases hitem with ⟨hbranch, rfl⟩ | ⟨node, rfl, htoNode⟩
      · rw [inLoop_cons_iff, isLoop_of_isBranch hbranch, or_assoc] at hframe
        exact hframe.resolve_left Bool.false_ne_true
      · exact hnode node htoNode

end BreaksInLoops

end Loops

section Runs

/-- The open constructs, the registry and the known lanes are in accord with the tree so
far. -/
structure InOrder (e : Engine grammar) : Prop where
  kept : Kept (signs (childrenSoFar e)) e
  breaks : BreaksInLoops e

theorem inOrder_new : InOrder {} :=
  ⟨kept_new, sheltered_nil, trivial⟩

/-- Closing a construct leaves the order of the labels, jumps and lanes as it is. -/
theorem signs_of_closed
    {token : Token}
    {e' : Engine grammar}
    (h : Closed (d := dialect) token e e') :
    signs (childrenSoFar e') = signs (childrenSoFar e) := by
  obtain ⟨frame, outer, earlier, _, hbefore, hafter⟩ := childrenSoFar_of_closed h
  rcases hafter with hafter | ⟨node, hnode, hafter⟩
  · rw [hafter]
  · rw [hbefore, hafter, signs_append, signs_append, signs_of_toNode hnode]

/-- An element that a call brings along is a `break` itself or has none inside. -/
theorem sheltered_brought
    {c : Call}
    {item : Item Node Clause}
    (h : c.item = some item)
    (hbreak : c ≠ .point .leaveLoop) :
    Sheltered (brought item) := by
  cases c with
  | point p =>
      cases h
      refine sheltered_singleton ?_ (.inr sheltered_nil)
      rintro ⟨⟩
      exact hbreak rfl
  | label name | goto name =>
      obtain ⟨target, _, rfl⟩ := Option.map_eq_some_iff.mp h
      exact sheltered_singleton nofun (.inr sheltered_nil)
  | elseif _ | otherwise _ | case _ | backward _ | endMerge | endJoin _ =>
      cases h
      exact sheltered_nil
  | _ =>
      cases h
      exact sheltered_singleton nofun (.inr sheltered_nil)

/-- A call without a body leaves everything in order. -/
theorem ends_callBuild_inOrder
    (c : Call)
    (e : Engine grammar)
    (h : e.failedAt = none → InOrder e) :
    (dialect.callBuild c).Ends e (fun _ e' => InOrder e') (fun _ e' => e'.failedAt ≠ none) := by
  unfold Dialect.callBuild
  rw [Engine.ends_step]
  refine ⟨fun _ hfailed => by simp [hfailed], fun hnone => ?_⟩
  simp only [Attempt.ends_bind, Attempt.ends_pure]
  obtain ⟨hkept, hroot, hstack⟩ := h hnone
  have hkept : Kept (signs (childrenSoFar e.counted)) e.counted := hkept.of_same rfl rfl
  have hbreaks : BreaksInLoops e.counted := ⟨hroot, hstack⟩
  refine ((perform_ends c e.counted).and (ends_perform_obeyed c e.counted)).mono ?_ ?_
  · rintro _ e' ⟨hperformed, hobeyed⟩
    obtain ⟨item, hitem, htakes, hkept'⟩ := hkept.performed hperformed hobeyed
    refine ⟨?_, hbreaks.of_takes htakes ?_⟩
    · rw [childrenSoFar_of_takes htakes, signs_append]
      exact hkept'
    · by_cases hbreak : c = .point .leaveLoop
      · exact .inl (hobeyed.inLoop hbreak)
      · exact .inr (sheltered_brought hitem hbreak)
  · exact fun _ _ _ => by simp [Engine.failed]

/-- A construct is opened without children. -/
theorem ends_enter_inOrder
    (opening : Opening)
    (e : Engine grammar)
    (h : e.failedAt = none → InOrder e) :
    (Engine.enter (dialect.openingAction opening)).Ends e
      (fun _ e' => InOrder e') (fun _ e' => e'.failedAt ≠ none) := by
  refine (ends_enter_checked (d := dialect) rfl).mono ?_ fun _ _ hbad => hbad.1
  rintro _ e' ⟨hnone, scope, hscope, _, _, hstacked⟩
  obtain ⟨_, rfl⟩ := Opening.scope_eq_ok_iff.mp hscope
  obtain ⟨hkept, hroot, hstack⟩ := h hnone
  obtain ⟨serial, openedAt, hstack'⟩ := hstacked.stack
  have hempty : (opening.holding [] []).held.flatten = [] := Scope.held_holding opening
  have hchildren : childrenSoFar e' = childrenSoFar e := by
    simp [childrenSoFar, hstacked.root, hstack', hempty]
  refine ⟨?_, hstacked.root ▸ hroot, ?_⟩
  · rw [hchildren]
    exact hkept.of_same (congrArg Registry.aliases hstacked.registry) hstacked.context
  · have hinside : Sheltered (opening.holding [] []).held.flatten := by
      rw [hempty]
      exact sheltered_nil
    rw [hstack']
    exact ⟨.inr hinside, hstack⟩

/-- Closing a construct leaves everything in order. -/
theorem ends_close_inOrder
    (token : Token)
    (e : Engine grammar)
    (h : e.failedAt = none → InOrder e) :
    (Engine.close token).Ends e (fun _ e' => InOrder e') (fun _ e' => e'.failedAt ≠ none) := by
  have hlanes := ends_close_context (G := grammar) token e
  refine ((UmlText.ends_close (d := dialect) token).and hlanes).mono ?_ fun _ _ h => h.1
  rintro _ e' ⟨⟨hnone, hclosed⟩, hcontext⟩
  refine ⟨?_, (h hnone).breaks.of_closed hclosed⟩
  rw [signs_of_closed hclosed]
  exact (h hnone).kept.of_same (congrArg Registry.aliases hclosed.registry) hcontext

/-- In a finished activity diagram, every `break` has a loop among the elements around it;
in the order of the document, labels are new, jumps go to labels before them, and lanes have
a color or a label only where they come first; and the lanes that the engine knows are the
distinct lanes of the tree in the order in which they come first. -/
theorem rules_hold_in_document_order
    (program : List (Authoring dialect))
    (nodes : List Node)
    (hfinish : (Engine.finish.run (Program.runAll dialect.authoring {} program).after.engine).1 =
      .ok nodes) :
    let engine := (Program.runAll dialect.authoring {} program).after.engine
    let order := anatomy.preorder nodes
    (∀ found ∈ anatomy.lineages nodes, found.2 = .point .leaveLoop →
      ∃ outer ∈ found.1, outer.isLoop = true) ∧
    (∀ before node after, order = before ++ node :: after → node.Heeds before) ∧
    engine.context = (order.filterMap Node.lane?).eraseDups ∧
    engine.context.Nodup := by
  intro engine order
  have hkeeps : Program.Keeps dialect.authoring fun e => e.failedAt = none → InOrder e :=
    Dialect.keeps_while_unfailed ends_callBuild_inOrder ends_enter_inOrder ends_close_inOrder
  have hkept : engine.failedAt = none → InOrder engine :=
    hkeeps.runAll program {} fun _ => inOrder_new
  obtain ⟨hnone, hstack, hroot⟩ := Engine.finish_eq_ok_iff.mp hfinish
  obtain ⟨hkept, hsheltered, _⟩ := hkept hnone
  have hchildren : childrenSoFar engine = nodes := by
    unfold childrenSoFar
    rw [hstack, hroot]
    exact List.append_nil nodes
  rw [hchildren] at hkept
  refine ⟨hroot ▸ hsheltered, fun before node after hsplit => ?_, ?_, hkept.once⟩
  · cases hsign : node.isSign with
    | true =>
        have hsigns :
            signs nodes = before.filter Node.isSign ++ node :: after.filter Node.isSign := by
          change order.filter Node.isSign = _
          rw [hsplit, List.filter_append, List.filter_cons_of_pos hsign]
        exact Node.heeds_filter_iff.mp (hkept.heeded _ _ _ hsigns)
    | false => cases node <;> trivial
  · have hlanes : order.filterMap Node.lane? = (signs nodes).filterMap Node.lane? := by
      unfold signs
      rw [List.filterMap_filter]
      refine List.filterMap_congr fun node _ => ?_
      cases node <;> rfl
    rw [hlanes]
    exact hkept.lanes

/-- A loop that is left and that starts again, across two lanes, behind a refused color. -/
def loopAcrossLanes : List (Authoring dialect) :=
  [.call (.ok (.swimlane { name := "desk", label := some "front desk" })) false,
    .call (.error (.badColor "no color")) true,
    .scope (.whileLoop { condition := "open" }) false
      [.call (.ok (.label "again")) false,
        .call (.ok (.swimlane { name := "lab" })) false,
        .call (.ok (.point .leaveLoop)) false,
        .call (.ok (.swimlane { name := "desk" })) false],
    .call (.ok (.goto "again")) false]

theorem rules_hold_in_document_order_of_loopAcrossLanes :
    ∃ nodes,
      (Engine.finish.run
        (Program.runAll dialect.authoring {} loopAcrossLanes).after.engine).1 = .ok nodes ∧
      ((anatomy.preorder nodes).filterMap Node.lane?).eraseDups = ["desk", "lab"] ∧
      ∀ before node after, anatomy.preorder nodes = before ++ node :: after →
        node.Heeds before := by
  refine ⟨_, rfl, ?_⟩
  obtain ⟨_, hheeds, hlanes, _⟩ := rules_hold_in_document_order loopAcrossLanes _ rfl
  exact ⟨hlanes.symm, hheeds⟩

end Runs

end UmlText.Activity
