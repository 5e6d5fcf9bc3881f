import Mathlib.Logic.Function.Iterate
import UmlText.Proofs.Lineages

/-!
# The walk over the participants

The participants of a tree are found by a walk that keeps a list of pending lists instead of
calling itself, so that a tree may be as deep as it likes.  Here the walk is taken apart
into its rounds.  In each round it either leaves a list behind that is used up, or it takes
one element from the list that it reads and puts the lists inside that element in front of
what is pending.

Two facts carry the whole development.  What has been found, together with what recursion
finds in the pending lists, stays the same from round to round; and of the elements and ends
of lists that are still ahead, a round deals with exactly one.  So the walk comes to its
end, after as many rounds as there are elements and lists in the tree, and has then found
what recursion finds.
-/

namespace UmlText.Sequence

mutual

/-- The participants declared in an element: its own, or those of its sections in order. -/
def Node.declaring : Node → List Participant
  | .participant p | .create p => [p]
  | .box _ _ members => members
  | .block _ sections => declaringInSections sections
  | _ => []

/-- The participants declared in the elements of a list, the first element first. -/
def declaringIn : List Node → List Participant
  | [] => []
  | node :: rest => node.declaring ++ declaringIn rest

/-- The participants declared in the sections of a block, the first section first. -/
def declaringInSections : List (Option String × List Node) → List Participant
  | [] => []
  | (_, body) :: rest => declaringIn body ++ declaringInSections rest

end

section Recursion

theorem declaringInSections_eq_flatMap (sections : List (Option String × List Node)) :
    declaringInSections sections = (sections.map Prod.snd).flatMap declaringIn := by
  induction sections with
  | nil => rfl
  | cons s rest ih =>
      obtain ⟨label, body⟩ := s
      simp only [declaringInSections, ih, List.map_cons, List.flatMap_cons]

/-- What an element declares itself comes before what is declared in the lists inside it. -/
theorem Node.declaring_eq (node : Node) :
    node.declaring = node.ownParticipants ++ node.sections.flatMap declaringIn := by
  cases node <;>
    simp [Node.declaring, Node.ownParticipants, Node.sections, declaringInSections_eq_flatMap]

theorem declaringIn_append (first second : List Node) :
    declaringIn (first ++ second) = declaringIn first ++ declaringIn second := by
  induction first with
  | nil => rfl
  | cons node rest ih => simp only [List.cons_append, declaringIn, ih, List.append_assoc]

theorem declaringIn_flatten (bodies : List (List Node)) :
    declaringIn bodies.flatten = bodies.flatMap declaringIn := by
  induction bodies with
  | nil => rfl
  | cons body rest ih => simp only [List.flatten_cons, declaringIn_append, ih, List.flatMap_cons]

theorem declaringIn_eq_of_forall
    {nodes : List Node}
    (h : ∀ node ∈ nodes,
      node.declaring = (anatomy.preorder [node]).flatMap Node.ownParticipants) :
    declaringIn nodes = (anatomy.preorder nodes).flatMap Node.ownParticipants := by
  induction nodes with
  | nil => rfl
  | cons node rest ih =>
      obtain ⟨hnode, hrest⟩ := List.forall_mem_cons.mp h
      rw [declaringIn, ← List.singleton_append, anatomy.preorder_append, List.flatMap_append, hnode,
        ih hrest]

theorem Node.declaring_eq_flatMap_preorder (node : Node) :
    node.declaring = (anatomy.preorder [node]).flatMap Node.ownParticipants := by
  induction node using anatomy.finite.induction with
  | _ node ih =>
      have hinside : declaringIn node.sections.flatten =
          (anatomy.preorder node.sections.flatten).flatMap Node.ownParticipants :=
        declaringIn_eq_of_forall fun inner hinner => ih inner (List.mem_flatten.mp hinner)
      rw [node.declaring_eq, ← declaringIn_flatten, hinside, anatomy.preorder_singleton,
        List.flatMap_cons]

/-- Every element of the tree gives its own participants once, in the order of the document.
-/
theorem declaringIn_eq_flatMap_preorder (nodes : List Node) :
    declaringIn nodes = (anatomy.preorder nodes).flatMap Node.ownParticipants :=
  declaringIn_eq_of_forall fun node _ => node.declaring_eq_flatMap_preorder

end Recursion

/-- A walk under way. -/
structure Walk where
  /-- What is left of the lists that have been begun or put down, the one that is read
  first. -/
  pending : List (List Node)
  /-- The participants that have been found. -/
  found : List Participant := []

namespace Walk

/-- One round of the walk.  A walk that has nothing pending stands still. -/
def round : Walk → Walk
  | ⟨[], found⟩ => ⟨[], found⟩
  | ⟨[] :: pending, found⟩ => ⟨pending, found⟩
  | ⟨(node :: rest) :: pending, found⟩ =>
      ⟨node.sections ++ rest :: pending, found ++ node.ownParticipants⟩

/-- What the walk has found and what recursion finds in the rest. -/
def outcome (w : Walk) : List Participant :=
  w.found ++ w.pending.flatMap declaringIn

section Rounds

variable (w : Walk)

theorem outcome_round : w.round.outcome = w.outcome := by
  obtain ⟨_ | ⟨_ | ⟨node, rest⟩, pending⟩, found⟩ := w
  · rfl
  · rfl
  · simp [round, outcome, declaringIn, Node.declaring_eq]

/-- A round deals with one element or with the end of one list. -/
theorem weight_round : weightOfLists w.round.pending = weightOfLists w.pending - 1 := by
  obtain ⟨_ | ⟨_ | ⟨node, rest⟩, pending⟩, found⟩ := w
  · rfl
  · simp [round, weightOfLists, weightOf]
  · simp only [round, weightOfLists_append, weightOfLists, weightOf, Node.weight_eq]
    omega

/-- The function that finds the participants does in one step what a round does. -/
theorem participantsIn_round :
    w.round.found ++ participantsIn w.round.pending = w.found ++ participantsIn w.pending := by
  obtain ⟨_ | ⟨_ | ⟨node, rest⟩, pending⟩, found⟩ := w
  · rfl
  · simp only [round, participantsIn]
  · simp only [round, participantsIn, List.append_assoc]

theorem outcome_rounds (n : Nat) : (round^[n] w).outcome = w.outcome := by
  induction n with
  | zero => rfl
  | succ n ih => rw [Function.iterate_succ_apply', outcome_round, ih]

theorem weight_rounds (n : Nat) :
    weightOfLists (round^[n] w).pending = weightOfLists w.pending - n := by
  induction n with
  | zero => rfl
  | succ n ih => rw [Function.iterate_succ_apply', weight_round, ih, Nat.sub_sub]

theorem participantsIn_rounds (n : Nat) :
    (round^[n] w).found ++ participantsIn (round^[n] w).pending =
      w.found ++ participantsIn w.pending := by
  induction n with
  | zero => rfl
  | succ n ih => rw [Function.iterate_succ_apply', participantsIn_round, ih]

end Rounds

end Walk

theorem weightOf_pos (nodes : List Node) : 0 < weightOf nodes := by
  cases nodes with
  | nil => simp [weightOf]
  | cons node rest =>
      have hnode := node.weight_eq
      simp only [weightOf]
      omega

/-- Nothing is pending exactly when there is nothing ahead; even an empty list has an end. -/
theorem weightOfLists_eq_zero_iff {lists : List (List Node)} :
    weightOfLists lists = 0 ↔ lists = [] := by
  cases lists with
  | nil => simp [weightOfLists]
  | cons nodes rest =>
      have hpos := weightOf_pos nodes
      simp only [weightOfLists, reduceCtorEq, iff_false]
      omega

section Whole

variable (nodes : List Node)

/-- The walk through a tree, before its first round. -/
def Walk.start : Walk where
  pending := [nodes]

theorem pending_rounds_eq_nil_iff {n : Nat} :
    (Walk.round^[n] (Walk.start nodes)).pending = [] ↔ weightOf nodes ≤ n := by
  rw [← weightOfLists_eq_zero_iff, Walk.weight_rounds]
  simp only [Walk.start, weightOfLists]
  omega

/-- At its end a walk has found what recursion finds, and so has the function. -/
theorem rounds_start :
    Walk.round^[weightOf nodes] (Walk.start nodes) = ⟨[], declaringIn nodes⟩ ∧
      participants nodes = declaringIn nodes := by
  have hpending := (pending_rounds_eq_nil_iff nodes).mpr (Nat.le_refl (weightOf nodes))
  have hfound := (Walk.start nodes).outcome_rounds (weightOf nodes)
  have hfunction := (Walk.start nodes).participantsIn_rounds (weightOf nodes)
  generalize Walk.round^[weightOf nodes] (Walk.start nodes) = w at hpending hfound hfunction ⊢
  obtain ⟨pending, found⟩ := w
  subst hpending
  simp only [Walk.outcome, Walk.start, List.flatMap_nil, List.flatMap_cons, List.append_nil,
    List.nil_append, participantsIn] at hfound hfunction
  exact ⟨by rw [hfound], by rw [participants, ← hfunction, hfound]⟩

end Whole

section Declarations

/-- The declaration that an export finds for a participant. -/
abbrev Participant.finding (p : Participant) : Finding :=
  .declared participantKind p.id

theorem filter_isDeclaration_mentions (node : String) (ps : List Alias) :
    (mentions node ps).filter Finding.isDeclaration = [] := by
  simp [mentions, Finding.isDeclaration]

theorem filter_isDeclaration_findings (ps : List Participant) :
    (ps.map Participant.finding).filter Finding.isDeclaration = ps.map Participant.finding := by
  simp [Participant.finding, Finding.isDeclaration]

mutual

/-- The declarations in the survey of an element are those that recursion finds. -/
theorem Node.filter_survey :
    ∀ (node : Node) (depth : Nat),
      (node.survey depth).filter Finding.isDeclaration = node.declaring.map Participant.finding
  | .participant p, _ | .create p, _ => filter_isDeclaration_findings [p]
  | .box _ _ members, _ => filter_isDeclaration_findings members
  | .block _ sections, depth => filter_surveySections sections (depth + 1)
  | .message _, _ | .note _, _ | .ref .., _ | .activate .., _ | .deactivate _, _
  | .destroy _, _ => filter_isDeclaration_mentions _ _
  | .reply _, _ | .divider _, _ | .delay _, _ | .space _, _ | .autonumber _, _ => rfl

theorem filter_surveyNodes :
    ∀ (nodes : List Node) (depth : Nat),
      (surveyNodes depth nodes).filter Finding.isDeclaration =
        (declaringIn nodes).map Participant.finding
  | [], _ => rfl
  | node :: rest, depth => by
      rw [surveyNodes, List.filter_append, node.filter_survey, filter_surveyNodes rest,
        declaringIn, List.map_append]

theorem filter_surveySections :
    ∀ (sections : List (Option String × List Node)) (depth : Nat),
      (surveySections depth sections).filter Finding.isDeclaration =
        (declaringInSections sections).map Participant.finding
  | [], _ => rfl
  | (_, body) :: rest, depth => by
      rw [surveySections, List.filter_append, filter_surveyNodes body, filter_surveySections rest,
        declaringInSections, List.map_append]

end

end Declarations

/-- The walk through a tree ends after exactly as many rounds as there are elements and
lists in it, however deep it is, and no earlier.  It has then found what recursion finds in
the order of the document, every occurrence once; these are the declarations that an export
examines. -/
theorem participants_walk_ends_with_declaringIn (nodes : List Node) :
    (∀ n, (Walk.round^[n] (Walk.start nodes)).pending = [] ↔ weightOf nodes ≤ n) ∧
      Walk.round^[weightOf nodes] (Walk.start nodes) = ⟨[], participants nodes⟩ ∧
      participants nodes = declaringIn nodes ∧
      participants nodes = (anatomy.preorder nodes).flatMap Node.ownParticipants ∧
      (surveyNodes 0 nodes).filter Finding.isDeclaration =
        (participants nodes).map Participant.finding := by
  obtain ⟨hlast, hparticipants⟩ := rounds_start nodes
  rw [hparticipants]
  exact ⟨fun n => pending_rounds_eq_nil_iff nodes, hlast, rfl,
    declaringIn_eq_flatMap_preorder nodes, filter_surveyNodes nodes 0⟩

end UmlText.Sequence
