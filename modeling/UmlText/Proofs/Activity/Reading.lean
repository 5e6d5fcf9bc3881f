import UmlText.Activity.Calls
import UmlText.Proofs.Reading

/-!
# Reading programs of activity diagrams

A decision is divided by its further branches and a switch by its cases; a loop has one body
and perhaps an edge back to its start, which divides nothing because nothing follows it.  A
fork or split holds the bodies of its branches, in order.
-/

namespace UmlText.Activity

/-- What a call without an element of its own contributes. -/
inductive Clause where
  | elseif (guard : Guard)
  | otherwise (label : Option String)
  | case (label : String)
  | backward (text : String)
  | ending (e : ForkEnd)
  | branch (body : List Node)

namespace Clause

/-- The clauses of a switch. -/
def isCase : Clause → Bool
  | .case _ => true
  | _ => false

/-- The clauses of a loop. -/
def isBackward : Clause → Bool
  | .backward _ => true
  | _ => false

/-- The clauses that say how a fork ends. -/
def isEnding : Clause → Bool
  | .ending _ => true
  | _ => false

/-- The clauses that are parallel branches. -/
def isBranch : Clause → Bool
  | .branch _ => true
  | _ => false

end Clause

/-- A clause with the elements between it and the next one. -/
abbrev Section :=
  Clause × List Node

/-- The branches behind the first one of a decision. -/
def alternativesOf : List Section → Alternatives
  | [] => .nothing
  | (.elseif guard, body) :: rest => .elseif guard body (alternativesOf rest)
  | (.otherwise label, body) :: _ => .otherwise label body
  | _ :: rest => alternativesOf rest

/-- The cases of a switch. -/
def casesOf : List Section → List (String × List Node)
  | [] => []
  | (.case label, body) :: rest => (label, body) :: casesOf rest
  | _ :: rest => casesOf rest

/-- The action on the edge back to the start of a loop. -/
def backwardOf : List Section → Option String
  | [] => none
  | (.backward text, _) :: _ => some text
  | _ :: rest => backwardOf rest

/-- The way in which a fork ends, if it is given. -/
def endingOf : List Section → Option ForkEnd
  | [] => none
  | (.ending e, _) :: _ => some e
  | _ :: rest => endingOf rest

/-- The bodies of parallel branches. -/
def branchesOf : List Section → List (List Node)
  | [] => []
  | (.branch body, _) :: rest => body :: branchesOf rest
  | _ :: rest => branchesOf rest

/-- The sections of a decision: conditional branches, and perhaps the last branch behind
them. -/
def areBranches : List Section → Bool
  | [] => true
  | [(.otherwise _, _)] => true
  | (.elseif _, _) :: rest => areBranches rest
  | _ => false

/-- The elements in front of the first clause and the sections behind it all have a place in
the construct. -/
def Opening.Fits (body : List Node) (sections : List Section) : Opening → Prop
  | .decision _ => areBranches sections = true
  | .switch _ => body = [] ∧ ∀ s ∈ sections, s.1.isCase = true
  | .repeatLoop _ => sections.length ≤ 1 ∧ ∀ s ∈ sections, s.1.isBackward = true ∧ s.2 = []
  | .fork =>
      body = [] ∧ (sections.filter fun s => s.1.isEnding).length ≤ 1 ∧
        ∀ s ∈ sections, (s.1.isEnding = true ∨ s.1.isBranch = true) ∧ s.2 = []
  | .split => body = [] ∧ ∀ s ∈ sections, s.1.isBranch = true ∧ s.2 = []
  | .whileLoop _ | .branch | .partition .. | .group _ => sections = []

instance (body : List Node) (sections : List Section) :
    ∀ opening : Opening, Decidable (opening.Fits body sections)
  | .decision _ => inferInstanceAs (Decidable (areBranches sections = true))
  | .switch _ => inferInstanceAs (Decidable (_ ∧ ∀ s ∈ sections, _))
  | .repeatLoop _ => inferInstanceAs (Decidable (_ ∧ ∀ s ∈ sections, _))
  | .fork => inferInstanceAs (Decidable (_ ∧ _ ∧ ∀ s ∈ sections, _))
  | .split => inferInstanceAs (Decidable (_ ∧ ∀ s ∈ sections, _))
  | .whileLoop _ | .branch | .partition .. | .group _ =>
      inferInstanceAs (Decidable (sections = []))

/-- What a construct contributes, from the elements in front of its first clause and the
sections behind it. -/
def Opening.construct (body : List Node) (sections : List Section) : Opening → Item Node Clause
  | .decision guard => .element (.decision guard body (alternativesOf sections))
  | .switch test => .element (.switch test (casesOf sections))
  | .whileLoop head => .element (.whileLoop head body)
  | .repeatLoop head => .element (.repeatLoop head body (backwardOf sections))
  | .fork =>
      .element (.parallel (.fork ((endingOf sections).getD .fork)) (branchesOf sections))
  | .split => .element (.parallel .split (branchesOf sections))
  | .branch => .clause (.branch body)
  | .partition name color => .element (.partition name color body)
  | .group name => .element (.group name body)

/-- What a call without a body contributes; the texts stand in the tree as they are given. -/
def Call.item : Call → Option (Item Node Clause)
  | .point p => some (.element (.point p))
  | .action a => some (.element (.action a))
  | .arrow a => some (.element (.arrow a))
  | .note n => some (.element (.note n))
  | .connector name => some (.element (.connector name))
  | .label name => (Alias.ofName? name).map fun a => .element (.label a)
  | .goto name => (Alias.ofName? name).map fun a => .element (.goto a)
  | .swimlane lane => some (.element (.swimlane lane))
  | .elseif guard => some (.clause (.elseif guard))
  | .otherwise text => some (.clause (.otherwise text))
  | .case text => some (.clause (.case text))
  | .backward text => some (.clause (.backward text))
  | .endMerge => some (.clause (.ending .merge))
  | .endJoin text => some (.clause (.ending (.join text)))

/-- How programs of activity diagrams are read; no alias is ever generated. -/
abbrev reading : Reading dialect where
  Clause := Clause
  Head := Opening
  call generated call := call.item.map fun item => (item, generated)
  opening generated opening := some (opening, generated)
  construct opening items :=
    let (body, sections) := Item.split items
    if opening.Fits body sections then some (opening.construct body sections) else none

end UmlText.Activity
