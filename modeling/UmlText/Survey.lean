import UmlText.Engine.Grammar
import UmlText.ExportError

/-!
# Surveys of trees

Before a tree is written it is surveyed: a walk through it lists, in the order of the
document, how deep each list of children lies, which aliases are declared and which are
referred to.  A tree is consistent when no list lies too deep, no alias is declared twice
and no reference is without its declaration, wherever in the tree the declaration may stand.

A survey is examined in two passes, so that a reference may precede its declaration; which
findings belong to the first pass decides which of several inconsistencies is reported.
-/

namespace UmlText

/-- What a walk through a tree comes upon. -/
inductive Finding where
  /-- A list of children, which lies inside this many constructs. -/
  | entered (depth : Nat)
  /-- An element with an alias. -/
  | declared (node : String) (a : Alias)
  /-- A reference to an element of the expected kind. -/
  | referred (node expected : String) (a : Alias)
  deriving DecidableEq

namespace Finding

/-- Whether the finding is a declaration. -/
def isDeclaration : Finding → Bool
  | .declared .. => true
  | _ => false

/-- Whether the finding is no reference. -/
def isNoReference : Finding → Bool
  | .referred .. => false
  | _ => true

/-- Goes through findings in order.  References are looked up among the `known` aliases; the
answer is the list of the aliases declared, those `seen` before included. -/
def examine (known : List Alias) : List Alias → List Finding → Except ExportError (List Alias)
  | seen, [] => .ok seen
  | seen, .entered depth :: rest =>
      if depth ≤ maxDepth then examine known seen rest else .error (.tooDeep maxDepth)
  | seen, .declared node a :: rest =>
      if a ∈ seen then .error (.duplicateDeclaration node a)
      else examine known (a :: seen) rest
  | seen, .referred node expected a :: rest =>
      if a ∈ known then examine known seen rest
      else .error (.missingReference node expected a)

/-- Accepts a survey without inconsistency.  The findings that `early` selects come first,
and all declarations have to be among them. -/
def check (early : Finding → Bool) (survey : List Finding) : Except ExportError Unit :=
  match examine [] [] (survey.filter early) with
  | .error error => .error error
  | .ok known =>
      match examine known [] (survey.filter fun finding => !early finding) with
      | .error error => .error error
      | .ok _ => .ok ()

end Finding

end UmlText
