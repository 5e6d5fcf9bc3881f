import UmlText.ClassDiagram.Basic
import UmlText.Engine.Grammar
import UmlText.Text.Check

/-!
# Open packages

The only construct that can be open is a package.  It takes every element and every other
package.
-/

namespace UmlText.ClassDiagram

/-- A package that is open. -/
structure Scope where
  head : PackageHead
  body : List Node := []

/-- The package a call opens, if its texts are accepted. -/
def PackageHead.scope (head : PackageHead) : Except InvalidValue Scope := do
  let name ← singleLine "package name" head.name
  let stereotype ← optionally (singleLine "stereotype") head.stereotype
  return { head := { head with name, stereotype } }

namespace Scope

/-- The kind of a scope, as errors name it. -/
def kind (_ : Scope) : String :=
  "package"

/-- The scope with an element as its last child. -/
def add (scope : Scope) (node : Node) : Scope :=
  { scope with body := scope.body ++ [node] }

/-- The element that a closed scope becomes. -/
def toNode (scope : Scope) : Node :=
  .package scope.head scope.body

end Scope

/-- The grammar of class diagrams. -/
abbrev grammar : Grammar where
  name := "class"
  Node := Node
  Scope := Scope
  Context := Unit
  nodeKind := Node.kind
  scopeKind := Scope.kind
  isLoop := fun _ => false
  rootObstacle := fun _ => none
  obstacle := fun _ _ => none
  push := fun scope node => .ok (scope.add node)
  adopt := fun outer inner => .ok (outer.add inner.toNode)
  toNode := fun scope => .ok scope.toNode
  emptyContext := ()

end UmlText.ClassDiagram
