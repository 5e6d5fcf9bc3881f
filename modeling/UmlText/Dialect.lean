import UmlText.Engine.Action
import UmlText.ExportError
import UmlText.Layout

/-!
# Dialects

A *dialect* is everything there is to one kind of diagram: the grammar that the engine works
with, the calls by which its elements are authored, and the lines its trees are written as.

A call either adds something to the innermost scope, and may answer with an alias, or it
opens a scope of its own.  Trees are checked before they are written, so that the lines
themselves are a total function of the tree.
-/

namespace UmlText

/-- One kind of diagram. -/
structure Dialect extends Grammar where
  /-- The calls that leave the open scopes open and open none. -/
  Call : Type
  /-- The calls that open a scope. -/
  Opening : Type
  /-- What a call does, and the alias it answers with. -/
  perform : Call → Action toGrammar (Option Alias)
  /-- The scope that a call opens, and the alias it answers with in the end. -/
  scopeOf : Opening → Action toGrammar (Scope × Option Alias)
  /-- Accepts the consistent trees. -/
  check : List Node → Except ExportError Unit
  /-- The lines of a tree. -/
  lines : List Node → List Line

end UmlText
