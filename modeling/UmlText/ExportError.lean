import UmlText.Alias

/-!
# Errors of an export

A tree that was put together by hand need not be consistent: it may declare an alias twice,
refer to an alias that no element has, or be nested deeper than any build can make it.  An
export refuses such trees with one of these errors.
-/

namespace UmlText

/-- What is inconsistent in a tree. -/
inductive ExportError where
  /-- An element refers to an alias that no element of the expected kind has. -/
  | missingReference (node expected : String) (a : Alias)
  /-- Two elements have the same alias. -/
  | duplicateDeclaration (node : String) (a : Alias)
  /-- The tree is nested too deeply. -/
  | tooDeep (greatest : Nat)
  deriving DecidableEq

/-- The wording of an inconsistency. -/
def ExportError.message : ExportError → String
  | .missingReference node expected a =>
      node ++ " references undeclared " ++ expected ++ " '" ++ a.name ++ "'"
  | .duplicateDeclaration node a =>
      node ++ " declares '" ++ a.name ++ "' more than once"
  | .tooDeep greatest => "tree is nested deeper than " ++ toString greatest ++ " levels"

end UmlText
