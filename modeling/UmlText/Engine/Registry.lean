import UmlText.Engine.Error

/-!
# The alias registry

Every alias that an element of the diagram has is registered with the kind of that element.
An alias is declared once, and a reference asks for it together with the kind it expects.
The registry also counts the aliases it has generated, so that each of them has a number of
its own.
-/

namespace UmlText

/-- The aliases of a diagram, each with the kind of the element that has it. -/
structure Registry where
  /-- The declared aliases, the latest one first. -/
  entries : List (Alias × String) := []
  /-- How many aliases were generated. -/
  generated : Nat := 0
  deriving DecidableEq

namespace Registry

/-- How many aliases are declared. -/
def size (r : Registry) : Nat :=
  r.entries.length

/-- The declared alias with this name, together with its kind. -/
def find? (r : Registry) (name : String) : Option (Alias × String) :=
  r.entries.find? fun entry => entry.1.name = name

/-- The kind of the element that has the alias with this name. -/
def kindOf? (r : Registry) (name : String) : Option String :=
  (r.find? name).map Prod.snd

/-- Declares an alias, which no element may have yet. -/
def declare (r : Registry) (a : Alias) (kind : String) : Except Misuse Registry :=
  match r.kindOf? a.name with
  | some existing => .error (.aliasTaken a existing)
  | none => .ok { r with entries := (a, kind) :: r.entries }

/-- The declared alias with this name, if its element is of the expected kind. -/
def resolve (r : Registry) (name kind : String) : Except Misuse Alias :=
  match r.find? name with
  | some (a, found) => if found = kind then .ok a else .error (.unknownAlias name kind)
  | none => .error (.unknownAlias name kind)

/-- A new alias with the given stem, numbered by how many there are now. -/
def generate (r : Registry) (stem : String) : Alias × Registry :=
  (Alias.generated stem (r.generated + 1), { r with generated := r.generated + 1 })

end Registry

end UmlText
