import UmlText.Engine.Action
import UmlText.Text.Check

/-!
# Naming of elements

A participant, a state or a class has a name that is shown and an alias by which others
refer to it.  The caller may give the alias; otherwise the name is its own alias where it
can be one, and an alias is generated where it cannot.  The name is kept apart only where it
is not the alias.
-/

namespace UmlText.Action

variable {G : Grammar}

/-- The alias of an element with the given name, and the name where it has to be shown
beside the alias. -/
def chooseAlias
    (name : String)
    (given : Option String)
    (stem : String) : Action G (Alias × Option String) := do
  match given with
  | some given =>
      let a ← valid (Alias.parse given)
      return (a, if name = a.name then none else some name)
  | none =>
      if isBareName name then
        let a ← valid (Alias.parse name)
        return (a, none)
      else
        let a ← generate stem
        return (a, some name)

end UmlText.Action
