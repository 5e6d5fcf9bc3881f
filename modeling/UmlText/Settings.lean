import UmlText.Layout
import UmlText.Text.Check

/-!
# Settings of a diagram

Beside its elements a diagram has a few texts of its own: headings, a legend, and settings
for the tool that draws it, which are written as they are given.  They are given one at a
time; each is checked, and a later heading, legend or theme takes the place of an earlier
one.
-/

namespace UmlText

/-- The texts and settings of a diagram as a whole. -/
structure Settings where
  title : Option String := none
  header : Option String := none
  footer : Option String := none
  caption : Option String := none
  /-- A text that may have several lines. -/
  legend : Option String := none
  theme : Option String := none
  inclusions : List String := []
  /-- Parameters of the drawing, each with its value. -/
  skinparams : List (String × String) := []
  deriving DecidableEq

/-- One text or setting to be given. -/
inductive Setting where
  | title (text : String)
  | header (text : String)
  | footer (text : String)
  | caption (text : String)
  | legend (text : String)
  | theme (name : String)
  | inclusion (target : String)
  | skinparam (key value : String)
  deriving DecidableEq

namespace Settings

/-- Checks the name of a parameter: it is one word. -/
def checkKey (key : String) : Except InvalidValue String := do
  let key ← singleLine "skinparam key" key
  if key.toList.any isBlank then
    throw (.ineffective "skinparam key" "diagram" "keys cannot contain whitespace")
  return key

/-- The settings with one more given. -/
def set (s : Settings) : Setting → Except InvalidValue Settings
  | .title text => do return { s with title := some (← freeText "title" text) }
  | .header text => do return { s with header := some (← freeText "header" text) }
  | .footer text => do return { s with footer := some (← freeText "footer" text) }
  | .caption text => do return { s with caption := some (← freeText "caption" text) }
  | .legend text => do return { s with legend := some (← freeText "legend" text) }
  | .theme name => do return { s with theme := some (← singleLine "theme" name) }
  | .inclusion target => do
      return { s with inclusions := s.inclusions ++ [← singleLine "include" target] }
  | .skinparam key value => do
      let key ← checkKey key
      let value ← singleLine "skinparam value" value
      return { s with skinparams := s.skinparams ++ [(key, value)] }

/-- Gives settings in order; one that is refused changes nothing.  The answer holds the
outcome for each of them. -/
def setAll (s : Settings) : List Setting → List (Except InvalidValue Unit) × Settings
  | [] => ([], s)
  | setting :: rest =>
      match s.set setting with
      | .ok s =>
          let (outcomes, s) := s.setAll rest
          (.ok () :: outcomes, s)
      | .error what =>
          let (outcomes, s) := s.setAll rest
          (.error what :: outcomes, s)

/-- The line of a heading, if it is given. -/
def headingLines (keyword : String) (text : Option String) : List Line :=
  match text with
  | none => []
  | some text => [⟨0, keyword ++ " " ++ escape .label text⟩]

/-- The lines in front of the elements. -/
def preamble (s : Settings) : List Line :=
  s.theme.toList.map (fun name => ⟨0, "!theme " ++ name⟩) ++
    s.inclusions.map (fun target => ⟨0, "!include " ++ target⟩) ++
    s.skinparams.map (fun (key, value) => ⟨0, "skinparam " ++ key ++ " " ++ value⟩) ++
    headingLines "title" s.title ++
    headingLines "header" s.header ++
    headingLines "footer" s.footer ++
    headingLines "caption" s.caption

/-- The lines behind the elements. -/
def epilogue (s : Settings) : List Line :=
  match s.legend with
  | none => []
  | some text => enclosedLines 0 "legend" text "endlegend"

end Settings

end UmlText
