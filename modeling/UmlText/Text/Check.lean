import UmlText.InvalidValue
import UmlText.Text.Blank

/-!
# Checks of texts

Every text of a diagram is either *free*, and then only has to be visible, or *single-line*,
and then has to fit between two line breaks as well.  Both checks hand back the text they
were given, unchanged; `what` names the text in the error.  A blank text is reported before
a line break.
-/

namespace UmlText

/-- The characters that end a line. -/
def isLineBreak (c : Char) : Bool :=
  c = '\n' || c = '\r'

/-- A text fits on one line when none of its characters ends a line. -/
def FitsOneLine (text : String) : Prop :=
  ∀ c ∈ text.toList, isLineBreak c = false

instance (text : String) : Decidable (FitsOneLine text) :=
  List.decidableBAll (fun c => isLineBreak c = false) text.toList

/-- Accepts the texts that are visible. -/
def freeText (what text : String) : Except InvalidValue String :=
  if IsVisible text then .ok text else .error (.empty what)

/-- Accepts the visible texts that fit on one line. -/
def singleLine (what text : String) : Except InvalidValue String :=
  if IsVisible text then
    if FitsOneLine text then .ok text else .error (.lineBreak what)
  else .error (.empty what)

/-- A check of a text that may be missing: nothing is refused where nothing was given. -/
def optionally
    (check : String → Except InvalidValue String) :
    Option String → Except InvalidValue (Option String)
  | none => .ok none
  | some text => (check text).map some

theorem freeText_eq_ok_iff {what text kept : String} :
    freeText what text = .ok kept ↔ IsVisible text ∧ kept = text := by
  unfold freeText
  split <;> simp_all [eq_comm]

theorem singleLine_eq_ok_iff {what text kept : String} :
    singleLine what text = .ok kept ↔ IsVisible text ∧ FitsOneLine text ∧ kept = text := by
  unfold singleLine
  split
  · split <;> simp_all [eq_comm]
  · simp_all

end UmlText
