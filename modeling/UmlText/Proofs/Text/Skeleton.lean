import Mathlib.Tactic.SplitIfs
import UmlText.Layout

/-!
# Skeletons

The *skeleton* of an element is what is left of it when its texts are forgotten.  Of a note
it still says how many line breaks are in its text, because these become lines; of
everything else it only says what stands on lines of its own.  So the number of lines of an
element can be read off its skeleton.
-/

namespace UmlText

/-- How many line breaks there are in a text. -/
def lineBreaks (text : String) : Nat :=
  text.toList.count '\n'

/-- How the lines of a construct stand around its bodies. -/
inductive Framing where
  /-- A line in front of every body, and a last line. -/
  | led
  /-- A first line, a line in front of every body, and a last line. -/
  | listed
  /-- A first line, a line between two bodies, and a last line. -/
  | parted
  deriving DecidableEq, Repr

/-- What is left of an element without its texts. -/
inductive Skeleton where
  /-- One line, and a line for each of so many entries behind it. -/
  | single (entries : Nat)
  /-- A first line, a line for each of so many entries, and a last line. -/
  | boxed (entries : Nat)
  /-- A note with so many line breaks in its text. -/
  | note (breaks : Nat)
  /-- The lines around bodies, and a line for each of so many entries. -/
  | construct (framing : Framing) (entries : Nat) (bodies : List (List Skeleton))

/-- How many lines stand around so many bodies. -/
def Framing.lineCount (bodies : Nat) : Framing → Nat
  | .led => bodies + 1
  | .listed => bodies + 2
  | .parted => bodies - 1 + 2

/-- How many lines there are of a note with so many line breaks in its text: one, or one for
each line of the text between a first and a last one. -/
def noteLineCount (breaks : Nat) : Nat :=
  if breaks = 0 then 1 else breaks + 3

mutual

/-- How many lines an element has. -/
def Skeleton.lineCount : Skeleton → Nat
  | .single entries => entries + 1
  | .boxed entries => entries + 2
  | .note breaks => noteLineCount breaks
  | .construct framing entries bodies =>
      framing.lineCount bodies.length + entries + lineCountOfBodies bodies

/-- How many lines the elements of a list have. -/
def lineCountOf : List Skeleton → Nat
  | [] => 0
  | skeleton :: rest => skeleton.lineCount + lineCountOf rest

/-- How many lines there are inside the bodies of a construct. -/
def lineCountOfBodies : List (List Skeleton) → Nat
  | [] => 0
  | body :: rest => lineCountOf body + lineCountOfBodies rest

end

section Notes

variable {opening text closing : String}

/-- Where lines stay lines, escaping leaves the line breaks alone. -/
theorem count_escapeFrom {p : Position} (hp : p.multiline = true) :
    ∀ (previous : Option Char) (atStart : Bool) (l : List Char),
      (escapeFrom p previous atStart l).count '\n' = l.count '\n'
  | _, _, [] => rfl
  | previous, atStart, c :: rest => by
      have hchar : (escapeChar p previous atStart c rest).count '\n' = [c].count '\n' := by
        unfold escapeChar
        split_ifs with hnewline hreturn hslash htilde
        · rw [hnewline]
        · rw [hreturn]
          decide
        · rw [hslash]
          decide
        · rw [htilde]
          decide
        · rfl
        · exact List.count_cons_of_ne (by decide)
        · rfl
      rw [escapeFrom, List.count_append, hchar, count_escapeFrom hp, ← List.count_append]
      rfl

theorem length_splitLines (l : List Char) : (splitLines l).length = l.count '\n' + 1 := by
  induction l with
  | nil => rfl
  | cons c rest ih =>
      unfold splitLines
      split
      · next hc => rw [List.length_cons, ih, hc, List.count_cons_self]
      · next hc =>
          rw [List.count_cons_of_ne hc, ← ih]
          split
          · next hnil =>
              rw [hnil] at ih
              cases ih
          · next hcons => rw [hcons, List.length_cons, List.length_cons]

theorem length_enclosedLines (depth : Nat) :
    (enclosedLines depth opening text closing).length = lineBreaks text + 3 := by
  have hbody : (blockLines (depth + 1) text).length = lineBreaks text + 1 := by
    unfold blockLines lineBreaks escapeChars
    rw [List.length_map, length_splitLines, count_escapeFrom rfl]
  simp [enclosedLines, hbody]

theorem isMultiline_eq_false_iff : isMultiline text = false ↔ lineBreaks text = 0 := by
  simp [isMultiline, lineBreaks, List.count_eq_zero]

/-- A note on one line, whichever that is, or on several ones. -/
theorem length_line_or_enclosedLines (depth : Nat) (line : Line) :
    (if isMultiline text then enclosedLines depth opening text closing else [line]).length =
      noteLineCount (lineBreaks text) := by
  unfold noteLineCount
  by_cases hbreaks : lineBreaks text = 0
  · rw [isMultiline_eq_false_iff.mpr hbreaks, if_pos hbreaks]
    rfl
  · have hmultiline : isMultiline text = true := by
      simpa using mt isMultiline_eq_false_iff.mp hbreaks
    rw [if_pos hmultiline, if_neg hbreaks, length_enclosedLines]

theorem length_noteLines (depth : Nat) :
    (noteLines depth opening text closing).length = noteLineCount (lineBreaks text) :=
  length_line_or_enclosedLines depth _

end Notes

section Constructs

variable {opening separator closing : Line} {body lines behind : List Line}
variable {skeletons : List Skeleton} {bodies : List (List Skeleton)}

/-- A body with a line in front of it, and further ones. -/
theorem length_led_cons
    (hbody : body.length = lineCountOf skeletons)
    (hlines : lines.length = bodies.length + lineCountOfBodies bodies) :
    (opening :: body ++ lines).length =
      (skeletons :: bodies).length + lineCountOfBodies (skeletons :: bodies) := by
  rw [List.length_append, List.length_cons, List.length_cons, hbody, hlines, lineCountOfBodies]
  omega

/-- Bodies with a line in front of each, and a last line. -/
theorem length_led (hlines : lines.length = bodies.length + lineCountOfBodies bodies) :
    (lines ++ [closing]).length = (Skeleton.construct .led 0 bodies).lineCount := by
  rw [List.length_append, List.length_singleton, hlines, Skeleton.lineCount, Framing.lineCount]
  omega

/-- One body between a first line and a last one. -/
theorem length_between (hbody : body.length = lineCountOf skeletons) :
    (opening :: body ++ [closing]).length = (Skeleton.construct .led 0 [skeletons]).lineCount := by
  refine length_led ?_
  rw [← List.append_nil body, ← List.cons_append]
  exact length_led_cons hbody rfl

/-- A first line, bodies with a line in front of each, and a last line. -/
theorem length_listed (hlines : lines.length = bodies.length + lineCountOfBodies bodies) :
    (opening :: lines ++ [closing]).length = (Skeleton.construct .listed 0 bodies).lineCount := by
  rw [List.length_append, List.length_singleton, List.length_cons, hlines, Skeleton.lineCount,
    Framing.lineCount]
  omega

/-- A body and further ones, with a line between two of them. -/
theorem length_parted_cons
    {last : Bool}
    (hlast : last = bodies.isEmpty)
    (hbody : body.length = lineCountOf skeletons)
    (hlines : lines.length = bodies.length - 1 + lineCountOfBodies bodies) :
    (body ++ (if last then [] else [separator]) ++ lines).length =
      (skeletons :: bodies).length - 1 + lineCountOfBodies (skeletons :: bodies) := by
  subst hlast
  rw [List.length_append, List.length_append, hbody, hlines, lineCountOfBodies]
  cases bodies with
  | nil =>
      simp only [List.isEmpty_nil, List.length_nil, List.length_cons, if_true]
      omega
  | cons next rest =>
      simp only [List.isEmpty_cons, List.length_nil, List.length_cons, Bool.false_eq_true, if_false]
      omega

/-- Bodies with a line between two of them, a first line and a last one, and lines behind
it. -/
theorem length_parted (hlines : lines.length = bodies.length - 1 + lineCountOfBodies bodies) :
    (opening :: lines ++ closing :: behind).length =
      (Skeleton.construct .parted behind.length bodies).lineCount := by
  rw [List.length_append, List.length_cons, List.length_cons, hlines, Skeleton.lineCount,
    Framing.lineCount]
  omega

end Constructs

end UmlText
