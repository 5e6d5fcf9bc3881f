import UmlText.Options
import UmlText.Text.Escape

/-!
# Lines and their layout

What is written of a diagram is first a list of `Line`s, each with its content and the
number of steps it is nested, and only at the very end a text.  So everything that depends
on the options is in this module: the spaces in front of a line, and the line break at the
end of the text.

A text with lines of its own, of a note or a legend, becomes one line for each of its lines
(`blockLines`); an empty one of these has no spaces in front.
-/

namespace UmlText

/-- One line of a diagram. -/
structure Line where
  /-- How many steps the line is nested. -/
  depth : Nat
  /-- What stands on the line after the spaces in front. -/
  content : String
  deriving DecidableEq, Repr

/-- The line as text: the spaces in front, the content, a line break. -/
def Line.text (indent : Nat) (l : Line) : String :=
  String.ofList (List.replicate (l.depth * indent) ' ') ++ l.content ++ "\n"

/-- The pieces between the line breaks of a list of characters; there is one more of them
than there are line breaks. -/
def splitLines : List Char → List (List Char)
  | [] => [[]]
  | c :: rest =>
      if c = '\n' then [] :: splitLines rest
      else
        match splitLines rest with
        | [] => [[c]]
        | piece :: pieces => (c :: piece) :: pieces

/-- The line for one piece of a text with lines of its own. -/
def blockLine (depth : Nat) (piece : List Char) : Line :=
  if piece.isEmpty then ⟨0, ""⟩ else ⟨depth, String.ofList piece⟩

/-- The lines of a text with lines of its own. -/
def blockLines (depth : Nat) (text : String) : List Line :=
  (splitLines (escapeChars .block text.toList)).map (blockLine depth)

/-- A text with lines of its own between an opening and a closing line. -/
def enclosedLines
    (depth : Nat)
    (opening : String)
    (text : String)
    (closing : String) : List Line :=
  ⟨depth, opening⟩ :: blockLines (depth + 1) text ++ [⟨depth, closing⟩]

/-- Whether a text has several lines. -/
def isMultiline (text : String) : Bool :=
  text.toList.contains '\n'

/-- A note: `opening : text` when the text is one line, and else the text between the
opening and its closing line. -/
def noteLines
    (depth : Nat)
    (opening : String)
    (text : String)
    (closing : String) : List Line :=
  if isMultiline text then enclosedLines depth opening text closing
  else [⟨depth, opening ++ " : " ++ escape .label text⟩]

/-- A list of characters without its last one, if that is a line break. -/
def dropFinalNewline (chars : List Char) : List Char :=
  if chars.getLast? = some '\n' then chars.dropLast else chars

/-- The text of a list of lines. -/
def layout (o : Options) (lines : List Line) : String :=
  let text := String.join (lines.map (Line.text o.indent))
  if o.trailingNewline then text else String.ofList (dropFinalNewline text.toList)

/-- An optional text in round brackets, after the word that leads to it. -/
def inParentheses (lead : String) (text : Option String) : String :=
  match text with
  | none => ""
  | some text => lead ++ "(" ++ escape .parenthesized text ++ ")"

/-- An optional text at the end of a line, after what leads to it. -/
def labelled (lead : String) (text : Option String) : String :=
  match text with
  | none => ""
  | some text => lead ++ escape .label text

end UmlText
