/-!
# Escaping of texts

A caller's text is written into the middle of a line of syntax, so whatever the tool that
draws the diagram would read as more than a plain character has to be defused.  The escape
character is `~`: it makes the next character stand for itself.  Three things are defused in
this way.

* *Markup*: one of the characters that switch a style when they come in pairs, `[[` of a
  link, and a `<` that would open a tag; and, at the start of a line, the signs of lists and
  headings.
* *Terminators*: the characters that would end the production the text is written into.
  Which they are depends on the `Position` of the text.
* *Closing words*: a line of a note that begins with `end`.

Line breaks and carriage returns are written as `\n` and `\r`, so that a text stays on its
line, and every backslash is doubled; only in a note or a legend, where the text has lines
of its own, a line break stays one.  `unescape` is the reading of an escaped text; it does
not need the position.
-/

namespace UmlText

/-- A place in a line of syntax that a caller's text may take, with what is special there. -/
structure Position where
  /-- The characters to defuse wherever they stand. -/
  terminators : List Char := []
  /-- The characters to defuse as the last one of the text. -/
  trailing : List Char := []
  /-- The characters to defuse at the start of a line. -/
  leaders : List Char := ['*', '#', '=']
  /-- Whether line breaks stay line breaks. -/
  multiline : Bool := false
  /-- Whether tags are meant to have their effect. -/
  markup : Bool := false
  deriving DecidableEq, Repr

namespace Position

/-- Free text up to the end of the line. -/
def label : Position := {}

/-- The text of an action, between its colon and the character that gives its shape. -/
def action : Position := { trailing := [';', '|', '<', '>', '/', ']', '\x7d'] }

/-- Between round brackets. -/
def parenthesized : Position := { terminators := ['(', ')'] }

/-- Between double quotes. -/
def quoted : Position := { terminators := ['"'] }

/-- Between the bars of a swimlane. -/
def lane : Position := { terminators := ['|'] }

/-- Between the angle brackets of a stereotype. -/
def stereotype : Position := { terminators := ['>'] }

/-- A member of a class, on a line of its own: visibility marks, modifiers and separators
stand at the start of such a line. -/
def member : Position := { leaders := ['*', '#', '=', '.', '-', '_', '+', '\x7b'] }

/-- A number format between double quotes, whose tags are meant to have their effect. -/
def format : Position := { terminators := ['"'], markup := true }

/-- The lines of a note or of a legend. -/
def block : Position := { multiline := true }

end Position

/-- The characters that switch a style, or open a link, when two of them meet. -/
def isPairing (c : Char) : Bool :=
  ['*', '/', '"', '-', '_', '=', '['].contains c

/-- The characters that make a tag of a `<` in front of them. -/
def opensTag (c : Char) : Bool :=
  c.isAlpha || ['/', '&', ':'].contains c

/-- The characters that do not end the start of a line. -/
def isLinePadding (c : Char) : Bool :=
  c = ' ' || c = '\t'

/-- The word that closes a note, or another multi-line construct, begins with these. -/
def closingStem : List Char :=
  ['e', 'n', 'd']

/-- Whether an ordinary character needs a `~` in front: `previous` and `rest` are its
neighbours in the text, and `atStart` says that nothing but padding stands before it on its
line. -/
def needsGuard
    (p : Position)
    (previous : Option Char)
    (atStart : Bool)
    (c : Char)
    (rest : List Char) : Bool :=
  (isPairing c && (previous = some c || rest.head? = some c)) ||
  (atStart && (p.leaders.contains c || (p.multiline && closingStem.isPrefixOf (c :: rest)))) ||
  (c = '<' && !p.markup && rest.head?.any opensTag) ||
  p.terminators.contains c ||
  (rest.isEmpty && p.trailing.contains c)

/-- What is written for one character of a text. -/
def escapeChar
    (p : Position)
    (previous : Option Char)
    (atStart : Bool)
    (c : Char)
    (rest : List Char) : List Char :=
  if c = '\n' then (if p.multiline then ['\n'] else ['\\', 'n'])
  else if c = '\r' then ['\\', 'r']
  else if c = '\\' then ['\\', '\\']
  else if c = '~' then ['~', '~']
  else if isLinePadding c then [c]
  else if needsGuard p previous atStart c rest then ['~', c]
  else [c]

/-- Whether the character after `c` is at the start of its line. -/
def staysAtStart (atStart : Bool) (c : Char) : Bool :=
  c = '\n' || (atStart && (c = '\r' || isLinePadding c))

/-- Writes the rest of a text, given the character before it. -/
def escapeFrom (p : Position) : Option Char → Bool → List Char → List Char
  | _, _, [] => []
  | previous, atStart, c :: rest =>
      escapeChar p previous atStart c rest ++
        escapeFrom p (some c) (staysAtStart atStart c) rest

/-- A text as it is written at a position, character by character. -/
def escapeChars (p : Position) (chars : List Char) : List Char :=
  escapeFrom p none true chars

/-- A text as it is written at a position. -/
def escape (p : Position) (text : String) : String :=
  String.ofList (escapeChars p text.toList)

/-- Reads an escaped text: `~` and the character after it stand for that character, `\n`,
`\r` and `\\` for a line break, a carriage return and a backslash; everything else stands
for itself. -/
def unescapeChars : List Char → List Char
  | [] => []
  | '~' :: c :: rest => c :: unescapeChars rest
  | '\\' :: 'n' :: rest => '\n' :: unescapeChars rest
  | '\\' :: 'r' :: rest => '\r' :: unescapeChars rest
  | '\\' :: '\\' :: rest => '\\' :: unescapeChars rest
  | '\\' :: c :: rest => '\\' :: c :: unescapeChars rest
  | c :: rest => c :: unescapeChars rest

/-- The text that an escaped text stands for. -/
def unescape (text : String) : String :=
  String.ofList (unescapeChars text.toList)

end UmlText
