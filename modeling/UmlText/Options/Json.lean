import UmlText.Options

/-!
# Options in JSON

Options can be given as a JSON text: an object whose members are fields of the options, in
any order and each at most once, or an array of the values of the first few fields.  What is
not given keeps its default.  Nothing else is accepted: no other member, no other type of
value, no text behind the end.

The number of fields bounds the number of members, so the reader goes through the fields
that are still left rather than through the text.
-/

namespace UmlText.Options

/-- A field of the options. -/
inductive Field where
  | indent
  | wrap
  | trailingNewline
  deriving DecidableEq, Repr

/-- All fields, in the order in which an array gives them. -/
def Field.all : List Field :=
  [.indent, .wrap, .trailingNewline]

/-- The name of the member that gives a field. -/
def Field.key : Field → String
  | .indent => "indent"
  | .wrap => "wrap"
  | .trailingNewline => "trailing_newline"

/-- The largest number that is read as an indentation. -/
def maxReadable : Nat :=
  255

/-- The rest of a text after the blanks that JSON allows between its parts. -/
def skipBlanks (chars : List Char) : List Char :=
  chars.dropWhile fun c => [' ', '\t', '\n', '\r'].contains c

/-- The value of a hexadecimal digit. -/
def hexValue? (c : Char) : Option Nat :=
  if c.isDigit then some (c.toNat - '0'.toNat)
  else if 'a' ≤ c ∧ c ≤ 'f' then some (c.toNat - 'a'.toNat + 10)
  else if 'A' ≤ c ∧ c ≤ 'F' then some (c.toNat - 'A'.toNat + 10)
  else none

/-- The character with the code that four hexadecimal digits give, if there is one. -/
def hexChar? (a b c d : Char) : Option Char := do
  let code := ((← hexValue? a) * 16 + (← hexValue? b)) * 256 +
    (← hexValue? c) * 16 + (← hexValue? d)
  if code.isValidChar then some (Char.ofNat code) else none

/-- The character that a one-letter escape stands for. -/
def escapeChar? : Char → Option Char
  | '"' => some '"'
  | '\\' => some '\\'
  | '/' => some '/'
  | 'b' => some '\x08'
  | 'f' => some '\x0c'
  | 'n' => some '\n'
  | 'r' => some '\r'
  | 't' => some '\t'
  | _ => none

/-- Reads a string up to its closing quote; the opening one is already read.  Characters
outside the basic plane, which take two escapes, occur in no name of a field and are not
read. -/
def readString : List Char → Option (List Char × List Char)
  | [] => none
  | '"' :: rest => some ([], rest)
  | '\\' :: 'u' :: a :: b :: c :: d :: rest => do
      let char ← hexChar? a b c d
      let (chars, rest) ← readString rest
      return (char :: chars, rest)
  | '\\' :: c :: rest => do
      let char ← escapeChar? c
      let (chars, rest) ← readString rest
      return (char :: chars, rest)
  | c :: rest => do
      if c < ' ' ∨ c = '\\' then none
      let (chars, rest) ← readString rest
      return (c :: chars, rest)

/-- Reads a number without sign, fraction and exponent, and without needless zeros in front.
-/
def readNumber (chars : List Char) : Option (Nat × List Char) :=
  let digits := chars.takeWhile Char.isDigit
  let value := digits.foldl (fun n c => 10 * n + (c.toNat - '0'.toNat)) 0
  if digits.isEmpty ∨ (digits.head? = some '0' ∧ 1 < digits.length) ∨ maxReadable < value then none
  else some (value, chars.dropWhile Char.isDigit)

/-- Reads one of the two truth values. -/
def readBool : List Char → Option (Bool × List Char)
  | 't' :: 'r' :: 'u' :: 'e' :: rest => some (true, rest)
  | 'f' :: 'a' :: 'l' :: 's' :: 'e' :: rest => some (false, rest)
  | _ => none

/-- Reads the value of a field. -/
def readValue (o : Options) (chars : List Char) : Field → Option (Options × List Char)
  | .indent => (readNumber chars).map fun (indent, rest) => ({ o with indent }, rest)
  | .wrap => (readBool chars).map fun (wrap, rest) => ({ o with wrap }, rest)
  | .trailingNewline =>
      (readBool chars).map fun (trailingNewline, rest) => ({ o with trailingNewline }, rest)

/-- Reads the elements of an array that is not empty: values of the fields that are left, in
order, up to the closing bracket. -/
def readElements (o : Options) (chars : List Char) : List Field → Option (Options × List Char)
  | [] => none
  | field :: left => do
      let (o, rest) ← readValue o (skipBlanks chars) field
      match skipBlanks rest with
      | ']' :: rest => return (o, rest)
      | ',' :: rest => readElements o rest left
      | _ => none

/-- Reads the members of an object that is not empty: values of the fields that are left, in
any order, up to the closing brace. -/
def readMembers
    (o : Options)
    (chars : List Char)
    (left : List Field) : Option (Options × List Char) :=
  match skipBlanks chars with
  | '"' :: rest =>
      match readString rest with
      | none => none
      | some (key, rest) =>
          match _found : left.find? fun field => field.key.toList = key with
          | none => none
          | some field =>
              match skipBlanks rest with
              | ':' :: rest =>
                  match readValue o (skipBlanks rest) field with
                  | none => none
                  | some (o, rest) =>
                      match skipBlanks rest with
                      | '\x7d' :: rest => some (o, rest)
                      | ',' :: rest => readMembers o rest (left.erase field)
                      | _ => none
              | _ => none
  | _ => none
termination_by left.length
decreasing_by
  have mem := List.mem_of_find?_eq_some _found
  have pos := List.length_pos_of_mem mem
  rw [List.length_erase_of_mem mem]
  omega

/-- Reads an object or an array. -/
def readDocument (chars : List Char) : Option (Options × List Char) :=
  match skipBlanks chars with
  | '[' :: rest =>
      match skipBlanks rest with
      | ']' :: rest => some ({}, rest)
      | rest => readElements {} rest Field.all
  | '\x7b' :: rest =>
      match skipBlanks rest with
      | '\x7d' :: rest => some ({}, rest)
      | rest => readMembers {} rest Field.all
  | _ => none

/-- The options that a JSON text gives, if their indentation is not too wide. -/
def ofJson (text : String) : Except OptionsError Options :=
  match readDocument text.toList with
  | none => .error .unreadable
  | some (o, rest) => if (skipBlanks rest).isEmpty then o.validate else .error .unreadable

end UmlText.Options
