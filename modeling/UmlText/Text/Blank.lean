/-!
# Blank characters

Many texts of a diagram have to hold something visible, and a color may be written with
blanks around it.  A character is *blank* when it has the Unicode property `White_Space`;
the table below lists the 25 code points of that property.  The library's own
`Char.isWhitespace` knows four of them only, so it cannot decide whether a text is visible.

* `isBlank` is the table as a test;
* `IsVisible` says that a text has a character that is not blank;
* `trim` removes the blanks on both sides of a text.
-/

namespace UmlText

/-- The code points with the property `White_Space`, as closed intervals in ascending order.
-/
def blankRanges : List (Nat × Nat) :=
  [(0x09, 0x0D), (0x20, 0x20), (0x85, 0x85), (0xA0, 0xA0), (0x1680, 0x1680), (0x2000, 0x200A),
    (0x2028, 0x2029), (0x202F, 0x202F), (0x205F, 0x205F), (0x3000, 0x3000)]

/-- A character is blank when its code point lies in one of the intervals of the table. -/
def isBlank (c : Char) : Bool :=
  blankRanges.any fun r => r.1 ≤ c.toNat && c.toNat ≤ r.2

/-- A text is visible when some character of it is not blank. -/
def IsVisible (text : String) : Prop :=
  ∃ c ∈ text.toList, isBlank c = false

instance (text : String) : Decidable (IsVisible text) :=
  List.decidableBEx (fun c => isBlank c = false) text.toList

/-- A list of characters without the blanks at its two ends. -/
def trim (chars : List Char) : List Char :=
  ((chars.dropWhile isBlank).reverse.dropWhile isBlank).reverse

end UmlText
