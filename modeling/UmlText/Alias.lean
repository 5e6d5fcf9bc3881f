import UmlText.InvalidValue

/-!
# Aliases

An alias is the short name by which the text of a diagram refers to one of its elements: a
jump label, a participant, a state, a class.  There are two sorts of them.

* A *given* alias is an ASCII letter followed by ASCII letters, digits, underscores and dots.
* A *generated* alias is made by the library for an element whose name cannot stand in the
  text as it is.  It begins with two underscores, which a given alias never does.

The type `Alias` carries the proof that its name is of one of the two sorts, so a caller's
text becomes an alias by `Alias.parse` only.
-/

namespace UmlText

/-- The two characters every generated alias begins with. -/
def generatedMark : List Char :=
  ['_', '_']

/-- The characters that a given alias may have after its first one. -/
def isAliasChar (c : Char) : Bool :=
  c.isAlphanum || c = '_' || c = '.'

/-- What keeps a text from being a given alias; the reserved start is reported before a bad
first character, and of the bad characters the first one. -/
def aliasFlaw? : List Char → Option AliasFlaw
  | [] => some .empty
  | first :: rest =>
      if generatedMark.isPrefixOf (first :: rest) then some .reserved
      else if !first.isAlpha then some (.badStart first)
      else (rest.find? fun c => !isAliasChar c).map .badChar

/-- A name by which the text of a diagram refers to one of its elements. -/
structure Alias where
  /-- The name as it is written. -/
  name : String
  /-- The name is free of flaws, or it is generated. -/
  wellFormed : aliasFlaw? name.toList = none ∨ generatedMark.isPrefixOf name.toList = true
  deriving DecidableEq

namespace Alias

/-- Reads a caller's text as an alias. -/
def parse (text : String) : Except InvalidValue Alias :=
  match h : aliasFlaw? text.toList with
  | none => .ok ⟨text, .inl h⟩
  | some flaw => .error (.badAlias text flaw)

/-- The alias made from a stem and a number: the mark, the stem, the number in decimal. -/
def generated (stem : String) (index : Nat) : Alias where
  name := String.ofList (generatedMark ++ stem.toList ++ (toString index).toList)
  wellFormed := .inr (by simp [generatedMark])

/-- Whether the alias was made by the library. -/
def isGenerated (a : Alias) : Bool :=
  generatedMark.isPrefixOf a.name.toList

@[ext] theorem ext {a b : Alias} (h : a.name = b.name) : a = b := by
  cases a
  cases b
  simp_all

theorem parse_eq_ok_iff {text : String} {a : Alias} :
    parse text = .ok a ↔ aliasFlaw? text.toList = none ∧ a.name = text := by
  unfold parse
  split
  · next h => simp [Alias.ext_iff, h, eq_comm]
  · next h => simp [h]

theorem aliasFlaw?_eq_reserved {chars : List Char} (h : generatedMark.isPrefixOf chars = true) :
    aliasFlaw? chars = some .reserved := by
  cases chars with
  | nil => simp [generatedMark] at h
  | cons first rest => simp [aliasFlaw?, h]

theorem isGenerated_generated (stem : String) (index : Nat) :
    (generated stem index).isGenerated = true := by
  simp [isGenerated, generated, generatedMark]

end Alias

/-- Whether a name can stand in the text of a diagram as it is, as its own alias. -/
def isBareName (name : String) : Bool :=
  (aliasFlaw? name.toList).isNone

end UmlText
