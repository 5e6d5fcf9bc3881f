import UmlText.Proofs.Sequence.OneLine
import UmlText.Proofs.Text.Words

/-!
# How the lines of sequence diagrams begin

A message begins with the alias of its source, and an alias can be any word.  Behind the
first blank of a message stands an arrow, which no line has there whose first word is a
fixed one, unless a free text stands behind the word: the words of a return, of a block and
of its further sections (`textWords`).  So the kind of an element shows in its first line,
with one exception: a message from a participant whose alias is one of these words looks
like the line that the word is there for.
-/

namespace UmlText.Sequence

section Kinds

/-- The words that stand in front of a free text. -/
def textWords : List String :=
  ["return", "else", "alt", "opt", "loop", "par", "break", "critical", "group"]

/-- The other words that lines begin with. -/
def fixedWords : List String :=
  ["participant", "actor", "boundary", "control", "entity", "database", "collections", "queue",
    "create", "note", "hnote", "rnote", "ref", "activate", "deactivate", "destroy", "box",
    "autonumber", "end", "@enduml"]

/-- The kind that goes with a word. -/
def wordKind (word : String) : String :=
  if word ∈ ["participant", "actor", "boundary", "control", "entity", "database", "collections",
      "queue"] then "participant"
  else if word ∈ ["note", "hnote", "rnote"] then "note"
  else word

/-- Whether an arrow stands up to the next blank: there is a dash, and it is not in a quoted
name or in a color. -/
def BeginsArrow (rest : List Char) : Prop :=
  '-' ∈ rest.takeWhile (· ≠ ' ') ∧ rest.head? ≠ some '"' ∧ rest.head? ≠ some '#'

instance (rest : List Char) : Decidable (BeginsArrow rest) :=
  inferInstanceAs (Decidable (_ ∧ _))

/-- The kind that a written line shows. -/
def lineKind (l : List Char) : String :=
  if (firstWord l).head? = some '[' then "message"
  else if (firstWord l).head? = some '=' then "divider"
  else if (firstWord l).head? = some '.' then "delay"
  else if (firstWord l).head? = some '|' then "space"
  else if String.ofList (firstWord l) ∈ textWords then String.ofList (firstWord l)
  else if BeginsArrow (afterWord l) then "message"
  else wordKind (String.ofList (firstWord l))

/-- The kind that the first line of an element shows. -/
def Node.shown : Node → String
  | .message m =>
      match m.source with
      | none => "message"
      | some source => if source.name ∈ textWords then source.name else "message"
  | node => node.kind

theorem fixedWords_spec :
    ∀ word ∈ fixedWords,
      (∀ c ∈ word.toList, c ≠ ' ') ∧ word.toList ≠ [] ∧ word ∉ textWords ∧
        ∀ c ∈ ['[', '=', '.', '|'], word.toList.head? ≠ some c := by
  decide +kernel

theorem textWords_spec :
    ∀ word ∈ textWords,
      (∀ c ∈ word.toList, c ≠ ' ') ∧ word.toList ≠ [] ∧
        ∀ c ∈ ['[', '=', '.', '|'], word.toList.head? ≠ some c := by
  decide +kernel

end Kinds

section Arrows

variable {word rest : List Char}

/-- A word without a dash is no arrow. -/
theorem not_beginsArrow_word (hword : '-' ∉ word) (hrest : ∀ c ∈ rest.head?, c = ' ') :
    ¬BeginsArrow (word ++ rest) := by
  rintro ⟨hdash, _, _⟩
  have hstop : rest.takeWhile (· ≠ ' ') = [] := by
    cases rest with
    | nil => rfl
    | cons c rest =>
        have hc : c = ' ' := hrest c rfl
        simp [hc]
  rw [List.takeWhile_append, hstop] at hdash
  split at hdash
  · rw [List.append_nil] at hdash
    exact hword hdash
  · exact hword (List.takeWhile_subset _ hdash)

theorem not_beginsArrow_nil : ¬BeginsArrow [] := by
  decide

theorem not_beginsArrow_quote : ¬BeginsArrow ('"' :: rest) := by
  simp [BeginsArrow]

theorem not_beginsArrow_hash : ¬BeginsArrow ('#' :: rest) := by
  simp [BeginsArrow]

theorem not_beginsArrow_colorSuffix (color : Option Color) :
    ¬BeginsArrow (colorSuffix color).toList.tail := by
  rw [toList_colorSuffix]
  cases color with
  | none => exact not_beginsArrow_nil
  | some color =>
      rw [Option.elim_some, toList_display]
      exact not_beginsArrow_hash

theorem dash_notMem_alias {a : Alias} (hplain : a.IsPlain) : '-' ∉ a.name.toList := by
  intro hmem
  have hdash := hplain '-' hmem
  revert hdash
  decide

/-- A sign has no blank in it. -/
theorem Arrow.isBlankFree_sign (a : Arrow) : ∀ c ∈ a.sign.toList, c ≠ ' ' := by
  obtain ⟨dotted, head, bidirectional, color⟩ := a
  have hcolor : ∀ color : Color, ' ' ∉ color.display.toList := by
    intro color hmem
    rw [toList_display] at hmem
    have hblank := isColorChar_of_mem_body color ' ' (by simpa using hmem)
    revert hblank
    decide
  rintro c hc rfl
  cases head <;> cases dotted <;> cases bidirectional <;> cases color <;>
    simp [sign, ArrowHead.left, ArrowHead.right, hcolor] at hc

/-- A sign has a dash in it, and begins neither like a quoted name nor like a color. -/
theorem Arrow.beginsArrow_sign (a : Arrow) (rest : List Char) :
    BeginsArrow (a.sign.toList ++ rest) := by
  have hdash : '-' ∈ a.sign.toList := by
    simp [sign]
  refine ⟨?_, ?_⟩
  · rw [List.takeWhile_append_of_pos fun c hc => decide_eq_true (a.isBlankFree_sign c hc)]
    exact List.mem_append_left _ hdash
  · obtain ⟨dotted, head, bidirectional, color⟩ := a
    cases bidirectional with
    | false => simp [sign]
    | true => cases head <;> simp [sign, ArrowHead.left]

end Arrows

section FirstLines

variable {indent depth : Nat} {word content : String} {rest : List Char}

/-- A line that begins with a fixed word is of the kind that goes with the word. -/
theorem lineKind_fixed
    (hfixed : word ∈ fixedWords)
    (hcontent : content.toList = word.toList ++ rest)
    (hrest : ∀ c ∈ rest.head?, c = ' ')
    (harrow : ¬BeginsArrow rest.tail) :
    lineKind ((⟨depth, content⟩ : Line).laid indent) = wordKind word := by
  obtain ⟨hblank, hvisible, htext, hhead⟩ := fixedWords_spec word hfixed
  unfold lineKind
  rw [firstWord_laid hcontent hblank hvisible hrest,
    afterWord_laid_tail hcontent hblank hvisible hrest, String.ofList_toList]
  rw [if_neg (hhead '[' (by decide)), if_neg (hhead '=' (by decide)),
    if_neg (hhead '.' (by decide)), if_neg (hhead '|' (by decide)), if_neg htext, if_neg harrow]

/-- A line that begins with the word in front of a free text shows that word. -/
theorem lineKind_text
    (htext : word ∈ textWords)
    (hcontent : content.toList = word.toList ++ rest)
    (hrest : ∀ c ∈ rest.head?, c = ' ') :
    lineKind ((⟨depth, content⟩ : Line).laid indent) = word := by
  obtain ⟨hblank, hvisible, hhead⟩ := textWords_spec word htext
  unfold lineKind
  rw [firstWord_laid hcontent hblank hvisible hrest, String.ofList_toList]
  rw [if_neg (hhead '[' (by decide)), if_neg (hhead '=' (by decide)),
    if_neg (hhead '.' (by decide)), if_neg (hhead '|' (by decide)), if_pos htext]

/-- The first line of an element, and the kind that it shows. -/
structure Leads (depth : Nat) (lines : List Line) (kind : String) : Prop where
  exists_cons : ∃ content rest, lines = ⟨depth, content⟩ :: rest ∧
    (∃ c, content.toList.head? = some c ∧ c ≠ ' ') ∧
    ∀ indent, lineKind ((⟨depth, content⟩ : Line).laid indent) = kind

theorem leads_fixed
    (word : String)
    {lines : List Line}
    (hfixed : word ∈ fixedWords)
    (hcontent : content.toList = word.toList ++ rest)
    (hrest : ∀ c ∈ rest.head?, c = ' ')
    (harrow : ¬BeginsArrow rest.tail) :
    Leads depth (⟨depth, content⟩ :: lines) (wordKind word) := by
  obtain ⟨hblank, hvisible, _, _⟩ := fixedWords_spec word hfixed
  refine ⟨_, _, rfl, ?_, fun indent => lineKind_fixed hfixed hcontent hrest harrow⟩
  obtain ⟨c, others, hcons⟩ := List.exists_cons_of_ne_nil hvisible
  exact ⟨c, by rw [hcontent, hcons]; rfl, hblank c (by rw [hcons]; exact List.mem_cons_self)⟩

theorem leads_text
    (word : String)
    {lines : List Line}
    (htext : word ∈ textWords)
    (hcontent : content.toList = word.toList ++ rest)
    (hrest : ∀ c ∈ rest.head?, c = ' ') :
    Leads depth (⟨depth, content⟩ :: lines) word := by
  obtain ⟨hblank, hvisible, _⟩ := textWords_spec word htext
  refine ⟨_, _, rfl, ?_, fun indent => lineKind_text htext hcontent hrest⟩
  obtain ⟨c, others, hcons⟩ := List.exists_cons_of_ne_nil hvisible
  exact ⟨c, by rw [hcontent, hcons]; rfl, hblank c (by rw [hcons]; exact List.mem_cons_self)⟩

/-- A line whose first character gives its kind. -/
theorem leads_mark
    {lines : List Line}
    {c : Char}
    {kind : String}
    (hc : content.toList.head? = some c)
    (hmark : (c, kind) ∈ [('[', "message"), ('=', "divider"), ('.', "delay"), ('|', "space")]) :
    Leads depth (⟨depth, content⟩ :: lines) kind := by
  have hblank : c ≠ ' ' := by
    rintro rfl
    simp at hmark
  refine ⟨_, _, rfl, ⟨c, hc, hblank⟩, fun indent => ?_⟩
  unfold lineKind
  rw [head_firstWord_laid hc hblank]
  simp only [List.mem_cons, Prod.mk.injEq, List.not_mem_nil, or_false] at hmark
  rcases hmark with ⟨rfl, rfl⟩ | ⟨rfl, rfl⟩ | ⟨rfl, rfl⟩ | ⟨rfl, rfl⟩ <;> rfl

theorem head_labelled (text : Option String) : ∀ c ∈ (labelled " " text).toList.head?, c = ' ' := by
  cases text <;> simp [labelled]

theorem head_colorSuffix (color : Option Color) :
    ∀ c ∈ (colorSuffix color).toList.head?, c = ' ' := by
  cases color <;> simp [toList_colorSuffix]

/-- A fixed word with the alias of a participant behind it. -/
theorem leads_named
    (word : String)
    {a : Alias}
    {x : List Char}
    {lines : List Line}
    (hfixed : word ∈ fixedWords)
    (hplain : a.IsPlain)
    (hcontent : content.toList = word.toList ++ ' ' :: (a.name.toList ++ x))
    (hx : ∀ c ∈ x.head?, c = ' ') :
    Leads depth (⟨depth, content⟩ :: lines) (wordKind word) :=
  leads_fixed word hfixed hcontent (by simp) (not_beginsArrow_word (dash_notMem_alias hplain) hx)

/-- What stands behind the word for a participant. -/
theorem Participant.toList_line (p : Participant) :
    ∃ tail, p.line.toList = p.kind.keyword.toList ++ ' ' ::
        ((p.display.elim [] fun display =>
          '"' :: ((escape .quoted display).toList ++ '"' :: " as ".toList)) ++
        (p.id.name.toList ++ tail)) ∧
      ∀ c ∈ tail.head?, c = ' ' := by
  obtain ⟨kind, id, display, color, order⟩ := p
  refine ⟨(order.elim [] fun order => " order ".toList ++ (toString order).toList) ++
    (colorSuffix color).toList, ?_, ?_⟩
  · cases display <;> cases order <;> simp [line]
  · cases order with
    | none => exact head_colorSuffix color
    | some order => simp

theorem not_beginsArrow_participant {p : Participant} (hplain : p.id.IsPlain) :
    ∃ rest, p.line.toList = p.kind.keyword.toList ++ ' ' :: rest ∧ ¬BeginsArrow rest := by
  obtain ⟨tail, hline, htail⟩ := p.toList_line
  refine ⟨_, hline, ?_⟩
  cases p.display with
  | none =>
      simp only [Option.elim_none, List.nil_append]
      exact not_beginsArrow_word (dash_notMem_alias hplain) htail
  | some display => exact not_beginsArrow_quote

theorem leads_participant {p : Participant} (hplain : p.id.IsPlain) (lines : List Line) :
    Leads depth (⟨depth, p.line⟩ :: lines) "participant" := by
  obtain ⟨rest, hline, harrow⟩ := not_beginsArrow_participant hplain
  have hkind : wordKind p.kind.keyword = "participant" := by
    cases p.kind <;> decide
  rw [← hkind]
  exact leads_fixed p.kind.keyword (by cases p.kind <;> decide) hline (by simp) harrow

theorem Message.toList_line (m : Message Alias) :
    ∃ rest, m.line.toList =
      (m.source.elim ['['] fun source => source.name.toList ++ [' ']) ++
        (m.arrow.sign.toList ++ rest) := by
  obtain ⟨source, target, text, arrow, activation⟩ := m
  refine ⟨((target.elim [']'] fun target => ' ' :: target.name.toList) ++
    (activation.elim [] fun activation => ' ' :: activation.sign.toList)) ++
      (labelled " : " text).toList, ?_⟩
  cases source <;> cases target <;> cases activation <;> simp [line]

theorem leads_message
    {m : Message Alias}
    (hplain : ∀ a ∈ m.source.toList, a.IsPlain)
    (lines : List Line) :
    Leads depth (⟨depth, m.line⟩ :: lines) (Node.message m).shown := by
  obtain ⟨rest, hline⟩ := m.toList_line
  cases hsource : m.source with
  | none =>
      rw [hsource] at hline
      simp only [Node.shown, hsource]
      exact leads_mark (c := '[') (by rw [hline]; rfl) (by decide)
  | some source =>
      rw [hsource] at hline
      simp only [Node.shown, hsource]
      have hcontent : m.line.toList =
          source.name.toList ++ ' ' :: (m.arrow.sign.toList ++ rest) := by
        rw [hline]
        simp
      have hblank : ∀ c ∈ source.name.toList, c ≠ ' ' := by
        rintro c hc rfl
        have hchar := hplain source (by simp [hsource]) ' ' hc
        revert hchar
        decide
      obtain ⟨first, others, hcons, hfirst⟩ := source.exists_name_eq_cons
      have hvisible : source.name.toList ≠ [] := by simp [hcons]
      have hmark : ∀ c ∈ ['[', '=', '.', '|'], source.name.toList.head? ≠ some c := by
        intro c hc hhead
        rw [hcons] at hhead
        cases hhead
        have hletter : ∀ c ∈ ['[', '=', '.', '|'], ¬(c.isAlpha = true ∨ c = '_') := by decide
        exact hletter first hc hfirst
      refine ⟨_, _, rfl, ⟨first, by rw [hcontent, hcons]; rfl, hblank first (by simp [hcons])⟩,
        fun indent => ?_⟩
      unfold lineKind
      rw [firstWord_laid hcontent hblank hvisible (by simp),
        afterWord_laid hcontent hblank hvisible, String.ofList_toList]
      rw [if_neg (hmark '[' (by decide)), if_neg (hmark '=' (by decide)),
        if_neg (hmark '.' (by decide)), if_neg (hmark '|' (by decide)),
        if_pos (m.arrow.beginsArrow_sign rest)]

theorem NotePlace.toList_suffix (place : NotePlace Alias) :
    ∃ word rest, place.suffix.toList = ' ' :: (word ++ rest) ∧ '-' ∉ word ∧
      ∀ x : List Char, (∀ c ∈ x.head?, c = ' ') → ∀ c ∈ (rest ++ x).head?, c = ' ' := by
  cases place with
  | leftOf a => exact ⟨"left".toList, _, by simp [suffix]; rfl, by decide, by simp⟩
  | rightOf a => exact ⟨"right".toList, _, by simp [suffix]; rfl, by decide, by simp⟩
  | covering ps => exact ⟨"over".toList, _, by simp [suffix]; rfl, by decide, by simp⟩
  | across => exact ⟨"across".toList, [], by simp [suffix], by decide, fun x hx => hx⟩

theorem leads_note (n : Note Alias) : Leads depth (n.lines depth) "note" := by
  obtain ⟨word, rest, hsuffix, hdash, hrest⟩ := n.place.toList_suffix
  have hkind : wordKind n.shape.keyword = "note" := by
    cases n.shape <;> decide
  have hfixed : n.shape.keyword ∈ fixedWords := by
    cases n.shape <;> decide
  have hblank : ∀ x : List Char, (∀ c ∈ x.head?, c = ' ') →
      ∀ c ∈ (rest ++ ((colorSuffix n.color).toList ++ x)).head?, c = ' ' := by
    intro x hx
    refine hrest _ ?_
    cases n.color with
    | none => exact hx
    | some color => simp [toList_colorSuffix]
  have hline : ∀ (content : String) (x : List Char) (lines : List Line), (∀ c ∈ x.head?, c = ' ') →
      content.toList = n.shape.keyword.toList ++
        (n.place.suffix.toList ++ ((colorSuffix n.color).toList ++ x)) →
      Leads depth (⟨depth, content⟩ :: lines) "note" := by
    intro content x lines hx hcontent
    rw [hsuffix] at hcontent
    rw [← hkind]
    refine leads_fixed n.shape.keyword hfixed hcontent (by simp) ?_
    simpa using not_beginsArrow_word hdash (hblank x hx)
  unfold Note.lines noteLines
  split
  · exact hline _ [] _ (by simp) (by simp)
  · exact hline _ (" : ".toList ++ (escape .label n.text).toList) _ (by simp) (by simp)

theorem leads_ref (ps : List Alias) (text : String) :
    Leads depth (noteLines depth ("ref over " ++ commaList ps) text "end ref") "ref" := by
  have hline : ∀ (content : String) (x : List Char) (lines : List Line),
      content.toList = "ref".toList ++ ' ' :: ("over".toList ++ ' ' :: x) →
      Leads depth (⟨depth, content⟩ :: lines) "ref" := by
    intro content x lines hcontent
    exact leads_fixed "ref" (by decide) hcontent (by simp)
      (not_beginsArrow_word (by decide) (by simp))
  unfold noteLines
  split
  · exact hline _ (commaList ps).toList _ (by simp)
  · exact hline _ ((commaList ps).toList ++ (" : ".toList ++ (escape .label text).toList)) _
      (by simp)

theorem leads_autonumber (n : Autonumber) : Leads depth [⟨depth, n.line⟩] "autonumber" := by
  have hnumber : ∀ n : Nat, '-' ∉ (toString n).toList := by
    intro n hmem
    have hdash := isAliasChar_of_mem_repr hmem
    revert hdash
    decide
  have hline : ∀ (content : String) (x : List Char), content.toList = "autonumber".toList ++ x →
      (∀ c ∈ x.head?, c = ' ') → ¬BeginsArrow x.tail →
      Leads depth [⟨depth, content⟩] "autonumber" := by
    intro content x hcontent hx harrow
    exact leads_fixed "autonumber" (by decide) hcontent hx harrow
  cases n with
  | start first step format =>
      let quoted : List Char := format.elim [] fun format =>
        ' ' :: '"' :: ((escape .format format).toList ++ ['"'])
      have hhead : ∀ c ∈ quoted.head?, c = ' ' := by
        cases format <;> simp [quoted]
      have harrow : ¬BeginsArrow quoted.tail := by
        cases format with
        | none => exact not_beginsArrow_nil
        | some format => exact not_beginsArrow_quote
      cases step with
      | some step =>
          refine hline _ (' ' :: ((toString (first.getD 1)).toList ++
            (' ' :: ((toString step).toList ++ quoted)))) ?_ (by simp)
            (not_beginsArrow_word (hnumber _) (by simp))
          cases format <;> simp [Autonumber.line, quoted]
      | none =>
          cases first with
          | none =>
              refine hline _ quoted ?_ hhead harrow
              cases format <;> simp [Autonumber.line, quoted]
          | some first =>
              refine hline _ (' ' :: ((toString first).toList ++ quoted)) ?_ (by simp)
                (not_beginsArrow_word (hnumber _) hhead)
              cases format <;> simp [Autonumber.line, quoted]
  | stop => exact hline _ " stop".toList rfl (by simp) (by decide)
  | resume => exact hline _ " resume".toList rfl (by simp) (by decide)

theorem leads_box (title : Option String) (color : Option Color) (lines : List Line) :
    Leads depth (⟨depth, boxOpening title color⟩ :: lines) "box" := by
  have hline : ∀ x : List Char, (boxOpening title color).toList = "box".toList ++ x →
      (∀ c ∈ x.head?, c = ' ') → ¬BeginsArrow x.tail →
      Leads depth (⟨depth, boxOpening title color⟩ :: lines) "box" := by
    intro x hcontent hx harrow
    exact leads_fixed "box" (by decide) hcontent hx harrow
  cases title with
  | none =>
      exact hline (colorSuffix color).toList (by simp [boxOpening]) (head_colorSuffix color)
        (not_beginsArrow_colorSuffix color)
  | some title =>
      exact hline
        (' ' :: '"' :: ((escape .quoted title).toList ++ '"' :: (colorSuffix color).toList))
        (by simp [boxOpening]) (by simp) not_beginsArrow_quote

end FirstLines

end UmlText.Sequence
