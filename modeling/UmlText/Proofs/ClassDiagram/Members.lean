import UmlText.Proofs.ClassDiagram.Calls
import UmlText.Proofs.ClassDiagram.OneLine
import UmlText.Proofs.Text.Bodies
import UmlText.Proofs.Text.Edges

/-!
# Members of classes

A member stands on a line of its own, its text behind its modifier and the mark of its
visibility.  Two things are asked of such a line: what it is read as, and whether it ends
the class it stands in.

* A member without marks whose text is a closing brace is written as a closing brace, and no
  other one is.  So the lines of a class that could end it are its last one and those of
  such members.
* The line determines the member, but for the mark of a package.  That mark is the escape
  character, so in front of a guarded character it is read as a guarded `~`: the line is
  that of a member without a mark whose text has a `~` in front.
-/

namespace UmlText.ClassDiagram

section Braces

/-- A written line with nothing but a closing brace on it. -/
def isClosingBrace (l : List Char) : Bool :=
  trim l = ['\x7d']

/-- The last one of the lines, and no other, holds nothing but a closing brace. -/
def ClosedOnlyByLast (lines : List (List Char)) : Prop :=
  lines.countP isClosingBrace = 1 ∧ lines.getLast?.any isClosingBrace = true

instance (lines : List (List Char)) : Decidable (ClosedOnlyByLast lines) :=
  inferInstanceAs (Decidable (_ ∧ _))

/-- A member without marks whose text is a closing brace. -/
def Member.isBareBrace (m : Member) : Bool :=
  m.modifier.isNone && m.visibility.isNone && isClosingBrace m.text.toList

/-- Some call declares the class, in some state of a build. -/
def Class.Declared (c : Class) : Prop :=
  ∃ (call : ClassCall) (e e' : Engine grammar), call.declare.run e = (.ok c, e')

theorem isBlank_closingBrace : isBlank '\x7d' = false := by
  decide

theorem isClosingBrace_laid (indent depth : Nat) (content : String) :
    isClosingBrace ((⟨depth, content⟩ : Line).laid indent) = isClosingBrace content.toList := by
  have hblanks : ∀ c ∈ List.replicate (depth * indent) ' ', isBlank c = true := by
    intro c hc
    rw [List.eq_of_mem_replicate hc]
    decide
  rw [isClosingBrace, isClosingBrace, Line.laid, trim_append_of_blank hblanks]

/-- A line that begins with another visible character is no closing brace. -/
theorem isClosingBrace_eq_false
    {c : Char}
    (hblank : isBlank c = false)
    (hc : c ≠ '\x7d')
    (l : List Char) :
    isClosingBrace (c :: l) = false := by
  rw [isClosingBrace, decide_eq_false_iff_not]
  intro h
  exact hc (eq_of_trim_eq_singleton hblank isBlank_closingBrace h)

/-- A blank, or a closing brace, is written as itself in a member. -/
theorem leaves_of_isBlank {c : Char} (hline : isLineBreak c = false) (h : isBlank c = true) :
    Position.member.leaves c = true := by
  have hspecial : ∀ d ∈ ['~', '\\', '*', '/', '"', '-', '_', '=', '[', '<', '#', '.', '+', '\x7b'],
      c ≠ d := by
    rintro d hd rfl
    have hvisible : ['~', '\\', '*', '/', '"', '-', '_', '=', '[', '<', '#', '.', '+', '\x7b'].all
        (fun d => !isBlank d) = true := by
      decide
    have hc := List.all_eq_true.mp hvisible c hd
    rw [h] at hc
    cases hc
  simp only [List.forall_mem_cons, List.not_mem_nil, false_imp_iff, implies_true, and_true]
    at hspecial
  simp [Position.leaves, Position.member, isEscape, isPairing, hline, hspecial]

/-- Escaping neither makes nor removes a closing brace. -/
theorem isClosingBrace_escape {text : String} (hline : FitsOneLine text) :
    isClosingBrace (escape .member text).toList = isClosingBrace text.toList := by
  have hself : ∀ l : List Char, (∀ c ∈ l, isLineBreak c = false) → isClosingBrace l = true →
      (∀ c ∈ l, isEscape c = false) ∧ escapeChars .member l = l := by
    intro l hline hl
    rw [isClosingBrace, decide_eq_true_eq, trim_eq_singleton_iff isBlank_closingBrace] at hl
    obtain ⟨front, back, rfl, hfront, hback⟩ := hl
    have hleaves : ∀ c ∈ front ++ '\x7d' :: back, Position.member.leaves c = true := by
      intro c hc
      rcases List.mem_append.mp hc with hmem | hmem
      · exact leaves_of_isBlank (hline c hc) (hfront c hmem)
      · rcases List.mem_cons.mp hmem with rfl | hmem
        · decide
        · exact leaves_of_isBlank (hline c hc) (hback c hmem)
    refine ⟨fun c hc => ?_, escapeFrom_eq_self rfl hleaves⟩
    have hc := hleaves c hc
    simp only [Position.leaves, Bool.and_eq_true, Bool.not_eq_true'] at hc
    exact hc.1.1.1.2
  have hwritten : ∀ c ∈ (escape .member text).toList, isLineBreak c = false :=
    fitsOneLine_escape rfl text
  rw [escape, String.toList_ofList] at hwritten ⊢
  rw [Bool.eq_iff_iff]
  constructor
  · intro h
    have htext := unescapeChars_eq_self (hself _ hwritten h).1
    rw [unescapeChars_escapeChars] at htext
    rw [htext]
    exact h
  · intro h
    rw [(hself _ hline h).2]
    exact h

end Braces

section Lines

theorem Modifier.keyword_inj {k k' : Modifier} (h : k.keyword = k'.keyword) : k = k' := by
  cases k <;> cases k' <;> simp [keyword] at h <;> rfl

theorem Visibility.marker_inj {v v' : Visibility} (h : v.marker = v'.marker) : v = v' := by
  cases v <;> cases v' <;> first | rfl | exact absurd h (by decide)

/-- What stands behind the modifier of a member. -/
def Member.tail (m : Member) : List Char :=
  (m.visibility.elim [] fun v => [v.marker]) ++ escapeChars .member m.text.toList

theorem Member.toList_line (m : Member) :
    m.line.toList = (m.modifier.elim [] fun k => k.keyword.toList ++ [' ']) ++ m.tail := by
  obtain ⟨text, visibility, modifier⟩ := m
  cases modifier <;> cases visibility <;> simp [line, tail, escape]

/-- A modifier begins with a brace, and nothing behind it does. -/
theorem Member.head_tail (m : Member) : m.tail.head? ≠ some '\x7b' := by
  obtain ⟨text, visibility, modifier⟩ := m
  cases visibility with
  | none =>
      simp only [tail, Option.elim_none, List.nil_append]
      exact head_escapeChars_ne (by decide) (by decide) (by decide)
  | some v => cases v <;> simp [tail, Visibility.marker]

theorem isClosingBrace_member {m : Member} (hline : FitsOneLine m.text) :
    isClosingBrace m.line.toList = m.isBareBrace := by
  obtain ⟨text, visibility, modifier⟩ := m
  rw [Member.toList_line]
  cases modifier with
  | some k => cases k <;> exact isClosingBrace_eq_false (by decide) (by decide) _
  | none =>
      cases visibility with
      | some v => cases v <;> exact isClosingBrace_eq_false (by decide) (by decide) _
      | none =>
          have hescape := isClosingBrace_escape hline
          rw [escape, String.toList_ofList] at hescape
          simpa [Member.tail, Member.isBareBrace] using hescape

theorem isClosingBrace_opening (c : Class) :
    isClosingBrace (c.line ++ " \x7b").toList = false := by
  have hhead : ∃ first l, c.line.toList = first :: l ∧ isBlank first = false ∧
      first ≠ '\x7d' := by
    unfold Class.line
    cases c.kind <;> simp only [ClassKind.keyword, String.toList_append, List.append_assoc] <;>
      exact ⟨_, _, rfl, by decide, by decide⟩
  obtain ⟨first, l, hline, hblank, hfirst⟩ := hhead
  rw [String.toList_append, hline]
  exact isClosingBrace_eq_false hblank hfirst _

/-- The texts of members that pass their check. -/
theorem fitsOneLine_of_checkMembers
    {members kept : List Member}
    (h : checkMembers members = .ok kept) :
    ∀ m ∈ kept, FitsOneLine m.text := by
  induction members generalizing kept with
  | nil =>
      cases h
      simp
  | cons first rest ih =>
      simp only [checkMembers, bind_eq_ok_iff, pure_eq_ok_iff, singleLine_keeps_iff] at h
      obtain ⟨_, ⟨⟨_, hfits⟩, rfl⟩, restKept, hrest, rfl⟩ := h
      exact List.forall_mem_cons.mpr ⟨hfits, ih hrest⟩

/-- The texts of the members of a class that a call declares are accepted. -/
theorem ends_declareClass_members (call : ClassCall) (e : Engine grammar) :
    call.declare.Ends e (fun c _ => ∀ m ∈ c.members, FitsOneLine m.text) (fun _ _ => True) := by
  unfold ClassCall.declare
  rw [Attempt.ends_bind, Action.ends_valid]
  refine ⟨fun _ _ => ?_, fun _ _ => trivial⟩
  rw [Attempt.ends_bind, Action.ends_valid]
  refine ⟨fun _ _ => ?_, fun _ _ => trivial⟩
  rw [Attempt.ends_bind, Action.ends_valid]
  refine ⟨fun _ _ => ?_, fun _ _ => trivial⟩
  rw [Attempt.ends_bind, Action.ends_valid]
  refine ⟨fun members hmembers => ?_, fun _ _ => trivial⟩
  rw [Attempt.ends_bind]
  refine (Action.ends_chooseAlias _ _ (by decide)).mono ?_ fun _ _ _ => trivial
  rintro ⟨a, display⟩ e' _
  rw [Attempt.ends_bind, Action.ends_declare]
  exact ⟨fun _ _ => fitsOneLine_of_checkMembers hmembers, fun _ _ => trivial⟩

end Lines

section Classes

variable {indent depth : Nat} {c : Class}

/-- Which lines of a class hold nothing but a closing brace. -/
theorem map_isClosingBrace_lines
    (hmembers : c.members ≠ [])
    (htexts : ∀ m ∈ c.members, FitsOneLine m.text) :
    ((c.lines depth).map (Line.laid indent)).map isClosingBrace =
      false :: c.members.map Member.isBareBrace ++ [true] := by
  have hbodies : c.members.map (fun m => isClosingBrace m.line.toList) =
      c.members.map Member.isBareBrace :=
    List.map_congr_left fun m hm => isClosingBrace_member (htexts m hm)
  have hlast : isClosingBrace "\x7d".toList = true := by
    decide
  rw [Class.lines, if_neg (by simpa using hmembers), List.map_map]
  simp only [List.map_append, List.map_cons, List.map_nil, List.map_map, Function.comp_def,
    isClosingBrace_laid, isClosingBrace_opening, hbodies, hlast]

/-- Behind the lines of the members the last line is the only one where none of those lines
could be taken for it. -/
theorem closedOnlyByLast_iff_of_map
    {lines : List (List Char)}
    {bodies : List Bool}
    (h : lines.map isClosingBrace = false :: bodies ++ [true]) :
    ClosedOnlyByLast lines ↔ true ∉ bodies := by
  have hcount : lines.countP isClosingBrace = bodies.count true + 1 := by
    have hmapped : (lines.map isClosingBrace).count true = lines.countP isClosingBrace := by
      simp [List.count, List.countP_map, Function.comp_def]
    rw [← hmapped, h]
    simp
  have hlast : lines.getLast?.any isClosingBrace = true := by
    have hmapped := congrArg List.getLast? h
    rw [List.getLast?_map, List.getLast?_concat] at hmapped
    cases hlines : lines.getLast? with
    | none => simp [hlines] at hmapped
    | some last => simpa [hlines] using hmapped
  rw [ClosedOnlyByLast, hcount, ← List.count_eq_zero]
  constructor
  · rintro ⟨hone, _⟩
    omega
  · intro hzero
    exact ⟨by omega, hlast⟩

/-- The lines of a declared class with members that hold nothing but a closing brace are the
last one and those of the members without marks whose text is one.  So the class is closed
by its last line alone exactly when it has no such member. -/
theorem closedOnlyByLast_iff_no_bareBrace
    (hdeclared : c.Declared)
    (hmembers : c.members ≠ []) :
    let emitted := endedLines (String.join ((c.lines depth).map (Line.text indent)))
    emitted.map isClosingBrace = false :: c.members.map Member.isBareBrace ++ [true] ∧
      (ClosedOnlyByLast emitted ↔ ∀ m ∈ c.members, m.isBareBrace = false) := by
  intro emitted
  obtain ⟨call, e, e', hrun⟩ := hdeclared
  have hplain : c.id.IsPlain := ((ends_declareClass call).of_ok hrun).2.plain
  have htexts := (ends_declareClass_members call e).of_ok hrun
  have hemitted : emitted = (c.lines depth).map (Line.laid indent) :=
    endedLines_join_text (allOneLine_class hplain depth) indent
  have hmap : emitted.map isClosingBrace =
      false :: c.members.map Member.isBareBrace ++ [true] := by
    rw [hemitted]
    exact map_isClosingBrace_lines hmembers htexts
  refine ⟨hmap, ?_⟩
  rw [closedOnlyByLast_iff_of_map hmap]
  simp

/-- A class one of whose members is written like the end of the class. -/
def gate : Class :=
  { id := ⟨"Gate", by decide⟩,
    members :=
      [{ text := "open()", visibility := some .everyone, modifier := some .isStatic },
       { text := "\x7d", visibility := some .package },
       { text := " \x7d\t" },
       { text := "width \x7d" }] }

theorem closedOnlyByLast_iff_no_bareBrace_of_gate :
    gate.Declared ∧ gate.members ≠ [] ∧
      let emitted := endedLines (String.join ((gate.lines 1).map (Line.text 2)))
      emitted.map isClosingBrace = [false, false, false, true, false, true] ∧
        (ClosedOnlyByLast emitted ↔ ∀ m ∈ gate.members, m.isBareBrace = false) := by
  have hdeclared : gate.Declared :=
    ⟨{ name := "Gate", members := gate.members }, {}, _, rfl⟩
  have hmembers : gate.members ≠ [] := by
    decide
  obtain ⟨hmap, hclosed⟩ :=
    closedOnlyByLast_iff_no_bareBrace hdeclared hmembers
  exact ⟨hdeclared, hmembers, hmap.trans (by decide +kernel), hclosed⟩

/-- The text of a member can close the class early. -/
theorem not_closedOnlyByLast_of_gate :
    gate.Declared ∧ gate.members ≠ [] ∧
      ¬ClosedOnlyByLast (endedLines (String.join ((gate.lines 0).map (Line.text 2)))) :=
  ⟨⟨{ name := "Gate", members := gate.members }, {}, _, rfl⟩, by decide, by decide +kernel⟩

end Classes

section Marks

variable {m m' : Member} {c : Char} {rest : List Char}

/-- The first member has the mark of a package and a text whose first character means
something at the start of a line and is not doubled.  The second one has no mark, and a text
with a `~` in front of the first one's. -/
structure Member.FusesInto (m m' : Member) : Prop where
  modifier : m.modifier = m'.modifier
  marked : m.visibility = some .package
  unmarked : m'.visibility = none
  text : m'.text = "~" ++ m.text
  leads : ∃ c rest, m.text.toList = c :: rest ∧ c ∈ Position.member.leaders ∧
    (isPairing c = true → rest.head? ≠ some c)

/-- The first character of a member's text is guarded for its place alone when it has a
meaning there and is not doubled. -/
theorem guarded_for_place_iff :
    pieceOf .member none true c rest = .pair '~' c ∧ pieceOf .member none false c rest = .bare c ↔
      c ∈ Position.member.leaders ∧ (isPairing c = true → rest.head? ≠ some c) := by
  constructor
  · rintro ⟨hguarded, hbare⟩
    have hc : c ≠ '~' := by
      rintro rfl
      cases hbare
    obtain ⟨_, hstays, hguard⟩ := of_pieceOf_eq_pair_tilde hguarded hc
    have hfree : needsGuard .member none false c rest = false := by
      rcases unguarded_of_pieceOf_eq_bare hbare with h | h | h
      · simp [staysAtStart, h] at hstays
      · simp [staysAtStart, h] at hstays
      · exact h
    obtain ⟨hpair, _, htag, hterminator, htrailing⟩ := needsGuard_eq_false_iff.mp hfree
    refine ⟨?_, fun h => (hpair h).2⟩
    by_contra hleader
    have hnone : needsGuard .member none true c rest = false :=
      needsGuard_eq_false_iff.mpr ⟨hpair, fun _ => ⟨hleader, by simp [Position.member]⟩, htag,
        hterminator, htrailing⟩
    rw [hnone] at hguard
    cases hguard
  · rintro ⟨hleader, hpair⟩
    have hregular : ∀ c ∈ Position.member.leaders,
        IsOrdinary c ∧ isEscape c = false ∧ c ≠ '\r' ∧ c ≠ '<' := by
      decide
    obtain ⟨hordinary, hescape, hreturn, hangle⟩ := hregular c hleader
    have hfree : needsGuard .member none false c rest = false :=
      needsGuard_eq_false_iff.mpr ⟨fun h => ⟨by simp, hpair h⟩, by simp, fun h => absurd h hangle,
        by simp [Position.member], by simp [Position.member]⟩
    have hguard : needsGuard .member none true c rest = true := by
      simp [needsGuard, hleader]
    rw [pieceOf_of_ordinary hordinary hescape hreturn,
      pieceOf_of_ordinary hordinary hescape hreturn, hguard, hfree]
    exact ⟨rfl, rfl⟩

/-- The mark of a package in front of a text is read as part of the text in one case only. -/
theorem Member.fusesInto_iff :
    m.FusesInto m' ↔ m.modifier = m'.modifier ∧ m.visibility = some .package ∧
      m'.visibility = none ∧
      '~' :: escapeChars .member m.text.toList = escapeChars .member m'.text.toList := by
  rw [tilde_cons_escapeChars_eq_iff]
  constructor
  · rintro ⟨hmodifier, hmarked, hunmarked, htext, c, rest, hfirst, hleads⟩
    obtain ⟨hguarded, hbare⟩ := guarded_for_place_iff.mpr hleads
    exact ⟨hmodifier, hmarked, hunmarked, c, rest, hfirst, by simp [htext, hfirst], hguarded, hbare⟩
  · rintro ⟨hmodifier, hmarked, hunmarked, c, rest, hfirst, htext, hplace⟩
    refine ⟨hmodifier, hmarked, hunmarked, ?_, c, rest, hfirst, guarded_for_place_iff.mp hplace⟩
    rw [← String.toList_inj, htext, ← hfirst]
    simp

/-- A mark is not read as the beginning of a text, but for that of a package. -/
theorem eq_package_of_marker_cons
    {v : Visibility}
    {text text' : List Char}
    (h : v.marker :: escapeChars .member text = escapeChars .member text') :
    v = .package := by
  have hhead : (escapeChars .member text').head? = some v.marker := by
    rw [← h]
    rfl
  cases v with
  | package => rfl
  | everyone => exact absurd hhead (head_escapeChars_ne (by decide) (by decide) (by decide))
  | itself => exact absurd hhead (head_escapeChars_ne (by decide) (by decide) (by decide))
  | heirs => exact absurd hhead (head_escapeChars_ne (by decide) (by decide) (by decide))

/-- What stands behind the modifier is the same for two members with the same mark and text,
and where the mark of one is read as part of the text of the other. -/
theorem Member.of_tail_eq (hmodifier : m.modifier = m'.modifier) (h : m.tail = m'.tail) :
    m = m' ∨ m.FusesInto m' ∨ m'.FusesInto m := by
  have htexts : ∀ {text text' : String},
      escapeChars .member text.toList = escapeChars .member text'.toList → text = text' :=
    fun h => String.toList_inj.mp (eq_of_escapeFrom_eq h)
  obtain ⟨text, visibility, modifier⟩ := m
  obtain ⟨text', visibility', modifier'⟩ := m'
  cases hmodifier
  rw [fusesInto_iff, fusesInto_iff]
  cases visibility with
  | none =>
      cases visibility' with
      | none =>
          obtain rfl : text = text' := htexts h
          exact .inl rfl
      | some v' =>
          obtain rfl := eq_package_of_marker_cons h.symm
          exact .inr (.inr ⟨rfl, rfl, rfl, h.symm⟩)
  | some v =>
      cases visibility' with
      | none =>
          obtain rfl := eq_package_of_marker_cons h
          exact .inr (.inl ⟨rfl, rfl, rfl, h⟩)
      | some v' =>
          obtain ⟨hmarker, hescaped⟩ := List.cons.inj h
          obtain rfl : text = text' := htexts hescaped
          exact .inl (by rw [Visibility.marker_inj hmarker])

/-- The modifier is cut off the line of a member. -/
theorem Member.line_cut (h : m.line = m'.line) : m.modifier = m'.modifier ∧ m.tail = m'.tail := by
  have hbrace : ∀ (m m' : Member) (k : Modifier),
      m.tail ≠ (k.keyword.toList ++ [' ']) ++ m'.tail := by
    intro m m' k htail
    refine m.head_tail ?_
    rw [htail]
    cases k <;> rfl
  have hchars := congrArg String.toList h
  rw [toList_line, toList_line] at hchars
  have hblank : ∀ k : Modifier, ' ' ∉ k.keyword.toList := by
    intro k
    cases k <;> decide
  refine optional_cut ?_ (hbrace m m') (hbrace m' m) hchars
  intro k _ k' _ h
  obtain ⟨hword, htail⟩ := append_cons_cut (hblank k) (hblank k') (by simpa using h)
  exact ⟨Modifier.keyword_inj (String.toList_inj.mp hword), htail⟩

/-- The line of a member, at one depth and with one indent, determines the member, but where
the mark of a package and a guard behind it are read as a guarded `~`. -/
theorem Member.text_line_eq_iff (m m' : Member) (indent depth : Nat) :
    (⟨depth, m.line⟩ : Line).text indent = (⟨depth, m'.line⟩ : Line).text indent ↔
      m = m' ∨ m.FusesInto m' ∨ m'.FusesInto m := by
  have hfused : ∀ {m m' : Member}, m.FusesInto m' → m.line = m'.line := by
    intro m m' h
    obtain ⟨hmodifier, hmarked, hunmarked, hescaped⟩ := fusesInto_iff.mp h
    rw [← String.toList_inj, toList_line, toList_line, hmodifier, tail, tail, hmarked, hunmarked,
      ← hescaped]
    rfl
  constructor
  · intro h
    have hline : m.line = m'.line := by
      have hchars := congrArg String.toList h
      simp only [Line.text, String.toList_append] at hchars
      exact String.toList_inj.mp (List.append_cancel_left (List.append_cancel_right hchars))
    obtain ⟨hmodifier, htail⟩ := line_cut hline
    exact of_tail_eq hmodifier htail
  · rintro (rfl | h | h)
    · rfl
    · rw [hfused h]
    · rw [hfused h]

/-- Two accepted members with different texts and visibilities can be written alike. -/
theorem Member.text_line_eq_of_packageMinus :
    let m : Member := { text := "-x", visibility := some .package }
    let m' : Member := { text := "~-x" }
    checkMembers [m, m'] = .ok [m, m'] ∧
      (⟨1, m.line⟩ : Line).text 2 = (⟨1, m'.line⟩ : Line).text 2 ∧
      m.text ≠ m'.text ∧ m.visibility ≠ m'.visibility :=
  ⟨rfl, rfl, by decide, by decide⟩

end Marks

end UmlText.ClassDiagram
