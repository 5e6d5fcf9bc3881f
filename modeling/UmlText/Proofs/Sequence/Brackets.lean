import UmlText.Proofs.Envelopes
import UmlText.Proofs.Sequence.OneLine
import UmlText.Proofs.Sequence.Outlines
import UmlText.Proofs.Skeletons
import UmlText.Proofs.Text.Bodies

/-!
# The brackets of a sequence diagram

The first line of a block or box opens something, and a line `end` or `end box` closes
something.  Read from the top to the bottom, outside the bodies of notes and references,
these lines are a word of brackets.  It is `Paired` when each closing line belongs to the
nearest open construct, which is of its own kind, and nothing is left open.

The word is read off the written text, but it follows the recursion of the tree (`wordOf`).
No other line can be mistaken for a closing one, since every other line has a visible
character that does not occur in `end box`.  The first line of a block is that of its first
section, while its last line is written in any case, so a block without sections closes
something that it has not opened.  The word has as many closing brackets too many as there
are such blocks, and where there are none it is paired.
-/

namespace UmlText.Sequence

section Words

/-- What a bracket opens or closes. -/
inductive Construct where
  | block
  | box
  deriving DecidableEq, Repr

/-- A line that opens or closes a construct. -/
inductive Bracket where
  | opening (c : Construct)
  | closing (c : Construct)
  deriving DecidableEq, Repr

/-- Reads brackets in order.  What is open is a list with the nearest construct first; the
answer is what is open in the end, or `none` where a closing bracket meets nothing, or
another construct. -/
def openAfter (pending : List Construct) : List Bracket → Option (List Construct)
  | [] => some pending
  | .opening c :: rest => openAfter (c :: pending) rest
  | .closing c :: rest =>
      match pending with
      | [] => none
      | nearest :: below => if nearest = c then openAfter below rest else none

/-- Each closing bracket closes the nearest open construct, and nothing is left open. -/
def Paired (word : List Bracket) : Prop :=
  openAfter [] word = some []

instance (word : List Bracket) : Decidable (Paired word) :=
  inferInstanceAs (Decidable (_ = _))

variable {pending left : List Construct} {first second word : List Bracket} {c : Construct}

theorem openAfter_append :
    openAfter pending (first ++ second) =
      (openAfter pending first).bind fun pending => openAfter pending second := by
  induction first generalizing pending with
  | nil => rfl
  | cons bracket rest ih =>
      cases bracket with
      | opening c => exact ih
      | closing c =>
          cases pending with
          | nil => rfl
          | cons nearest below =>
              rw [List.cons_append, openAfter, openAfter]
              split
              · exact ih
              · rfl

/-- Whatever is opened stays open or is closed. -/
theorem count_of_openAfter (h : openAfter pending word = some left) :
    pending.count c + word.count (.opening c) = left.count c + word.count (.closing c) := by
  induction word generalizing pending with
  | nil =>
      obtain rfl := Option.some.inj h
      rfl
  | cons bracket rest ih =>
      cases bracket with
      | opening d =>
          have hrest := ih h
          simp only [List.count_cons, beq_iff_eq, Bracket.opening.injEq, reduceCtorEq, if_false]
            at hrest ⊢
          omega
      | closing d =>
          cases pending with
          | nil => cases h
          | cons nearest below =>
              rw [openAfter] at h
              split at h
              · next hnearest =>
                  have hrest := ih h
                  subst hnearest
                  simp only [List.count_cons, beq_iff_eq, Bracket.closing.injEq, reduceCtorEq,
                    if_false] at hrest ⊢
                  omega
              · cases h

end Words

section Trees

mutual

/-- The brackets of an element. -/
def Node.word : Node → List Bracket
  | .block _ sections =>
      (if sections.isEmpty then [] else [.opening .block]) ++ wordOfSections sections ++
        [.closing .block]
  | .box .. => [.opening .box, .closing .box]
  | _ => []

/-- The brackets of the elements of a list. -/
def wordOf : List Node → List Bracket
  | [] => []
  | node :: rest => node.word ++ wordOf rest

/-- The brackets inside the sections of a block. -/
def wordOfSections : List (Option String × List Node) → List Bracket
  | [] => []
  | (_, body) :: rest => wordOf body ++ wordOfSections rest

end

/-- A block without sections. -/
def Node.isHollow : Node → Bool
  | .block _ sections => sections.isEmpty
  | _ => false

theorem Node.hasSection_iff {node : Node} : node.HasSection ↔ node.isHollow = false := by
  cases node <;> simp [HasSection, isHollow]

mutual

/-- Where every block has a section, an element closes exactly what it opens. -/
theorem openAfter_word :
    ∀ (node : Node), node.Sectioned → ∀ pending, openAfter pending node.word = some pending
  | .block kind sections, h, pending => by
      obtain ⟨hsection, hinside⟩ := forall_everywhere_block.mp h
      have hopening : sections.isEmpty = false := by simpa [Node.HasSection] using hsection
      rw [Node.word, hopening, List.append_assoc]
      change openAfter (.block :: pending) (wordOfSections sections ++ [.closing .block]) = _
      rw [openAfter_append, openAfter_wordOfSections sections hinside]
      rfl
  | .box .., _, _ => rfl
  | .participant _, _, _ | .create _, _, _ | .message _, _, _ | .reply _, _, _ | .note _, _, _
  | .ref .., _, _ | .activate .., _, _ | .deactivate _, _, _ | .destroy _, _, _
  | .divider _, _, _ | .delay _, _, _ | .space _, _, _ | .autonumber _, _, _ => rfl

theorem openAfter_wordOf :
    ∀ (nodes : List Node), (∀ n ∈ everywhereIn nodes, n.HasSection) →
      ∀ pending, openAfter pending (wordOf nodes) = some pending
  | [], _, _ => rfl
  | node :: rest, h, pending => by
      obtain ⟨hnode, hrest⟩ := forall_everywhereIn_cons.mp h
      rw [wordOf, openAfter_append, openAfter_word node hnode, Option.bind_some,
        openAfter_wordOf rest hrest]

theorem openAfter_wordOfSections :
    ∀ (sections : List (Option String × List Node)),
      (∀ part ∈ sections, ∀ n ∈ everywhereIn part.2, n.HasSection) →
        ∀ pending, openAfter pending (wordOfSections sections) = some pending
  | [], _, _ => rfl
  | (_, body) :: rest, h, pending => by
      obtain ⟨hbody, hrest⟩ := List.forall_mem_cons.mp h
      rw [wordOfSections, openAfter_append, openAfter_wordOf body hbody, Option.bind_some,
        openAfter_wordOfSections rest hrest]

end

mutual

/-- There are as many closing brackets of blocks too many as there are blocks without
sections. -/
theorem count_word :
    ∀ node : Node, node.word.count (.closing .block) =
      node.word.count (.opening .block) + node.everywhere.countP Node.isHollow
  | .block kind sections => by
      have hinside := count_wordOfSections sections
      rw [Node.word, Node.everywhere, List.countP_cons, Node.isHollow]
      cases sections.isEmpty <;>
        simp only [List.count_append, List.count_cons, List.count_nil, Bool.false_eq_true, if_true,
          if_false, beq_iff_eq, reduceCtorEq] <;>
        omega
  | .box .. => rfl
  | .participant _ | .create _ | .message _ | .reply _ | .note _ | .ref .. | .activate ..
  | .deactivate _ | .destroy _ | .divider _ | .delay _ | .space _ | .autonumber _ => rfl

theorem count_wordOf :
    ∀ nodes : List Node, (wordOf nodes).count (.closing .block) =
      (wordOf nodes).count (.opening .block) + (everywhereIn nodes).countP Node.isHollow
  | [] => rfl
  | node :: rest => by
      have hnode := count_word node
      have hrest := count_wordOf rest
      rw [wordOf, everywhereIn, List.count_append, List.count_append, List.countP_append]
      omega

theorem count_wordOfSections :
    ∀ sections : List (Option String × List Node),
      (wordOfSections sections).count (.closing .block) =
        (wordOfSections sections).count (.opening .block) +
          (everywhereInSections sections).countP Node.isHollow
  | [] => rfl
  | (_, body) :: rest => by
      have hbody := count_wordOf body
      have hrest := count_wordOfSections rest
      rw [wordOfSections, everywhereInSections, List.count_append, List.count_append,
        List.countP_append]
      omega

end

/-- The brackets of a tree are paired exactly when all its blocks have sections. -/
theorem paired_wordOf_iff {nodes : List Node} :
    Paired (wordOf nodes) ↔ ∀ node ∈ everywhereIn nodes, node.HasSection := by
  constructor
  · intro h node hnode
    have hbalance := count_of_openAfter (c := .block) h
    have hcount := count_wordOf nodes
    have hnone : (everywhereIn nodes).countP Node.isHollow = 0 := by
      simp only [List.count_nil] at hbalance
      omega
    rw [Node.hasSection_iff, ← Bool.not_eq_true]
    exact List.countP_eq_zero.mp hnone node hnode
  · intro h
    exact openAfter_wordOf nodes h []

end Trees

section Lines

/-- What a line is written for. -/
inductive Origin where
  /-- The first line of a block or of a box. -/
  | header (c : Construct)
  /-- A line in the body of a note or of a reference. -/
  | body
  | other
  deriving DecidableEq, Repr

/-- What the lines of a note or of a reference are written for. -/
def originsOfNote (text : String) : List Origin :=
  if isMultiline text then
    .other :: (blockLines 0 text).map (fun _ => .body) ++ [.other]
  else [.other]

mutual

/-- What the lines of an element are written for. -/
def Node.origins : Node → List Origin
  | .note n => originsOfNote n.text
  | .ref _ text => originsOfNote text
  | .block _ sections => originsOfSections (.header .block) sections ++ [.other]
  | .box _ _ members => .header .box :: members.map (fun _ => .other) ++ [.other]
  | _ => [.other]

/-- What the lines of the elements of a list are written for. -/
def originsOf : List Node → List Origin
  | [] => []
  | node :: rest => node.origins ++ originsOf rest

/-- What the lines of sections are written for, where it is given for the first line. -/
def originsOfSections (first : Origin) : List (Option String × List Node) → List Origin
  | [] => []
  | (_, body) :: rest => first :: originsOf body ++ originsOfSections .other rest

end

/-- What the lines of a diagram are written for, with or without its envelope. -/
def originsWrapped (o : Options) (nodes : List Node) : List Origin :=
  if o.wrap then .other :: originsOf nodes ++ [.other] else originsOf nodes

/-- What a written line opens or closes: a first line opens, and of the others those close
that consist of `end` or of `end box` behind their indent. -/
def bracketOf? (line : List Char) : Origin → Option Bracket
  | .header c => some (.opening c)
  | .body => none
  | .other =>
      if line.dropWhile (· = ' ') = "end".toList then some (.closing .block)
      else if line.dropWhile (· = ' ') = "end box".toList then some (.closing .box)
      else none

/-- The indent of a line does not matter. -/
theorem bracketOf?_laid (indent depth : Nat) (content : String) :
    bracketOf? ((⟨depth, content⟩ : Line).laid indent) .other =
      bracketOf? content.toList .other := by
  have hindent : ∀ c ∈ List.replicate (depth * indent) ' ', decide (c = ' ') = true := by
    intro c hc
    exact decide_eq_true (List.eq_of_mem_replicate hc)
  rw [bracketOf?, bracketOf?, Line.laid, List.dropWhile_append_of_pos hindent]

/-- The brackets among written lines.  Lines behind the last one with an origin are not
read. -/
def brackets : List Origin → List (List Char) → List Bracket
  | origin :: origins, line :: lines => (bracketOf? line origin).toList ++ brackets origins lines
  | _, _ => []

/-- The content has a visible character that does not occur in a closing line. -/
def closesNothing (content : String) : Bool :=
  content.toList.any fun c => !"end box".toList.contains c

variable
  {indent depth : Nat} {origin : Origin} {first second : List Origin}
  {line : List Char} {lines behind : List (List Char)}

theorem closesNothing_append (s t : String) :
    closesNothing (s ++ t) = (closesNothing s || closesNothing t) := by
  rw [closesNothing, String.toList_append, List.any_append]
  rfl

/-- A line that begins with a word of its own closes nothing, whatever follows. -/
theorem closesNothing_append_left
    {s : String}
    (h : closesNothing s = true)
    (t : String) :
    closesNothing (s ++ t) = true := by
  rw [closesNothing_append, h, Bool.true_or]

theorem bracketOf?_of_closesNothing {content : String} (h : closesNothing content = true) :
    bracketOf? ((⟨depth, content⟩ : Line).laid indent) .other = none := by
  obtain ⟨c, hc, hforeign⟩ := List.any_eq_true.mp h
  have hforeign : c ∉ "end box".toList := by
    simpa only [Bool.not_eq_true', List.contains_eq_mem, decide_eq_false_iff_not] using hforeign
  have hspace : c ≠ ' ' := by
    rintro rfl
    exact hforeign (by decide)
  have hmem : c ∈ content.toList.dropWhile (· = ' ') := by
    rw [← List.takeWhile_append_dropWhile (p := (· = ' ')) (l := content.toList),
      List.mem_append] at hc
    exact hc.resolve_left fun hpadding => hspace (by simpa using List.mem_takeWhile_imp hpadding)
  have hne : ∀ closing : List Char, (∀ d ∈ closing, d ∈ "end box".toList) →
      content.toList.dropWhile (· = ' ') ≠ closing := by
    rintro closing hclosing rfl
    exact hforeign (hclosing c hmem)
  rw [bracketOf?_laid, bracketOf?, if_neg (hne _ (by decide)), if_neg (hne _ (by decide))]

theorem brackets_append (h : first.length = lines.length) :
    brackets (first ++ second) (lines ++ behind) =
      brackets first lines ++ brackets second behind := by
  induction first generalizing lines with
  | nil =>
      obtain rfl := List.length_eq_zero_iff.mp h.symm
      rfl
  | cons origin rest ih =>
      obtain ⟨line, others, rfl⟩ := List.exists_cons_of_length_eq_add_one h.symm
      rw [List.cons_append, List.cons_append, brackets, brackets, ih (Nat.succ.inj h),
        List.append_assoc]

theorem brackets_append_behind (h : first.length = lines.length) :
    brackets first (lines ++ behind) = brackets first lines := by
  have hread : brackets (first ++ []) (lines ++ behind) =
      brackets first lines ++ brackets [] behind := brackets_append h
  rw [List.append_nil] at hread
  simpa [brackets] using hread

theorem brackets_body (h : ∀ o ∈ first, o = .body) : brackets first lines = [] := by
  induction first generalizing lines with
  | nil => rfl
  | cons origin rest ih =>
      obtain ⟨rfl, hrest⟩ := List.forall_mem_cons.mp h
      cases lines with
      | nil => rfl
      | cons line others => exact ih hrest

/-- A line that closes nothing, alone or in front of others. -/
theorem brackets_other_cons {content : String} (h : closesNothing content = true) :
    brackets (.other :: first) ((⟨depth, content⟩ : Line).laid indent :: lines) =
      brackets first lines := by
  rw [brackets, bracketOf?_of_closesNothing h]
  rfl

/-- A closing line at the end. -/
theorem brackets_closing
    {content : String}
    {bracket : Bracket}
    (h : bracketOf? content.toList .other = some bracket) :
    brackets [.other] [(⟨depth, content⟩ : Line).laid indent] = [bracket] := by
  rw [brackets, bracketOf?_laid, h]
  rfl

end Lines

section Contents

variable {indent depth : Nat}

theorem closesNothing_participant (p : Participant) : closesNothing p.line = true := by
  have hkeyword : closesNothing p.kind.keyword = true := by
    cases p.kind <;> rfl
  simp only [Participant.line, closesNothing_append, hkeyword, Bool.true_or]

theorem closesNothing_message (m : Message Alias) : closesNothing m.line = true := by
  have hsign : closesNothing m.arrow.sign = true := by
    have hdash : closesNothing "-" = true := rfl
    simp only [Arrow.sign, closesNothing_append, hdash, Bool.true_or, Bool.or_true]
  simp only [Message.line, closesNothing_append, hsign, Bool.true_or, Bool.or_true]

theorem closesNothing_autonumber (n : Autonumber) : closesNothing n.line = true := by
  have hword : closesNothing "autonumber" = true := rfl
  cases n with
  | start first step format =>
      simp only [Autonumber.line, closesNothing_append, hword, Bool.true_or]
  | stop => rfl
  | resume => rfl

theorem length_originsOfNote {opening text closing : String} :
    (originsOfNote text).length = (noteLines depth opening text closing).length := by
  unfold originsOfNote noteLines
  split <;> simp [enclosedLines, blockLines]

/-- A note opens and closes nothing, whatever its text is. -/
theorem brackets_note
    {opening text closing : String}
    (hopening : closesNothing opening = true)
    (hclosing : closesNothing closing = true) :
    brackets (originsOfNote text)
      ((noteLines depth opening text closing).map (Line.laid indent)) = [] := by
  unfold originsOfNote noteLines
  split
  · have hbody : ∀ o ∈ (blockLines 0 text).map (fun _ => Origin.body), o = .body := by
      simp
    simp only [enclosedLines, List.cons_append, List.map_cons, List.map_append, List.map_nil]
    rw [brackets_other_cons hopening, brackets_append (by simp [blockLines]), brackets_body hbody,
      brackets_other_cons hclosing]
    rfl
  · refine brackets_other_cons ?_
    simp only [closesNothing_append, hopening, Bool.true_or]

/-- The members of a box open and close nothing. -/
theorem brackets_members (members : List Participant) :
    brackets (members.map fun _ => .other)
      ((members.map fun p => (⟨depth, p.line⟩ : Line)).map (Line.laid indent)) = [] := by
  induction members with
  | nil => rfl
  | cons p rest ih =>
      rw [List.map_cons, List.map_cons, List.map_cons,
        brackets_other_cons (closesNothing_participant p), ih]

end Contents

section Writing

mutual

/-- Every line of an element is written for something. -/
theorem length_origins :
    ∀ (node : Node) (depth : Nat), node.origins.length = (node.lines depth).length
  | .note _, _ | .ref .., _ => length_originsOfNote
  | .block kind sections, depth => by
      rw [Node.origins, Node.lines, List.length_append, List.length_append,
        length_originsOfSections kind.keyword sections _ depth, List.length_singleton,
        List.length_singleton]
  | .box .., _ => by simp [Node.origins, Node.lines]
  | .delay text, _ => by cases text <;> rfl
  | .space pixels, _ => by cases pixels <;> rfl
  | .participant _, _ | .create _, _ | .message _, _ | .reply _, _ | .activate .., _
  | .deactivate _, _ | .destroy _, _ | .divider _, _ | .autonumber _, _ => rfl

theorem length_originsOf :
    ∀ (nodes : List Node) (depth : Nat), (originsOf nodes).length = (linesOf depth nodes).length
  | [], _ => rfl
  | node :: rest, depth => by
      rw [originsOf, linesOf, List.length_append, List.length_append, length_origins node depth,
        length_originsOf rest depth]

theorem length_originsOfSections :
    ∀ (keyword : String) (sections : List (Option String × List Node)) (first : Origin)
      (depth : Nat),
      (originsOfSections first sections).length = (sectionLines depth keyword sections).length
  | _, [], _, _ => rfl
  | _, (_, body) :: rest, _, depth => by
      rw [originsOfSections, sectionLines, List.length_append, List.length_append,
        List.length_cons, List.length_cons, length_originsOf body (depth + 1),
        length_originsOfSections "else" rest .other depth]

end

/-- Where the lines of sections are read, only the first one of them can be a bracket. -/
theorem bracketOf?_else {indent depth : Nat} (label : Option String) :
    bracketOf? ((⟨depth, "else" ++ labelled " " label⟩ : Line).laid indent) .other = none :=
  bracketOf?_of_closesNothing (closesNothing_append_left rfl _)

variable {indent : Nat}

mutual

/-- The brackets among the lines of an element are those of the tree. -/
theorem brackets_lines :
    ∀ (node : Node) (depth : Nat),
      brackets node.origins ((node.lines depth).map (Line.laid indent)) = node.word
  | .participant p, _ => brackets_other_cons (closesNothing_participant p)
  | .create p, _ => brackets_other_cons (closesNothing_append_left rfl _)
  | .message m, _ => brackets_other_cons (closesNothing_message m)
  | .reply text, _ => brackets_other_cons (closesNothing_append_left rfl _)
  | .note n, _ => by
      have hshape : closesNothing n.shape.keyword = true := by
        cases n.shape <;> rfl
      refine brackets_note (closesNothing_append_left (closesNothing_append_left hshape _) _) ?_
      rw [closesNothing_append, hshape, Bool.or_true]
  | .ref ps text, _ => brackets_note (closesNothing_append_left rfl _) rfl
  | .activate p color, _ =>
      brackets_other_cons (closesNothing_append_left (closesNothing_append_left rfl _) _)
  | .deactivate p, _ | .destroy p, _ => brackets_other_cons (closesNothing_append_left rfl _)
  | .block kind sections, depth => by
      have hlength : (originsOfSections (.header .block) sections).length =
          ((sectionLines depth kind.keyword sections).map (Line.laid indent)).length := by
        rw [List.length_map, length_originsOfSections]
      have hinside := brackets_sectionLines sections depth kind.keyword (.header .block)
        (some (.opening .block)) fun _ => rfl
      rw [Node.origins, Node.lines, List.map_append, brackets_append hlength, hinside, Node.word,
        List.map_singleton, brackets_closing rfl]
      rfl
  | .box title color members, depth => by
      have hlength : (members.map fun _ => Origin.other).length =
          ((members.map fun p => (⟨depth + 1, p.line⟩ : Line)).map (Line.laid indent)).length := by
        simp
      rw [Node.origins, Node.lines, List.cons_append, List.cons_append, List.map_cons,
        List.map_append, brackets, brackets_append hlength, brackets_members, List.map_singleton,
        brackets_closing rfl]
      rfl
  | .divider text, _ | .delay (some text), _ | .space (some pixels), _ =>
      brackets_other_cons (closesNothing_append_left (closesNothing_append_left rfl _) _)
  | .delay none, _ | .space none, _ => brackets_other_cons rfl
  | .autonumber n, _ => brackets_other_cons (closesNothing_autonumber n)

theorem brackets_linesOf :
    ∀ (nodes : List Node) (depth : Nat),
      brackets (originsOf nodes) ((linesOf depth nodes).map (Line.laid indent)) = wordOf nodes
  | [], _ => rfl
  | node :: rest, depth => by
      have hlength : node.origins.length = ((node.lines depth).map (Line.laid indent)).length := by
        rw [List.length_map, length_origins]
      rw [originsOf, linesOf, List.map_append, brackets_append hlength, brackets_lines node,
        brackets_linesOf rest, wordOf]

theorem brackets_sectionLines :
    ∀ (sections : List (Option String × List Node)) (depth : Nat) (keyword : String)
      (first : Origin) (opening : Option Bracket),
      (∀ label, bracketOf? ((⟨depth, keyword ++ labelled " " label⟩ : Line).laid indent) first =
        opening) →
      brackets (originsOfSections first sections)
          ((sectionLines depth keyword sections).map (Line.laid indent)) =
        (if sections.isEmpty then [] else opening.toList) ++ wordOfSections sections
  | [], _, _, _, _, _ => rfl
  | (label, body) :: rest, depth, keyword, first, opening, hopening => by
      have hlength : (originsOf body).length =
          ((linesOf (depth + 1) body).map (Line.laid indent)).length := by
        rw [List.length_map, length_originsOf]
      have hrest := brackets_sectionLines rest depth "else" .other none bracketOf?_else
      simp only [originsOfSections, sectionLines, List.cons_append, List.map_cons,
        List.map_append, List.isEmpty_cons, Bool.false_eq_true, if_false, wordOfSections]
      rw [brackets, hopening label, brackets_append hlength, brackets_linesOf body, hrest]
      simp

end

end Writing

section Diagrams

variable {o : Options} {lines : List Line} {nodes : List Node} {text : String}

theorem splitLines_append_newline_append (l rest : List Char) :
    splitLines (l ++ '\n' :: rest) = splitLines l ++ splitLines rest := by
  simp only [splitLines_eq_splitOn]
  exact List.splitOnP_append_cons l rest (beq_self_eq_true '\n')

/-- The pieces of a text are the lines that were laid out, whether or not the last one has
its line break. -/
theorem exists_splitLines_layout (h : AllOneLine lines) :
    ∃ behind, splitLines (layout o lines).toList = lines.map (Line.laid o.indent) ++ behind := by
  have hbroken := splitLines_broken (newline_notMem_of_mem_laid (o := o) h)
  rw [toList_layout]
  split
  · exact ⟨_, hbroken⟩
  · cases lines with
    | nil => exact ⟨_, rfl⟩
    | cons l rest =>
        refine ⟨[], ?_⟩
        rw [List.map_cons] at hbroken ⊢
        rw [← dropFinalNewline_broken_cons, splitLines_append_newline_append] at hbroken
        rw [List.append_nil]
        exact List.append_cancel_right hbroken

/-- The envelope opens and closes nothing. -/
theorem brackets_wrapped :
    brackets (originsWrapped o nodes)
      ((Diagram.wrapped { kind := .sequence, nodes } o).map (Line.laid o.indent)) =
        wordOf nodes := by
  have hlength : (originsOf nodes).length =
      ((linesOf 0 nodes).map (Line.laid o.indent)).length := by
    rw [List.length_map, length_originsOf nodes 0]
  have htree : brackets (originsOf nodes) ((linesOf 0 nodes).map (Line.laid o.indent)) =
      wordOf nodes :=
    brackets_linesOf nodes 0
  rw [Diagram.wrapped_tree, originsWrapped, envelopeEnd]
  cases o.wrap with
  | false => simpa using htree
  | true =>
      change brackets (.other :: originsOf nodes ++ [.other])
        (([(⟨0, "@startuml"⟩ : Line)] ++ linesOf 0 nodes ++ [Diagram.closing]).map
          (Line.laid o.indent)) = _
      rw [List.map_append, List.map_append, List.map_singleton, List.map_singleton,
        List.singleton_append, List.cons_append, List.cons_append, brackets_other_cons rfl,
        brackets_append hlength, htree, brackets_other_cons rfl]
      exact List.append_nil (wordOf nodes)

theorem length_originsWrapped :
    (originsWrapped o nodes).length = (Diagram.wrapped { kind := .sequence, nodes } o).length := by
  rw [Diagram.wrapped_tree, originsWrapped, envelopeEnd]
  cases o.wrap <;> simp [length_originsOf nodes 0]

/-- In the text of a diagram the first lines of blocks and boxes and the lines that close
them are paired exactly when every block of the tree has a section. -/
theorem paired_of_render_iff
    (hplain : AllPlain (surveyNodes 0 nodes))
    (hrender : Diagram.render { kind := .sequence, nodes } o = .ok text) :
    Paired (brackets (originsWrapped o nodes) (splitLines text.toList)) ↔
      ∀ node ∈ everywhereIn nodes, node.HasSection := by
  have hlines : AllOneLine (Diagram.wrapped { kind := .sequence, nodes } o) :=
    allOneLine_wrapped (by simp) Settings.oneLine_new (allOneLine_linesOf nodes 0 0 hplain)
  obtain ⟨behind, hsplit⟩ := exists_splitLines_layout (o := o) hlines
  have hlength : (originsWrapped o nodes).length =
      ((Diagram.wrapped { kind := .sequence, nodes } o).map (Line.laid o.indent)).length := by
    rw [List.length_map, length_originsWrapped]
  rw [Diagram.eq_layout_of_render hrender, hsplit, brackets_append_behind hlength,
    brackets_wrapped, paired_wordOf_iff]

/-- A box and a block inside the sections of a block, with texts and names like closing
lines. -/
def constructsInSections : List Node :=
  [.block .alt
    [(some "end", [.box (some "end box") none [{ id := ⟨"end", by decide⟩ }]]),
      (none, [.block .loop [(none, [.note { place := .across, text := "end\nend box" }])]])]]

theorem paired_of_render_iff_of_constructsInSections :
    AllPlain (surveyNodes 0 constructsInSections) ∧
      ∃ text, Diagram.render { kind := .sequence, nodes := constructsInSections } {} = .ok text ∧
        (Paired (brackets (originsWrapped {} constructsInSections) (splitLines text.toList)) ↔
          ∀ node ∈ everywhereIn constructsInSections, node.HasSection) := by
  have hplain : AllPlain (surveyNodes 0 constructsInSections) := by
    have hend : Alias.IsPlain ⟨"end", by decide⟩ := by decide
    simp [constructsInSections, surveyNodes, surveySections, Node.survey, Finding.IsPlain, hend,
      mentions, NotePlace.participants]
  have hrender : Diagram.render { kind := .sequence, nodes := constructsInSections } {} =
      .ok ("@startuml\nalt end\n  box \"end box\"\n    participant end\n  end box\nelse\n" ++
        "  loop\n    note across\n      ~end\n      ~end box\n    end note\n  end\nend\n" ++
        "@enduml\n") := by
    rfl
  exact ⟨hplain, _, hrender, paired_of_render_iff hplain hrender⟩

/-- A block without sections is accepted, and its closing line closes nothing. -/
theorem not_paired_of_hollowBlock :
    ∃ text, Diagram.render { kind := .sequence, nodes := [.block .alt []] } {} = .ok text ∧
      ¬Paired (brackets (originsWrapped {} [.block .alt []]) (splitLines text.toList)) :=
  ⟨"@startuml\nend\n@enduml\n", rfl, by decide +kernel⟩

end Diagrams

end UmlText.Sequence
