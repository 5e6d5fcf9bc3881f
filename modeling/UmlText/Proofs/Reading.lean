import UmlText.Program

/-!
# Reading a program as a tree

A program of calls is a tree itself, and so the tree of the diagram can be read off by
recursion on the program, without an engine: a call contributes an *item* to the scope it
stands in, which is an element or a *clause* that divides the elements before it from those
behind it, and a call with a body contributes what its body has contributed, put together.
A `Reading` says how the calls of a dialect are read; the only thing that is passed from
call to call is how many aliases were generated.  A construct is read only where every item
in it has a place, so that no item gets lost.
-/

namespace UmlText

/-- The alias with this name, if a name can be that of an alias. -/
def Alias.ofName? (name : String) : Option Alias :=
  if h : aliasFlaw? name.toList = none ∨ generatedMark.isPrefixOf name.toList = true then
    some ⟨name, h⟩
  else none

theorem Alias.ofName?_name (a : Alias) : Alias.ofName? a.name = some a := by
  unfold ofName?
  rw [dif_pos a.wellFormed]

theorem Alias.name_of_ofName?
    {name : String}
    {a : Alias}
    (h : Alias.ofName? name = some a) :
    a.name = name := by
  unfold ofName? at h
  split at h
  · cases h
    rfl
  · cases h

/-- What a call contributes to the scope it stands in. -/
inductive Item (Node Clause : Type) where
  | element (node : Node)
  | clause (c : Clause)

namespace Item

variable {Node Clause : Type}

/-- The elements in front of the first clause, and every clause with the elements between it
and the next one. -/
def split : List (Item Node Clause) → List Node × List (Clause × List Node)
  | [] => ([], [])
  | .element node :: rest => (node :: (split rest).1, (split rest).2)
  | .clause c :: rest => ([], (c, (split rest).1) :: (split rest).2)

/-- Items that are elements, as a list of elements; `none` when there is a clause among
them. -/
def elements? : List (Item Node Clause) → Option (List Node)
  | [] => some []
  | .element node :: rest => (elements? rest).map (node :: ·)
  | .clause _ :: _ => none

/-- Sections with an element at the end of the last one. -/
def pushLast (node : Node) : List (Clause × List Node) → List (Clause × List Node)
  | [] => []
  | [(c, body)] => [(c, body ++ [node])]
  | s :: t :: rest => s :: pushLast node (t :: rest)

/-- An element at the end of the last section leaves the clauses as they are. -/
theorem map_fst_pushLast
    (node : Node) :
    ∀ sections : List (Clause × List Node),
      (pushLast node sections).map Prod.fst = sections.map Prod.fst
  | [] => rfl
  | [_] => rfl
  | s :: t :: rest => by
      have hrest := map_fst_pushLast node (t :: rest)
      rw [pushLast, List.map_cons, hrest]
      rfl

theorem mem_pushLast
    {node : Node}
    {s : Clause × List Node}
    {sections : List (Clause × List Node)}
    (h : s ∈ pushLast node sections) :
    ∃ t ∈ sections, t.1 = s.1 := by
  have hmem : s.1 ∈ (pushLast node sections).map Prod.fst := List.mem_map_of_mem h
  rw [map_fst_pushLast] at hmem
  exact List.mem_map.mp hmem

/-- Where there is no clause, another element goes to the end of the elements. -/
theorem split_append_element_of_nil
    {items : List (Item Node Clause)}
    (node : Node)
    (h : (split items).2 = []) :
    split (items ++ [.element node]) = ((split items).1 ++ [node], []) := by
  induction items with
  | nil => rfl
  | cons item rest ih =>
      cases item with
      | element first =>
          have hrest : (split rest).2 = [] := h
          simp [split, ih hrest]
      | clause c => simp [split] at h

/-- Behind a clause, another element goes to the end of the last section. -/
theorem split_append_element
    {items : List (Item Node Clause)}
    (node : Node)
    (h : (split items).2 ≠ []) :
    split (items ++ [.element node]) =
      ((split items).1, pushLast node (split items).2) := by
  induction items with
  | nil => exact absurd rfl h
  | cons item rest ih =>
      cases item with
      | element first =>
          have hrest : (split rest).2 ≠ [] := h
          simp [split, ih hrest]
      | clause c =>
          by_cases hrest : (split rest).2 = []
          · simp [split, split_append_element_of_nil node hrest, hrest, pushLast]
          · obtain ⟨s, t, hst⟩ := List.exists_cons_of_ne_nil hrest
            simp [split, ih hrest, hst, pushLast]

/-- An element never changes which clauses there are. -/
theorem clauses_append_element
    (items : List (Item Node Clause))
    (node : Node) :
    (split (items ++ [.element node])).2.map Prod.fst = (split items).2.map Prod.fst := by
  by_cases h : (split items).2 = []
  · rw [split_append_element_of_nil node h, h]
  · rw [split_append_element node h, map_fst_pushLast]

/-- Another clause starts a section of its own. -/
theorem split_append_clause
    (items : List (Item Node Clause))
    (c : Clause) :
    split (items ++ [.clause c]) = ((split items).1, (split items).2 ++ [(c, [])]) := by
  induction items with
  | nil => rfl
  | cons item rest ih => cases item <;> simp [split, ih]

/-- Where the elements in front of the first clause are a section like the others, another
element goes to the end of the last one. -/
theorem split_append_element_cons
    (items : List (Item Node Clause))
    (node : Node)
    (c : Clause) :
    (c, (split (items ++ [.element node])).1) :: (split (items ++ [.element node])).2 =
      pushLast node ((c, (split items).1) :: (split items).2) := by
  by_cases h : (split items).2 = []
  · rw [split_append_element_of_nil node h, h]
    rfl
  · rw [split_append_element node h]
    obtain ⟨s, rest, hcons⟩ := List.exists_cons_of_ne_nil h
    rw [hcons]
    rfl

theorem pushLast_append
    (node : Node)
    (c : Clause)
    (body : List Node)
    (front : List (Clause × List Node)) :
    pushLast node (front ++ [(c, body)]) = front ++ [(c, body ++ [node])] := by
  induction front with
  | nil => rfl
  | cons s rest ih =>
      cases rest with
      | nil => rfl
      | cons t rest => simpa [pushLast] using ih

end Item

/-- How the calls of a dialect are read. -/
structure Reading (d : Dialect) where
  /-- What a call without an element of its own contributes. -/
  Clause : Type
  /-- What is written on the lines of a construct itself. -/
  Head : Type
  /-- What a call contributes after so many generated aliases, and how many there are then.
  -/
  call : Nat → d.Call → Option (Item d.Node Clause × Nat)
  /-- What a call that opens a scope writes on the lines of the construct. -/
  opening : Nat → d.Opening → Option (Head × Nat)
  /-- What a construct contributes, from what the calls in its body contribute; `none` where
  one of them has no place in the construct. -/
  construct : Head → List (Item d.Node Clause) → Option (Item d.Node Clause)

namespace Reading

variable {d : Dialect}

/-- What a call of the dialect contributes. -/
abbrev Item (r : Reading d) : Type :=
  UmlText.Item d.Node r.Clause

mutual

/-- What a call contributes, with the calls of its body, after so many generated aliases. -/
def read (r : Reading d) (generated : Nat) : Authoring d → Option (r.Item × Nat)
  | .call (.ok call) _ => r.call generated call
  | .call (.error _) _ => none
  | .scope opening _ body => do
      let (head, generated) ← r.opening generated opening
      let (items, generated) ← readAll r generated body
      let item ← r.construct head items
      return (item, generated)

/-- What the calls of a list contribute, in order. -/
def readAll (r : Reading d) (generated : Nat) : List (Authoring d) → Option (List r.Item × Nat)
  | [] => some ([], generated)
  | p :: rest => do
      let (item, generated) ← read r generated p
      let (items, generated) ← readAll r generated rest
      return (item :: items, generated)

end

/-- The tree that a whole program describes. -/
def tree (r : Reading d) (program : List (Authoring d)) : Option (List d.Node) := do
  let (items, _) ← r.readAll 0 program
  Item.elements? items

end Reading

mutual

/-- How many calls of the engine a call makes: one, and one more to close the scope of its
body. -/
def Program.callCount {Leaf Opening : Type} : Program Leaf Opening → Nat
  | .call _ _ => 1
  | .scope _ _ body => callCountOf body + 2

/-- How many calls of the engine the calls of a list make. -/
def callCountOf {Leaf Opening : Type} : List (Program Leaf Opening) → Nat
  | [] => 0
  | p :: rest => p.callCount + callCountOf rest

end

end UmlText
