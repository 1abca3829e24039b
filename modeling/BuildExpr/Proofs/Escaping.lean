import BuildExpr.Proofs.Joining

/-!
# Escaped lists

A list is written by escaping every separator in its elements and putting a separator between every two of
them. Escaping changes neither the last character of an element nor the brackets that are open behind it, so
an element holds the separator behind it exactly if it does so escaped (`held_escape_iff`), and an escaped
element is read as one piece, whatever brackets are open in front of it (`pieces_escape`).

So a list is read as it was written if no element but the last holds the separator behind it, and none is
empty (`Writable.expand_join`). These are all the lists there are: what any text expands to is one of them
(`writable_expand`), and so escaping writes every list that can be written at all (`expand_join_escape_iff`).
-/

namespace BuildExpr.Elements

/-! ## Escaped elements -/

/-- The element with a backslash in front of every separator. -/
def escape (element : Text) : Text := element.flatMap fun c => if c = ';' then ['\\', ';'] else [c]

/-- Nothing is escaped in the empty element. -/
@[simp] theorem escape_nil : escape [] = [] := rfl

/-- A separator is escaped by a backslash. -/
@[simp] theorem escape_separator (rest : Text) : escape (';' :: rest) = '\\' :: ';' :: escape rest := by
  simp [escape]

/-- Any other character stays as it is. -/
theorem escape_cons {c : Char} (hc : c ≠ ';') (rest : Text) : escape (c :: rest) = c :: escape rest := by
  simp [escape, hc]

/-- There is nothing to escape without a separator. -/
theorem escape_eq_self {element : Text} (h : ';' ∉ element) : escape element = element := by
  induction element with
  | nil => rfl
  | cons c rest ih =>
    rw [List.mem_cons, not_or] at h
    rw [escape_cons (Ne.symm h.1), ih h.2]

/-- Nothing in front of an escaped element can escape its first character. -/
theorem head?_escape (element : Text) : (escape element).head? ≠ some ';' := by
  cases element with
  | nil => simp
  | cons c rest =>
    by_cases hc : c = ';'
    · simp [hc]
    · simpa [escape_cons hc] using hc

/-- Escaping keeps how an element ends. -/
theorem getLast?_escape (element : Text) : (escape element).getLast? = element.getLast? := by
  induction element with
  | nil => rfl
  | cons c rest ih =>
    by_cases hc : c = ';'
    · rw [hc, escape_separator, List.getLast?_cons_cons, List.getLast?_cons, List.getLast?_cons, ih]
    · rw [escape_cons hc, List.getLast?_cons, List.getLast?_cons, ih]

/-- It opens and closes no brackets. -/
theorem bracketsAfter_escape (depth : Nat) (element : Text) :
    bracketsAfter depth (escape element) = bracketsAfter depth element := by
  induction element generalizing depth with
  | nil => rfl
  | cons c rest ih =>
    by_cases hc : c = ';'
    · subst hc
      have hbackslash : bracketsBehind depth '\\' = depth := bracketsBehind_of_ne depth (by decide) (by decide)
      rw [escape_separator, bracketsAfter_cons, bracketsAfter_cons, bracketsAfter_cons, hbackslash, ih]
    · rw [escape_cons hc, bracketsAfter_cons, bracketsAfter_cons, ih]

/-- So a separator behind an element is held or not, whether it is escaped or not. -/
theorem held_escape_iff (depth : Nat) (element : Text) :
    Held depth (escape element) ↔ Held depth element := by
  unfold Held
  rw [getLast?_escape, bracketsAfter_escape]

/-- An escaped element is a single piece, and it is read as it was before it was escaped. -/
theorem pieces_escape (depth : Nat) (element : Text) : pieces depth (escape element) = [element] := by
  induction element generalizing depth with
  | nil => simp [pieces]
  | cons c rest ih =>
    by_cases hc : c = ';'
    · rw [hc, escape_separator, pieces_escaped, ih]
      rfl
    · rw [escape_cons hc, pieces_cons (fun h => absurd h hc) fun _ => head?_escape rest, ih]
      rfl

/-- An escaped element is read as the element, unless it is empty. -/
theorem expand_escape {element : Text} (h : element ≠ []) : expand (escape element) = [element] :=
  expand_of_pieces h (pieces_escape 0 element)

/-! ## Lists that can be written -/

/-- A list each of whose elements is kept apart from what comes behind it. -/
structure Writable (elements : List Text) : Prop where
  /-- No element is empty. -/
  ne_nil : ∀ element ∈ elements, element ≠ []
  /-- None but the last holds the separator behind it. -/
  not_held : ∀ element ∈ elements.dropLast, ¬ Held 0 element

/-- Such a list is read as it was before it was escaped. -/
theorem Writable.expand_join {elements : List Text} (h : Writable elements) :
    expand (Text.join [';'] (elements.map escape)) = elements := by
  have hheld : ∀ element ∈ (elements.map escape).dropLast, ¬ Held 0 element := by
    rw [← List.map_dropLast, List.forall_mem_map]
    exact fun element hmem => mt (held_escape_iff 0 element).1 (h.not_held element hmem)
  calc expand (Text.join [';'] (elements.map escape))
      = (elements.map escape).flatMap expand := expand_join_of_not_held hheld
    _ = elements.flatMap fun element => expand (escape element) := List.flatMap_map _ _ _
    _ = elements.flatMap fun element => [element] :=
        List.flatMap_congr fun element hmem => expand_escape (h.ne_nil element hmem)
    _ = elements := List.flatMap_singleton' elements

/-- What a text expands to can be written. -/
theorem writable_expand (t : Text) : Writable (expand t) :=
  ⟨fun _ => ne_nil_of_mem_expand, not_held_of_mem_expand⟩

/-- The lists that can be written are those that some text expands to. -/
theorem writable_iff (elements : List Text) : Writable elements ↔ ∃ t, expand t = elements := by
  constructor
  · exact fun h => ⟨_, h.expand_join⟩
  · rintro ⟨t, rfl⟩
    exact writable_expand t

/-- Escaping writes each of them, and no other list. -/
theorem expand_join_escape_iff (elements : List Text) :
    expand (Text.join [';'] (elements.map escape)) = elements ↔ Writable elements := by
  constructor
  · exact fun h => (writable_iff elements).2 ⟨_, h⟩
  · exact Writable.expand_join

/-- A list of elements that are not empty is read as it was before it was escaped, if none but the last ends in
a backslash and no bracket is open at the end of any. -/
theorem expand_join_escape {elements : List Text} (hne : ∀ element ∈ elements, element ≠ [])
    (hlast : ∀ element ∈ elements.dropLast, element.getLast? ≠ some '\\')
    (hbrackets : ∀ element ∈ elements, bracketsAfter 0 element = 0) :
    expand (Text.join [';'] (elements.map escape)) = elements := by
  have hheld : ∀ element ∈ elements.dropLast, ¬ Held 0 element := by
    intro element hmem
    have hzero := hbrackets element (List.mem_of_mem_dropLast hmem)
    rw [Held, not_or, hzero]
    exact ⟨hlast element hmem, Nat.lt_irrefl 0⟩
  exact Writable.expand_join ⟨hne, hheld⟩

/-- Elements with a backslash before a separator, with a separator in brackets and a bracket that closes
nothing, and with a backslash at the end of the list. -/
theorem expand_join_escape_mixed :
    let elements : List Text := ["a\\;b", "[c;d]]e;", "C:\\"]
    (∀ element ∈ elements, element ≠ []) ∧
      (∀ element ∈ elements.dropLast, element.getLast? ≠ some '\\') ∧
      (∀ element ∈ elements, bracketsAfter 0 element = 0) ∧
      expand (Text.join [';'] (elements.map escape)) = elements :=
  ⟨by decide, by decide, by decide, expand_join_escape (by decide) (by decide) (by decide)⟩

end BuildExpr.Elements
