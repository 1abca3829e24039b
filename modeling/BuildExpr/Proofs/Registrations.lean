import Mathlib.Data.List.Induction
import Mathlib.Data.List.Nodup
import BuildExpr.Proofs.Runs
import BuildExpr.Proofs.TextOrder

/-!
# The history of a registry

A host offers operations to a registry one after the other, and the registry refuses some of them. What a
registry has come to hold is said by the offers alone (`Holds`): of those with a name that is not built in,
the first of each name. An offer keeps this, whether it is refused or not (`Holds.offer`), so it holds after
any number of them, and with it all that can be asked of the registry is known (`offerAll_spec`).

The built-in operations are found through a table of names that is written out on its own (`Builtin.names`).
That it agrees with the names of the operations, and lists each of them once, is `Builtin.names_eq`.
-/

namespace BuildExpr

namespace Builtin

/-- Different built-in operations have different names. -/
theorem name_injective : Function.Injective name := by
  intro b c h
  have hfound : some b = some c := by rw [← ofName?_name b, h, ofName?_name c]
  exact Option.some.inj hfound

/-- No name is built in twice. -/
theorem nodup_names : (all.map name).Nodup := by
  have hall : all.Nodup := by decide
  exact hall.map name_injective

/-- Nothing is found by a name that no built-in operation has. -/
theorem ofName?_eq_none_iff {n : Text} : ofName? n = none ↔ ∀ b : Builtin, b.name ≠ n := by
  constructor
  · intro h b hname
    rw [← hname, ofName?_name] at h
    cases h
  · intro h
    cases hfound : ofName? n with
    | none => rfl
    | some b => exact absurd (name_of_ofName? hfound) (h b)

end Builtin

namespace Registry

variable {r : Registry} {op : Operation} {name : Text}

/-! ## One offer -/

/-- The registry after an operation has been offered to it, which it may refuse. -/
def offer (r : Registry) (op : Operation) : Registry :=
  match r.register op with
  | .ok extended => extended
  | .error _ => r

/-- The registry after some operations have been offered to it, in order. -/
def offerAll (r : Registry) (ops : List Operation) : Registry := ops.foldl offer r

/-- One more operation is offered to the registry that the others have come to. -/
theorem offerAll_concat (r : Registry) (ops : List Operation) (op : Operation) :
    r.offerAll (ops ++ [op]) = (r.offerAll ops).offer op := by
  rw [offerAll, List.foldl_append]
  rfl

/-- An offer that is refused changes nothing. -/
theorem offer_of_error {refusal : Refusal} (h : r.register op = .error refusal) : r.offer op = r := by
  rw [offer, h]

/-- An operation that is registered is in the registry after its offer. -/
theorem offer_of_ok {extended : Registry} (h : r.register op = .ok extended) :
    r.offer op = extended := by rw [offer, h]

/-- A name is built in, taken, or free, and an operation is added only under a free one. -/
theorem register_cases (r : Registry) (op : Operation) :
    (∃ b : Builtin, b.name = op.name) ∧ r.register op = .error (.builtinName op.name) ∨
      (∀ b : Builtin, b.name ≠ op.name) ∧ (∃ other ∈ r.added, other.name = op.name) ∧
        r.register op = .error (.duplicate op.name) ∨
      (∀ b : Builtin, b.name ≠ op.name) ∧ (∀ other ∈ r.added, other.name ≠ op.name) ∧
        r.register op = .ok ⟨r.added ++ [op]⟩ := by
  have htaken : (r.added.any fun other => other.name == op.name) = true ↔
      ∃ other ∈ r.added, other.name = op.name := by simp
  unfold register
  cases hbuiltin : Builtin.ofName? op.name with
  | some b => exact .inl ⟨⟨b, Builtin.name_of_ofName? hbuiltin⟩, rfl⟩
  | none =>
    have hforeign := Builtin.ofName?_eq_none_iff.1 hbuiltin
    rw [if_neg (by simp)]
    right
    by_cases hany : (r.added.any fun other => other.name == op.name) = true
    · rw [if_pos hany]
      exact .inl ⟨hforeign, htaken.1 hany, rfl⟩
    · rw [if_neg hany]
      refine .inr ⟨hforeign, fun other hmem hname => ?_, rfl⟩
      exact hany (htaken.2 ⟨other, hmem, hname⟩)

/-! ## What a registry holds -/

/-- The first of some operations that has a name. -/
def firstNamed? (name : Text) (ops : List Operation) : Option Operation :=
  ops.find? fun op => op.name == name

/-- There is a first operation of a name exactly if there is one at all. -/
theorem isSome_firstNamed? {ops : List Operation} :
    (firstNamed? name ops).isSome = true ↔ ∃ op ∈ ops, op.name = name := by
  simp [firstNamed?, List.find?_isSome]

/-- The operation that is found has the name. -/
theorem name_of_firstNamed? {ops : List Operation} (h : firstNamed? name ops = some op) :
    op.name = name := by
  have hnamed := List.find?_some h
  exact eq_of_beq hnamed

/-- One more operation is the first of its name if there was none before. -/
theorem firstNamed?_concat (name : Text) (ops : List Operation) (op : Operation) :
    firstNamed? name (ops ++ [op]) =
      (firstNamed? name ops).or (if op.name = name then some op else none) := by
  unfold firstNamed?
  rw [List.find?_append]
  by_cases hname : op.name = name
  · simp [hname]
  · simp [hname]

/-- The registry has come about by some offers: of those with a name that is not built in it holds the first
one of each name. -/
structure Holds (r : Registry) (offers : List Operation) : Prop where
  /-- Nothing has been added under the name of a built-in operation. -/
  foreign : ∀ op ∈ r.added, ∀ b : Builtin, b.name ≠ op.name
  /-- Nothing has been added under a name that was taken. -/
  distinct : (r.added.map Operation.name).Nodup
  /-- By any other name the first offer is found. -/
  first : ∀ name, (∀ b : Builtin, b.name ≠ name) →
    firstNamed? name r.added = firstNamed? name offers

namespace Holds

variable {offers : List Operation}

/-- Before any offer, nothing has been added. -/
theorem empty : Holds {} [] where
  foreign _ h := absurd h List.not_mem_nil
  distinct := List.nodup_nil
  first _ _ := rfl

/-- Under a name that is not built in something has been added exactly if it has been offered. -/
theorem exists_added_iff (h : r.Holds offers) (hname : ∀ b : Builtin, b.name ≠ name) :
    (∃ op ∈ r.added, op.name = name) ↔ ∃ op ∈ offers, op.name = name := by
  rw [← isSome_firstNamed?, ← isSome_firstNamed?, h.first name hname]

/-- After an offer the registry holds what it should hold after all of them. -/
theorem offer (h : r.Holds offers) (op : Operation) : (r.offer op).Holds (offers ++ [op]) := by
  rcases r.register_cases op with ⟨⟨b, hb⟩, hregister⟩ | ⟨hforeign, htaken, hregister⟩ |
    ⟨hforeign, hfree, hregister⟩
  · rw [offer_of_error hregister]
    refine ⟨h.foreign, h.distinct, fun name hname => ?_⟩
    -- The name of the offer is built in, so it is not the one that is looked for.
    have hne : op.name ≠ name := fun heq => hname b (hb.trans heq)
    rw [h.first name hname, firstNamed?_concat, if_neg hne, Option.or_none]
  · rw [offer_of_error hregister]
    refine ⟨h.foreign, h.distinct, fun name hname => ?_⟩
    rw [h.first name hname, firstNamed?_concat]
    by_cases heq : op.name = name
    · -- There is an earlier offer of the name, and that one is found.
      have hearlier : (firstNamed? name offers).isSome = true := by
        rw [isSome_firstNamed?, ← heq]
        exact (h.exists_added_iff hforeign).1 htaken
      rw [Option.or_of_isSome hearlier]
    · rw [if_neg heq, Option.or_none]
  · rw [offer_of_ok hregister]
    refine ⟨?_, ?_, fun name hname => ?_⟩
    · intro other hmem
      rcases List.mem_append.1 hmem with hmem | hmem
      · exact h.foreign other hmem
      · rw [List.mem_singleton.1 hmem]
        exact hforeign
    · rw [List.map_append, List.map_singleton]
      refine List.nodup_append.2 ⟨h.distinct, List.nodup_singleton _, ?_⟩
      intro taken htaken new hnew heq
      obtain ⟨other, hother, rfl⟩ := List.mem_map.1 htaken
      exact hfree other hother (heq.trans (List.mem_singleton.1 hnew))
    · rw [firstNamed?_concat, firstNamed?_concat, h.first name hname]

/-- This is how any registry comes about. -/
theorem offerAll (ops : List Operation) : (({} : Registry).offerAll ops).Holds ops := by
  induction ops using List.reverseRecOn with
  | nil => exact empty
  | append_singleton ops op ih =>
    rw [offerAll_concat]
    exact ih.offer op

/-- By a name that is not built in, the first offer of it is found. -/
theorem find?_eq (h : r.Holds offers) (hname : ∀ b : Builtin, b.name ≠ name) :
    r.find? name = firstNamed? name offers := by
  unfold find?
  rw [Builtin.ofName?_eq_none_iff.2 hname]
  exact h.first name hname

/-- One more operation is refused if its name is built in or has been offered before, and taken otherwise. -/
theorem offer_cases (h : r.Holds offers) (op : Operation) :
    (∃ b : Builtin, b.name = op.name) ∧
        r.register op = .error (.builtinName op.name) ∧ r.offer op = r ∨
      (∀ b : Builtin, b.name ≠ op.name) ∧ (∃ earlier ∈ offers, earlier.name = op.name) ∧
        r.register op = .error (.duplicate op.name) ∧ r.offer op = r ∨
      (∀ b : Builtin, b.name ≠ op.name) ∧ (∀ earlier ∈ offers, earlier.name ≠ op.name) ∧
        r.register op = .ok (r.offer op) := by
  rcases r.register_cases op with ⟨hbuiltin, hregister⟩ | ⟨hforeign, htaken, hregister⟩ |
    ⟨hforeign, hfree, hregister⟩
  · exact .inl ⟨hbuiltin, hregister, offer_of_error hregister⟩
  · have hoffered := (h.exists_added_iff hforeign).1 htaken
    exact .inr (.inl ⟨hforeign, hoffered, hregister, offer_of_error hregister⟩)
  · have hnew : ∀ earlier ∈ offers, earlier.name ≠ op.name := by
      intro earlier hmem hname
      obtain ⟨other, hother, heq⟩ := (h.exists_added_iff hforeign).2 ⟨earlier, hmem, hname⟩
      exact hfree other hother heq
    rw [offer_of_ok hregister]
    exact .inr (.inr ⟨hforeign, hnew, hregister⟩)

/-- The names of what is held are all different. -/
theorem nodup_names (h : r.Holds offers) :
    (Builtin.all.map Builtin.name ++ r.added.map Operation.name).Nodup := by
  refine List.nodup_append.2 ⟨Builtin.nodup_names, h.distinct, ?_⟩
  intro builtinName hbuiltin addedName hadded heq
  obtain ⟨b, -, rfl⟩ := List.mem_map.1 hbuiltin
  obtain ⟨op, hop, rfl⟩ := List.mem_map.1 hadded
  exact h.foreign op hop b heq

end Holds

/-! ## What can be asked of a registry -/

/-- What is found by a name has that name. -/
theorem name_of_find? (h : r.find? name = some op) : op.name = name := by
  unfold find? at h
  cases hbuiltin : Builtin.ofName? name with
  | some b =>
    rw [hbuiltin] at h
    have hop : b.operation = op := Option.some.inj h
    rw [← hop]
    exact Builtin.name_of_ofName? hbuiltin
  | none =>
    rw [hbuiltin] at h
    exact name_of_firstNamed? h

/-- A name is listed exactly if something is found by it. -/
theorem mem_names_iff : name ∈ r.names ↔ ∃ op, r.find? name = some op := by
  have hmem : name ∈ r.names ↔
      (∃ b : Builtin, b.name = name) ∨ ∃ op ∈ r.added, op.name = name := by
    simp [names, Text.sort, Builtin.mem_all]
  rw [hmem]
  unfold find?
  cases hbuiltin : Builtin.ofName? name with
  | some b =>
    exact ⟨fun _ => ⟨b.operation, rfl⟩, fun _ => .inl ⟨b, Builtin.name_of_ofName? hbuiltin⟩⟩
  | none =>
    have hforeign := Builtin.ofName?_eq_none_iff.1 hbuiltin
    rw [← isSome_firstNamed?, Option.isSome_iff_exists]
    constructor
    · exact fun h => h.resolve_left fun ⟨b, hb⟩ => hforeign b hb
    · exact .inr

/-- Whatever operations are offered to an empty registry, and in whatever order: a built-in operation is
found by its name, and by any other name the first operation offered under it. An operation is refused
exactly if its name is built in or has been offered before, and then the registry stays as it is. The names
are strictly in order and as many as there are operations; they are those by which an operation is found,
and that operation has the name. -/
theorem offerAll_spec (offers : List Operation) :
    let r := ({} : Registry).offerAll offers
    (∀ name,
      (∃ b : Builtin, b.name = name ∧ r.find? name = some b.operation) ∨
        (∀ b : Builtin, b.name ≠ name) ∧
          r.find? name = offers.find? fun op => op.name == name) ∧
      (∀ op,
        let after := ({} : Registry).offerAll (offers ++ [op])
        (∃ b : Builtin, b.name = op.name) ∧
            r.register op = .error (.builtinName op.name) ∧ after = r ∨
          (∀ b : Builtin, b.name ≠ op.name) ∧ (∃ earlier ∈ offers, earlier.name = op.name) ∧
            r.register op = .error (.duplicate op.name) ∧ after = r ∨
          (∀ b : Builtin, b.name ≠ op.name) ∧ (∀ earlier ∈ offers, earlier.name ≠ op.name) ∧
            r.register op = .ok after) ∧
      r.names.Pairwise Text.Before ∧ r.names.length = r.size ∧
      ∀ name, (r.contains name = true ↔ name ∈ r.names) ∧
        (name ∈ r.names ↔ ∃ op, r.find? name = some op ∧ op.name = name) := by
  intro r
  have hholds : r.Holds offers := Holds.offerAll offers
  refine ⟨?_, ?_, Text.before_sort hholds.nodup_names, ?_, ?_⟩
  · intro name
    -- The names of built-in operations come first, so nothing can be offered under one.
    cases hbuiltin : Builtin.ofName? name with
    | some b =>
      have hname := Builtin.name_of_ofName? hbuiltin
      exact .inl ⟨b, hname, hname ▸ r.find?_name b⟩
    | none =>
      have hforeign := Builtin.ofName?_eq_none_iff.1 hbuiltin
      exact .inr ⟨hforeign, hholds.find?_eq hforeign⟩
  · intro op after
    rw [show after = r.offer op from offerAll_concat {} offers op]
    exact hholds.offer_cases op
  · simp [names, size, Text.sort]
  · intro name
    rw [contains, Option.isSome_iff_exists, mem_names_iff]
    exact ⟨Iff.rfl, fun ⟨op, hop⟩ => ⟨op, hop, name_of_find? hop⟩, fun ⟨op, hop, _⟩ => ⟨op, hop⟩⟩

end Registry

end BuildExpr
