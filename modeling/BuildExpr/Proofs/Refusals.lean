import BuildExpr.Chain

/-!
# When a look-up is refused

A look-up may not be started while one for the same property of the same target is under way. A chain
that is handed in may already hold such look-ups more than once; what a refusal says depends on the
nearest of them alone (`Chain.Nearest`). If that is the innermost look-up of the chain, the property
asks for itself. Otherwise the steps of the loop are the look-ups from the new one out to the nearest,
both included (`Chain.refusal_exact`).
-/

namespace BuildExpr

/-- Two look-ups are for one property if target and name agree. -/
theorem Lookup.sameProperty_iff {a b : Lookup} :
    a.sameProperty b = true ↔ a.target = b.target ∧ a.property = b.property := by
  unfold sameProperty
  rw [Bool.and_eq_true, beq_iff_eq, beq_iff_eq]

namespace Chain

variable {lookup : Lookup} {chain : Chain}

/-! ## Whether there is a refusal -/

/-- A property is not among the look-ups under way exactly if none of them is for it. -/
theorem stepsTo_eq_none_iff :
    stepsTo lookup chain = none ↔ ∀ frame ∈ chain, lookup.sameProperty frame = false := by
  induction chain with
  | nil => simp [stepsTo]
  | cons frame rest ih =>
    rw [stepsTo, List.forall_mem_cons, ← ih]
    cases lookup.sameProperty frame with
    | true => simp
    | false => simp

/-- A look-up is let through exactly if its property is not on the chain. -/
theorem refusal?_eq_none_iff :
    refusal? lookup chain = none ↔ ∀ frame ∈ chain, lookup.sameProperty frame = false := by
  cases chain with
  | nil => simp [refusal?]
  | cons parent rest =>
    rw [refusal?, ← stepsTo_eq_none_iff, stepsTo]
    cases lookup.sameProperty parent with
    | true => simp
    | false => simp

/-! ## What a refusal says -/

/-- The innermost look-up of a chain that asks for the same property, with those inside it. -/
structure Nearest (lookup : Lookup) (chain inside : Chain) (nearest : Lookup) : Prop where
  /-- It comes next in the chain after those inside it. -/
  onChain : inside ++ [nearest] <+: chain
  /-- It is for the same property of the same target. -/
  same : lookup.target = nearest.target ∧ lookup.property = nearest.property
  /-- Those inside it are not. -/
  other : ∀ frame ∈ inside, ¬ (lookup.target = frame.target ∧ lookup.property = frame.property)

/-- An empty chain has none. -/
theorem not_nearest_nil {inside : Chain} {nearest : Lookup} :
    ¬ Nearest lookup [] inside nearest := by
  intro h
  simpa using h.onChain.length_le

section

variable {frame nearest : Lookup} {rest inside : Chain}

/-- It is the first of the chain if that asks for the same property. -/
theorem nearest_cons_of_same (hframe : lookup.sameProperty frame = true) :
    Nearest lookup (frame :: rest) inside nearest ↔ inside = [] ∧ nearest = frame := by
  constructor
  · rintro ⟨hchain, hsame, hother⟩
    cases inside with
    | nil => exact ⟨rfl, (List.cons_prefix_cons.1 hchain).1⟩
    | cons first between =>
      obtain ⟨rfl, -⟩ := List.cons_prefix_cons.1 hchain
      exact absurd (Lookup.sameProperty_iff.1 hframe) (hother first List.mem_cons_self)
  · rintro ⟨rfl, rfl⟩
    exact ⟨List.prefix_append [nearest] rest, Lookup.sameProperty_iff.1 hframe,
      List.forall_mem_nil _⟩

/-- Otherwise it is the nearest of the others. -/
theorem nearest_cons_of_other (hframe : ¬ lookup.sameProperty frame = true) :
    Nearest lookup (frame :: rest) inside nearest ↔
      ∃ between, inside = frame :: between ∧ Nearest lookup rest between nearest := by
  rw [Lookup.sameProperty_iff] at hframe
  constructor
  · rintro ⟨hchain, hsame, hother⟩
    cases inside with
    | nil =>
      obtain ⟨rfl, -⟩ := List.cons_prefix_cons.1 hchain
      exact absurd hsame hframe
    | cons first between =>
      obtain ⟨rfl, hrest⟩ := List.cons_prefix_cons.1 hchain
      exact ⟨between, rfl, hrest, hsame, (List.forall_mem_cons.1 hother).2⟩
  · rintro ⟨between, rfl, hrest, hsame, hother⟩
    exact ⟨List.cons_prefix_cons.2 ⟨rfl, hrest⟩, hsame, List.forall_mem_cons.2 ⟨hframe, hother⟩⟩

end

/-- The steps lead to the nearest look-up for the same property. -/
theorem stepsTo_eq_some_iff {steps : List Text} :
    stepsTo lookup chain = some steps ↔
      ∃ inside nearest, Nearest lookup chain inside nearest ∧
        steps = (inside ++ [nearest]).map Lookup.content := by
  induction chain generalizing steps with
  | nil => simp [stepsTo, not_nearest_nil]
  | cons frame rest ih =>
    rw [stepsTo]
    -- A frame for the property ends the search, as the nearest one; any other adds a step.
    split
    · next hframe =>
      simp only [nearest_cons_of_same hframe, Option.some.injEq]
      constructor
      · rintro rfl
        exact ⟨[], frame, ⟨rfl, rfl⟩, rfl⟩
      · rintro ⟨inside, nearest, ⟨rfl, rfl⟩, rfl⟩
        rfl
    · next hframe =>
      simp only [nearest_cons_of_other hframe, Option.map_eq_some_iff]
      constructor
      · rintro ⟨further, hfurther, rfl⟩
        obtain ⟨between, nearest, hnearest, rfl⟩ := ih.1 hfurther
        exact ⟨frame :: between, nearest, ⟨between, rfl, hnearest⟩, rfl⟩
      · rintro ⟨inside, nearest, ⟨between, rfl, hnearest⟩, rfl⟩
        exact ⟨_, ih.2 ⟨between, nearest, hnearest, rfl⟩, rfl⟩

/-- A look-up is refused exactly if some look-up under way asks for the same property of the same
target. If that is the innermost one, the property refers to itself. Otherwise there is a loop, whose
steps are the new look-up and those of the chain up to the nearest such one. -/
theorem refusal_exact (lookup : Lookup) (chain : Chain) :
    (refusal? lookup chain ≠ none ↔
      ∃ ancestor ∈ chain,
        lookup.target = ancestor.target ∧ lookup.property = ancestor.property) ∧
    ∀ cause, refusal? lookup chain = some cause ↔
      ∃ inside nearest, Nearest lookup chain inside nearest ∧
        (inside = [] ∧ cause = .selfReference lookup.target lookup.property ∨
          inside ≠ [] ∧ cause = .dependencyLoop lookup.target lookup.property
            ((lookup :: inside ++ [nearest]).map Lookup.content)) := by
  constructor
  · rw [ne_eq, refusal?_eq_none_iff]
    simp [← Lookup.sameProperty_iff]
  · intro cause
    cases chain with
    | nil => simp [refusal?, not_nearest_nil]
    | cons parent rest =>
      rw [refusal?]
      split
      · next hparent =>
        simp only [nearest_cons_of_same hparent, Option.some.injEq]
        constructor
        · rintro rfl
          exact ⟨[], parent, ⟨rfl, rfl⟩, .inl ⟨rfl, rfl⟩⟩
        · rintro ⟨inside, nearest, ⟨rfl, rfl⟩, ⟨-, rfl⟩ | ⟨hinside, -⟩⟩
          · rfl
          · exact absurd rfl hinside
      · next hparent =>
        -- The parent is another one, so it is the first step on the way to the nearest.
        simp only [Option.map_eq_some_iff, stepsTo_eq_some_iff]
        constructor
        · rintro ⟨steps, ⟨inside, nearest, hnearest, rfl⟩, rfl⟩
          obtain ⟨between, rfl, -⟩ := (nearest_cons_of_other hparent).1 hnearest
          exact ⟨parent :: between, nearest, hnearest, .inr ⟨List.cons_ne_nil _ _, rfl⟩⟩
        · rintro ⟨inside, nearest, hnearest, ⟨rfl, -⟩ | ⟨-, rfl⟩⟩
          · obtain ⟨between, hinside, -⟩ := (nearest_cons_of_other hparent).1 hnearest
            cases hinside
          · exact ⟨_, ⟨inside, nearest, hnearest, rfl⟩, rfl⟩

/-- The steps end at the nearest look-up, though the same property is asked for once more further
out. -/
example : refusal? ⟨"a", "X", "3"⟩ [⟨"b", "Y", "2"⟩, ⟨"a", "X", "1"⟩, ⟨"b", "Y", "0"⟩,
    ⟨"a", "X", "r"⟩] = some (.dependencyLoop "a" "X" ["3", "2", "1"]) := by decide

end Chain

end BuildExpr
