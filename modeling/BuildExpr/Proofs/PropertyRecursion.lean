import BuildExpr.Proofs.Causes
import BuildExpr.Proofs.Nesting
import BuildExpr.Proofs.Refusals
import BuildExpr.Proofs.Sessions

/-!
# Property look-ups do not nest without bound

The value of a property may look up further properties, and nothing in a text tells how deep that
goes. But a property that is being looked up is not looked up again, so each stored value is evaluated
at most once on the way inwards. If the nesting limit allows for the nesting of the text and of every
stored value once, it is never reached, however the values refer to each other
(`session_within_limit`). The invariant of the recursion is that the operations that may still
be opened are enough for the forest at hand and for all values whose properties are not on the chain.
-/

namespace BuildExpr

/-! ## Stored values -/

/-- A value stored for a property, in all configurations or in one of them. -/
structure StoredValue where
  /-- The target that has the property. -/
  target : Text
  /-- The name of the property. -/
  property : Text
  /-- The value. -/
  text : Text
deriving DecidableEq, Repr

namespace StoredValue

/-- Whether a look-up asks for the property of a value. -/
def askedBy (v : StoredValue) (lookup : Lookup) : Bool :=
  lookup.target == v.target && lookup.property == v.property

/-- How deep some values nest together: the sum of how deep each of them nests. -/
def totalNesting : List StoredValue → Nat
  | [] => 0
  | v :: rest => v.text.nesting + totalNesting rest

/-- Values nest in total as deep as the first and the others together. -/
@[simp] theorem totalNesting_cons (v : StoredValue) (values : List StoredValue) :
    totalNesting (v :: values) = v.text.nesting + totalNesting values := by simp [totalNesting]

/-- None of them nests deeper than all together. -/
theorem nesting_le_totalNesting {v : StoredValue} {values : List StoredValue} (h : v ∈ values) :
    v.text.nesting ≤ totalNesting values := by
  induction values with
  | nil => cases h
  | cons first rest ih =>
    rw [totalNesting_cons]
    rcases List.mem_cons.1 h with rfl | hrest
    · omega
    · have hle := ih hrest
      omega

/-- Values are set apart by a property of theirs. -/
theorem totalNesting_filter_add (p : StoredValue → Bool) (values : List StoredValue) :
    totalNesting (values.filter p) + totalNesting (values.filter fun v => !p v) =
      totalNesting values := by
  induction values with
  | nil => rfl
  | cons v rest ih =>
    cases hp : p v with
    | true =>
      simp only [List.filter_cons, hp, if_true, Bool.not_true, Bool.false_eq_true, if_false,
        totalNesting_cons]
      omega
    | false =>
      simp only [List.filter_cons, hp, if_true, Bool.not_false, Bool.false_eq_true, if_false,
        totalNesting_cons]
      omega

end StoredValue

open StoredValue (totalNesting nesting_le_totalNesting totalNesting_filter_add)

namespace Model

/-- All values of a model. -/
def values (m : Model) : List StoredValue :=
  m.targets.entries.flatMap fun (target, p) =>
    (p.base.entries.map fun (name, text) => ⟨target, name, text⟩) ++
      p.overrides.entries.map fun ((_, name), text) => ⟨target, name, text⟩

/-- The entries of the properties of a target, in either table, are among them. -/
theorem mem_values_of_mem_entries {m : Model} {target name text : Text}
    (h : (name, text) ∈ (m.propertiesOf target).base.entries ∨
      ∃ config, ((config, name), text) ∈ (m.propertiesOf target).overrides.entries) :
    ⟨target, name, text⟩ ∈ m.values := by
  unfold propertiesOf at h
  cases htarget : m.targets.get? target with
  | none =>
    rw [htarget] at h
    rcases h with hbase | ⟨config, hconfig⟩
    · cases hbase
    · cases hconfig
  | some p =>
    rw [htarget, Option.getD_some] at h
    rw [values, List.mem_flatMap]
    refine ⟨(target, p), Table.mem_entries_of_get? htarget, ?_⟩
    rw [List.mem_append, List.mem_map, List.mem_map]
    rcases h with hbase | ⟨config, hconfig⟩
    · exact .inl ⟨_, hbase, rfl⟩
    · exact .inr ⟨_, hconfig, rfl⟩

/-- The value of a property is one of them, whatever the configuration. -/
theorem mem_values {m : Model} {target name config text : Text}
    (h : m.property? target name config = some text) : ⟨target, name, text⟩ ∈ m.values := by
  rw [property?, Properties.value?, Option.or_eq_some_iff] at h
  rcases h with hconfig | ⟨-, hbase⟩
  · exact mem_values_of_mem_entries (.inr ⟨_, Table.mem_entries_of_get? hconfig⟩)
  · exact mem_values_of_mem_entries (.inl (Table.mem_entries_of_get? hbase))

/-- The values whose properties are not being looked up. -/
def valuesOff (m : Model) (chain : Chain) : List StoredValue :=
  m.values.filter fun v => !chain.any v.askedBy

/-- A value that is going to be evaluated is one of those not being looked up, and not any more once
its look-up is on the chain. -/
theorem nesting_add_totalNesting_valuesOff {m : Model} {lookup : Lookup} {chain : Chain}
    {config text : Text} (hchain : Chain.refusal? lookup chain = none)
    (hvalue : m.property? lookup.target lookup.property config = some text) :
    text.nesting + totalNesting (m.valuesOff (lookup :: chain)) ≤
      totalNesting (m.valuesOff chain) := by
  -- The value is off the chain and asked for, so it is among those that the longer chain takes away.
  let value : StoredValue := ⟨lookup.target, lookup.property, text⟩
  have hasked : value.askedBy lookup = true := by simp [StoredValue.askedBy, value]
  have hoff : value ∈ m.valuesOff chain := by
    rw [valuesOff, List.mem_filter, Bool.not_eq_true', List.any_eq_false]
    refine ⟨mem_values hvalue, fun frame hframe => ?_⟩
    have hfree := Chain.refusal?_eq_none_iff.1 hchain frame hframe
    simp only [Lookup.sameProperty, Bool.and_eq_false_iff, beq_eq_false_iff_ne] at hfree
    simp only [StoredValue.askedBy, value, Bool.not_eq_true, Bool.and_eq_false_iff,
      beq_eq_false_iff_ne]
    exact hfree.imp Ne.symm Ne.symm
  have hle : text.nesting ≤ totalNesting ((m.valuesOff chain).filter fun v => v.askedBy lookup) :=
    nesting_le_totalNesting (v := value) (List.mem_filter.2 ⟨hoff, hasked⟩)
  have hsplit := totalNesting_filter_add (fun v => v.askedBy lookup) (m.valuesOff chain)
  have hrest : m.valuesOff (lookup :: chain) =
      (m.valuesOff chain).filter fun v => !v.askedBy lookup := by
    simp only [valuesOff, List.filter_filter, List.any_cons, Bool.not_or]
  rw [hrest]
  omega

/-- Of all values some are being looked up. -/
theorem totalNesting_valuesOff_le (m : Model) (chain : Chain) :
    totalNesting (m.valuesOff chain) ≤ totalNesting m.values := by
  have hsplit := totalNesting_filter_add (fun v => !chain.any v.askedBy) m.values
  unfold valuesOff
  omega

end Model

/-! ## Evaluation -/

/-- A cause other than operations being nested beyond the limit. -/
def Cause.WithinLimit (c : Cause) : Prop := ∀ depth limit, c ≠ .nestingTooDeep depth limit

/-- A refusal is no failure at the limit. -/
theorem Cause.withinLimit_of_isRefusal (c : Cause) (h : c.isRefusal = true) : c.WithinLimit := by
  rintro depth limit rfl
  cases h

/-- Nor is a cycle. -/
theorem Cause.withinLimit_of_isCycle (c : Cause) (h : c.isCycle = true) : c.WithinLimit := by
  rintro depth limit rfl
  cases h

namespace Engine

open Eval (Ensures FailsOnly)

variable {engine : Engine} (hbuiltin : engine.registry.added = [])

include hbuiltin

/-- A forest stays within the limit if as many operations may still be opened as it nests itself and
the values that are not being looked up nest together. -/
theorem evaluateForest_withinLimit {model : Model}
    (hvalues : totalNesting model.values ≤ engine.limit) (remaining : Nat) (scope : Scope)
    (chain : Chain) (source : Text) (nodes : Forest)
    (hroom : nodes.nesting + totalNesting (model.valuesOff chain) ≤ remaining) :
    FailsOnly Cause.WithinLimit (engine.evaluateForest model remaining scope chain source nodes) := by
  induction remaining generalizing scope chain source nodes with
  | zero =>
    -- There is no operation in a forest that does not nest at all.
    refine Forest.evaluateWith_failsOnly fun name parameters span hmem => ?_
    have hle := Forest.nodeNesting_le_nesting hmem
    rw [Forest.nodeNesting] at hle
    omega
  | succ remaining ih =>
    refine Forest.evaluateWith_failsOnly fun name parameters span hmem => ?_
    have hle := Forest.nodeNesting_le_nesting hmem
    rw [Forest.nodeNesting] at hle
    -- The operation takes one of those that may be opened and nests one deeper than what is in it,
    -- so the room that is left is enough for its name and its parameters.
    refine evaluateOperation_failsOnly Cause.withinLimit_of_isRefusal hbuiltin
      Cause.withinLimit_of_isCycle span ?_ ?_ ?_
    · exact ih scope chain source name (by omega)
    · intro parameter hparameter
      have hpart := Forest.nesting_le_partsNesting hparameter
      exact ih scope chain source parameter (by omega)
    · intro lookup stored hchain hvalue
      -- A stored value does not fit into the operation, but room has been kept for it so far.
      have hoff := Model.nesting_add_totalNesting_valuesOff hchain hvalue
      have hnesting : stored.nesting ≤ engine.limit :=
        (nesting_le_totalNesting (Model.mem_values hvalue)).trans hvalues
      refine (engine.valueTree_ensures stored _).bind fun tree htree => ?_
      rw [htree]
      refine Tree.evaluateWith_failsOnly (Tree.overflow?_parse hnesting) ?_
      have hnodes : (engine.parse stored).nodes.nesting ≤ stored.nesting :=
        Tree.nesting_nodes_parse hnesting
      exact ih _ _ _ _ (by omega)

/-- A text stays within the limit if that allows for the nesting of the text and of all values. -/
theorem compile_withinLimit {source : Text} {inputs : Inputs} {chain : Chain} {w : Workspace}
    (htrees : w.store.trees.Faithful)
    (hlimit : source.nesting + totalNesting w.store.model.values ≤ engine.limit)
    {failure : Failure}
    (hfailure : ((engine.compile source).evaluate engine inputs chain w).1.failure = some failure) :
    failure.cause.WithinLimit := by
  refine Compiled.failure_of_evaluate rfl htrees ?_ hfailure
  have hsource : source.nesting ≤ engine.limit := by omega
  have hnodes : (engine.compile source).tree.nodes.nesting ≤ source.nesting :=
    Tree.nesting_nodes_parse hsource
  have hoff := w.store.model.totalNesting_valuesOff_le chain
  refine Tree.evaluateWith_failsOnly (Tree.overflow?_parse hsource) ?_
  exact evaluateForest_withinLimit hbuiltin (by omega) _ _ _ _ _ (by omega)

end Engine

/-- If the nesting limit allows for the nesting of a text and of every stored value once, then at any
point of a session nothing is nested beyond it: with built-in operations the text ends with a value or
fails for another cause, whatever it is evaluated for and whatever look-ups are under way. -/
theorem session_within_limit (steps : List Step) (engine : Engine)
    (hbuiltin : engine.registry.added = []) (source : Text) (inputs : Inputs) (chain : Chain)
    (hlimit : source.nesting + totalNesting (session steps).store.model.values ≤ engine.limit) :
    (∀ failure depth limit,
      (engine.evaluateText source inputs chain (session steps)).1 = .error failure →
        failure.cause ≠ .nestingTooDeep depth limit) ∧
    ∀ failure depth limit,
      ((engine.compile source).evaluate engine inputs chain (session steps)).1.failure =
          some failure →
        failure.cause ≠ .nestingTooDeep depth limit := by
  have hcompiled (failure : Failure)
      (hfailure : ((engine.compile source).evaluate engine inputs chain (session steps)).1.failure =
        some failure) : failure.cause.WithinLimit :=
    Engine.compile_withinLimit hbuiltin (session_sameButTrees steps).faithful hlimit hfailure
  refine ⟨fun failure depth limit herror => ?_, fun failure depth limit hfailure => ?_⟩
  · exact hcompiled failure (Engine.failure_of_evaluateText herror) depth limit
  · exact hcompiled failure hfailure depth limit

/-- Two properties that ask for each other, one of them by a name that is computed: with the least
limit that allows for both values, the loop is found before the limit is reached. -/
theorem session_within_limit_in_loop :
    let steps : List Step :=
      [.write (.value (.base "app" "A") "$<TARGET_PROPERTY:$<IF:1,B,C>>"),
        .write (.value (.base "app" "B") "$<TARGET_PROPERTY:app,A>")]
    let engine : Engine := { limit := 4 }
    let inputs : Inputs := { config := "Debug", head := some "app" }
    let source : Text := "$<TARGET_PROPERTY:A>"
    source.nesting + totalNesting (session steps).store.model.values = engine.limit ∧
      ∃ failure, (engine.evaluateText source inputs [] (session steps)).1 = .error failure ∧
        failure.cause.isCycle = true ∧
        ∀ depth limit, failure.cause ≠ .nestingTooDeep depth limit := by
  intro steps engine inputs source
  have hlimit : source.nesting + totalNesting (session steps).store.model.values = engine.limit := by
    decide +kernel
  obtain ⟨htext, -⟩ :=
    session_within_limit steps engine rfl source inputs [] (Nat.le_of_eq hlimit)
  -- The values refer to each other, so the evaluation fails, but not for its nesting.
  have hloop : (match (engine.evaluateText source inputs [] (session steps)).1 with
      | .ok _ => false
      | .error failure => failure.cause.isCycle) = true := by decide +kernel
  refine ⟨hlimit, ?_⟩
  cases hresult : (engine.evaluateText source inputs [] (session steps)).1 with
  | ok output =>
    rw [hresult] at hloop
    cases hloop
  | error failure =>
    rw [hresult] at hloop
    exact ⟨failure, rfl, hloop, fun depth limit => htext failure depth limit hresult⟩

end BuildExpr
