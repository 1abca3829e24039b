import BuildExpr.Proofs.Lookups
import BuildExpr.Proofs.PropertyRecursion
import BuildExpr.Proofs.Shortcut

/-!
# The two guards against deep nesting

Nesting is bounded twice: reading a text counts the expressions that are open at once, those that
never end included, and evaluating it counts the operations that are open at once. The second count is
never the greater one, as long as the operations come from the text itself. They do if no property
value has an expression that ends: such a value is its own value, however many openings it has, and is
not even read. Then a text that is accepted by the first guard never meets the second one
(`session_of_accepted`).
-/

namespace BuildExpr

/-! ## Values that are not evaluated -/

/-- The text is taken for its own value exactly if no `>` follows a `$<` in it. -/
theorem Text.firstExpression_eq_none_iff_not_mem (t : Text) :
    t.firstExpression = none ↔ ∀ before after, t = before ++ opening ++ after → '>' ∉ after := by
  rw [firstExpression_eq_none_iff]
  constructor
  · rintro h before after rfl
    -- What is opened later in the text does not end either.
    have hlater : Unterminated after := by
      rintro before' after' rfl
      exact h (before ++ opening ++ before') after' (by simp only [List.append_assoc])
    exact (unterminated_iff_not_mem (h before after rfl)).1 hlater
  · intro h before after hsplit
    exact splitAtClosing_of_not_mem (h before after hsplit) 0

/-- A model in none of whose values a `>` follows a `$<`. -/
def Model.Inert (m : Model) : Prop :=
  ∀ v ∈ m.values, ∀ before after, v.text = before ++ opening ++ after → '>' ∉ after

/-- Its values are taken for their own. -/
theorem Model.Inert.firstExpression_eq_none {m : Model} (h : m.Inert)
    {target property config stored : Text} (hvalue : m.property? target property config = some stored) :
    stored.firstExpression = none :=
  stored.firstExpression_eq_none_iff_not_mem.2 (h _ (mem_values hvalue))

open Eval (Ensures FailsOnly)

section

variable {cause : Cause → Prop} (hrefusal : ∀ c, c.isRefusal = true → cause c)
  (hcycle : ∀ c, c.isCycle = true → cause c)

include hrefusal hcycle

namespace Operation

variable {call : Call} (hinert : call.host.model.Inert)

include hinert

/-- Seeking a property never comes to a value that is to be evaluated. -/
theorem seek_ensures_text :
    Ensures (fun sought => ∃ value, sought = .text value) cause (seek call) := by
  have hends : Ensures (Sought.Admitted call) cause (seek call) :=
    seek_ensures hrefusal fun _ _ c _ hc => hcycle c (Chain.isCycle_of_refusal? hc)
  intro run htrees
  rcases (hends htrees).ends with ⟨sought, after, hrun, hafter, -⟩ | ⟨failure, after, hrun, hafter, hc⟩
  · rw [hrun]
    refine .ok hafter ?_
    obtain ⟨target, property, -, -, rfl⟩ := seek_eq_ok hrun
    cases hvalue : call.host.model.property? target property call.scope.config with
    | none => exact ⟨[], rfl⟩
    | some stored =>
      refine ⟨stored, ?_⟩
      rw [Sought.ofValue, hinert.firstExpression_eq_none hvalue]
      rfl
  · rw [hrun]
    exact .error hafter hc

end Operation

/-- So with such a model a built-in operation only refuses what it is given or finds that a property
depends on itself. -/
theorem Builtin.evaluate_failsOnly (b : Builtin) {call : Call} (hinert : call.host.model.Inert) :
    FailsOnly cause (b.operation.evaluate call) := by
  by_cases hb : b = .targetProperty
  · subst hb
    refine (Operation.seek_ensures_text hrefusal hcycle hinert).bind fun sought hsought => ?_
    obtain ⟨value, rfl⟩ := hsought
    exact Ensures.pure trivial
  · exact (evaluate_refuses hb call).mono (fun _ h => h) hrefusal

variable {engine : Engine} (hbuiltin : engine.registry.added = [])

include hbuiltin

/-- An operation written in a text fails in one of these ways, or as its name or a parameter does. -/
theorem Engine.evaluateOperation_failsOnly_of_inert {model : Model} (hinert : model.Inert)
    {inner : Scope → Chain → Text → Forest → Eval Text} {scope : Scope} {chain : Chain}
    {source : Text} {name : Forest} {parameters : List Forest} (span : Span)
    (hname : FailsOnly cause (inner scope chain source name))
    (hparameters : ∀ parameter ∈ parameters, FailsOnly cause (inner scope chain source parameter)) :
    FailsOnly cause
      (engine.evaluateOperation model inner scope chain source name parameters span) := by
  refine Ensures.within (Ensures.inExpression _ (hname.bind fun called _ => ?_))
  cases hfind : engine.registry.find? called with
  | none => exact Ensures.fail (hrefusal _ rfl)
  | some op =>
    obtain ⟨b, -, rfl⟩ := Registry.exists_builtin hbuiltin hfind
    refine Operation.carryOut_failsOnly hrefusal _ _
      (b.operation.evaluateRest_failsOnly _ _ _ hparameters) fun values _ => ?_
    exact b.evaluate_failsOnly hrefusal hcycle hinert

end

/-! ## Texts that are accepted -/

/-- A text that does not overflow the limit nests within it. -/
theorem Tree.nesting_le_of_overflow? {limit : Nat} {source : Text}
    (h : (parse limit source).overflow? = none) : source.nesting ≤ limit := by
  by_contra hlt
  rw [parse_of_lt (Nat.lt_of_not_le hlt)] at h
  cases h

/-- So do the operations of its tree. -/
theorem Tree.nesting_nodes_le {limit : Nat} {source : Text}
    (h : (parse limit source).overflow? = none) : (parse limit source).nodes.nesting ≤ limit :=
  (nesting_nodes_parse (nesting_le_of_overflow? h)).trans (nesting_le_of_overflow? h)

namespace Engine

variable {engine : Engine} (hbuiltin : engine.registry.added = [])

include hbuiltin

/-- A forest stays within the limit if as many operations may still be opened as it nests. -/
theorem evaluateForest_withinLimit_of_inert {model : Model} (hinert : model.Inert) (remaining : Nat)
    (scope : Scope) (chain : Chain) (source : Text) (nodes : Forest)
    (hroom : nodes.nesting ≤ remaining) :
    FailsOnly Cause.WithinLimit (engine.evaluateForest model remaining scope chain source nodes) := by
  induction remaining generalizing nodes with
  | zero =>
    refine Forest.evaluateWith_failsOnly fun name parameters span hmem => ?_
    have hle := Forest.nodeNesting_le_nesting hmem
    rw [Forest.nodeNesting] at hle
    omega
  | succ remaining ih =>
    refine Forest.evaluateWith_failsOnly fun name parameters span hmem => ?_
    have hle := Forest.nodeNesting_le_nesting hmem
    rw [Forest.nodeNesting] at hle
    -- The name and the parameters nest one less deep than the operation.
    refine evaluateOperation_failsOnly_of_inert Cause.withinLimit_of_isRefusal
      Cause.withinLimit_of_isCycle hbuiltin hinert span ?_ ?_
    · exact ih name (by omega)
    · intro parameter hparameter
      have hpart := Forest.nesting_le_partsNesting hparameter
      exact ih parameter (by omega)

/-- A text that is accepted under the limit stays within it when it is evaluated. -/
theorem compile_withinLimit_of_accepted {source : Text} {inputs : Inputs} {chain : Chain}
    {w : Workspace} (htrees : w.store.trees.Faithful) (hinert : w.store.model.Inert)
    (haccepted : (engine.parse source).overflow? = none) {failure : Failure}
    (hfailure : ((engine.compile source).evaluate engine inputs chain w).1.failure = some failure) :
    failure.cause.WithinLimit := by
  refine Compiled.failure_of_evaluate rfl htrees ?_ hfailure
  refine Tree.evaluateWith_failsOnly haccepted ?_
  exact evaluateForest_withinLimit_of_inert hbuiltin hinert _ _ _ _ _
    (Tree.nesting_nodes_le haccepted)

end Engine

/-- The operations of a text that a limit accepts nest within the limit. So at any point of a session,
if the model has no value in which a `>` follows a `$<`, a text that the limit of an engine with
built-in operations accepts ends with a value or fails for another cause than its nesting, whatever it
is evaluated for and whatever look-ups are under way. -/
theorem session_of_accepted :
    (∀ limit source, (Tree.parse limit source).overflow? = none →
      (Tree.parse limit source).nodes.nesting ≤ limit) ∧
    ∀ (steps : List Step) (engine : Engine) (source : Text) (inputs : Inputs) (chain : Chain),
      engine.registry.added = [] → (session steps).store.model.Inert →
      (engine.parse source).overflow? = none →
        (∀ failure depth limit,
          (engine.evaluateText source inputs chain (session steps)).1 = .error failure →
            failure.cause ≠ .nestingTooDeep depth limit) ∧
        ∀ failure depth limit,
          ((engine.compile source).evaluate engine inputs chain (session steps)).1.failure =
              some failure →
            failure.cause ≠ .nestingTooDeep depth limit := by
  refine ⟨fun limit source haccepted => Tree.nesting_nodes_le haccepted, ?_⟩
  intro steps engine source inputs chain hbuiltin hinert haccepted
  -- The text is either taken for plain text or compiled, so its failures are those of the second path.
  have hcompiled (failure : Failure)
      (hfailure : ((engine.compile source).evaluate engine inputs chain (session steps)).1.failure =
        some failure) : failure.cause.WithinLimit :=
    Engine.compile_withinLimit_of_accepted hbuiltin (session_sameButTrees steps).faithful hinert
      haccepted hfailure
  refine ⟨fun failure depth limit herror => ?_, fun failure depth limit hfailure => ?_⟩
  · exact hcompiled failure (Engine.failure_of_evaluateText herror) depth limit
  · exact hcompiled failure hfailure depth limit

/-- A limit of two is used up by a text with an operation in a computed name and with openings that
never end, which looks a value up that has more openings than the limit allows. -/
theorem session_of_accepted_at_limit :
    let steps : List Step := [.write (.value (.base "app" "P") "a>$<$<$<$<")]
    let engine : Engine := { limit := 2 }
    let inputs : Inputs := { config := "Debug", head := some "app" }
    let source : Text := "$<$<UPPER_CASE:Target_Property>:P>$<$<"
    source.nesting = engine.limit ∧ (engine.parse source).nodes.nesting ≤ engine.limit ∧
      engine.limit < Text.nesting "a>$<$<$<$<" ∧ (session steps).store.model.Inert ∧
      (engine.evaluateText source inputs [] (session steps)).1 = .ok "a>$<$<$<$<$<$<" ∧
      ∀ failure depth limit,
        ((engine.compile source).evaluate engine inputs [] (session steps)).1.failure =
            some failure →
          failure.cause ≠ .nestingTooDeep depth limit := by
  intro steps engine inputs source
  have haccepted : (engine.parse source).overflow? = none := by decide +kernel
  have hvalues : ∀ v ∈ (session steps).store.model.values, v.text.firstExpression = none := by
    decide +kernel
  have hinert : (session steps).store.model.Inert := fun v hv =>
    v.text.firstExpression_eq_none_iff_not_mem.1 (hvalues v hv)
  obtain ⟨hnesting, hsession⟩ := session_of_accepted
  refine ⟨by decide +kernel, hnesting engine.limit source haccepted, by decide +kernel, hinert,
    by decide +kernel, ?_⟩
  exact (hsession steps engine source inputs [] rfl hinert haccepted).2

end BuildExpr
