import BuildExpr.Operation.Probe
import BuildExpr.Proofs.Runs

/-!
# How many parameters an operation gets

An operation says how many parameters it takes, and the evaluator compares that with the number of
those written before it evaluates any. What the operation then gets is put together one parameter
after the other: a value is added, or joined to the last one, or there is an empty text for a
parameter that is not needed. The three go together as long as no parameter that would be joined is
found unneeded: for such a one an empty text is added, and so the operation gets more parameters than
it takes (`Engine.contract_kept_iff`).

What the evaluator does with every call is said by a second evaluator that looks at the parameters
before each call and carries out something else if they do not fulfil a contract. If the two are the
same, whatever that something is, then the contract is kept by all calls, those in property values and
in texts that operations evaluate included.
-/

namespace BuildExpr

namespace Operation

variable {op : Operation}

/-! ## Collecting parameters -/

/-- The values an operation may have after `index` of the `written` parameters, with the number of
parameters past the greatest count that it did not need. -/
inductive Collected (op : Operation) (written : Nat) : (index : Nat) → List Text → Nat → Prop
  /-- Nothing has been collected at the start. -/
  | start : Collected op written 0 [] 0
  /-- The first parameter and those that are asked for are evaluated. -/
  | needed {index : Nat} {values : List Text} {skipped : Nat} (value : Text)
    (before : Collected op written index values skipped)
    (wanted : 0 < index → op.wantsNext values = true) :
    Collected op written (index + 1)
      (op.addValue (op.effectiveCount written - 1) index values value) skipped
  /-- There is an empty text for one that is not asked for. -/
  | unneeded {index : Nat} {values : List Text} {skipped : Nat}
    (before : Collected op written index values skipped) (later : 0 < index)
    (unwanted : op.wantsNext values = false) :
    Collected op written (index + 1) (values ++ [[]])
      (if op.effectiveCount written ≤ index then skipped + 1 else skipped)

/-- No more parameters are counted than are written. -/
theorem effectiveCount_le (op : Operation) (written : Nat) : op.effectiveCount written ≤ written := by
  unfold effectiveCount
  split
  · split
    · exact Nat.min_le_left _ _
    · exact Nat.le_refl _
  · exact Nat.le_refl _

/-- Some are counted if any are written. -/
theorem effectiveCount_pos (op : Operation) {written : Nat} (h : 0 < written) :
    0 < op.effectiveCount written := by
  unfold effectiveCount
  split
  · rename_i greatest _
    by_cases hjoins : (decide (0 < greatest) && op.joinsExtra) = true
    · rw [if_pos hjoins]
      rw [Bool.and_eq_true, decide_eq_true_eq] at hjoins
      exact Nat.lt_min.2 ⟨h, hjoins.1⟩
    · rw [if_neg hjoins]
      exact h
  · exact h

/-- Parameters are left out of the count only by operations that join them, down to the greatest count
they take. -/
theorem joins_of_effectiveCount_lt {written : Nat} (h : op.effectiveCount written < written) :
    op.joinsExtra = true ∧ op.arity.max = some (op.effectiveCount written) := by
  unfold effectiveCount at h ⊢
  cases hmax : op.arity.max with
  | none =>
    rw [hmax] at h
    exact absurd h (Nat.lt_irrefl written)
  | some greatest =>
    rw [hmax] at h
    dsimp only at h ⊢
    by_cases hjoins : (decide (0 < greatest) && op.joinsExtra) = true
    · rw [if_pos hjoins] at h ⊢
      rw [Bool.and_eq_true] at hjoins
      refine ⟨hjoins.2, congrArg some ?_⟩
      omega
    · rw [if_neg hjoins] at h
      exact absurd h (Nat.lt_irrefl written)

/-- A value is joined to the last one exactly past the greatest count. -/
theorem length_addValue {written index : Nat} (hindex : index < written) {values : List Text}
    (hvalues : op.effectiveCount written ≤ index → values ≠ []) (value : Text) :
    (op.addValue (op.effectiveCount written - 1) index values value).length =
      if op.effectiveCount written ≤ index then values.length else values.length + 1 := by
  have hpos : 0 < op.effectiveCount written := op.effectiveCount_pos (by omega)
  unfold addValue
  -- Past the greatest count a parameter is joined to the last one, so it adds none.
  by_cases hpast : op.effectiveCount written ≤ index
  · have hlt : op.effectiveCount written < written := by omega
    obtain ⟨hjoins, -⟩ := joins_of_effectiveCount_lt hlt
    have hlast : values.getLast? = some (values.getLast (hvalues hpast)) :=
      List.getLast?_eq_some_getLast _
    have hlength : 0 < values.length := List.length_pos_iff.2 (hvalues hpast)
    have hbehind : op.effectiveCount written - 1 < index := by omega
    rw [hlast, if_pos hpast]
    simp only [hjoins, hbehind, decide_true, Bool.and_self, if_true, List.length_append,
      List.length_dropLast, List.length_singleton]
    omega
  · have hbehind : ¬ op.effectiveCount written - 1 < index := by omega
    rw [if_neg hpast]
    cases values.getLast? with
    | none => simp
    | some last => simp [hbehind]

/-- There are as many values as parameters up to the greatest count, and one more for each parameter
past it that was not needed. -/
theorem Collected.length_eq {written index : Nat} {values : List Text} {skipped : Nat}
    (h : op.Collected written index values skipped) (hindex : index ≤ written) :
    values.length = min index (op.effectiveCount written) + skipped := by
  induction h with
  | start => simp
  | @needed index values skipped value before _ ih =>
    -- A needed parameter past the greatest count has one to be joined to.
    have hlength := ih (by omega)
    have hpos : 0 < op.effectiveCount written := op.effectiveCount_pos (by omega)
    have hvalues : op.effectiveCount written ≤ index → values ≠ [] := by
      rintro hpast rfl
      rw [List.length_nil] at hlength
      omega
    rw [length_addValue (by omega) hvalues]
    split
    · omega
    · omega
  | @unneeded index values skipped before _ _ ih =>
    -- One that is not needed adds an empty text, past the greatest count as well.
    have hlength := ih (by omega)
    rw [List.length_append, List.length_singleton]
    split
    · omega
    · omega

/-- The values that evaluating the remaining parameters gives can be collected. -/
theorem collected_of_evaluateRest {evaluate : Forest → Eval Text} {written index : Nat}
    {values : List Text} {skipped : Nat} (h : op.Collected written index values skipped)
    {parameters : List Forest} (hwritten : index + parameters.length = written) {run after : Run}
    {result : List Text}
    (hrun : op.evaluateRest evaluate (op.effectiveCount written - 1) index values parameters run =
      .ok result after) :
    ∃ skipped', op.Collected written written result skipped' := by
  induction parameters generalizing index values skipped run with
  | nil =>
    cases hrun
    rw [List.length_nil, Nat.add_zero] at hwritten
    subst hwritten
    exact ⟨skipped, h⟩
  | cons parameter rest ih =>
    rw [List.length_cons] at hwritten
    have hrest : index + 1 + rest.length = written := by omega
    rw [evaluateRest] at hrun
    -- The parameter is skipped, or its value is added or joined.
    by_cases hskip : (decide (0 < index) && !op.wantsNext values) = true
    · rw [if_pos hskip] at hrun
      rw [Bool.and_eq_true, decide_eq_true_eq, Bool.not_eq_true'] at hskip
      exact ih (h.unneeded hskip.1 hskip.2) hrest hrun
    · rw [if_neg hskip] at hrun
      obtain ⟨value, between, -, hgo⟩ := Eval.bind_eq_ok hrun
      refine ih (h.needed value fun hlater => ?_) hrest hgo
      simpa [hlater] using hskip

/-- Whatever has been collected of some parameters, the rest of them can be collected as well. -/
theorem Collected.exists_all {written index : Nat} {values : List Text} {skipped : Nat}
    (h : op.Collected written index values skipped) (hindex : index ≤ written) :
    ∃ values' skipped', op.Collected written written values' skipped' ∧ skipped ≤ skipped' := by
  obtain ⟨remaining, rfl⟩ := Nat.exists_eq_add_of_le hindex
  induction remaining generalizing index values skipped with
  | zero => exact ⟨values, skipped, h, Nat.le_refl skipped⟩
  | succ remaining ih =>
    have hwritten : index + (remaining + 1) = index + 1 + remaining := by omega
    rw [hwritten] at h ⊢
    by_cases hskip : 0 < index ∧ op.wantsNext values = false
    · obtain ⟨values', skipped', hall, hle⟩ := ih (h.unneeded hskip.1 hskip.2) (by omega)
      refine ⟨values', skipped', hall, ?_⟩
      split at hle
      · omega
      · exact hle
    · have hwanted : 0 < index → op.wantsNext values = true := fun hlater => by
        simpa [hlater] using hskip
      exact ih (h.needed [] hwanted) (by omega)

/-- Everything that can be collected is what some parameters of plain text come to. -/
theorem Collected.exists_parameters {written index : Nat} {values : List Text} {skipped : Nat}
    (h : op.Collected written index values skipped) {evaluate : Forest → Eval Text}
    (hplain : ∀ text, evaluate [.text text] = pure text) :
    ∃ parameters : List Forest, parameters.length = index ∧ ∀ rest,
      op.evaluateRest evaluate (op.effectiveCount written - 1) 0 [] (parameters ++ rest) =
        op.evaluateRest evaluate (op.effectiveCount written - 1) index values rest := by
  induction h with
  | start => exact ⟨[], rfl, fun _ => rfl⟩
  | @needed index values skipped value before wanted ih =>
    obtain ⟨parameters, hlength, hrest⟩ := ih
    refine ⟨parameters ++ [[.text value]], by simp [hlength], fun rest => ?_⟩
    have hneeded : ¬ (decide (0 < index) && !op.wantsNext values) = true := by
      simpa using wanted
    rw [List.append_assoc, hrest, List.singleton_append, evaluateRest, if_neg hneeded, hplain,
      pure_bind]
  | @unneeded index values skipped before later unwanted ih =>
    obtain ⟨parameters, hlength, hrest⟩ := ih
    -- What a parameter that is not needed says does not matter.
    refine ⟨parameters ++ [[]], by simp [hlength], fun rest => ?_⟩
    have hskip : (decide (0 < index) && !op.wantsNext values) = true := by simp [later, unwanted]
    rw [List.append_assoc, hrest, List.singleton_append, evaluateRest, if_pos hskip]

/-! ## Contracts -/

/-- What an operation may rely on about its parameters: it takes so many of them, and they are as many
as were written, where those that are joined count as one. -/
def Contract (op : Operation) (written : Nat) (values : List Text) : Prop :=
  op.arity.accepts values.length = true ∧ values.length = op.effectiveCount written

instance (op : Operation) (written : Nat) : DecidablePred (op.Contract written) :=
  fun values => inferInstanceAs (Decidable (op.arity.accepts values.length = true ∧ _))

/-- What is true of the parameters of any call: they can be collected, and there is one too many for
each parameter past the greatest count that was not needed. If there is such a one the operation
does not take so many. -/
def Passed (op : Operation) (written : Nat) (values : List Text) : Prop :=
  ∃ skipped, op.Collected written written values skipped ∧
    values.length = op.effectiveCount written + skipped ∧
    (op.Contract written values ↔ skipped = 0) ∧
    (op.arity.accepts values.length = true ↔ skipped = 0)

noncomputable instance (op : Operation) (written : Nat) : DecidablePred (op.Passed written) :=
  fun _ => Classical.propDecidable _

/-- The operation that does something else where its parameters do not fulfil a contract. -/
def checked (op : Operation) (contract : List Text → Prop) [DecidablePred contract]
    (violation : Eval Text) : Operation :=
  { op with
    evaluate := fun call => if contract call.parameters then op.evaluate call else violation }

/-- An operation takes all parameters that it is asked to join to the last one: whatever has been
collected before one of them, it needs it. -/
def WantsJoined (op : Operation) : Prop :=
  op.generates = true → ∀ written, op.arity.accepts (op.effectiveCount written) = true →
    ∀ index values skipped, op.Collected written index values skipped →
      op.effectiveCount written ≤ index → index < written → op.wantsNext values = true

/-- Where all parameters past the greatest count are needed, none is skipped. -/
theorem Collected.skipped_eq_zero {written index : Nat} {values : List Text} {skipped : Nat}
    (h : op.Collected written index values skipped) (hindex : index ≤ written)
    (hwants : ∀ index values skipped, op.Collected written index values skipped →
      op.effectiveCount written ≤ index → index < written → op.wantsNext values = true) :
    skipped = 0 := by
  induction h with
  | start => rfl
  | needed value before wanted ih => exact ih (by omega)
  | @unneeded index values skipped before later unwanted ih =>
    by_cases hpast : op.effectiveCount written ≤ index
    · have hneeded := hwants index values skipped before hpast (by omega)
      rw [unwanted] at hneeded
      cases hneeded
    · rw [if_neg hpast]
      exact ih (by omega)

/-- There is a value for every parameter that counts and for every one that was skipped past
them. -/
theorem Collected.length_eq_add {written : Nat} {values : List Text} {skipped : Nat}
    (h : op.Collected written written values skipped) :
    values.length = op.effectiveCount written + skipped := by
  have hle := op.effectiveCount_le written
  have hlength := h.length_eq (Nat.le_refl written)
  omega

/-- All of the values are accepted exactly if no parameter past the greatest count was skipped. -/
theorem Collected.accepts_iff {written : Nat} {values : List Text} {skipped : Nat}
    (h : op.Collected written written values skipped)
    (haccepts : op.arity.accepts (op.effectiveCount written) = true) :
    op.arity.accepts values.length = true ↔ skipped = 0 := by
  have hlength := h.length_eq_add
  constructor
  · intro hvalues
    -- Only an operation that joins parameters skips any, and it takes no more than the count.
    rcases Nat.lt_or_ge (op.effectiveCount written) written with hlt | hge
    · obtain ⟨-, hmax⟩ := joins_of_effectiveCount_lt hlt
      have hgreatest := ((op.arity.accepts_iff _).1 hvalues).2 _ hmax
      omega
    · refine h.skipped_eq_zero (Nat.le_refl written) fun _ _ _ _ hpast hbefore => ?_
      omega
  · rintro rfl
    rw [hlength, Nat.add_zero]
    exact haccepts

/-- So the contract is fulfilled exactly then. -/
theorem Collected.contract_iff {written : Nat} {values : List Text} {skipped : Nat}
    (h : op.Collected written written values skipped)
    (haccepts : op.arity.accepts (op.effectiveCount written) = true) :
    op.Contract written values ↔ skipped = 0 := by
  have hlength := h.length_eq_add
  unfold Contract
  rw [h.accepts_iff haccepts]
  omega

/-- Checking the contract changes nothing about how parameters are evaluated. -/
theorem evaluateRest_checked (contract : List Text → Prop) [DecidablePred contract]
    (violation : Eval Text) (evaluate : Forest → Eval Text) (joinedFrom index : Nat)
    (values : List Text) (parameters : List Forest) :
    (op.checked contract violation).evaluateRest evaluate joinedFrom index values parameters =
      op.evaluateRest evaluate joinedFrom index values parameters := by
  induction parameters generalizing index values with
  | nil => rfl
  | cons parameter rest ih =>
    simp only [evaluateRest, ih]
    rfl

/-- Checking a contract makes no difference if it is fulfilled by all that can be collected. -/
theorem carryOut_checked {contract : List Text → Prop} [DecidablePred contract]
    (violation : Eval Text) (evaluate : Forest → Eval Text) {parameters : List Forest}
    {call : List Text → Call} (hcall : ∀ values, (call values).parameters = values)
    (hcontract : op.generates = true →
      op.arity.accepts (op.effectiveCount parameters.length) = true → ∀ values skipped,
        op.Collected parameters.length parameters.length values skipped → contract values) :
    (op.checked contract violation).carryOut evaluate parameters call =
      op.carryOut evaluate parameters call := by
  have hparameters : (op.checked contract violation).evaluateParameters evaluate parameters =
      op.evaluateParameters evaluate parameters := evaluateRest_checked contract violation ..
  have hcount : (op.checked contract violation).effectiveCount parameters.length =
      op.effectiveCount parameters.length := rfl
  unfold carryOut
  rw [hparameters, hcount]
  dsimp only [checked]
  by_cases hgenerates : op.generates = true
  · by_cases haccepts : op.arity.accepts (op.effectiveCount parameters.length) = true
    · simp only [hgenerates, haccepts, Bool.not_true, Bool.false_eq_true, if_false]
      -- Where the operation is called, the parameters have been collected to the end.
      refine Eval.bind_congr fun run values after hvalues => ?_
      obtain ⟨skipped, hcollected⟩ := collected_of_evaluateRest .start (Nat.zero_add _) hvalues
      rw [hcall]
      exact if_pos (hcontract hgenerates haccepts values skipped hcollected)
    · simp only [hgenerates, haccepts, Bool.not_true, Bool.false_eq_true, if_false, Bool.not_false,
        if_true]
  · simp only [hgenerates, Bool.not_false, if_true]
    rfl

end Operation

/-- Built-in operations need every parameter that they join to the last one. -/
theorem Builtin.wantsJoined (b : Builtin) : b.operation.WantsJoined := by
  intro _ written _ index values skipped _ hpast hindex
  have hlt : b.operation.effectiveCount written < written := by omega
  obtain ⟨hjoins, -⟩ := Operation.joins_of_effectiveCount_lt hlt
  cases b with
  | zero | one | buildInterface | installInterface => rfl
  | _ => exact absurd hjoins (by decide)

/-! ## The evaluator with checked calls -/

namespace Engine

section

variable (contract : Operation → Nat → List Text → Prop)
  [∀ op written, DecidablePred (contract op written)] (violation : Eval Text)

/-- The value of an operation written in a text, with its call checked. -/
def checkedOperation (engine : Engine) (m : Model)
    (inner : Scope → Chain → Text → Forest → Eval Text) (scope : Scope) (chain : Chain)
    (source : Text) (name : Forest) (parameters : List Forest) (span : Span) : Eval Text :=
  let expression := source.cut span
  Eval.within <| Eval.inExpression expression do
    let called ← inner scope chain source name
    match engine.registry.find? called with
    | none => Eval.fail (.unknownOperation called)
    | some op =>
      (op.checked (contract op parameters.length) violation).carryOut (inner scope chain source)
        parameters fun values => ⟨values, expression, chain, scope, engine.host m inner⟩

/-- The value of a forest when `remaining` more operations may be opened, with the calls of all of
them checked. -/
def checkedForest (engine : Engine) (m : Model) :
    Nat → Scope → Chain → Text → Forest → Eval Text
  | 0, scope, chain, source, nodes => engine.evaluateForest m 0 scope chain source nodes
  | remaining + 1, scope, chain, source, nodes =>
    nodes.evaluateWith
      (engine.checkedOperation contract violation m (checkedForest engine m remaining) scope chain
        source)

/-- If all that an operation can collect fulfils its contract, checking makes no difference. -/
theorem checkedForest_eq {engine : Engine}
    (h : ∀ name op, engine.registry.find? name = some op → op.generates = true → ∀ written,
      op.arity.accepts (op.effectiveCount written) = true → ∀ values skipped,
        op.Collected written written values skipped → contract op written values)
    (m : Model) (remaining : Nat) :
    engine.checkedForest contract violation m remaining = engine.evaluateForest m remaining := by
  induction remaining with
  | zero => rfl
  | succ remaining ih =>
    funext scope chain source nodes
    -- The operations have the same values, as the forests inside them have.
    have hoperation : engine.checkedOperation contract violation m
        (engine.checkedForest contract violation m remaining) scope chain source =
          engine.evaluateOperation m (engine.evaluateForest m remaining) scope chain source := by
      rw [ih]
      funext name parameters span
      unfold checkedOperation evaluateOperation
      dsimp only
      congr 2
      refine congrArg _ (funext fun called => ?_)
      cases hfind : engine.registry.find? called with
      | none => rfl
      | some op =>
        exact Operation.carryOut_checked violation _ (fun _ => rfl) fun hgenerates haccepts =>
          h called op hfind hgenerates _ haccepts
    exact congrArg (fun operation => nodes.evaluateWith operation) hoperation

end

end Engine

/-! ## Operations that skip joined parameters -/

namespace Eval

variable {α β : Type}

/-- Whether an evaluation gives a value. -/
def succeeds (x : Eval α) (run : Run) : Bool :=
  match x run with
  | .ok _ _ => true
  | .error _ _ => false

/-- An evaluation that fails where another one gives a value, and the other way round. -/
def contrary (x : Eval Text) : Eval Text := fun run =>
  match x run with
  | .ok _ after => .error ⟨.custom [], none⟩ after
  | .error _ after => .ok [] after

/-- The contrary of an evaluation gives a value exactly if the evaluation gives none. -/
theorem succeeds_contrary (x : Eval Text) (run : Run) :
    (contrary x).succeeds run = !x.succeeds run := by
  unfold succeeds contrary
  cases x run <;> rfl

/-- An operation gives a value exactly if what is inside it does. -/
theorem succeeds_within_inExpression (expression : Text) (x : Eval α) (run : Run) :
    (within (inExpression expression x)).succeeds run =
      x.succeeds { run with depth := run.depth + 1 } := by
  unfold succeeds
  rw [within_apply]
  unfold inExpression
  cases x { run with depth := run.depth + 1 } <;> rfl

end Eval

namespace Engine

/-- An operation that can be called with parameters that break the contract is called with them in
some text, and a check of the contract can be told from none there. -/
theorem checkedForest_ne {engine : Engine} {name : Text} {op : Operation}
    (hfind : engine.registry.find? name = some op) (hgenerates : op.generates = true) {written : Nat}
    (haccepts : op.arity.accepts (op.effectiveCount written) = true) {values : List Text}
    {skipped : Nat} (hcollected : op.Collected written written values skipped)
    (hbroken : ¬ op.Contract written values) (m : Model) (scope : Scope) (chain : Chain)
    (source : Text) (span : Span) :
    ∃ violation nodes, engine.checkedForest Operation.Contract violation m 1 scope chain source nodes ≠
      engine.evaluateForest m 1 scope chain source nodes := by
  -- All parameters are plain text, so nothing but the call itself can make a difference.
  let inner := engine.evaluateForest m 0
  let call : Call := ⟨values, source.cut span, chain, scope, engine.host m inner⟩
  have hplain (text : Text) : inner scope chain source [.text text] = pure text :=
    engine.evaluateForest_literal m 0 scope chain source rfl
  obtain ⟨parameters, rfl, hparameters⟩ := hcollected.exists_parameters hplain
  have hvalues : op.evaluateParameters (inner scope chain source) parameters = pure values := by
    have hall := hparameters []
    rw [List.append_nil] at hall
    exact hall
  let violation := (op.evaluate call).contrary
  refine ⟨violation, [.operation [.text name] parameters span], fun hsame => ?_⟩
  have hcalled : engine.evaluateOperation m inner scope chain source [.text name] parameters span =
      Eval.within (Eval.inExpression (source.cut span) (op.evaluate call)) := by
    unfold evaluateOperation
    dsimp only
    rw [hplain, pure_bind, hfind]
    exact congrArg (fun body => Eval.within (Eval.inExpression (source.cut span) body))
      (Operation.carryOut_of_evaluateParameters hgenerates haccepts hvalues _)
  have hchecked : engine.checkedOperation Operation.Contract violation m inner scope chain source
      [.text name] parameters span = Eval.within (Eval.inExpression (source.cut span) violation) := by
    let guarded := op.checked (op.Contract parameters.length) violation
    have hguarded : guarded.evaluateParameters (inner scope chain source) parameters =
        pure values := (Operation.evaluateRest_checked _ violation _ _ _ _ _).trans hvalues
    have hviolated : guarded.evaluate call = violation := if_neg hbroken
    unfold checkedOperation
    dsimp only
    rw [hplain, pure_bind, hfind]
    refine congrArg (fun body => Eval.within (Eval.inExpression (source.cut span) body)) ?_
    have hcarriedOut := Operation.carryOut_of_evaluateParameters (show guarded.generates = true from
      hgenerates) haccepts hguarded
    exact (hcarriedOut _).trans hviolated
  -- One of the two evaluations of the forest gives a value and the other one does not.
  have hends : Eval.within (Eval.inExpression (source.cut span) violation) =
      Eval.within (Eval.inExpression (source.cut span) (op.evaluate call)) := by
    calc Eval.within (Eval.inExpression (source.cut span) violation)
      _ = engine.checkedForest Operation.Contract violation m 1 scope chain source
            [.operation [.text name] parameters span] :=
          ((Forest.evaluateWith_single _ _ _ _).trans hchecked).symm
      _ = engine.evaluateForest m 1 scope chain source
            [.operation [.text name] parameters span] := hsame
      _ = _ := (Forest.evaluateWith_single _ _ _ _).trans hcalled
  have hsucceeds := congrFun (congrArg Eval.succeeds hends) {}
  rw [Eval.succeeds_within_inExpression, Eval.succeeds_within_inExpression,
    Eval.succeeds_contrary] at hsucceeds
  exact absurd hsucceeds (by simp)

/-- Every call passes as many parameters as were written, those past the greatest count being joined,
and one more for each of these that was not needed, whatever operations have been added, and whatever
a check that finds it otherwise would do. So the contract about parameters is kept in all evaluations
exactly if every operation that has been added needs all parameters that are joined. -/
theorem contract_kept_iff (engine : Engine) :
    (∀ violation m remaining scope chain (tree : Tree),
      tree.evaluateWith
          (engine.checkedForest Operation.Passed violation m remaining scope chain) =
        engine.evaluateTree m remaining scope chain tree) ∧
    ((∀ violation m remaining scope chain (tree : Tree),
      tree.evaluateWith
          (engine.checkedForest Operation.Contract violation m remaining scope chain) =
        engine.evaluateTree m remaining scope chain tree) ↔
      ∀ name op, Builtin.ofName? name = none → engine.registry.find? name = some op →
        op.WantsJoined) := by
  refine ⟨?_, ?_, ?_⟩
  · intro violation m remaining scope chain tree
    rw [checkedForest_eq Operation.Passed violation
      fun name op _ _ written haccepts values skipped hcollected =>
        ⟨skipped, hcollected, hcollected.length_eq_add, hcollected.contract_iff haccepts,
          hcollected.accepts_iff haccepts⟩]
    rfl
  · intro hkept name op _ hfind hgenerates written haccepts index values skipped hcollected hpast
      hindex
    have hlater : 0 < index := by
      have hpos : 0 < op.effectiveCount written := op.effectiveCount_pos (by omega)
      omega
    cases hwants : op.wantsNext values with
    | true => rfl
    | false =>
      -- The parameter is skipped, so there is one too many at the end.
      have hskips := hcollected.unneeded hlater hwants
      rw [if_pos hpast] at hskips
      obtain ⟨values', skipped', hall, hle⟩ := hskips.exists_all hindex
      have hbroken : ¬ op.Contract written values' := fun hcontract => by
        have hzero := (hall.contract_iff haccepts).1 hcontract
        omega
      obtain ⟨violation, nodes, hne⟩ := checkedForest_ne hfind hgenerates haccepts hall hbroken
        {} { config := [] } [] [] ⟨0, 0⟩
      exact absurd (hkept violation {} 1 { config := [] } [] (.forest [] nodes)) hne
  · intro hwants violation m remaining scope chain tree
    rw [checkedForest_eq Operation.Contract violation
      fun name op hfind hgenerates written haccepts values skipped hcollected => ?_]
    · rfl
    · have hjoined : op.WantsJoined := by
        cases hbuiltin : Builtin.ofName? name with
        | none => exact hwants name op hbuiltin hfind
        | some b =>
          unfold Registry.find? at hfind
          rw [hbuiltin] at hfind
          cases hfind
          exact b.wantsJoined
      exact (hcollected.contract_iff haccepts).2
        (hcollected.skipped_eq_zero (Nat.le_refl written) (hjoined hgenerates written haccepts))

/-- An operation that takes one parameter and joins further ones to it, and that needs none after an
`a`, gets two: the text is evaluated, but not if the call is checked. -/
theorem contract_broken_by_unneeded :
    let probe : Probe :=
      { name := "E", arity := .exactly 1, joinsExtra := true, stop := some ['a'] }
    let engine : Engine := { registry := ⟨[probe.operation]⟩ }
    let source : Text := "$<E:a,b>"
    let tree := engine.parse source
    let violation : Eval Text := Eval.fail (.custom "contract")
    let scope : Scope := { config := "Debug" }
    (engine.evaluateText source { config := "Debug" } [] {}).1.toOption = some "E(a|)" ∧
      (engine.evaluateTree {} engine.limit scope [] tree).succeeds {} = true ∧
      Eval.succeeds (tree.evaluateWith (engine.checkedForest Operation.Contract violation {}
        engine.limit scope [])) {} = false := by
  decide +kernel

end Engine

end BuildExpr
