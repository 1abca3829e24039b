import BuildExpr.Proofs.Causes
import BuildExpr.Proofs.Spelling

/-!
# How evaluations come to fail

An evaluation that is put together from others fails in one of a few ways: one of its parts fails, after all
parts in front of it have given a value. For each way of putting evaluations together there is one statement
here that lists them. The operations at the bottom fail by themselves, and such a failure does not say yet
in which expression it arose (`Eval.Unplaced`).
-/

namespace BuildExpr

namespace Eval

variable {α β : Type}

/-! ## Failing from a run -/

/-- The evaluation fails from a run. -/
def FailsWith (x : Eval α) (run : Run) (failure : Failure) : Prop :=
  ∃ after, x run = .error failure after

variable {run : Run} {failure : Failure}

/-- Why an evaluation fails from a run, if it does. -/
def failure? (x : Eval α) (run : Run) : Option Failure :=
  match x run with
  | .ok _ _ => none
  | .error failure _ => some failure

/-- The failure that is found is the one the evaluation fails with. -/
theorem failure?_eq_some_iff {x : Eval α} : x.failure? run = some failure ↔ x.FailsWith run failure := by
  unfold failure? FailsWith
  cases x run with
  | ok a after => simp
  | error inner after => simp

instance (x : Eval α) (run : Run) (failure : Failure) : Decidable (x.FailsWith run failure) :=
  decidable_of_iff _ failure?_eq_some_iff

/-- An evaluation that ends in a failure fails with that one only. -/
theorem failsWith_error (failure : Failure) (after : Run) {x : Eval α} (h : x run = .error failure after)
    (failure' : Failure) : x.FailsWith run failure' ↔ failure' = failure := by
  constructor
  · rintro ⟨after', h'⟩
    cases h.symm.trans h'
    rfl
  · rintro rfl
    exact ⟨after, h⟩

/-- One that ends in a value does not fail. -/
theorem not_failsWith_of_ok {x : Eval α} {a : α} {after : Run} (h : x run = .ok a after) :
    ¬ x.FailsWith run failure := by
  rintro ⟨after', h'⟩
  cases h.symm.trans h'

/-- Giving a value does not fail. -/
theorem not_failsWith_pure (a : α) : ¬ (pure a : Eval α).FailsWith run failure :=
  not_failsWith_of_ok rfl

/-- Failing for a cause fails with it, without a place. -/
theorem failsWith_fail (cause : Cause) :
    (fail cause : Eval α).FailsWith run failure ↔ failure = ⟨cause, none⟩ :=
  failsWith_error _ run rfl failure

/-- The first of two evaluations fails, or it gives a value and the second one fails. -/
theorem failsWith_bind {x : Eval α} {f : α → Eval β} :
    (x >>= f).FailsWith run failure ↔
      x.FailsWith run failure ∨ ∃ a after, x run = .ok a after ∧ (f a).FailsWith after failure := by
  unfold FailsWith
  rw [bind_apply]
  cases x run with
  | ok a after => simp
  | error inner after => simp

/-- A failure from inside an expression is placed in it unless it has a place already. -/
theorem failsWith_inExpression {expression : Text} {x : Eval α} :
    (inExpression expression x).FailsWith run failure ↔
      ∃ inner, x.FailsWith run inner ∧ failure = inner.inExpression expression := by
  unfold FailsWith inExpression
  cases x run with
  | ok a after => simp
  | error inner after => simp [eq_comm]

/-- With one more operation open around it, an evaluation fails as it does inside. -/
theorem failsWith_within {x : Eval α} :
    (within x).FailsWith run failure ↔ x.FailsWith { run with depth := run.depth + 1 } failure := by
  unfold FailsWith
  rw [within_apply]
  cases x { run with depth := run.depth + 1 } with
  | ok a after => simp
  | error inner after => simp

/-- With a footprint of its own, an evaluation fails as it does from an empty one. -/
theorem failsWith_apart {x : Eval α} :
    (apart x).FailsWith run failure ↔ x.FailsWith { run with footprint := {} } failure := by
  unfold FailsWith apart
  dsimp only
  cases x { run with footprint := {} } with
  | ok a after => simp
  | error inner after => simp

/-! ## Failures without a place -/

/-- An evaluation whose failures do not say in which expression they arose. -/
def Unplaced (x : Eval α) : Prop :=
  ∀ run failure, x.FailsWith run failure → failure.expression = none

namespace Unplaced

/-- A value is no failure with a place. -/
theorem pure (a : α) : Unplaced (Pure.pure a : Eval α) :=
  fun _ _ h => absurd h (not_failsWith_pure a)

/-- A failure for a cause has no place. -/
theorem fail (cause : Cause) : Unplaced (Eval.fail cause : Eval α) := by
  intro run failure h
  rw [(failsWith_fail cause).1 h]

/-- The failures of two steps in a row are those of the one and the other. -/
theorem bind {x : Eval α} {f : α → Eval β} (hx : Unplaced x) (hf : ∀ a, Unplaced (f a)) :
    Unplaced (x >>= f) := by
  intro run failure h
  rcases failsWith_bind.1 h with h | ⟨a, after, -, h⟩
  · exact hx run failure h
  · exact hf a after failure h

/-- A change to the footprint does not fail. -/
theorem touch (change : Footprint → Footprint) : Unplaced (Eval.touch change) :=
  fun _ _ h => absurd h (not_failsWith_of_ok rfl)

/-- A result that is no value fails without a place. -/
theorem ofExcept (result : Except Cause α) : Unplaced (Eval.ofExcept result) := by
  cases result with
  | ok a => exact pure a
  | error cause => exact fail cause

/-- Going on only if a condition does not hold. -/
theorem bind_unless {p : Prop} [Decidable p] {x : Eval Unit} {f : Unit → Eval α} (hx : Unplaced x)
    (hf : Unplaced (f ())) : Unplaced (if p then x >>= f else f ()) := by
  by_cases hp : p
  · rw [if_pos hp]
    exact hx.bind fun _ => hf
  · rw [if_neg hp]
    exact hf

end Unplaced

end Eval

open Eval (Unplaced FailsWith)

namespace Operation

/-- The operation `COMPILE_LANGUAGE` fails without a place. -/
theorem compileLanguage_unplaced (call : Call) : Unplaced (compileLanguage.evaluate call) := by
  unfold compileLanguage
  dsimp only
  split
  · exact .fail _
  · split
    · exact .pure _
    · exact .pure _

/-- So does `CONFIG`. -/
theorem config_unplaced (call : Call) : Unplaced (config.evaluate call) := by
  refine Unplaced.bind (.touch _) fun _ => ?_
  split
  · exact .pure _
  · split
    · exact .fail _
    · exact .pure _

/-- So does `TARGET_OBJECTS`. -/
theorem targetObjects_unplaced (call : Call) : Unplaced (targetObjects.evaluate call) := by
  unfold targetObjects
  dsimp only
  refine Unplaced.bind_unless (.fail _) ?_
  refine Unplaced.bind (.ofExcept _) fun found => ?_
  refine Unplaced.bind_unless (.fail _) ?_
  exact Unplaced.bind (.touch _) fun _ => .pure _

/-- So does noting features of which one is not known. -/
theorem requireAll_unplaced (model : Model) (head config : Text) (names : List Text) :
    Unplaced (requireAll model head config names) := by
  induction names with
  | nil => exact .pure true
  | cons name rest ih =>
    unfold requireAll
    cases Feature.ofText? name with
    | none => exact .fail _
    | some feature => exact Unplaced.bind (.touch _) fun _ => ih.bind fun _ => .pure _

/-- So does `COMPILE_FEATURES`. -/
theorem compileFeatures_unplaced (call : Call) : Unplaced (compileFeatures.evaluate call) := by
  unfold compileFeatures
  dsimp only
  split
  · exact .fail _
  · exact Unplaced.bind (.touch _) fun _ => (requireAll_unplaced _ _ _ _).bind fun _ => .pure _

/-- So does finding out which property of which target is asked for. -/
theorem propertyAddress_unplaced (call : Call) : Unplaced (propertyAddress call) := by
  unfold propertyAddress
  split
  · split
    · exact .fail _
    · exact Unplaced.bind (.touch _) fun _ => .pure _
  · split
    · exact .fail _
    · split
      · exact .fail _
      · split
        · exact .fail _
        · exact Unplaced.bind (.touch _) fun _ => .pure _
  · exact .fail _

/-- Seeking a property does not say in which expression it fails. -/
theorem seek_unplaced (call : Call) : Unplaced (seek call) := by
  unfold seek
  refine (propertyAddress_unplaced call).bind fun address => ?_
  obtain ⟨target, property⟩ := address
  dsimp only
  refine Unplaced.bind_unless (.fail _) ?_
  refine Unplaced.bind_unless (.fail _) ?_
  refine Unplaced.bind (.touch _) fun _ => ?_
  cases call.host.model.property? target property call.scope.config with
  | none =>
    cases Chain.refusal? ⟨target, property, call.expression⟩ call.chain with
    | some cause => exact (Unplaced.fail cause).bind fun _ => .pure _
    | none => exact .pure _
  | some value =>
    cases Chain.refusal? ⟨target, property, call.expression⟩ call.chain with
    | some cause => exact (Unplaced.fail cause).bind fun _ => .pure _
    | none => exact .pure _

end Operation

open Operation in
/-- Nor does any operation that looks no property up. -/
theorem Builtin.evaluate_unplaced {b : Builtin} (hb : b ≠ .targetProperty) (call : Call) :
    Unplaced (b.operation.evaluate call) := by
  cases b with
  | targetProperty => exact absurd rfl hb
  | zero | one | buildInterface | installInterface => exact .pure _
  | bool | angle | comma | semicolon | lowerCase | upperCase | removeDuplicates => exact .pure _
  | and | or | not | choice | stringEqual | integerEqual | inList | join => exact .ofExcept _
  | config => exact config_unplaced call
  | compileLanguage => exact compileLanguage_unplaced call
  | targetExists | targetNameIfExists => exact Unplaced.bind (.ofExcept _) fun _ => .pure _
  | targetObjects => exact targetObjects_unplaced call
  | compileFeatures => exact compileFeatures_unplaced call

/-! ## Forests and parameters -/

section

variable {run : Run} {failure : Failure}

/-- A forest fails as one of its operations does, once all in front of that has been evaluated. -/
theorem Forest.failsWith_evaluateWith {operation : Forest → List Forest → Span → Eval Text}
    {nodes : Forest} :
    (nodes.evaluateWith operation).FailsWith run failure ↔
      ∃ (before : Forest) (name : Forest) (parameters : List Forest) (span : Span) (rest : Forest)
        (value : Text) (between : Run),
        nodes = before ++ .operation name parameters span :: rest ∧
          before.evaluateWith operation run = .ok value between ∧
          (operation name parameters span).FailsWith between failure := by
  constructor
  · intro h
    induction nodes generalizing run with
    | nil => exact absurd h (Eval.not_failsWith_pure [])
    | cons node rest ih =>
      cases node with
      | text text =>
        rw [Forest.evaluateWith] at h
        rcases Eval.failsWith_bind.1 h with h | ⟨others, after, -, h⟩
        · obtain ⟨before, name, parameters, span, rest', value, between, rfl, hbefore, h⟩ := ih h
          refine ⟨.text text :: before, name, parameters, span, rest', text ++ value, between, rfl, ?_, h⟩
          rw [Forest.evaluateWith, Eval.bind_of_ok hbefore]
          rfl
        · exact absurd h (Eval.not_failsWith_pure _)
      | operation name parameters span =>
        rw [Forest.evaluateWith] at h
        rcases Eval.failsWith_bind.1 h with h | ⟨value, after, hvalue, h⟩
        · -- Nothing stands in front of this operation.
          exact ⟨[], name, parameters, span, rest, [], run, rfl, rfl, h⟩
        · rcases Eval.failsWith_bind.1 h with h | ⟨others, after', -, h⟩
          · obtain ⟨before, name', parameters', span', rest', value', between, rfl, hbefore, h⟩ := ih h
            refine ⟨.operation name parameters span :: before, name', parameters', span', rest',
              value ++ value', between, rfl, ?_, h⟩
            rw [Forest.evaluateWith, Eval.bind_of_ok hvalue, Eval.bind_of_ok hbefore]
            rfl
          · exact absurd h (Eval.not_failsWith_pure _)
  · rintro ⟨before, name, parameters, span, rest, value, between, rfl, hbefore, h⟩
    rw [Forest.evaluateWith_append, Forest.evaluateWith]
    refine Eval.failsWith_bind.2 (.inr ⟨value, between, hbefore, ?_⟩)
    exact Eval.failsWith_bind.2 (.inl (Eval.failsWith_bind.2 (.inl h)))

namespace Operation

variable {op : Operation} {evaluate : Forest → Eval Text} {joinedFrom : Nat}

/-- The parameters of an operation fail as one of them does that is needed, once all in front of that have
their values. -/
theorem failsWith_evaluateRest {index : Nat} {values : List Text} {parameters : List Forest} :
    (op.evaluateRest evaluate joinedFrom index values parameters).FailsWith run failure ↔
      ∃ (before : List Forest) (parameter : Forest) (rest : List Forest) (collected : List Text)
        (between : Run), parameters = before ++ parameter :: rest ∧
        op.evaluateRest evaluate joinedFrom index values before run = .ok collected between ∧
        (0 < index + before.length → op.wantsNext collected = true) ∧
        (evaluate parameter).FailsWith between failure := by
  induction parameters generalizing index values run with
  | nil =>
    refine iff_of_false (Eval.not_failsWith_pure values) ?_
    rintro ⟨before, parameter, rest, -, -, h, -⟩
    simp at h
  | cons first others ih =>
    by_cases hneeded : 0 < index → op.wantsNext values = true
    · have hrest (more : List Forest) : op.evaluateRest evaluate joinedFrom index values (first :: more) =
          evaluate first >>= fun value =>
            op.evaluateRest evaluate joinedFrom (index + 1) (op.addValue joinedFrom index values value)
              more := by
        rw [evaluateRest, if_neg (by simpa using hneeded)]
      rw [hrest, Eval.failsWith_bind]
      constructor
      · rintro (h | ⟨value, after, hvalue, h⟩)
        · exact ⟨[], first, others, values, run, rfl, rfl, hneeded, h⟩
        · obtain ⟨before, parameter, rest, collected, between, rfl, hbefore, hwants, h⟩ := ih.1 h
          refine ⟨first :: before, parameter, rest, collected, between, rfl, ?_,
            fun _ => hwants (by omega), h⟩
          rw [hrest, Eval.bind_of_ok hvalue, hbefore]
      · rintro ⟨before, parameter, rest, collected, between, hsplit, hbefore, hwants, h⟩
        cases before with
        | nil =>
          cases hsplit
          cases hbefore
          exact .inl h
        | cons first' before =>
          cases hsplit
          rw [hrest] at hbefore
          obtain ⟨value, after, hvalue, hbefore⟩ := Eval.bind_eq_ok hbefore
          have hwants' : 0 < index + 1 + before.length → op.wantsNext collected = true :=
            fun _ => hwants (by rw [List.length_cons]; omega)
          exact .inr ⟨value, after, hvalue,
            ih.2 ⟨before, parameter, rest, collected, between, rfl, hbefore, hwants', h⟩⟩
    · have hrest (more : List Forest) : op.evaluateRest evaluate joinedFrom index values (first :: more) =
          op.evaluateRest evaluate joinedFrom (index + 1) (values ++ [[]]) more := by
        rw [evaluateRest, if_pos (by simpa using hneeded)]
      rw [hrest, ih]
      constructor
      · rintro ⟨before, parameter, rest, collected, between, rfl, hbefore, hwants, h⟩
        refine ⟨first :: before, parameter, rest, collected, between, rfl, ?_,
          fun _ => hwants (by omega), h⟩
        rw [hrest, hbefore]
      · rintro ⟨before, parameter, rest, collected, between, hsplit, hbefore, hwants, h⟩
        cases before with
        | nil =>
          -- The first of these parameters is not needed, so it cannot be the one that fails.
          cases hbefore
          exact absurd hwants hneeded
        | cons first' before =>
          cases hsplit
          rw [hrest] at hbefore
          have hwants' : 0 < index + 1 + before.length → op.wantsNext collected = true :=
            fun _ => hwants (by rw [List.length_cons]; omega)
          exact ⟨before, parameter, rest, collected, between, rfl, hbefore, hwants', h⟩

/-- Why an operation refuses to be given so many parameters, if it does. -/
def countRefusal? (op : Operation) (written : Nat) : Option Cause :=
  let count := op.effectiveCount written
  if op.generates then
    if op.arity.accepts count then none else some (.wrongCount op.name op.arity count)
  else if count = 0 && 0 < op.arity.min then
    some (.invalidParameter op.name (List.flatten ["$<", op.name, "> expression requires a parameter."]))
  else none

/-- An operation that is carried out fails because of the number of its parameters, as its parameters do, or
as it does when it is called with their values. -/
theorem failsWith_carryOut {parameters : List Forest} {call : List Text → Call} :
    (op.carryOut evaluate parameters call).FailsWith run failure ↔
      (∃ cause, op.countRefusal? parameters.length = some cause ∧ failure = ⟨cause, none⟩) ∨
      op.countRefusal? parameters.length = none ∧ op.generates = true ∧
        ((op.evaluateParameters evaluate parameters).FailsWith run failure ∨
          ∃ values between, op.evaluateParameters evaluate parameters run = .ok values between ∧
            (op.evaluate (call values)).FailsWith between failure) := by
  unfold carryOut countRefusal?
  cases op.generates with
  | false =>
    by_cases hnone : (op.effectiveCount parameters.length = 0 && 0 < op.arity.min) = true
    · simp [hnone, Eval.failsWith_fail]
    · simp [hnone, Eval.not_failsWith_pure]
  | true =>
    cases haccepts : op.arity.accepts (op.effectiveCount parameters.length) with
    | false => simp [haccepts, Eval.failsWith_fail]
    | true => simp [haccepts, Eval.failsWith_bind]

/-- Asking for a property fails as seeking it does, or as the evaluation of the stored value that is found,
which has a footprint of its own. -/
theorem failsWith_targetProperty {call : Call} :
    (targetProperty.evaluate call).FailsWith run failure ↔
      (seek call).FailsWith run failure ∨
      ∃ lookup stored after, seek call run = .ok (.value lookup stored) after ∧
        (call.host.evaluateValue (call.scope.derive lookup.target) (lookup :: call.chain)
          stored).FailsWith { after with footprint := {} } failure := by
  unfold targetProperty
  dsimp only
  rw [Eval.failsWith_bind]
  refine or_congr_right ⟨?_, ?_⟩
  · rintro ⟨sought, after, hsought, h⟩
    cases sought with
    | text value => exact absurd h (Eval.not_failsWith_pure value)
    | value lookup stored => exact ⟨lookup, stored, after, hsought, Eval.failsWith_apart.1 h⟩
  · rintro ⟨lookup, stored, after, hsought, h⟩
    exact ⟨.value lookup stored, after, hsought, Eval.failsWith_apart.2 h⟩

end Operation

/-- A stored value fails as the tree that is kept for it or read. -/
theorem Engine.failsWith_evaluateValue {engine : Engine} {m : Model} {remaining : Nat} {scope : Scope}
    {chain : Chain} {stored : Text} :
    ((engine.hostAt m remaining).evaluateValue scope chain stored).FailsWith run failure ↔
      (engine.evaluateTree m remaining scope chain (engine.fetch run.trees stored).1).FailsWith
        { run with trees := (engine.fetch run.trees stored).2 } failure :=
  Iff.rfl

end

end BuildExpr
