import BuildExpr.Compiled

/-!
# Evaluations as functions on runs

What each way of putting evaluations together does to the run it starts from. Proofs about
evaluations use these equations and do not look into the combinators again.
-/

namespace BuildExpr

namespace Eval

variable {α β : Type}

/-- The second of two evaluations starts from the run the first one ends with. -/
theorem bind_apply (x : Eval α) (f : α → Eval β) (run : Run) :
    (x >>= f) run =
      match x run with
      | .ok a after => f a after
      | .error failure after => .error failure after := by
  simp only [bind, EStateM.bind]
  cases x run <;> rfl

/-- After a step that gives a value, the next one goes on from it. -/
theorem bind_of_ok {x : Eval α} {run after : Run} {a : α} (h : x run = .ok a after)
    (f : α → Eval β) : (x >>= f) run = f a after := by
  rw [bind_apply, h]

/-- Evaluations that go on in the same way from every value there can be are the same. -/
theorem bind_congr {x : Eval α} {f g : α → Eval β}
    (h : ∀ run a after, x run = .ok a after → f a = g a) : x >>= f = x >>= g := by
  funext run
  rw [bind_apply, bind_apply]
  cases hx : x run with
  | ok a after => exact congrFun (h run a after hx) after
  | error failure after => rfl

/-- A failure is handled from the run it left. -/
theorem tryCatch_apply (x : Eval α) (handle : Failure → Eval α) (run : Run) :
    tryCatch x handle run =
      match x run with
      | .ok a after => .ok a after
      | .error failure after => handle failure after := by
  change (EStateM.tryCatch x handle : Eval α) run = _
  delta EStateM.tryCatch
  dsimp only
  cases x run <;> rfl

/-- A body carried out with one more operation open closes it again on both ways out. -/
theorem within_apply (body : Eval α) (run : Run) :
    within body run =
      match body { run with depth := run.depth + 1 } with
      | .ok a after => .ok a { after with depth := after.depth - 1 }
      | .error failure after => .error failure { after with depth := after.depth - 1 } := by
  have henter : within body run = thenAlways body leave { run with depth := run.depth + 1 } := rfl
  rw [henter]
  unfold thenAlways
  cases body { run with depth := run.depth + 1 } <;> rfl

/-- Placing failures in an expression leaves the run as the body does. -/
theorem finalRun_inExpression (expression : Text) (body : Eval α) (run : Run) :
    Compiled.finalRun (inExpression expression body run) = Compiled.finalRun (body run) := by
  unfold inExpression
  cases body run <;> rfl

/-- Whether or not a body fails, the operation around it is closed again. -/
theorem finalRun_within (body : Eval α) (run : Run) :
    Compiled.finalRun (within body run) =
      let after := Compiled.finalRun (body { run with depth := run.depth + 1 })
      { after with depth := after.depth - 1 } := by
  rw [within_apply]
  cases body { run with depth := run.depth + 1 } <;> rfl

/-- Whether or not a body fails, its footprint is merged into the one before. -/
theorem finalRun_apart (body : Eval α) (run : Run) :
    Compiled.finalRun (apart body run) =
      let after := Compiled.finalRun (body { run with footprint := {} })
      { after with footprint := run.footprint.merge after.footprint, depth := run.depth } := by
  unfold apart
  dsimp only
  cases body { run with footprint := {} } <;> rfl

/-- Placing failures, like opening an operation, asks about the body at one run only. -/
theorem inExpression_congr {x y : Eval α} {run : Run} (h : x run = y run) (expression : Text) :
    inExpression expression x run = inExpression expression y run := by
  unfold inExpression
  rw [h]

/-- It is the run with one more operation open. -/
theorem within_congr {x y : Eval α} {run : Run}
    (h : x { run with depth := run.depth + 1 } = y { run with depth := run.depth + 1 }) :
    within x run = within y run := by
  rw [within_apply, within_apply, h]

/-! ### Evaluations that give a value -/

variable {a : α} {b : β} {run after : Run}

/-- If two evaluations in a row give a value, the first one gives one to go on from. -/
theorem bind_eq_ok {x : Eval α} {f : α → Eval β} (h : (x >>= f) run = .ok b after) :
    ∃ a between, x run = .ok a between ∧ f a between = .ok b after := by
  rw [bind_apply] at h
  cases hx : x run with
  | ok a between =>
    rw [hx] at h
    exact ⟨a, between, rfl, h⟩
  | error failure between =>
    rw [hx] at h
    cases h

/-- A value from inside an expression is one of the body. -/
theorem inExpression_eq_ok {expression : Text} {body : Eval α} :
    inExpression expression body run = .ok a after ↔ body run = .ok a after := by
  unfold inExpression
  cases body run with
  | ok value between => exact Iff.rfl
  | error failure between => exact ⟨nofun, nofun⟩

/-- A value from inside an operation is one of the body, from which the operation is closed. -/
theorem within_eq_ok {body : Eval α} :
    within body run = .ok a after ↔
      ∃ between, body { run with depth := run.depth + 1 } = .ok a between ∧
        { between with depth := between.depth - 1 } = after := by
  rw [within_apply]
  cases body { run with depth := run.depth + 1 } with
  | ok value between =>
    constructor
    · rintro ⟨⟩
      exact ⟨between, rfl, rfl⟩
    · rintro ⟨_, ⟨⟩, rfl⟩
      rfl
  | error failure between => exact ⟨nofun, fun ⟨_, h, _⟩ => nomatch h⟩

/-- A value found apart is one of the body, whose footprint is merged into the one before. -/
theorem apart_eq_ok {body : Eval α} :
    apart body run = .ok a after ↔
      ∃ between, body { run with footprint := {} } = .ok a between ∧
        { between with footprint := run.footprint.merge between.footprint, depth := run.depth } =
          after := by
  unfold apart
  dsimp only
  cases body { run with footprint := {} } with
  | ok value between =>
    constructor
    · rintro ⟨⟩
      exact ⟨between, rfl, rfl⟩
    · rintro ⟨_, ⟨⟩, rfl⟩
      rfl
  | error failure between => exact ⟨nofun, fun ⟨_, h, _⟩ => nomatch h⟩

end Eval

/-- A forest that is plain text is its own value. -/
theorem Forest.evaluateWith_literal {nodes : Forest} {text : Text} (h : nodes.literal? = some text)
    (operation : Forest → List Forest → Span → Eval Text) :
    nodes.evaluateWith operation = pure text := by
  unfold literal? at h
  split at h
  · cases h
    rfl
  · cases h
    rw [evaluateWith, evaluateWith, pure_bind, List.append_nil]
  · cases h

/-- Evaluating forests of a text is evaluating them node by node, however many operations may be
opened. -/
theorem Engine.evaluateForest_eq (engine : Engine) (model : Model) (remaining : Nat)
    (scope : Scope) (chain : Chain) (source : Text) :
    ∃ operation, engine.evaluateForest model remaining scope chain source =
      Forest.evaluateWith operation := by
  cases remaining with
  | zero => exact ⟨_, rfl⟩
  | succ remaining => exact ⟨_, rfl⟩

/-- Plain text is its own value. -/
theorem Engine.evaluateForest_literal (engine : Engine) (model : Model) (remaining : Nat)
    (scope : Scope) (chain : Chain) (source : Text) {nodes : Forest} {text : Text}
    (h : nodes.literal? = some text) :
    engine.evaluateForest model remaining scope chain source nodes = pure text := by
  obtain ⟨operation, heq⟩ := engine.evaluateForest_eq model remaining scope chain source
  rw [heq]
  exact Forest.evaluateWith_literal h operation

/-- A forest that is one operation has its value. -/
theorem Forest.evaluateWith_single (operation : Forest → List Forest → Span → Eval Text)
    (name : Forest) (parameters : List Forest) (span : Span) :
    evaluateWith operation [.operation name parameters span] = operation name parameters span := by
  simp only [evaluateWith, pure_bind, List.append_nil, bind_pure]

/-- A built-in operation is found by its name, whatever has been added. -/
theorem Registry.find?_name (r : Registry) (b : Builtin) : r.find? b.name = some b.operation := by
  unfold find?
  rw [Builtin.ofName?_name]

namespace Operation

variable {op : Operation} {evaluate : Forest → Eval Text} {parameters : List Forest}

/-- An operation that joins no parameters gets each value by itself. -/
theorem addValue_of_not_joins (h : op.joinsExtra = false) (joinedFrom index : Nat)
    (values : List Text) (value : Text) :
    op.addValue joinedFrom index values value = values ++ [value] := by
  unfold addValue
  cases values.getLast? with
  | none => rfl
  | some last => simp [h]

/-- If the number of parameters is right, they are evaluated before the operation is called. -/
theorem carryOut_of_accepts (hgenerates : op.generates = true)
    (haccepts : op.arity.accepts (op.effectiveCount parameters.length) = true)
    (call : List Text → Call) :
    op.carryOut evaluate parameters call =
      (do
        let values ← op.evaluateParameters evaluate parameters
        op.evaluate (call values)) := by
  unfold carryOut
  simp only [hgenerates, haccepts, Bool.not_true, Bool.false_eq_true, if_false]

/-- An operation that accepts its parameters is called with their values. -/
theorem carryOut_of_evaluateParameters {values : List Text} (hgenerates : op.generates = true)
    (haccepts : op.arity.accepts (op.effectiveCount parameters.length) = true)
    (hparameters : op.evaluateParameters evaluate parameters = pure values)
    (call : List Text → Call) :
    op.carryOut evaluate parameters call = op.evaluate (call values) := by
  rw [carryOut_of_accepts hgenerates haccepts, hparameters, pure_bind]

/-- The parameters of an operation without a result are not evaluated. -/
theorem carryOut_of_not_generates (hgenerates : op.generates = false)
    (hcount : op.effectiveCount parameters.length ≠ 0) (call : List Text → Call) :
    op.carryOut evaluate parameters call = pure [] := by
  unfold carryOut
  simp [hgenerates, hcount]

end Operation

/-- Reporting a failure notes it and sends its message unless it is to be quiet. It does not fail
itself. -/
theorem Engine.report_apply (engine : Engine) (scope : Scope) (failure : Failure) (run : Run) :
    engine.report scope failure run =
      .ok ()
        { run with
          footprint := { run.footprint with failed := true }
          messages := run.messages ++
            if !scope.quiet && engine.reports then [failure.message] else [] } := by
  unfold report
  rw [Eval.bind_apply]
  cases !scope.quiet && engine.reports with
  | true => rfl
  | false =>
    rw [if_neg Bool.false_ne_true, if_neg Bool.false_ne_true, List.append_nil]
    rfl

/-- The outcome of evaluating a tree is that of its forest; a failure is noted and reported. -/
theorem Compiled.outcome_eq (engine : Engine) (tree : Tree) (context : Context) (chain : Chain)
    (w : Workspace) :
    outcome engine tree context chain w =
      match engine.evaluateTree w.store.model (engine.limit - context.depth) context.scope chain tree
        (context.toRun w) with
      | .ok value run => .ok value run
      | .error failure run =>
        .error failure
          { run with
            footprint := { run.footprint with failed := true }
            messages := run.messages ++
              if !context.scope.quiet && engine.reports then [failure.message] else [] } := by
  unfold outcome Engine.evaluateReporting Engine.evaluateTree
  rw [Eval.tryCatch_apply]
  cases tree.evaluateWith _ (context.toRun w) with
  | ok value run => rfl
  | error failure run =>
    dsimp only
    rw [Eval.bind_apply, Engine.report_apply]
    rfl

/-- An expression keeps the outcome of its tree in a fresh context, if it is evaluated at all. -/
theorem Compiled.evaluate_eq (engine : Engine) (c : Compiled) (inputs : Inputs) (chain : Chain)
    (w : Workspace) :
    c.evaluate engine inputs chain w =
      if c.tree.needsEvaluation then
        let outcome := outcome engine c.tree (c.context engine inputs) chain w
        (c.conclude outcome, w.after (finalRun outcome))
      else (c, w) := by
  unfold evaluate evaluateIn
  cases c.tree.needsEvaluation with
  | true => rfl
  | false => rfl

/-- It makes no difference to a fresh expression that a text without expressions is not evaluated. -/
theorem Engine.evaluate_compileTree (engine : Engine) (tree : Tree) (inputs : Inputs)
    (chain : Chain) (w : Workspace) :
    let c := engine.compileTree tree
    let outcome := Compiled.outcome engine tree (c.context engine inputs) chain w
    c.evaluate engine inputs chain w = (c.conclude outcome, w.after (Compiled.finalRun outcome)) := by
  cases tree with
  | plain text => rfl
  | forest text nodes => rfl
  | tooDeep text depth limit => rfl

/-- A text that is too deep to be read fails. -/
theorem Compiled.evaluateIn_tooDeep (engine : Engine) {c : Compiled} {source : Text}
    {depth limit : Nat} (h : c.tree = .tooDeep source depth limit) (context : Context)
    (chain : Chain) (w : Workspace) :
    (c.evaluateIn engine context chain w).1 =
      { c with output := [], failure := some ⟨.nestingTooDeep depth limit, some source⟩ } := by
  obtain ⟨tree, output, snapshot, quiet, forBuildsystem, failure⟩ := c
  dsimp only at h
  subst h
  unfold evaluateIn
  rw [outcome_eq]
  rfl

end BuildExpr
