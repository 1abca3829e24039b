import BuildExpr.Compiled

/-!
# Logs of evaluations

The log of an evaluation tells which features `COMPILE_FEATURES` handles during it and which property
values are evaluated, in order; what is handled in a property value is nested in the log. There is one
logger for each part of the evaluator, and it follows that part: it takes from the evaluator itself
which operation is called, which parameters are needed and what the run is like before each step.
-/

namespace BuildExpr

/-- What of an evaluation matters to the standards it asks for, in order. -/
inductive Log where
  /-- Nothing more. -/
  | nil
  /-- A feature is handled. -/
  | feature (feature : Feature) (rest : Log)
  /-- The value of a property is evaluated. -/
  | value (inner rest : Log)
deriving DecidableEq

namespace Log

/-- One log after another. -/
def append : Log → Log → Log
  | nil, log => log
  | feature f rest, log => feature f (append rest log)
  | value inner rest, log => value inner (append rest log)

instance : Append Log := ⟨append⟩

/-- A log that starts with a feature still does so with another one behind it. -/
@[simp] theorem feature_append (f : Feature) (rest log : Log) :
    feature f rest ++ log = feature f (rest ++ log) := rfl

/-- So does one that starts with the value of a property. -/
@[simp] theorem value_append (inner rest log : Log) :
    value inner rest ++ log = value inner (rest ++ log) := rfl

/-- Nothing is added by the empty log. -/
@[simp] theorem append_nil (log : Log) : log ++ nil = log := by
  induction log with
  | nil => rfl
  | feature f rest ih => rw [feature_append, ih]
  | value inner rest _ ih => rw [value_append, ih]

/-- The features of one `COMPILE_FEATURES`. -/
def ofFeatures : List Feature → Log
  | [] => nil
  | f :: rest => feature f (ofFeatures rest)

/-- All features of a language that are handled, those in property values included. -/
def features (language : Text) : Log → List Feature
  | nil => []
  | feature f rest =>
    if f.language = language then f :: rest.features language else rest.features language
  | value inner rest => inner.features language ++ rest.features language

end Log

/-- What an evaluation logs, depending on the run it starts from. -/
abbrev Logger := Run → Log

namespace Logger

variable {α : Type}

/-- Nothing is logged. -/
def none : Logger := fun _ => .nil

/-- What is logged by an evaluation and by what goes on from its value. -/
def bind (x : Eval α) (first : Logger) (next : α → Logger) : Logger := fun run =>
  first run ++
    match x run with
    | .ok a after => next a after
    | .error _ _ => .nil

/-- What is logged with one more operation open. -/
def within (body : Logger) : Logger := fun run => body { run with depth := run.depth + 1 }

/-- What is logged by a property value, which leaves a footprint of its own. -/
def apart (body : Logger) : Logger := fun run => .value (body { run with footprint := {} }) .nil

end Logger

/-- What a forest logs, given the values of its operations and what they log. -/
def Forest.logWith (operation : Forest → List Forest → Span → Eval Text)
    (log : Forest → List Forest → Span → Logger) : Forest → Logger
  | [] => .none
  | .text _ :: rest => logWith operation log rest
  | .operation name parameters span :: rest =>
    .bind (operation name parameters span) (log name parameters span) fun _ =>
      logWith operation log rest

/-- What a tree logs, given what forests log. -/
def Tree.logWith (log : Text → Forest → Logger) : Tree → Logger
  | .forest source nodes => log source nodes
  | .plain _ | .tooDeep _ _ _ => .none

namespace Operation

/-- What the remaining parameters log, of which only those that are needed are evaluated. -/
def logRest (op : Operation) (evaluate : Forest → Eval Text) (log : Forest → Logger)
    (joinedFrom : Nat) : Nat → List Text → List Forest → Logger
  | _, _, [] => .none
  | index, values, parameter :: rest =>
    if 0 < index && !op.wantsNext values then
      logRest op evaluate log joinedFrom (index + 1) (values ++ [[]]) rest
    else
      .bind (evaluate parameter) (log parameter) fun value =>
        logRest op evaluate log joinedFrom (index + 1) (op.addValue joinedFrom index values value)
          rest

/-- What the parameters and the call of an operation log. -/
def logCarryOut (op : Operation) (evaluate : Forest → Eval Text) (log : Forest → Logger)
    (parameters : List Forest) (logCall : List Text → Logger) : Logger :=
  let count := op.effectiveCount parameters.length
  if !op.generates || !op.arity.accepts count then .none
  else
    .bind (op.evaluateParameters evaluate parameters)
      (op.logRest evaluate log (count - 1) 0 [] parameters) logCall

/-- The features that `COMPILE_FEATURES` handles: all up to one that is not known. -/
def handled : List Text → List Feature
  | [] => []
  | name :: rest =>
    match Feature.ofText? name with
    | none => []
    | some feature => feature :: handled rest

end Operation

/-- What the call of a built-in operation logs, given what property values log. -/
def Builtin.log (logValue : Scope → Chain → Text → Logger) (call : Call) : Builtin → Logger
  | compileFeatures =>
    match call.scope.head with
    | none => .none
    | some _ => fun _ => .ofFeatures (Operation.handled call.parameters)
  | targetProperty =>
    .bind (Operation.seek call) .none fun
      | .text _ => .none
      | .value lookup stored =>
        .apart (logValue (call.scope.derive lookup.target) (lookup :: call.chain) stored)
  | _ => .none

namespace Engine

/-- What a stored property value logs, given what forests log. -/
def logValue (engine : Engine) (log : Scope → Chain → Text → Forest → Logger) (scope : Scope)
    (chain : Chain) (value : Text) : Logger :=
  .bind (engine.valueTree value) .none fun tree => tree.logWith (log scope chain)

/-- What an operation written in a text logs, given the values of forests inside it and what they
log. -/
def logOperation (engine : Engine) (model : Model)
    (inner : Scope → Chain → Text → Forest → Eval Text)
    (log : Scope → Chain → Text → Forest → Logger) (scope : Scope) (chain : Chain) (source : Text)
    (name : Forest) (parameters : List Forest) (span : Span) : Logger :=
  .within <| .bind (inner scope chain source name) (log scope chain source name) fun called =>
    match Builtin.ofName? called with
    | none => .none
    | some b =>
      b.operation.logCarryOut (inner scope chain source) (log scope chain source) parameters
        fun values =>
          b.log (engine.logValue log)
            ⟨values, source.cut span, chain, scope, engine.host model inner⟩

/-- What a forest logs when `remaining` more operations may be opened. -/
def logForest (engine : Engine) (model : Model) :
    Nat → Scope → Chain → Text → Forest → Logger
  | 0, _, _, _, _ => .none
  | remaining + 1, scope, chain, source, nodes =>
    let inner := engine.evaluateForest model remaining
    let log := logForest engine model remaining
    nodes.logWith (engine.evaluateOperation model inner scope chain source)
      (engine.logOperation model inner log scope chain source)

end Engine

/-- The log of evaluating a compiled expression. -/
def Compiled.log (engine : Engine) (c : Compiled) (inputs : Inputs) (chain : Chain)
    (w : Workspace) : Log :=
  let context := c.context engine inputs
  c.tree.logWith (engine.logForest w.store.model engine.limit context.scope chain)
    (context.toRun w)

end BuildExpr
