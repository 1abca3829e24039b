import BuildExpr.Compiled

/-!
# Moments of evaluations

The course of an evaluation lists its moments in order: each opening and each closing of an operation,
each operation that is refused because too many are open, and a pause after each part of the evaluation
that something follows. Every moment comes with the number of operations that are open in the active
context just then, which inside a property value is the context derived for that value. There is one
definition for each part of the evaluator, and it follows that part: it takes from the evaluator itself
which operation is called, which parameters are needed and what the run is like at each moment.
-/

namespace BuildExpr

/-- What happens at a moment of an evaluation. -/
inductive Change where
  /-- An operation is opened. -/
  | enter
  /-- The innermost open operation is closed. -/
  | leave
  /-- An operation is not opened because too many are open. -/
  | refuse
  /-- Nothing is opened or closed. -/
  | pause
deriving DecidableEq, Repr

/-- A moment of an evaluation. -/
structure Moment where
  /-- What happens. -/
  change : Change
  /-- How many operations are open in the active context before that. -/
  depth : Nat
deriving DecidableEq, Repr

namespace Moment

/-- How often something happens at some moments. -/
def count (change : Change) (moments : List Moment) : Nat :=
  moments.countP fun m => m.change == change

/-- How many operations are opened. -/
def entered (moments : List Moment) : Nat := count .enter moments

/-- How many operations are closed. -/
def left (moments : List Moment) : Nat := count .leave moments

end Moment

/-- The moments of an evaluation, depending on the run it starts from. -/
abbrev Course := Run → List Moment

namespace Course

variable {α : Type}

open Compiled (finalRun)

/-- Nothing is opened or closed. -/
def none : Course := fun _ => []

/-- An operation is not opened. -/
def refused : Course := fun run => [⟨.refuse, run.depth⟩]

/-- The course of an evaluation, a pause, and the course of what goes on from its value. -/
def bind (x : Eval α) (first : Course) (next : α → Course) : Course := fun run =>
  first run ++ ⟨.pause, (finalRun (x run)).depth⟩ ::
    match x run with
    | .ok a after => next a after
    | .error _ _ => []

/-- The course of an evaluation with one more operation open. -/
def within (x : Eval α) (body : Course) : Course := fun run =>
  let inside : Run := { run with depth := run.depth + 1 }
  ⟨.enter, run.depth⟩ :: (body inside ++ [⟨.leave, (finalRun (x inside)).depth⟩])

/-- The course of the evaluation of a property value, which has a context of its own. -/
def apart (body : Course) : Course := fun run => body { run with footprint := {} }

end Course

/-- The course of a forest, given the values of its operations and their courses. -/
def Forest.courseWith (operation : Forest → List Forest → Span → Eval Text)
    (course : Forest → List Forest → Span → Course) : Forest → Course
  | [] => .none
  | .text _ :: rest => courseWith operation course rest
  | .operation name parameters span :: rest =>
    .bind (operation name parameters span) (course name parameters span) fun _ =>
      courseWith operation course rest

/-- The course of a tree, given the courses of forests. -/
def Tree.courseWith (course : Text → Forest → Course) : Tree → Course
  | .forest source nodes => course source nodes
  | .plain _ | .tooDeep _ _ _ => .none

namespace Operation

/-- The course of the remaining parameters, of which only those that are needed are evaluated. -/
def courseRest (op : Operation) (evaluate : Forest → Eval Text) (course : Forest → Course)
    (joinedFrom : Nat) : Nat → List Text → List Forest → Course
  | _, _, [] => .none
  | index, values, parameter :: rest =>
    if 0 < index && !op.wantsNext values then
      courseRest op evaluate course joinedFrom (index + 1) (values ++ [[]]) rest
    else
      .bind (evaluate parameter) (course parameter) fun value =>
        courseRest op evaluate course joinedFrom (index + 1)
          (op.addValue joinedFrom index values value) rest

/-- The course of an operation through its parameters and its call. -/
def courseCarryOut (op : Operation) (evaluate : Forest → Eval Text) (course : Forest → Course)
    (parameters : List Forest) (courseCall : List Text → Course) : Course :=
  let count := op.effectiveCount parameters.length
  if !op.generates || !op.arity.accepts count then .none
  else
    .bind (op.evaluateParameters evaluate parameters)
      (op.courseRest evaluate course (count - 1) 0 [] parameters) courseCall

end Operation

/-- The course of the call of a built-in operation, given the courses of property values. Only
`TARGET_PROPERTY` evaluates anything but its parameters. -/
def Builtin.course (courseValue : Scope → Chain → Text → Course) (call : Call) : Builtin → Course
  | targetProperty =>
    .bind (Operation.seek call) .none fun
      | .text _ => .none
      | .value lookup stored =>
        .apart (courseValue (call.scope.derive lookup.target) (lookup :: call.chain) stored)
  | _ => .none

namespace Engine

/-- The course of a stored property value, given the courses of forests. -/
def courseValue (engine : Engine) (course : Scope → Chain → Text → Forest → Course) (scope : Scope)
    (chain : Chain) (value : Text) : Course :=
  .bind (engine.valueTree value) .none fun tree => tree.courseWith (course scope chain)

/-- What is evaluated while an operation written in a text is open. -/
def insideOperation (engine : Engine) (model : Model)
    (inner : Scope → Chain → Text → Forest → Eval Text) (scope : Scope) (chain : Chain)
    (source : Text) (name : Forest) (parameters : List Forest) (span : Span) : Eval Text :=
  Eval.inExpression (source.cut span) do
    let called ← inner scope chain source name
    match engine.registry.find? called with
    | none => Eval.fail (.unknownOperation called)
    | some op =>
      op.carryOut (inner scope chain source) parameters fun values =>
        ⟨values, source.cut span, chain, scope, engine.host model inner⟩

/-- An operation is evaluated as what is inside it, with one more operation open. -/
theorem evaluateOperation_eq (engine : Engine) (model : Model)
    (inner : Scope → Chain → Text → Forest → Eval Text) (scope : Scope) (chain : Chain)
    (source : Text) (name : Forest) (parameters : List Forest) (span : Span) :
    engine.evaluateOperation model inner scope chain source name parameters span =
      Eval.within (engine.insideOperation model inner scope chain source name parameters span) := rfl

/-- The course of an operation written in a text, given the values of forests inside it and their
courses. -/
def courseOperation (engine : Engine) (model : Model)
    (inner : Scope → Chain → Text → Forest → Eval Text)
    (course : Scope → Chain → Text → Forest → Course) (scope : Scope) (chain : Chain)
    (source : Text) (name : Forest) (parameters : List Forest) (span : Span) : Course :=
  .within (engine.insideOperation model inner scope chain source name parameters span) <|
    .bind (inner scope chain source name) (course scope chain source name) fun called =>
      match Builtin.ofName? called with
      | none => .none
      | some b =>
        b.operation.courseCarryOut (inner scope chain source) (course scope chain source) parameters
          fun values =>
            b.course (engine.courseValue course)
              ⟨values, source.cut span, chain, scope, engine.host model inner⟩

/-- The course of a forest read from a text, when `remaining` more operations may be opened. -/
def courseForest (engine : Engine) (model : Model) :
    Nat → Scope → Chain → Text → Forest → Course
  | 0, scope, chain, source, nodes =>
    -- The first operation is refused, and that is the end of it.
    nodes.courseWith
      (fun name parameters span =>
        engine.evaluateForest model 0 scope chain source [.operation name parameters span])
      fun _ _ _ => .refused
  | remaining + 1, scope, chain, source, nodes =>
    let inner := engine.evaluateForest model remaining
    let course := courseForest engine model remaining
    nodes.courseWith (engine.evaluateOperation model inner scope chain source)
      (engine.courseOperation model inner course scope chain source)

end Engine

/-- The moments of evaluating a tree in a context. -/
def Compiled.course (engine : Engine) (tree : Tree) (context : Context) (chain : Chain)
    (w : Workspace) : List Moment :=
  tree.courseWith
    (engine.courseForest w.store.model (engine.limit - context.depth) context.scope chain)
    (context.toRun w)

end BuildExpr
