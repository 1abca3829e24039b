import BuildExpr.Operation.Registry

/-!
# Engines

An engine evaluates trees: text stands for itself, and an operation is looked up by its name and
carried out on the values of its parameters. It works from left to right and stops at the first
failure.

An operation may be nested in another one only up to the engine's limit, wherever it is written: in
a name, in a parameter, or in the value of a property that an operation looks up. So the evaluation
proceeds by recursion on the number of operations that may still be opened.
-/

namespace BuildExpr

/-- What evaluations have in common. -/
structure Engine where
  /-- The operations. -/
  registry : Registry := {}
  /-- How deeply operations may be nested. -/
  limit : Nat := defaultLimit
  /-- Whether failures are not reported by default. -/
  quiet : Bool := false
  /-- Whether results go into the files of the build system by default. -/
  forBuildsystem : Bool := false
  /-- Whether the trees of property values are kept. With a model that has no place for them, they are
  not. -/
  keepsTrees : Bool := true
  /-- Whether reported failures become messages. -/
  reports : Bool := true

namespace Engine

/-- A tree read from a text. -/
def parse (engine : Engine) (source : Text) : Tree := Tree.parse engine.limit source

/-- The tree of a stored property value, kept for the next time if the engine does that. -/
def fetch (engine : Engine) (trees : TreeCache) (value : Text) : Tree × TreeCache :=
  if engine.keepsTrees then trees.fetch engine.limit value else (engine.parse value, trees)

/-- The tree of a stored property value. -/
def valueTree (engine : Engine) (value : Text) : Eval Tree :=
  modifyGet fun run =>
    let (tree, trees) := engine.fetch run.trees value
    (tree, { run with trees := trees })

end Engine

/-- The value of a forest, given the values of its operations. -/
def Forest.evaluateWith (operation : Forest → List Forest → Span → Eval Text) : Forest → Eval Text
  | [] => pure []
  | .text value :: rest => do
    let others ← evaluateWith operation rest
    return value ++ others
  | .operation name parameters span :: rest => do
    let value ← operation name parameters span
    let others ← evaluateWith operation rest
    return value ++ others

/-- The value of a tree, given the values of forests. -/
def Tree.evaluateWith (forest : Text → Forest → Eval Text) : Tree → Eval Text
  | .plain source => pure source
  | .forest source nodes => forest source nodes
  | .tooDeep source depth limit =>
    Eval.inExpression source (Eval.fail (.nestingTooDeep depth limit))

namespace Operation

/-- The values of parameters after one more has been evaluated. From `joinedFrom` on, parameters are
joined to the one before. -/
def addValue (op : Operation) (joinedFrom index : Nat) (values : List Text) (value : Text) :
    List Text :=
  match values.getLast? with
  | some last =>
    if op.joinsExtra && joinedFrom < index then values.dropLast ++ [last ++ ',' :: value]
    else values ++ [value]
  | none => values ++ [value]

/-- The values of the remaining parameters, after those evaluated so far. A parameter that is not
needed is empty. -/
def evaluateRest (op : Operation) (evaluate : Forest → Eval Text) (joinedFrom : Nat) :
    Nat → List Text → List Forest → Eval (List Text)
  | _, values, [] => pure values
  | index, values, parameter :: rest =>
    -- The first parameter is always needed.
    if 0 < index && !op.wantsNext values then
      evaluateRest op evaluate joinedFrom (index + 1) (values ++ [[]]) rest
    else do
      let value ← evaluate parameter
      evaluateRest op evaluate joinedFrom (index + 1) (op.addValue joinedFrom index values value) rest

/-- The values of the parameters of an operation. -/
def evaluateParameters (op : Operation) (evaluate : Forest → Eval Text)
    (parameters : List Forest) : Eval (List Text) :=
  op.evaluateRest evaluate (op.effectiveCount parameters.length - 1) 0 [] parameters

/-- What carrying out an operation with its parameters gives, once it is known which operation it
is. The number of parameters is checked first. -/
def carryOut (op : Operation) (evaluate : Forest → Eval Text) (parameters : List Forest)
    (call : List Text → Call) : Eval Text :=
  let count := op.effectiveCount parameters.length
  if !op.generates then
    if count = 0 && 0 < op.arity.min then
      Eval.fail (.invalidParameter op.name
        (List.flatten ["$<", op.name, "> expression requires a parameter."]))
    else pure []
  else if !op.arity.accepts count then Eval.fail (.wrongCount op.name op.arity count)
  else do
    let values ← op.evaluateParameters evaluate parameters
    op.evaluate (call values)

end Operation

namespace Engine

/-- A failure noted in the footprint and, unless it is to be quiet, reported. -/
def report (engine : Engine) (scope : Scope) (failure : Failure) : Eval Unit := do
  Eval.touch fun f => { f with failed := true }
  if !scope.quiet && engine.reports then Eval.send failure.message

/-- The value of a tree for a caller who wants failures noted and reported. A text without
expressions is its own value. -/
def evaluateReporting (engine : Engine) (scope : Scope) (forest : Text → Forest → Eval Text)
    (tree : Tree) : Eval Text :=
  tryCatch (tree.evaluateWith forest) fun failure => do
    engine.report scope failure
    throw failure

/-- What operations can ask of an engine, given the values of forests for a scope and a chain. -/
def host (engine : Engine) (model : Model)
    (forest : Scope → Chain → Text → Forest → Eval Text) : Host where
  model := model
  evaluateText scope chain source :=
    engine.evaluateReporting scope (forest scope chain) (engine.parse source)
  evaluateValue scope chain value := do
    let tree ← engine.valueTree value
    tree.evaluateWith (forest scope chain)

/-- The value of an operation written in a text, given the values of forests inside it. -/
def evaluateOperation (engine : Engine) (model : Model)
    (inner : Scope → Chain → Text → Forest → Eval Text) (scope : Scope) (chain : Chain)
    (source : Text) (name : Forest) (parameters : List Forest) (span : Span) : Eval Text :=
  let expression := source.cut span
  Eval.within <| Eval.inExpression expression do
    -- The name is evaluated like any forest; a literal one is its own value.
    let called ← inner scope chain source name
    match engine.registry.find? called with
    | none => Eval.fail (.unknownOperation called)
    | some op =>
      op.carryOut (inner scope chain source) parameters fun values =>
        ⟨values, expression, chain, scope, engine.host model inner⟩

/-- The value of a forest read from a text, when `remaining` more operations may be opened. -/
def evaluateForest (engine : Engine) (model : Model) :
    Nat → Scope → Chain → Text → Forest → Eval Text
  | 0, _, _, source, nodes =>
    nodes.evaluateWith fun _ _ span =>
      Eval.inExpression (source.cut span) do
        let run ← get
        Eval.fail (.nestingTooDeep (run.depth + 1) engine.limit)
  | remaining + 1, scope, chain, source, nodes =>
    nodes.evaluateWith
      (engine.evaluateOperation model (evaluateForest engine model remaining) scope chain source)

/-- What operations can ask of an engine when `remaining` more of them may be opened. -/
def hostAt (engine : Engine) (model : Model) (remaining : Nat) : Host :=
  engine.host model (engine.evaluateForest model remaining)

/-- The value of a tree when `remaining` more operations may be opened. -/
def evaluateTree (engine : Engine) (model : Model) (remaining : Nat) (scope : Scope)
    (chain : Chain) (tree : Tree) : Eval Text :=
  tree.evaluateWith (engine.evaluateForest model remaining scope chain)

end Engine

end BuildExpr
