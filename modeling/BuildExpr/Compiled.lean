import BuildExpr.Engine

/-!
# Compiled expressions

A compiled expression is read once and evaluated as often as wanted. It remembers the output of the
last evaluation, why that failed if it did, and the footprint of the last one that succeeded; of the
properties read it remembers all that any successful evaluation has read.

Evaluations work in a workspace: the model with the trees of its values, and the messages sent.
-/

namespace BuildExpr

/-- What evaluations share and leave behind. -/
structure Workspace where
  /-- The model and the trees of its values. -/
  store : Store := {}
  /-- The messages sent, oldest first. -/
  messages : List Text := []
deriving Repr

/-- What the caller of an evaluation gives. The current target is the head target unless another
one is given. -/
structure Inputs where
  /-- The configuration. -/
  config : Text
  /-- The target on whose behalf everything is evaluated. -/
  head : Option Text := none
  /-- The target whose property value is evaluated, if it is another one. -/
  current : Option Text := none
  /-- The language being compiled. -/
  language : Option Text := none
deriving DecidableEq, Repr

/-- The state an evaluation starts from and leaves. -/
structure Context where
  /-- What the evaluation is carried out for. -/
  scope : Scope
  /-- The footprint so far. -/
  footprint : Footprint := {}
  /-- The number of operations open. -/
  depth : Nat := 0
deriving Repr

namespace Context

/-- The context of a fresh evaluation by an engine. -/
def fresh (engine : Engine) (inputs : Inputs) : Context where
  scope :=
    { config := inputs.config
      language := inputs.language
      head := inputs.head
      current := inputs.current.or inputs.head
      quiet := engine.quiet
      forBuildsystem := engine.forBuildsystem }

/-- The context of evaluating a property value of another target, with a footprint of its own. -/
def derive (c : Context) (current : Text) : Context :=
  { c with scope := c.scope.derive current, footprint := {} }

/-- The run that continues from a context in a workspace. -/
def toRun (c : Context) (w : Workspace) : Run where
  footprint := c.footprint
  depth := c.depth
  trees := w.store.trees
  messages := w.messages

/-- The context at the end of a run. -/
def after (c : Context) (run : Run) : Context :=
  { c with footprint := run.footprint, depth := run.depth }

end Context

/-- The workspace at the end of a run. -/
def Workspace.after (w : Workspace) (run : Run) : Workspace where
  store := { w.store with trees := run.trees }
  messages := run.messages

/-- An expression that has been read, with what is known from its evaluations. -/
structure Compiled where
  /-- The tree. -/
  tree : Tree
  /-- The output of the last evaluation. -/
  output : Text
  /-- The footprint of the last successful evaluation, with the properties that any has read. -/
  snapshot : Footprint := {}
  /-- Whether failures are not reported. -/
  quiet : Bool := false
  /-- Whether the result goes into the files of the build system. -/
  forBuildsystem : Bool := false
  /-- Why the last evaluation failed, if it did. -/
  failure : Option Failure := none
deriving Repr

namespace Compiled

/-- A tree that has not been evaluated. A text without expressions is its own output. -/
def ofTree (tree : Tree) : Compiled where
  tree := tree
  output := if tree.needsEvaluation then [] else tree.source

/-- A text read under the default limit. -/
def parse (source : Text) : Compiled := ofTree (Tree.parse defaultLimit source)

/-- The snapshot after an evaluation that succeeded with a footprint. -/
def absorb (snapshot footprint : Footprint) : Footprint :=
  { footprint with seen := Members.union snapshot.seen footprint.seen, failed := false }

/-- The expression after an evaluation. -/
def conclude (c : Compiled) : EStateM.Result Failure Run Text → Compiled
  | .ok output run =>
    { c with output, snapshot := absorb c.snapshot run.footprint, failure := none }
  | .error failure _ => { c with output := [], failure := some failure }

/-- The run an evaluation ends with. -/
def finalRun {α : Type} : EStateM.Result Failure Run α → Run
  | .ok _ run | .error _ run => run

/-- The outcome of evaluating a tree in a context. -/
def outcome (engine : Engine) (tree : Tree) (context : Context) (chain : Chain) (w : Workspace) :
    EStateM.Result Failure Run Text :=
  engine.evaluateReporting context.scope
    (engine.evaluateForest w.store.model (engine.limit - context.depth) context.scope chain)
    tree (context.toRun w)

/-- The expression evaluated in a context, with the context and the workspace afterwards. -/
def evaluateIn (engine : Engine) (c : Compiled) (context : Context) (chain : Chain)
    (w : Workspace) : Compiled × Context × Workspace :=
  -- A text without expressions leaves everything as it is.
  if c.tree.needsEvaluation then
    let result := outcome engine c.tree context chain w
    let run := finalRun result
    (c.conclude result, context.after run, w.after run)
  else (c, context, w)

/-- The fresh context that the expression is evaluated in. -/
def context (engine : Engine) (c : Compiled) (inputs : Inputs) : Context :=
  let context := Context.fresh engine inputs
  { context with
    scope :=
      { context.scope with
        quiet := context.scope.quiet || c.quiet
        forBuildsystem := context.scope.forBuildsystem || c.forBuildsystem } }

/-- The expression evaluated in a fresh context, with the workspace afterwards. -/
def evaluate (engine : Engine) (c : Compiled) (inputs : Inputs) (chain : Chain) (w : Workspace) :
    Compiled × Workspace :=
  let (c, _, w) := c.evaluateIn engine (c.context engine inputs) chain w
  (c, w)

end Compiled

namespace Engine

/-- A tree with the engine's defaults. -/
def compileTree (engine : Engine) (tree : Tree) : Compiled :=
  { Compiled.ofTree tree with quiet := engine.quiet, forBuildsystem := engine.forBuildsystem }

/-- A text made ready for evaluation. -/
def compile (engine : Engine) (source : Text) : Compiled := engine.compileTree (engine.parse source)

/-- A stored property value made ready for evaluation, with the workspace afterwards. -/
def compileValue (engine : Engine) (value : Text) (w : Workspace) : Compiled × Workspace :=
  let (tree, trees) := engine.fetch w.store.trees value
  (engine.compileTree tree, { w with store := { w.store with trees } })

/-- The value of a text, with the workspace afterwards. A text in which no expression can end is
its own value and is not even read. -/
def evaluateText (engine : Engine) (source : Text) (inputs : Inputs) (chain : Chain)
    (w : Workspace) : Except Failure Text × Workspace :=
  if source.firstExpression.isNone then (.ok source, w)
  else
    let (c, w) := (engine.compile source).evaluate engine inputs chain w
    match c.failure with
    | some failure => (.error failure, w)
    | none => (.ok c.output, w)

/-- The result of an operation on the values of its parameters, called in a fresh context, with the
footprint it leaves and the workspace afterwards; nothing if there is no such operation. -/
def invoke? (engine : Engine) (name : Text) (parameters : List Text) (expression : Text)
    (inputs : Inputs) (chain : Chain) (w : Workspace) :
    Option (Except Failure Text × Footprint × Workspace) :=
  (engine.registry.find? name).map fun op =>
    let context := Context.fresh engine inputs
    let host := engine.hostAt w.store.model engine.limit
    match op.evaluate ⟨parameters, expression, chain, context.scope, host⟩ (context.toRun w) with
    | .ok value run => (.ok value, run.footprint, w.after run)
    | .error failure run => (.error failure, run.footprint, w.after run)

end Engine

end BuildExpr
