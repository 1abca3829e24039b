import BuildExpr.Chain
import BuildExpr.Footprint
import BuildExpr.Store

/-!
# Evaluations

An evaluation reads what it is carried out for, a `Scope`, and changes a `Run`: the footprint it
leaves, the number of operations it has open, the trees of property values it has read, and the
messages it has sent. All of a run outlasts a failure.

An operation is given its scope to read and may change the run only. That holds for the operations of
a host as well as for the built-in ones: what is said of every operation is said of every `Operation`,
and an operation that changed the configuration, the language or the head target for those after it is
none.
-/

namespace BuildExpr

/-- What an evaluation is carried out for. -/
structure Scope where
  /-- The configuration. -/
  config : Text
  /-- The language being compiled. -/
  language : Option Text := none
  /-- The target on whose behalf everything is evaluated. -/
  head : Option Text := none
  /-- The target whose property value is being evaluated. -/
  current : Option Text := none
  /-- Whether failures are not reported. -/
  quiet : Bool := false
  /-- Whether the result goes into the files of the build system. -/
  forBuildsystem : Bool := false
deriving DecidableEq, Repr

/-- The scope of evaluating a property value of another target. -/
def Scope.derive (s : Scope) (current : Text) : Scope := { s with current := some current }

/-- What an evaluation changes. -/
structure Run where
  /-- What it has touched. -/
  footprint : Footprint := {}
  /-- The number of operations that are open, those around a property look-up included. -/
  depth : Nat := 0
  /-- The trees of the property values that have been read. -/
  trees : TreeCache := {}
  /-- The messages sent, oldest first. -/
  messages : List Text := []
deriving Repr

/-- A step of an evaluation: it changes a run and gives a value or a failure. -/
abbrev Eval := EStateM Failure Run

namespace Eval

variable {α : Type}

/-- Failing for a cause. -/
def fail (cause : Cause) : Eval α := throw ⟨cause, none⟩

/-- The value, or failing for the cause. -/
def ofExcept : Except Cause α → Eval α
  | .ok value => pure value
  | .error cause => fail cause

/-- A change to the footprint. -/
def touch (change : Footprint → Footprint) : Eval Unit :=
  modify fun run => { run with footprint := change run.footprint }

/-- A message sent. -/
def send (message : Text) : Eval Unit :=
  modify fun run => { run with messages := run.messages ++ [message] }

/-- An operation opened. -/
def enter : Eval Unit := modify fun run => { run with depth := run.depth + 1 }

/-- An operation closed. -/
def leave : Eval Unit := modify fun run => { run with depth := run.depth - 1 }

/-- A body whose failures are placed in an expression, unless they have a place already. -/
def inExpression (expression : Text) (body : Eval α) : Eval α := fun run =>
  match body run with
  | .ok value run => .ok value run
  | .error failure run => .error (failure.inExpression expression) run

/-- A body with something done after it, whether or not it fails. -/
def thenAlways (body : Eval α) (after : Eval Unit) : Eval α := fun run =>
  match body run with
  | .ok value run => (after *> pure value : Eval α) run
  | .error failure run => (after *> throw failure : Eval α) run

/-- A body carried out with one more operation open. -/
def within (body : Eval α) : Eval α := do
  enter
  thenAlways body leave

/-- A body that leaves a footprint of its own, which is then merged into the one before, whether or
not the body fails. The operations it leaves open are its own affair. -/
def apart (body : Eval α) : Eval α := fun run =>
  let merged (after : Run) : Run :=
    { after with footprint := run.footprint.merge after.footprint, depth := run.depth }
  match body { run with footprint := {} } with
  | .ok value after => .ok value (merged after)
  | .error failure after => .error failure (merged after)

end Eval

/-- What an operation can ask of its surroundings. -/
structure Host where
  /-- The targets and their properties. -/
  model : Model
  /-- The evaluation of a text for a scope and a chain, as of a compiled expression: a failure is
  noted in the footprint and reported. -/
  evaluateText : Scope → Chain → Text → Eval Text
  /-- The evaluation of a stored property value for a scope and a chain. -/
  evaluateValue : Scope → Chain → Text → Eval Text

/-- An operation being carried out. -/
structure Call where
  /-- The values of the parameters. -/
  parameters : List Text
  /-- The text of the whole expression. -/
  expression : Text
  /-- The property look-ups under way. -/
  chain : Chain
  /-- What it is carried out for. -/
  scope : Scope
  /-- The surroundings. -/
  host : Host

/-- A named operation. -/
structure Operation where
  /-- The name it is called by. -/
  name : Text
  /-- How many parameters it takes. -/
  arity : Arity
  /-- Whether parameters past the last it takes are joined to that one, with commas. -/
  joinsExtra : Bool := false
  /-- Whether it has a result other than the empty text. Otherwise its parameters are not even
  evaluated. -/
  generates : Bool := true
  /-- Whether, after some parameters have been evaluated, the next one is needed. One that is not
  needed is passed as the empty text. -/
  wantsNext : List Text → Bool := fun _ => true
  /-- Its result. -/
  evaluate : Call → Eval Text

namespace Operation

/-- An operation that depends on nothing but its parameters. -/
def ofParameters (name : Text) (arity : Arity) (result : List Text → Except Cause Text) :
    Operation where
  name := name
  arity := arity
  evaluate call := Eval.ofExcept (result call.parameters)

/-- The number of parameters an operation gets when so many are written: those that are joined to
the last one do not count. -/
def effectiveCount (op : Operation) (written : Nat) : Nat :=
  match op.arity.max with
  | some greatest => if 0 < greatest && op.joinsExtra then min written greatest else written
  | none => written

end Operation

/-- The truth values of conditions: `1` and `0`. -/
def Text.ofBool (b : Bool) : Text := if b then ['1'] else ['0']

/-- The truth value a condition stands for. -/
def Text.toBool? (t : Text) : Option Bool :=
  if t = ['1'] then some true else if t = ['0'] then some false else none

end BuildExpr
