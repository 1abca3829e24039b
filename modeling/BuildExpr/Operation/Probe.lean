import BuildExpr.Evaluation

/-!
# Probes

Operations that a host adds to look into an evaluation: they show their parameters, the text or the
surroundings they are called in, or the look-ups under way, fail on purpose, leave a footprint, or
evaluate a text of their own. Each may be told to stop asking for parameters after a certain value.
-/

namespace BuildExpr

/-- What a probe does. -/
inductive Probe.Kind where
  /-- Shows its name and parameters. -/
  | echo
  /-- Shows the text of the whole expression. -/
  | expression
  /-- Fails, with the parameters as message. -/
  | fail
  /-- Shows what it is evaluated for. -/
  | context
  /-- Shows the property look-ups under way. -/
  | chain
  /-- Depends on the head target and on the targets it is given, and is empty. -/
  | mark
  /-- Evaluates its first parameter, for the target given second. -/
  | nested
deriving DecidableEq, Repr

/-- A host operation. -/
structure Probe where
  /-- The name it is called by. -/
  name : Text
  /-- How many parameters it takes. -/
  arity : Arity := .atLeast 0
  /-- Whether parameters past the last it takes are joined to that one. -/
  joinsExtra : Bool := false
  /-- Whether it has a result at all. -/
  generates : Bool := true
  /-- The value after which no further parameter is needed. -/
  stop : Option Text := none
  /-- What it does. -/
  kind : Probe.Kind := .echo
deriving DecidableEq, Repr

namespace Probe

/-- A truth value in words. -/
def boolWord (b : Bool) : Text := if b then "true" else "false"

/-- The scope of an evaluation with `depth` operations open, with slashes in between. -/
def showScope (scope : Scope) (depth : Nat) : Text :=
  Text.join ['/']
    [scope.config, scope.language.getD ['-'], scope.head.getD ['-'], scope.current.getD ['-'],
      boolWord scope.quiet, boolWord scope.forBuildsystem, Text.ofNat depth]

/-- The properties being looked up, innermost first, with their number and the outermost one. -/
def showChain (chain : Chain) : Text :=
  match chain.rootProperty? with
  | none => "none"
  | some root =>
    List.flatten
      [Text.join ['<'] (chain.map fun lookup => lookup.target ++ '.' :: lookup.property),
        ['#'], Text.ofNat chain.length, ['#'], root]

/-- The result of a probe. -/
def evaluate (p : Probe) (call : Call) : Eval Text :=
  let shown := Text.join ['|'] call.parameters
  match p.kind with
  | .echo => pure (List.flatten [p.name, ['('], shown, [')']])
  | .expression => pure call.expression
  | .fail => Eval.fail (.custom shown)
  | .context => do
    let run ← get
    return showScope call.scope run.depth
  | .chain => pure (showChain call.chain)
  | .mark => do
    Eval.touch fun f => call.parameters.foldl Footprint.addDepend { f with headSensitive := true }
    return []
  | .nested =>
    Eval.apart <|
      call.host.evaluateText (call.scope.derive (call.parameters.getD 1 "nested")) call.chain
        (call.parameters.getD 0 [])

/-- The operation that a probe is. -/
def operation (p : Probe) : Operation where
  name := p.name
  arity := p.arity
  joinsExtra := p.joinsExtra
  generates := p.generates
  wantsNext evaluated :=
    match p.stop with
    | none => true
    | some stop => evaluated.getLast?.getD [] ≠ stop
  evaluate := p.evaluate

end Probe

end BuildExpr
