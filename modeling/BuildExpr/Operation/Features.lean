import BuildExpr.Evaluation
import BuildExpr.Standard

/-!
# Compile features

A feature asks for a standard of a language. The newest standard asked for is noted for the head
target, and the result says whether the standards the target is configured for are new enough.
-/

namespace BuildExpr

/-- A standard asked for on behalf of a target. It takes the place of an older one and of one that
is no standard of the language. -/
def Footprint.require (f : Footprint) (target : Text) (feature : Feature) : Footprint :=
  let isNewer : Bool :=
    match (f.standard? target feature.language).bind (Standard.rank? feature.language) with
    | some recorded => recorded < feature.rank
    | none => true
  if isNewer then f.setStandard target feature.language feature.standard else f

namespace Operation

/-- The property that holds the standard a target is configured for. -/
def standardProperty (language : Text) : Text := language ++ "_STANDARD"

/-- Whether the configured standard of a target is as new as a feature asks. A standard that is not
set, or is none of the language, is no obstacle. -/
def satisfies (model : Model) (head config : Text) (feature : Feature) : Bool :=
  match (model.property? head (standardProperty feature.language) config).bind
      (Standard.rank? feature.language) with
  | some configured => feature.rank ≤ configured
  | none => true

/-- Notes the features asked for on behalf of a target, in order, and tells whether its standards
satisfy all of them. -/
def requireAll (model : Model) (head config : Text) : List Text → Eval Bool
  | [] => pure true
  | name :: rest =>
    match Feature.ofText? name with
    | none =>
      Eval.fail (.invalidParameter "COMPILE_FEATURES"
        (List.flatten ["Feature \"", name, "\" is not known."]))
    | some feature => do
      Eval.touch fun f => f.require head feature
      -- An unsatisfied feature does not stop the others from being noted.
      let others ← requireAll model head config rest
      return satisfies model head config feature && others

/-- Whether the head target's standards satisfy all features: `$<COMPILE_FEATURES:feature,...>`. -/
def compileFeatures : Operation where
  name := "COMPILE_FEATURES"
  arity := .atLeast 1
  evaluate call :=
    match call.scope.head with
    | none =>
      Eval.fail (.invalidParameter "COMPILE_FEATURES"
        "$<COMPILE_FEATURES> may only be used with binary targets.")
    | some head => do
      Eval.touch fun f => { f with headSensitive := true }
      let satisfied ← requireAll call.host.model head call.scope.config call.parameters
      return .ofBool satisfied

end Operation

end BuildExpr
