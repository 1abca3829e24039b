import BuildExpr.Operation.Condition
import BuildExpr.Interface

/-!
# The surroundings of an evaluation

Operations that ask for the configuration, for the language being compiled, and for the side a
property is read on.
-/

namespace BuildExpr.Operation

/-- The configuration, `$<CONFIG>`, or whether it is one of some names: `$<CONFIG:name,...>`. -/
def config : Operation where
  name := "CONFIG"
  arity := .atLeast 0
  evaluate call := do
    Eval.touch fun f => { f with contextSensitive := true }
    if call.parameters.isEmpty then return call.scope.config
    match call.parameters.find? fun parameter => !parameter.isWord with
    | some bad =>
      Eval.fail (.invalidParameter "CONFIG"
        (List.flatten ["Expression syntax not recognized: \"", bad,
          "\" is not a configuration name."]))
    | none => return .ofBool (call.parameters.any fun p => p.eqIgnoringCase call.scope.config)

/-- The language being compiled, `$<COMPILE_LANGUAGE>`, or whether it is one of some languages:
`$<COMPILE_LANGUAGE:language,...>`. -/
def compileLanguage : Operation where
  name := "COMPILE_LANGUAGE"
  arity := .atLeast 0
  evaluate call :=
    match call.scope.language with
    | none =>
      Eval.fail (.invalidParameter "COMPILE_LANGUAGE" (List.flatten
        ["$<COMPILE_LANGUAGE:...> may only be used while a compile language ",
          "is being evaluated."]))
    | some language =>
      if call.parameters.isEmpty then pure language
      else pure (.ofBool (call.parameters.contains language))

/-- Content for the build tree, which is kept: `$<BUILD_INTERFACE:...>`. -/
def buildInterface : Operation where
  name := Side.build.selector
  arity := .exactly 1
  joinsExtra := true
  evaluate call := pure (firstParameter call.parameters)

/-- Content for an installation, which is left out: `$<INSTALL_INTERFACE:...>`. -/
def installInterface : Operation where
  name := Side.install.selector
  arity := .exactly 1
  joinsExtra := true
  generates := false
  evaluate _ := pure []

end BuildExpr.Operation
