import BuildExpr.Operation.Condition
import BuildExpr.Path

/-!
# Targets

Operations that ask about targets. Looking up a property is the only operation of the library that
evaluates a text other than its own parameters: the value of the property.
-/

namespace BuildExpr.Operation

/-- The property that holds the object files of a target. -/
def objectsProperty : Text := "OBJECTS"

/-- Refusing a parameter of `TARGET_PROPERTY`. -/
def refuseProperty {α : Type} (reason : Text) : Eval α :=
  Eval.fail (.invalidParameter "TARGET_PROPERTY" reason)

/-- The target and the property that the parameters of `TARGET_PROPERTY` name. -/
def propertyAddress (call : Call) : Eval (Text × Text) :=
  match call.parameters with
  | [property] =>
    match call.scope.head with
    | none => refuseProperty "$<TARGET_PROPERTY:prop> may only be used with binary targets."
    | some head => do
      Eval.touch fun f => { f with headSensitive := true }
      return (head, property)
  | [target, property] =>
    if target.isEmpty then
      refuseProperty <|
        if property.isEmpty then
          List.flatten ["$<TARGET_PROPERTY:tgt,prop> expression requires a non-empty target name ",
            "and property name."]
        else "$<TARGET_PROPERTY:tgt,prop> expression requires a non-empty target name."
    else if !isTargetName target then refuseProperty "Target name not supported."
    else if !call.host.model.hasTarget target then Eval.fail (.targetNotFound target)
    else do
      Eval.touch fun f => (f.addNamed target).addDepend target
      return (target, property)
  | parameters =>
    Eval.fail (.wrongCount "TARGET_PROPERTY" (.between 1 2) parameters.length)

/-- What a property look-up comes to before anything is evaluated. -/
inductive Sought where
  /-- A text that is its own value. -/
  | text (value : Text)
  /-- A stored value with an expression in it, to be evaluated for a look-up. -/
  | value (lookup : Lookup) (stored : Text)

/-- The property that a call of `TARGET_PROPERTY` asks for. -/
def seek (call : Call) : Eval Sought := do
  let (target, property) ← propertyAddress call
  if property.isEmpty then
    refuseProperty "$<TARGET_PROPERTY:...> expression requires a non-empty property name."
  if !property.isWord then refuseProperty "Property name not supported."
  -- The property counts as read even if it turns out to be on the chain or to have no value.
  Eval.touch fun f => f.see target property
  let lookup : Lookup := ⟨target, property, call.expression⟩
  if let some cause := Chain.refusal? lookup call.chain then Eval.fail cause
  match call.host.model.property? target property call.scope.config with
  | none => return .text []
  | some value => return if value.firstExpression.isNone then .text value else .value lookup value

/-- The value of a property of a target or of the head target, evaluated:
`$<TARGET_PROPERTY:target,property>` and `$<TARGET_PROPERTY:property>`. -/
def targetProperty : Operation where
  name := "TARGET_PROPERTY"
  arity := .between 1 2
  evaluate call := do
    match ← seek call with
    | .text value => return value
    | .value lookup stored =>
      Eval.apart <|
        call.host.evaluateValue (call.scope.derive lookup.target) (lookup :: call.chain) stored

/-- Whether a target name given to an operation belongs to a target; refused if it can belong to
none. -/
def targetExistsFor (operation : Text) (call : Call) : Except Cause Bool :=
  let name := firstParameter call.parameters
  if isTargetName name then .ok (call.host.model.hasTarget name)
  else
    .error (.invalidParameter operation
      (List.flatten ["$<", operation,
        ":tgt> expression requires a non-empty valid target name."]))

/-- Whether there is a target: `$<TARGET_EXISTS:target>`. -/
def targetExists : Operation where
  name := "TARGET_EXISTS"
  arity := .exactly 1
  evaluate call := do
    let found ← Eval.ofExcept (targetExistsFor "TARGET_EXISTS" call)
    return .ofBool found

/-- The name of a target, empty if there is none: `$<TARGET_NAME_IF_EXISTS:target>`. -/
def targetNameIfExists : Operation where
  name := "TARGET_NAME_IF_EXISTS"
  arity := .exactly 1
  evaluate call := do
    let found ← Eval.ofExcept (targetExistsFor "TARGET_NAME_IF_EXISTS" call)
    return if found then firstParameter call.parameters else []

/-- The object files of a target: `$<TARGET_OBJECTS:target>`. -/
def targetObjects : Operation where
  name := "TARGET_OBJECTS"
  arity := .exactly 1
  evaluate call := do
    if !call.scope.forBuildsystem then
      Eval.fail (.invalidParameter "TARGET_OBJECTS" (List.flatten
        ["The evaluation of the TARGET_OBJECTS generator expression is only suitable ",
          "for consumption by the build system.  It is not suitable for writing out ",
          "elsewhere."]))
    let name := firstParameter call.parameters
    let found ← Eval.ofExcept (targetExistsFor "TARGET_OBJECTS" call)
    if !found then Eval.fail (.targetNotFound name)
    Eval.touch fun f => (f.addDepend name).addNamed name
    return (call.host.model.property? name objectsProperty call.scope.config).getD []

end BuildExpr.Operation
