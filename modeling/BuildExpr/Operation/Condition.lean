import BuildExpr.Evaluation
import BuildExpr.Elements
import BuildExpr.Integer

/-!
# Conditions

Operations that work with the truth values `1` and `0`: turning texts into them, combining them,
choosing by them, and comparing.
-/

namespace BuildExpr.Operation

/-- The first parameter, or the empty text. -/
def firstParameter (parameters : List Text) : Text := parameters.headD []

/-- Whether a text counts as false: it is empty, one of a few words, or ends in `-NOTFOUND`,
without regard to case. -/
def isOff (t : Text) : Bool :=
  t.isEmpty ||
    (["0", "OFF", "NO", "FALSE", "N", "IGNORE", "NOTFOUND"] : List Text).contains t.upper ||
    ("-NOTFOUND" : Text).isSuffixOf t.upper

/-- Leaves out its content: `$<0:...>` is empty. -/
def zero : Operation where
  name := "0"
  arity := .exactly 1
  joinsExtra := true
  generates := false
  evaluate _ := pure []

/-- Keeps its content: `$<1:...>` is what stands inside. -/
def one : Operation where
  name := "1"
  arity := .exactly 1
  joinsExtra := true
  evaluate call := pure (firstParameter call.parameters)

/-- Turns a text into a truth value: `$<BOOL:text>` is `0` if the text counts as false. -/
def bool : Operation :=
  .ofParameters "BOOL" (.exactly 1) fun parameters =>
    .ok (.ofBool (!isOff (firstParameter parameters)))

/-- Combines truth values: the first that equals `decisive` settles the result, and it is an error
if a parameter before that is none. -/
def combine (name : Text) (decisive : Bool) : List Text → Except Cause Text
  | [] => .ok (.ofBool !decisive)
  | parameter :: rest =>
    match parameter.toBool? with
    | some value => if value == decisive then .ok (.ofBool decisive) else combine name decisive rest
    | none =>
      .error (.invalidParameter name
        (List.flatten ["Parameters to $<", name, "> must resolve to either '0' or '1'."]))

/-- An operation that combines truth values and needs no more of them once one is decisive. -/
def combining (name : Text) (decisive : Bool) : Operation where
  name := name
  arity := .atLeast 1
  wantsNext evaluated := !evaluated.contains (Text.ofBool decisive)
  evaluate call := Eval.ofExcept (combine name decisive call.parameters)

/-- Holds if all conditions hold: `$<AND:condition,...>`. -/
def and : Operation := combining "AND" false

/-- Holds if some condition holds: `$<OR:condition,...>`. -/
def or : Operation := combining "OR" true

/-- Holds if a condition does not: `$<NOT:condition>`. -/
def not : Operation :=
  .ofParameters "NOT" (.exactly 1) fun parameters =>
    match (firstParameter parameters).toBool? with
    | some value => .ok (.ofBool !value)
    | none =>
      .error (.invalidParameter "NOT"
        "$<NOT> parameter must resolve to exactly one '0' or '1' value.")

/-- The text for a condition that holds or does not: `choose [condition, yes, no]`. -/
def choose : List Text → Except Cause Text
  | [condition, yes, no] =>
    match condition.toBool? with
    | some true => .ok yes
    | some false => .ok no
    | none =>
      .error (.invalidParameter "IF"
        "First parameter to $<IF> must resolve to exactly one '0' or '1' value.")
  | parameters => .error (.wrongCount "IF" (.exactly 3) parameters.length)

/-- Chooses between two texts: `$<IF:condition,yes,no>`. Only the chosen one is evaluated. -/
def choice : Operation where
  name := "IF"
  arity := .exactly 3
  wantsNext evaluated :=
    match evaluated with
    | [condition] => condition ≠ Text.ofBool false
    | [condition, _] => condition ≠ Text.ofBool true
    | _ => true
  evaluate call := Eval.ofExcept (choose call.parameters)

/-- Compares two texts: `$<STREQUAL:a,b>`. -/
def stringEqual : Operation :=
  .ofParameters "STREQUAL" (.exactly 2) fun
    | [a, b] => .ok (.ofBool (a == b))
    | parameters => .error (.wrongCount "STREQUAL" (.exactly 2) parameters.length)

/-- The integer that a parameter of `EQUAL` denotes. -/
def integer (parameter : Text) : Except Cause Int :=
  match Integer.ofText? parameter with
  | some value => .ok value
  | none =>
    .error (.invalidParameter "EQUAL"
      (List.flatten ["$<EQUAL> parameter ", parameter, " is not a valid integer."]))

/-- Compares two integers: `$<EQUAL:a,b>`. A missing one is zero. -/
def integerEqual : Operation :=
  .ofParameters "EQUAL" (.exactly 2) fun parameters => do
    let values ← (parameters.take 2).mapM integer
    return .ofBool (values.getD 0 0 == values.getD 1 0)

/-- Looks for an element in a list: `$<IN_LIST:element,list>`. -/
def inList : Operation :=
  .ofParameters "IN_LIST" (.exactly 2) fun
    | [element, list] => .ok (.ofBool ((Elements.expand list).contains element))
    | parameters => .error (.wrongCount "IN_LIST" (.exactly 2) parameters.length)

end BuildExpr.Operation
