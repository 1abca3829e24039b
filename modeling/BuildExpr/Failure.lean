import BuildExpr.Arity

/-!
# Failures

Why an evaluation failed, and in which expression. The cause says what went wrong, and `message`
puts it into words; a failure is reported together with the text of the innermost expression it
arose in.
-/

namespace BuildExpr

/-- What went wrong in an evaluation. -/
inductive Cause where
  /-- The value of a property asks for the same property. -/
  | selfReference (target property : Text)
  /-- A property is asked for while its own value is being worked out further up; the steps are the
  texts of the expressions on the way, innermost first. -/
  | dependencyLoop (target property : Text) (steps : List Text)
  /-- An operation was given a number of parameters it does not take. -/
  | wrongCount (operation : Text) (arity : Arity) (got : Nat)
  /-- No operation has this name. -/
  | unknownOperation (name : Text)
  /-- Operations are nested beyond the limit. -/
  | nestingTooDeep (depth limit : Nat)
  /-- An operation does not accept a parameter. -/
  | invalidParameter (operation reason : Text)
  /-- There is no target of this name. -/
  | targetNotFound (name : Text)
  /-- A host operation failed with a message of its own. -/
  | custom (text : Text)
deriving DecidableEq, Repr

namespace Cause

/-- The number that stands for a kind of cause in reports. -/
def number : Cause → Nat
  | .selfReference .. | .dependencyLoop .. => 1
  | .wrongCount .. => 2
  | .unknownOperation .. => 3
  | .nestingTooDeep .. => 4
  | .invalidParameter .. => 5
  | .targetNotFound .. => 6
  | .custom .. => 7

/-- The code of a kind of cause: a `G` and four digits. -/
def code (c : Cause) : Text := "G000" ++ Text.ofNat c.number

/-- Whether the cause is a property that depends on itself. -/
def isCycle : Cause → Bool
  | .selfReference .. | .dependencyLoop .. => true
  | _ => false

/-- The steps of a loop, numbered from `index`, each on lines of its own. -/
def stepLines : Nat → List Text → Text
  | _, [] => []
  | index, step :: rest =>
    List.flatten ["\nLoop step ", Text.ofNat index, "\n  ", step] ++ stepLines (index + 1) rest

/-- The cause in words. -/
def message : Cause → Text
  | .selfReference target _ => List.flatten ["Self reference on target \"", target, "\"."]
  | .dependencyLoop _ _ steps => "Dependency loop found." ++ stepLines 1 steps
  | .wrongCount operation arity got =>
    List.flatten ["$<", operation, "> expression ", arity.requirement got]
  | .unknownOperation _ => "Expression did not evaluate to a known generator expression"
  | .nestingTooDeep depth limit =>
    List.flatten ["Expression nests ", Text.ofNat depth,
      " levels deep, more than the limit of ", Text.ofNat limit, "."]
  | .invalidParameter _ reason => reason
  | .targetNotFound name => List.flatten ["No target \"", name, "\""]
  | .custom text => text

end Cause

/-- A failed evaluation. -/
structure Failure where
  /-- What went wrong. -/
  cause : Cause
  /-- The text of the expression in which it went wrong, once that is known. -/
  expression : Option Text := none
deriving DecidableEq, Repr

namespace Failure

/-- The failure with an expression it arose in; one that is known already stays. -/
def inExpression (f : Failure) (expression : Text) : Failure :=
  { f with expression := f.expression.or (some expression) }

/-- The failure in words, with the expression it arose in. -/
def message (f : Failure) : Text :=
  match f.expression with
  | none => f.cause.message
  | some expression =>
    List.flatten ["Error evaluating generator expression:\n\n  ", expression, "\n\n",
      f.cause.message]

end Failure

end BuildExpr
