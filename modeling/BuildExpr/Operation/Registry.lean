import BuildExpr.Operation.Builtin

/-!
# Registries

A registry finds operations by name: the built-in ones, and those that a host has added. A host
cannot take over the name of a built-in operation or use a name twice. The operations of a host are
of the same kind as the built-in ones: they read the scope of an evaluation and change its run.
-/

namespace BuildExpr

/-- The operations that can be called. -/
structure Registry where
  /-- The operations a host has added, in order. -/
  added : List Operation := []

/-- Why an operation was not added. -/
inductive Registry.Refusal where
  /-- A built-in operation has the name. -/
  | builtinName (name : Text)
  /-- An operation of the name has been added before. -/
  | duplicate (name : Text)
deriving DecidableEq, Repr

namespace Registry

/-- The refusal in words. -/
def Refusal.message : Refusal → Text
  | .builtinName name => List.flatten ["cannot register `", name, "`: it is a built-in operation"]
  | .duplicate name => List.flatten ["operation `", name, "` is already registered"]

/-- The operation of a name. -/
def find? (r : Registry) (name : Text) : Option Operation :=
  match Builtin.ofName? name with
  | some b => some b.operation
  | none => r.added.find? fun op => op.name == name

/-- Whether there is an operation of a name. -/
def contains (r : Registry) (name : Text) : Bool := (r.find? name).isSome

/-- The registry with an operation added. -/
def register (r : Registry) (op : Operation) : Except Refusal Registry :=
  if (Builtin.ofName? op.name).isSome then .error (.builtinName op.name)
  else if r.added.any fun other => other.name == op.name then .error (.duplicate op.name)
  else .ok ⟨r.added ++ [op]⟩

/-- The registry with some operations added to the built-in ones, in order. -/
def ofOperations (ops : List Operation) : Except Refusal Registry := ops.foldlM register {}

/-- The names of all operations, in order. -/
def names (r : Registry) : List Text :=
  Text.sort (Builtin.all.map Builtin.name ++ r.added.map Operation.name)

/-- The number of operations. -/
def size (r : Registry) : Nat := Builtin.all.length + r.added.length

end Registry

end BuildExpr
