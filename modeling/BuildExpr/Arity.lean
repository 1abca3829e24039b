import BuildExpr.Text

/-!
# Arity

How many parameters an operation takes: at least so many, and perhaps at most so many.
-/

namespace BuildExpr

/-- A range of parameter counts. -/
structure Arity where
  /-- The least count. -/
  min : Nat
  /-- The greatest count, if there is one. -/
  max : Option Nat
deriving DecidableEq, Repr

namespace Arity

/-- One count only. -/
def exactly (n : Nat) : Arity := ⟨n, some n⟩

/-- The counts from one number to another. -/
def between (least greatest : Nat) : Arity := ⟨least, some greatest⟩

/-- All counts from a number on. -/
def atLeast (n : Nat) : Arity := ⟨n, none⟩

/-- Whether a count is in the range. -/
def accepts (a : Arity) (count : Nat) : Bool :=
  a.min ≤ count &&
    match a.max with
    | none => true
    | some greatest => count ≤ greatest

/-- What the range asks for, in words that follow the name of an operation; some wordings also say
how many parameters there were. -/
def requirement (a : Arity) (got : Nat) : Text :=
  match a.min, a.max with
  | 0, some 0 => "requires no parameters."
  | 1, some 1 => "requires exactly one parameter."
  | 0, some 1 => "requires one or zero parameters."
  | 1, some 2 => "requires one or two parameters."
  | 1, none => "requires at least one parameter."
  | 2, none => "requires at least two parameters."
  | least, none => List.flatten ["requires at least ", Text.ofNat least, " parameters."]
  | least, some greatest =>
    if least = greatest then
      List.flatten ["requires ", Text.ofNat least, " comma separated parameters, but got ",
        Text.ofNat got, "."]
    else
      List.flatten ["requires between ", Text.ofNat least, " and ", Text.ofNat greatest,
        " parameters, but got ", Text.ofNat got, "."]

/-- The written form: one number for a single count, otherwise the two ends of the range. -/
def toText (a : Arity) : Text :=
  match a.max with
  | none => List.flatten [Text.ofNat a.min, ".."]
  | some greatest =>
    if greatest = a.min then Text.ofNat greatest
    else List.flatten [Text.ofNat a.min, "..=", Text.ofNat greatest]

/-- A count is accepted exactly when it lies within both ends. -/
theorem accepts_iff (a : Arity) (count : Nat) :
    a.accepts count = true ↔
      a.min ≤ count ∧ ∀ greatest, a.max = some greatest → count ≤ greatest := by
  obtain ⟨least, greatest⟩ := a
  cases greatest <;> simp [accepts]

end Arity

end BuildExpr
