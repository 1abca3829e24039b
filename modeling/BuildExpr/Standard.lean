import BuildExpr.Text

/-!
# Language standards

The standards of a language come in an order, oldest first, and a compiler that knows one of them
knows the older ones too. A feature names a language and one of its standards, as in `cxx_std_17`.
-/

namespace BuildExpr

namespace Standard

/-- The standards of a language, oldest first. -/
def ofLanguage (language : Text) : List Text :=
  if language ∈ (["C", "OBJC"] : List Text) then ["90", "99", "11", "17", "23"]
  else if language ∈ (["CXX", "CUDA", "HIP", "OBJCXX"] : List Text) then
    ["98", "11", "14", "17", "20", "23", "26"]
  else []

/-- The place of a standard in the order of a language, if it is one of its standards. -/
def rank? (language standard : Text) : Option Nat := (ofLanguage language).idxOf? standard

end Standard

/-- A standard of a language, named as a feature. -/
structure Feature where
  /-- The language, in upper case. -/
  language : Text
  /-- The standard. -/
  standard : Text
  /-- The place of the standard in the order of the language. -/
  rank : Nat
  /-- The standard is one of the language and has that place. -/
  rank_eq : Standard.rank? language standard = some rank
deriving DecidableEq, Repr

/-- The feature a text names, if it names one. -/
def Feature.ofText? (t : Text) : Option Feature := do
  let (language, standard) ← Text.splitAround "_std_" t
  match h : Standard.rank? language.upper standard with
  | some rank => return ⟨language.upper, standard, rank, h⟩
  | none => none

end BuildExpr
