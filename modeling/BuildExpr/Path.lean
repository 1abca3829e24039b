import BuildExpr.Text

/-!
# Paths and target names

Two tests on the spelling of a name: whether a path is absolute on some kind of host, and whether
a text may name a target.
-/

namespace BuildExpr

/-- Whether a path is absolute on some host: `/x`, `~/x`, `C:/x`, `C:\x` or `\\server`. -/
def isFullPath : Text → Bool
  | '/' :: _ | '~' :: _ | '\\' :: '\\' :: _ => true
  | drive :: ':' :: '/' :: _ | drive :: ':' :: '\\' :: _ => drive.isAlpha
  | _ => false

/-- Whether a text may name a target: ASCII letters, digits and `_ . : + -`, at least one. A colon
is there for the names of imported targets. -/
def isTargetName (name : Text) : Bool :=
  !name.isEmpty && name.all fun c => c.isAlphanum || c ∈ ['_', '.', ':', '+', '-']

end BuildExpr
