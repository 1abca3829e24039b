import BuildExpr.Text

/-!
# Reports

What a command has to say: its output, messages about what went wrong, and whether anything did.
-/

namespace BuildExpr.CommandLine

/-- The result of a command. -/
structure Report where
  /-- The output. -/
  output : Text := []
  /-- Messages about what went wrong. -/
  diagnostics : List Text := []
  /-- Whether anything went wrong. -/
  failed : Bool := false
deriving DecidableEq, Repr

namespace Report

/-- A report of success. -/
def success (output : Text) : Report := { output }

/-- A report of failure. -/
def failure (diagnostics : List Text) : Report := { diagnostics, failed := true }

/-- A report of success whose output is some lines. -/
def ofLines (lines : List Text) : Report := success (Text.join ['\n'] lines)

end Report

end BuildExpr.CommandLine
