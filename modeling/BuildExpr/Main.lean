import BuildExpr.CommandLine.Execution

/-!
# The command line

Reads the model file that a command needs, if it needs one, and prints what the command reports.
-/

section

open BuildExpr BuildExpr.CommandLine

/-- The text of a file, if it can be read. -/
def readText? (path : String) : IO (Option Text) := do
  try
    let contents ← IO.FS.readFile path
    return some contents.toList
  catch _ => return none

/-- Carries out the command that the arguments ask for. -/
def main (args : List String) : IO UInt32 := do
  match Command.ofArguments? (args.map String.toList) with
  | none =>
    IO.eprintln "error: no such command"
    return 2
  | some command =>
    let contents ←
      match command.modelFile? with
      | some path => readText? (String.ofList path)
      | none => pure none
    match command.execute contents with
    | .error obstacle =>
      IO.eprintln ("error: " ++ String.ofList obstacle.message)
      return 2
    | .ok report =>
      unless report.output.isEmpty do IO.println (String.ofList report.output)
      for diagnostic in report.diagnostics do IO.eprintln (String.ofList diagnostic)
      return if report.failed then 1 else 0

end
