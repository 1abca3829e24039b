import BuildExpr.CommandLine.Command
import BuildExpr.CommandLine.Listing
import BuildExpr.Model.File
import BuildExpr.PropertyReader
import BuildExpr.Toml.Document

/-!
# Carrying out commands

What each command reports. Commands that work on a model are given the text of the model file, if it
can be read, and do nothing when the file or the target asked for is not as it should be. How the text
is read as a document is left open until the end.
-/

namespace BuildExpr.CommandLine

/-- Why a command could not be carried out. -/
inductive Obstacle where
  /-- The model file is refused. -/
  | model (refusal : ModelFile.Refusal)
  /-- The model has no such target. -/
  | unknownTarget (name : Text)
deriving DecidableEq, Repr

/-- The obstacle in words. -/
def Obstacle.message : Obstacle → Text
  | .model refusal => refusal.message
  | .unknownTarget name => List.flatten ["no target `", name, "` in the model"]

/-- The engine with some settings. -/
def EngineSettings.engine (s : EngineSettings) : Engine where
  limit := s.limit
  quiet := s.quiet
  forBuildsystem := s.forBuildsystem

section

variable (read : Toml.Reader)

/-- The model in the text of a file, if there is one. -/
def loadModel (contents : Option Text) : Except Obstacle ModelFile :=
  match contents with
  | none => .error (.model .unreadable)
  | some t => (ModelFile.parseWith read t).mapError .model

/-- The value of a text for inputs in a store. -/
def evalIn (engine : Engine) (store : Store) (inputs : Inputs) (input : Text) : Report :=
  match engine.evaluateText input inputs [] { store } with
  | (.ok value, _) => .success value
  | (.error _, w) => .failure w.messages

/-- The value of a text. Without a model the target is one without properties; in a model it must
exist. -/
def eval (contents : Option Text) (input config : Text) (target language model : Option Text)
    (settings : EngineSettings) : Except Obstacle Report :=
  let inputs : Inputs := { config, head := target, language }
  match model, target with
  | none, none => .ok (evalIn settings.engine {} inputs input)
  | none, some name => .ok (evalIn settings.engine (Store.ofWrites [.target name]) inputs input)
  | some _, target => do
    let file ← loadModel read contents
    let store := file.toStore
    match target with
    | some name =>
      if store.model.hasTarget name then return evalIn settings.engine store inputs input
      else throw (.unknownTarget name)
    | none => return evalIn settings.engine store inputs input

/-- A property of a target to be evaluated in a configuration. -/
structure Task where
  /-- The target. -/
  target : Text
  /-- The property. -/
  property : Text
  /-- The configuration. -/
  config : Text
deriving DecidableEq, Repr

namespace Task

/-- The tasks of evaluating all properties of a model in some configurations: by target, then by
property, then in the order of the configurations. -/
def ofModel (m : Model) (configs : List Text) : List Task :=
  m.targetNames.flatMap fun target =>
    (m.propertyNames target).flatMap fun property =>
      configs.map fun config => ⟨target, property, config⟩

/-- How the task is named in a report. -/
def label (task : Task) : Text :=
  List.flatten [task.target, ['.'], task.property, " [", task.config, [']']]

/-- The value of the property or why it has none, unless it is not set in the configuration. -/
def run (engine : Engine) (language : Option Text) (task : Task) (w : Workspace) :
    Option (Except Failure Text) × Workspace :=
  let reader : PropertyReader := { head := task.target, config := task.config, language }
  match reader.evaluateProperty engine task.property w with
  | (none, _, w) => (none, w)
  | (some output, reader, w) =>
    match reader.compiled.bind Compiled.failure with
    | some failure => (some (.error failure), w)
    | none => (some (.ok output), w)

/-- The results of some tasks, carried out one after the other in one workspace. -/
def runAll (engine : Engine) (language : Option Text) :
    List Task → Workspace → List (Task × Option (Except Failure Text))
  | [], _ => []
  | task :: rest, w =>
    let (result, w) := task.run engine language w
    (task, result) :: runAll engine language rest w

/-- The output line of a result. -/
def line? (task : Task) : Option (Except Failure Text) → Option Text
  | some (.ok value) => some (List.flatten [task.label, " = ", value])
  | _ => none

/-- The message about a result. -/
def diagnostic? (task : Task) : Option (Except Failure Text) → Option Text
  | some (.error failure) => some (List.flatten [task.label, ": ", failure.message])
  | _ => none

/-- The report of some results. -/
def report (quiet : Bool) (results : List (Task × Option (Except Failure Text))) : Report :=
  let diagnostics := results.filterMap fun (task, result) => task.diagnostic? result
  { output := Text.join ['\n'] (results.filterMap fun (task, result) => task.line? result)
    diagnostics := if quiet then [] else diagnostics
    failed := !diagnostics.isEmpty }

end Task

/-- The configurations to evaluate for: those asked for, else those the file names, else one. -/
def configurations (asked listed : List Text) : List Text :=
  if !asked.isEmpty then asked else if !listed.isEmpty then listed else [defaultConfig]

/-- The values of all properties of a model. -/
def evalModel (contents : Option Text) (configs : List Text) (language : Option Text)
    (settings : EngineSettings) : Except Obstacle Report := do
  let file ← loadModel read contents
  let store := file.toStore
  let engine := { settings.engine with reports := false }
  let tasks := Task.ofModel store.model (configurations configs file.configurations)
  return Task.report settings.quiet (Task.runAll engine language tasks { store })

/-- What a command reports, given the text of the model file it needs. -/
def Command.executeWith (contents : Option Text) : Command → Except Obstacle Report
  | .lex input => .ok (listTokens input)
  | .parse input limit => .ok (listForest input limit)
  | .eval input config target language model settings =>
    CommandLine.eval read contents input config target language model settings
  | .split input => .ok (.ofLines (Elements.split input))
  | .stripEmpty input => .ok (.success (Elements.dropEmpty input))
  | .preprocess input mode root => .ok (.success (Interface.exported mode root input))
  | .evalModel _ configs language settings =>
    CommandLine.evalModel read contents configs language settings

end

/-- What a command reports when documents are read by the reader of this library. -/
def Command.execute (contents : Option Text) (command : Command) : Except Obstacle Report :=
  command.executeWith Toml.read? contents

end BuildExpr.CommandLine

namespace BuildExpr.ModelFile

/-- What the text of a model file says to the reader of this library. -/
def parse (t : Text) : Except Refusal ModelFile := parseWith Toml.read? t

end BuildExpr.ModelFile
