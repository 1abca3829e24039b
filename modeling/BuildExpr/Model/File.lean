import BuildExpr.Path
import BuildExpr.Store
import BuildExpr.Toml.Value

/-!
# Model files

A model file is a TOML document that lists targets with their properties, and may say which
configurations are of interest:

    configurations = ["Debug", "Release"]

    [targets.app]
    DEFINITIONS = ["APP", "DEBUG"]

    [targets.app.configs.Release]
    DEFINITIONS = "APP"

The value of a property is a string, or an array of strings that stands for a list. Targets,
properties and configurations are kept in the order of their names.
-/

namespace BuildExpr

/-- The value of a property in a file. -/
inductive PropertyValue where
  /-- A string. -/
  | one (value : Text)
  /-- An array of strings. -/
  | list (items : List Text)
deriving DecidableEq, Repr

/-- The value as a target has it: an array becomes a list with `;` between its items. -/
def PropertyValue.toText : PropertyValue → Text
  | .one value => value
  | .list items => Text.join [';'] items

/-- A target in a file. -/
structure TargetTable where
  /-- The values for all configurations. -/
  properties : List (Text × PropertyValue)
  /-- The values for single configurations. -/
  configs : List (Text × List (Text × PropertyValue))
deriving DecidableEq, Repr

/-- What a model file says. -/
structure ModelFile where
  /-- The configurations of interest. -/
  configurations : List Text
  /-- The targets. -/
  targets : List (Text × TargetTable)
deriving DecidableEq, Repr

namespace ModelFile

/-- Why a model file is refused. -/
inductive Refusal where
  /-- There is no such file, or it cannot be read. -/
  | unreadable
  /-- It is no TOML document, or its tables are not those of a model. -/
  | malformed
  /-- A target cannot have this name. -/
  | invalidTargetName (name : Text)
deriving DecidableEq, Repr

/-- The refusal in words. -/
def Refusal.message : Refusal → Text
  | .unreadable => "failed to read the model file"
  | .malformed => "invalid model file"
  | .invalidTargetName name => List.flatten ["`", name, "` is not a valid target name"]

/-- Entries in the order of their keys. -/
def sortByKey {α : Type} (entries : List (Text × α)) : List (Text × α) :=
  entries.mergeSort fun a b => Text.le a.1 b.1

/-- The value under a key. -/
def valueOf? (key : Text) (entries : List (Text × Toml.Value)) : Option Toml.Value :=
  (entries.find? fun entry => entry.1 == key).map Prod.snd

/-- The strings of an array. -/
def strings? (v : Toml.Value) : Option (List Text) :=
  match v with
  | .array items => items.mapM fun
    | .string value => some value
    | _ => none
  | _ => none

/-- The entries of a table with what is made of each value, in the order of the keys. -/
def entries? {α : Type} (make : Toml.Value → Option α) (v : Toml.Value) :
    Option (List (Text × α)) :=
  match v with
  | .table entries => (sortByKey entries).mapM fun (key, v) => (make v).map fun made => (key, made)
  | _ => none

/-- The value of a property. -/
def propertyValue? (v : Toml.Value) : Option PropertyValue :=
  match v with
  | .string value => some (.one value)
  | v => (strings? v).map .list

/-- The table of a target. -/
def targetTable? (v : Toml.Value) : Option TargetTable :=
  match v with
  | .table entries => do
    let configs ← entries? (entries? propertyValue?) ((valueOf? "configs" entries).getD (.table []))
    let properties ←
      entries? propertyValue? (.table (entries.filter fun entry => entry.1 != "configs"))
    return { properties, configs }
  | _ => none

/-- The model a document describes, whatever the names of its targets. -/
def ofDocument? (entries : List (Text × Toml.Value)) : Option ModelFile := do
  let configurations ← strings? ((valueOf? "configurations" entries).getD (.array []))
  let targets ← entries? targetTable? ((valueOf? "targets" entries).getD (.table []))
  return { configurations, targets }

/-- What the text of a model file says, for a way to read documents. -/
def parseWith (read : Toml.Reader) (t : Text) : Except Refusal ModelFile :=
  match read t >>= ofDocument? with
  | none => .error .malformed
  | some file =>
    match file.targets.find? fun target => !isTargetName target.1 with
    | some (name, _) => .error (.invalidTargetName name)
    | none => .ok file

/-- The writes that give a target its values, those for all configurations first. -/
def targetWrites (name : Text) (table : TargetTable) : List Write :=
  .target name ::
    (table.properties.map fun (property, value) => .value (.base name property) value.toText) ++
    table.configs.flatMap fun (config, values) =>
      values.map fun (property, value) => .value (.config name config property) value.toText

/-- The writes that build the model. -/
def writes (file : ModelFile) : List Write :=
  file.targets.flatMap fun (name, table) => targetWrites name table

/-- The store of the model. -/
def toStore (file : ModelFile) : Store := Store.ofWrites file.writes

end ModelFile

end BuildExpr
