import BuildExpr.Interface
import BuildExpr.Tree

/-!
# Commands

What a user can ask for on the command line, and how it is written: the name of a command, then
options and one argument in any order. An option is written `--name value` or `--name=value`;
after `--` everything is an argument. Whatever is not written so is no command.
-/

namespace BuildExpr.CommandLine

/-- How an option is written. -/
structure OptionForm where
  /-- Its name. -/
  name : Text
  /-- Whether it has a value. -/
  hasValue : Bool := true
  /-- Whether it may be given more than once. -/
  repeats : Bool := false
deriving DecidableEq, Repr

/-- What stands on a command line after the name of the command. -/
structure Words where
  /-- The arguments. -/
  arguments : List Text := []
  /-- The options by name, with their values; an option without one has the empty text. -/
  options : List (Text × Text) := []
deriving DecidableEq, Repr

namespace Words

/-- The words with an argument in front. -/
def consArgument (argument : Text) (w : Words) : Words :=
  { w with arguments := argument :: w.arguments }

/-- The words with an option in front, unless it is there already and may be given only once. -/
def consOption (form : OptionForm) (value : Text) (w : Words) : Option Words :=
  if !form.repeats && w.options.any (fun option => option.1 == form.name) then none
  else some { w with options := (form.name, value) :: w.options }

/-- Whether a word starts like an option. -/
def isOption (word : Text) : Bool := word.head? = some '-' && word.length ≠ 1

/-- The words of a command line on which options of some forms are known. -/
def read? (forms : List OptionForm) : List Text → Option Words
  | [] => some {}
  | word :: rest =>
    if word = "--" then some { arguments := rest }
    else if isOption word then
      if word.take 2 = "--" then
        let name := (word.drop 2).takeWhile (· ≠ '=')
        let attached := (word.drop 2).dropWhile (· ≠ '=')
        match forms.find? fun form => form.name == name with
        | none => none
        | some form =>
          match form.hasValue, attached, rest with
          | false, [], rest => (read? forms rest).bind (consOption form [])
          | false, _ :: _, _ => none
          | true, _ :: value, rest => (read? forms rest).bind (consOption form value)
          | true, [], [] => none
          | true, [], value :: rest =>
            if isOption value then none else (read? forms rest).bind (consOption form value)
      else none
    else (read? forms rest).map (consArgument word)

/-- The value of an option. -/
def value? (w : Words) (name : Text) : Option Text :=
  (w.options.find? fun option => option.1 == name).map Prod.snd

/-- The values of an option, in order. -/
def values (w : Words) (name : Text) : List Text :=
  (w.options.filter fun option => option.1 == name).map Prod.snd

/-- Whether an option is given. -/
def has (w : Words) (name : Text) : Bool := (w.value? name).isSome

end Words

/-- A number of 64 bits, with an optional plus sign. -/
def number? (t : Text) : Option Nat :=
  let digits := if t.head? = some '+' then t.drop 1 else t
  if digits.isEmpty || !digits.all Char.isDigit then none
  else
    (some (digits.foldl (fun value c => value * 10 + (c.toNat - '0'.toNat)) 0)).filter (· < Nat.pow 2 64)

/-- How an engine is to work. -/
structure EngineSettings where
  /-- How deeply operations may be nested. -/
  limit : Nat := defaultLimit
  /-- Whether failures are not reported. -/
  quiet : Bool := false
  /-- Whether results go into the files of the build system. -/
  forBuildsystem : Bool := false
deriving DecidableEq, Repr

/-- The configuration evaluated for unless one asks for another. -/
def defaultConfig : Text := "Debug"

/-- What a user can ask for. -/
inductive Command where
  /-- The tokens of a text. -/
  | lex (input : Text)
  /-- The forest of a text read under a limit. -/
  | parse (input : Text) (limit : Nat)
  /-- The value of a text. -/
  | eval (input config : Text) (target language model : Option Text) (settings : EngineSettings)
  /-- The elements of a list. -/
  | split (input : Text)
  /-- A list without empty elements. -/
  | stripEmpty (input : Text)
  /-- A property as it is exported, with relative elements resolved if there is a root. -/
  | preprocess (input : Text) (mode : Interface.Mode) (root : Option Text)
  /-- The values of all properties of a model in some configurations. -/
  | evalModel (model : Text) (configs : List Text) (language : Option Text)
    (settings : EngineSettings)
deriving DecidableEq, Repr

namespace Command

/-- The options that say how an engine is to work. -/
def engineForms : List OptionForm :=
  [{ name := "max-depth" }, { name := "quiet", hasValue := false },
    { name := "for-buildsystem", hasValue := false }]

/-- The limit that the options ask for. -/
def limit? (w : Words) : Option Nat :=
  match w.value? "max-depth" with
  | none => some defaultLimit
  | some value => number? value

/-- How the options ask an engine to work. -/
def settings? (w : Words) : Option EngineSettings :=
  (limit? w).map fun limit =>
    { limit, quiet := w.has "quiet", forBuildsystem := w.has "for-buildsystem" }

/-- The way of exporting that a word names. -/
def mode? (word : Text) : Option Interface.Mode :=
  if word = "strip-all" then some .stripAll
  else if word = "build-interface" then some (.keep .build)
  else if word = "install-interface" then some (.keep .install)
  else none

/-- A path that a word names. The empty word names none. -/
def path? (word : Text) : Option Text := if word.isEmpty then none else some word

/-- The path that an option gives, if the option is there; nothing if what it gives is no path. -/
def optionalPath? (w : Words) (name : Text) : Option (Option Text) :=
  match w.value? name with
  | none => some none
  | some word => (path? word).map some

/-- The words of a command that takes one argument, with that argument. -/
def oneArgument? (forms : List OptionForm) (rest : List Text) : Option (Text × Words) :=
  match Words.read? forms rest with
  | some w =>
    match w.arguments with
    | [argument] => some (argument, w)
    | _ => none
  | none => none

/-- The command that a command line asks for. -/
def ofArguments? : List Text → Option Command
  | [] => none
  | name :: rest =>
    if name = "lex" then (oneArgument? [] rest).map fun (input, _) => .lex input
    else if name = "parse" then do
      let (input, w) ← oneArgument? [{ name := "max-depth" }] rest
      return .parse input (← limit? w)
    else if name = "eval" then do
      let (input, w) ← oneArgument?
        ([{ name := "config" }, { name := "target" }, { name := "language" }, { name := "model" }]
          ++ engineForms) rest
      return .eval input ((w.value? "config").getD defaultConfig) (w.value? "target")
        (w.value? "language") (← optionalPath? w "model") (← settings? w)
    else if name = "split" then (oneArgument? [] rest).map fun (input, _) => .split input
    else if name = "strip-empty" then
      (oneArgument? [] rest).map fun (input, _) => .stripEmpty input
    else if name = "preprocess" then do
      let (input, w) ← oneArgument?
        [{ name := "mode" }, { name := "resolve-relative", hasValue := false },
          { name := "prefix" }] rest
      let mode ← mode? ((w.value? "mode").getD "strip-all")
      let root := (w.value? "prefix").getD Interface.defaultRoot
      return .preprocess input mode (if w.has "resolve-relative" then some root else none)
    else if name = "eval-model" then do
      let (model, w) ← oneArgument?
        ([{ name := "config", repeats := true }, { name := "language" }] ++ engineForms) rest
      return .evalModel (← path? model) (w.values "config") (w.value? "language") (← settings? w)
    else none

/-- The model file that a command needs. -/
def modelFile? : Command → Option Text
  | .eval _ _ _ _ model _ => model
  | .evalModel model _ _ _ => some model
  | _ => none

end Command

end BuildExpr.CommandLine
