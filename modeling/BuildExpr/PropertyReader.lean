import BuildExpr.Compiled

/-!
# Reading properties for a target

A property reader evaluates the properties of one head target. Every evaluation starts with the
property itself as the look-up under way, so that a value which asks for its own property fails.
-/

namespace BuildExpr

/-- A head target with what its properties are evaluated for. -/
structure PropertyReader where
  /-- The head target. -/
  head : Text
  /-- The configuration. -/
  config : Text
  /-- The language being compiled. -/
  language : Option Text := none
  /-- The expression evaluated last. -/
  compiled : Option Compiled := none
deriving Repr

namespace PropertyReader

/-- The property whose value is taken to be under way. Flags and options count as one property. -/
def chainProperty (property : Text) : Text :=
  if property = "COMPILE_FLAGS" then "COMPILE_OPTIONS" else property

/-- What every evaluation is given. -/
def inputs (r : PropertyReader) : Inputs where
  config := r.config
  head := some r.head
  language := r.language

/-- The output of a compiled expression evaluated as the value of a property. -/
def run (engine : Engine) (r : PropertyReader) (c : Compiled) (expression property : Text)
    (w : Workspace) : Text × PropertyReader × Workspace :=
  let (c, w) := c.evaluate engine r.inputs [⟨r.head, chainProperty property, expression⟩] w
  (c.output, { r with compiled := some c }, w)

/-- The output of an expression evaluated as the value of a property. -/
def evaluate (engine : Engine) (r : PropertyReader) (expression property : Text) (w : Workspace) :
    Text × PropertyReader × Workspace :=
  r.run engine (engine.compile expression) expression property w

/-- The output of the stored value of a property, or nothing if it has none. -/
def evaluateProperty (engine : Engine) (r : PropertyReader) (property : Text) (w : Workspace) :
    Option Text × PropertyReader × Workspace :=
  match w.store.model.property? r.head property r.config with
  | none => (none, r, w)
  | some value =>
    let (c, w) := engine.compileValue value w
    let (output, r, w) := r.run engine c value property w
    (some output, r, w)

end PropertyReader

end BuildExpr
