import BuildExpr.Text
import BuildExpr.Table

/-!
# Target models

The targets of a build and their properties. A property has a value for all configurations, or
values for single configurations that stand in for it there; the names of configurations are
compared without regard to case.

This is the storage in memory, in which a name finds the target of that name and no other. A storage
in which it could find another target, by an alias say, is not modelled: what is said of every model
is said of every `Model`. Whether the trees of property values are kept with a model is up to the
engine (`Engine.keepsTrees`).
-/

namespace BuildExpr

/-- The properties of one target. -/
structure Properties where
  /-- The values for all configurations, by name. -/
  base : Table Text Text := {}
  /-- The values for single configurations, by configuration in upper case and name. -/
  overrides : Table (Text × Text) Text := {}
deriving DecidableEq, Repr

namespace Properties

/-- The value of a property in a configuration. -/
def value? (p : Properties) (name config : Text) : Option Text :=
  (p.overrides.get? (config.upper, name)).or (p.base.get? name)

/-- The names of all properties that have a value in some configuration. -/
def names (p : Properties) : List Text := p.base.keys ++ p.overrides.keys.map Prod.snd

end Properties

/-- The targets of a build, each with its properties. -/
structure Model where
  /-- The targets by name. -/
  targets : Table Text Properties := {}
deriving DecidableEq, Repr

namespace Model

/-- The model without targets. -/
def empty : Model := {}

/-- The properties of a target, none if there is no such target. -/
def propertiesOf (m : Model) (target : Text) : Properties := (m.targets.get? target).getD {}

/-- Whether there is a target of a name. -/
def hasTarget (m : Model) (name : Text) : Bool := m.targets.contains name

/-- The value of a property of a target in a configuration. -/
def property? (m : Model) (target name config : Text) : Option Text :=
  (m.propertiesOf target).value? name config

/-- The names of the targets in order. -/
def targetNames (m : Model) : List Text := Text.sort m.targets.keys

/-- The names of the properties of a target, in order and each once. -/
def propertyNames (m : Model) (target : Text) : List Text :=
  (Text.sort (m.propertiesOf target).names).eraseDups

/-- The model with a target of a name, which keeps its properties if it is there already. -/
def addTarget (m : Model) (name : Text) : Model :=
  ⟨m.targets.insert name (m.propertiesOf name)⟩

/-- A value to be stored. -/
inductive Place where
  /-- The value of a property in all configurations. -/
  | base (target name : Text)
  /-- The value of a property in one configuration. -/
  | config (target config name : Text)
deriving DecidableEq, Repr

/-- The value stored in a place, without regard to any other place. -/
def stored? (m : Model) : Place → Option Text
  | .base target name => (m.propertiesOf target).base.get? name
  | .config target config name => (m.propertiesOf target).overrides.get? (config.upper, name)

/-- The model with a value stored in a place; the target is added if need be. -/
def store (m : Model) (place : Place) (value : Text) : Model :=
  match place with
  | .base target name =>
    let p := m.propertiesOf target
    ⟨m.targets.insert target { p with base := p.base.insert name value }⟩
  | .config target config name =>
    let p := m.propertiesOf target
    ⟨m.targets.insert target { p with overrides := p.overrides.insert (config.upper, name) value }⟩

end Model

end BuildExpr
