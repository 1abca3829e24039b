import BuildExpr.Failure

/-!
# Chains of property look-ups

While the value of a property is worked out, further properties may be looked up, whose values are
worked out in turn. The look-ups under way form a chain, innermost first. Looking a property up that
is on the chain already would never end, so it is refused: as a self reference if the value being
worked out is its own, otherwise as a loop whose steps lead back to it.
-/

namespace BuildExpr

/-- A property that is being looked up. -/
structure Lookup where
  /-- The target that has the property. -/
  target : Text
  /-- The name of the property. -/
  property : Text
  /-- The text of the expression that asks for it. -/
  content : Text
deriving DecidableEq, Repr

/-- The look-ups under way, innermost first. -/
abbrev Chain := List Lookup

namespace Lookup

/-- Whether two look-ups ask for the same property of the same target. -/
def sameProperty (a b : Lookup) : Bool := a.target == b.target && a.property == b.property

end Lookup

namespace Chain

/-- The texts of the look-ups up to and including the first that asks for the same property, if
there is one. -/
def stepsTo (lookup : Lookup) : Chain → Option (List Text)
  | [] => none
  | frame :: rest =>
    if lookup.sameProperty frame then some [frame.content]
    else (stepsTo lookup rest).map (frame.content :: ·)

/-- Why a look-up may not be started from a chain, if it may not. -/
def refusal? (lookup : Lookup) : Chain → Option Cause
  | [] => none
  | parent :: rest =>
    if lookup.sameProperty parent then some (.selfReference lookup.target lookup.property)
    else (stepsTo lookup (parent :: rest)).map fun steps =>
      .dependencyLoop lookup.target lookup.property (lookup.content :: steps)

/-- The property whose value was asked for first. -/
def rootProperty? (chain : Chain) : Option Text := chain.getLast?.map Lookup.property

end Chain

end BuildExpr
