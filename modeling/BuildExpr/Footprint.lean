import BuildExpr.Text
import BuildExpr.Table

/-!
# Footprints

What an evaluation touched: whether it failed, whether its result depends on the configuration or on
the head target, which properties it read, which targets it depends on or named, and which language
standards it asked for. An evaluation on behalf of another target keeps a footprint of its own,
which is merged into the one of the evaluation that started it.
-/

namespace BuildExpr

namespace Members

variable {α : Type} [DecidableEq α]

/-- A list with an element in it; one that is in it already is not added again. -/
def insert (a : α) (members : List α) : List α :=
  if a ∈ members then members else members ++ [a]

/-- The members of a list followed by those of another that are not among them. -/
def union (members more : List α) : List α := members ++ more.filter fun a => decide (a ∉ members)

/-- A member of a list with an element put in is that element or was a member before. -/
@[simp] theorem mem_insert {a b : α} {members : List α} :
    b ∈ insert a members ↔ b = a ∨ b ∈ members := by
  unfold insert
  split
  · constructor
    · exact Or.inr
    · rintro (rfl | h) <;> assumption
  · simp [or_comm]

/-- A member of a union is a member of one of the two lists. -/
@[simp] theorem mem_union {a : α} {members more : List α} :
    a ∈ union members more ↔ a ∈ members ∨ a ∈ more := by
  by_cases h : a ∈ members <;> simp [union, h]

end Members

/-- What an evaluation touched. -/
structure Footprint where
  /-- Whether it failed. -/
  failed : Bool := false
  /-- Whether the result depends on the configuration. -/
  contextSensitive : Bool := false
  /-- Whether the result depends on the head target. -/
  headSensitive : Bool := false
  /-- The properties read, each with its target. -/
  seen : List (Text × Text) := []
  /-- The targets the result depends on. -/
  depend : List Text := []
  /-- The targets named. -/
  all : List Text := []
  /-- The language standards asked for, by target and language. -/
  standards : Table (Text × Text) Text := {}
deriving DecidableEq, Repr

namespace Footprint

/-- A property added to those read. -/
def see (f : Footprint) (target property : Text) : Footprint :=
  { f with seen := Members.insert (target, property) f.seen }

/-- A target added to those the result depends on. -/
def addDepend (f : Footprint) (target : Text) : Footprint :=
  { f with depend := Members.insert target f.depend }

/-- A target added to those named. -/
def addNamed (f : Footprint) (target : Text) : Footprint :=
  { f with all := Members.insert target f.all }

/-- The standard recorded for a language of a target. -/
def standard? (f : Footprint) (target language : Text) : Option Text :=
  f.standards.get? (target, language)

/-- A standard recorded for a language of a target, in place of an earlier one. -/
def setStandard (f : Footprint) (target language standard : Text) : Footprint :=
  { f with standards := f.standards.insert (target, language) standard }

/-- The languages of a target that have a standard recorded, with that standard. -/
def standardsOf (f : Footprint) (target : Text) : List (Text × Text) :=
  f.standards.entries.filterMap fun ((owner, language), standard) =>
    if owner = target then some (language, standard) else none

/-- Two footprints in one. Where both have a standard for a language, the second one's stays. -/
def merge (f g : Footprint) : Footprint where
  failed := f.failed || g.failed
  contextSensitive := f.contextSensitive || g.contextSensitive
  headSensitive := f.headSensitive || g.headSensitive
  seen := Members.union f.seen g.seen
  depend := Members.union f.depend g.depend
  all := Members.union f.all g.all
  standards := f.standards.merge g.standards

end Footprint

end BuildExpr
