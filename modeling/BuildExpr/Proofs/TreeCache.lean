import BuildExpr.Proofs.Coupling
import BuildExpr.PropertyReader

/-!
# Kept trees change nothing

A cache is faithful if every tree in it is the one that reading its text under its limit gives. All
that is ever done to a cache keeps it faithful, and fetching a tree from a faithful cache is reading
it. So two runs that differ in their trees only, of which the first are faithful, stay so when one
engine keeps trees and another one with the same operations and the same limit does not.
-/

namespace BuildExpr

namespace TreeCache

/-- Every tree is the one that its text has under its limit. -/
def Faithful (cache : TreeCache) : Prop :=
  ∀ source limit tree, cache.get? source = some (limit, tree) → tree = Tree.parse limit source

/-- A cache without trees is faithful. -/
theorem faithful_empty : Faithful {} := by
  intro source limit tree h
  exact absurd (h : none = some (limit, tree)) nofun

/-- The tree of a text may be kept under the text and the limit. -/
theorem Faithful.insert {cache : TreeCache} (h : cache.Faithful) (limit : Nat) (source : Text) :
    Faithful (Table.insert cache source (limit, Tree.parse limit source)) := by
  intro other under tree hget
  rw [Table.get?_insert] at hget
  by_cases hsource : source = other
  · rw [if_pos hsource] at hget
    obtain ⟨rfl, rfl⟩ := Prod.mk.inj (Option.some.inj hget)
    rw [hsource]
  · rw [if_neg hsource] at hget
    exact h other under tree hget

/-- Any tree may be forgotten. -/
theorem Faithful.erase {cache : TreeCache} (h : cache.Faithful) (source : Text) :
    Faithful (Table.erase cache source) := by
  intro other under tree hget
  rw [Table.get?_erase] at hget
  by_cases hsource : source = other
  · rw [if_pos hsource] at hget
    exact absurd hget nofun
  · rw [if_neg hsource] at hget
    exact h other under tree hget

/-- What is fetched is what reading the text gives, whichever limit it was read under before. -/
theorem Faithful.fetch_fst {cache : TreeCache} (h : cache.Faithful) (limit : Nat) (source : Text) :
    (cache.fetch limit source).1 = Tree.parse limit source := by
  unfold fetch
  dsimp only
  cases hget : cache.get? source with
  | none => rfl
  | some kept =>
    obtain ⟨under, tree⟩ := kept
    dsimp only
    by_cases hlimit : under = limit
    · rw [if_pos hlimit, ← hlimit]
      exact h source under tree hget
    -- A tree that was read under another limit is not used.
    · rw [if_neg hlimit]

/-- Fetching a tree keeps the cache faithful. -/
theorem Faithful.fetch_snd {cache : TreeCache} (h : cache.Faithful) (limit : Nat) (source : Text) :
    Faithful (cache.fetch limit source).2 := by
  unfold fetch
  dsimp only
  cases cache.get? source with
  | none => exact h.insert limit source
  | some kept =>
    obtain ⟨under, tree⟩ := kept
    dsimp only
    by_cases hlimit : under = limit
    · rw [if_pos hlimit]
      exact h
    · rw [if_neg hlimit]
      exact h.insert limit source

end TreeCache

/-- The engine that reads the tree of a property value anew each time. -/
def Engine.withoutCache (engine : Engine) : Engine := { engine with keepsTrees := false }

/-- An engine fetches the tree that it would read, whether or not it keeps trees. -/
theorem Engine.fetch_fst (engine : Engine) {trees : TreeCache} (h : trees.Faithful) (value : Text) :
    (engine.fetch trees value).1 = engine.parse value := by
  unfold fetch
  split
  · exact h.fetch_fst engine.limit value
  · rfl

/-- It leaves faithful trees. -/
theorem Engine.fetch_snd (engine : Engine) {trees : TreeCache} (h : trees.Faithful) (value : Text) :
    (engine.fetch trees value).2.Faithful := by
  unfold fetch
  split
  · exact h.fetch_snd engine.limit value
  · exact h

/-- From faithful trees on, the tree of a value is the one that reading it gives. -/
theorem Engine.valueTree_apply (engine : Engine) (value : Text) {run : Run}
    (h : run.trees.Faithful) :
    engine.valueTree value run =
      .ok (engine.parse value) { run with trees := (engine.fetch run.trees value).2 } := by
  rw [← engine.fetch_fst h value]
  rfl

/-- Runs that differ in their trees only, of which the first are faithful. -/
structure Run.SameButTrees (r s : Run) : Prop where
  /-- They have touched the same. -/
  footprint : r.footprint = s.footprint
  /-- They have the same number of operations open. -/
  depth : r.depth = s.depth
  /-- They have sent the same messages. -/
  messages : r.messages = s.messages
  /-- The first trees are faithful. -/
  faithful : r.trees.Faithful

/-- All that evaluations do to runs that are the same but for their trees leaves them so. -/
theorem Run.sameButTrees_respected : Run.Respected Run.SameButTrees where
  enter h := ⟨h.footprint, congrArg (· + 1) h.depth, h.messages, h.faithful⟩
  leave h := ⟨h.footprint, congrArg (· - 1) h.depth, h.messages, h.faithful⟩
  touch change _ _ h := ⟨congrArg change h.footprint, h.depth, h.messages, h.faithful⟩
  send message _ _ h := ⟨h.footprint, h.depth, congrArg (· ++ [message]) h.messages, h.faithful⟩
  begin h := ⟨rfl, h.depth, h.messages, h.faithful⟩
  merge h h' := ⟨by rw [h.footprint, h'.footprint], h.depth, h'.messages, h'.faithful⟩
  depth_eq h := h.depth

/-- An engine that keeps trees and one that does not find the same tree. -/
theorem Engine.valueTree_withoutCache (engine : Engine) (value : Text) :
    Coupled Run.SameButTrees Tree (engine.valueTree value) (engine.withoutCache.valueTree value) := by
  intro r s h
  -- The first engine may change its trees here, the second one leaves them as they are.
  rw [engine.valueTree_apply value h.faithful]
  exact .ok _ ⟨h.footprint, h.depth, h.messages, engine.fetch_snd h.faithful value⟩

end BuildExpr
