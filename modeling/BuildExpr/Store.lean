import BuildExpr.Model
import BuildExpr.Tree

/-!
# Stores

A store is a model together with the trees of those of its property values that have been read. The
trees are kept by the text they were read from, each with the nesting limit it was read under; a
text that is asked for under another limit is read again. When a value is replaced, the tree of the
old one is forgotten, so that trees of texts that are no longer stored do not pile up.
-/

namespace BuildExpr

/-- Trees by the text they were read from, with the limit they were read under. -/
abbrev TreeCache := Table Text (Nat × Tree)

namespace TreeCache

/-- The tree of a text under a limit, and the cache in which it is found from now on. -/
def fetch (cache : TreeCache) (limit : Nat) (source : Text) : Tree × TreeCache :=
  let read := Tree.parse limit source
  match cache.get? source with
  | some (under, tree) =>
    if under = limit then (tree, cache) else (read, cache.insert source (limit, read))
  | none => (read, cache.insert source (limit, read))

end TreeCache

/-- A model and the trees of its values. -/
structure Store where
  /-- The targets and their properties. -/
  model : Model := {}
  /-- The trees of values that have been read. -/
  trees : TreeCache := {}
deriving Repr

/-- A change to a store. -/
inductive Write where
  /-- A target is added. -/
  | target (name : Text)
  /-- A value is stored. -/
  | value (place : Model.Place) (value : Text)
deriving DecidableEq, Repr

namespace Store

/-- The store without the tree of a value that was replaced, if there was one. -/
def forget (s : Store) : Option Text → Store
  | none => s
  | some old => { s with trees := s.trees.erase old }

/-- The store after a change. -/
def write (s : Store) : Write → Store
  | .target name => { s with model := s.model.addTarget name }
  | .value place value =>
    let replaced := s.model.stored? place
    forget { s with model := s.model.store place value } replaced

/-- The store after some changes, in order. -/
def writeAll (s : Store) (writes : List Write) : Store := writes.foldl write s

/-- The store with a model built by some changes. -/
def ofWrites (writes : List Write) : Store := ({} : Store).writeAll writes

end Store

end BuildExpr
