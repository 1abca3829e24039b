import BuildExpr.Toml.Value

/-!
# TOML tables

A document defines its tables piece by piece, and TOML says which pieces may be added to what:
a table has one header at most, a header may be given to a table that so far only stood on the way
to a deeper one, dotted keys may only add to tables that dotted keys began, and what is written as
one value is complete. `Item` remembers how each table came about, so that these rules can be
checked when the next piece comes.
-/

namespace BuildExpr.Toml

/-- How a table came about. -/
inductive Origin where
  /-- By a header of its own. -/
  | header
  /-- On the way to a deeper header. -/
  | implied
  /-- By a dotted key. -/
  | dotted
deriving DecidableEq, Repr

/-- What stands under a key while a document is being read. -/
inductive Item where
  /-- A value, which is complete. -/
  | value (v : Value)
  /-- A table that may still grow. -/
  | table (origin : Origin) (entries : List (Text × Item))
  /-- An array of tables, the last of which may still grow. -/
  | tables (finished : List (List (Text × Item))) (last : List (Text × Item))
deriving Repr

/-- The items of a table by key. -/
abbrev Items := List (Text × Item)

namespace Items

/-- The items with one item changed, or added if there is none under the key. -/
def alter (key : Text) (change : Option Item → Option Item) : Items → Option Items
  | [] => (change none).map fun item => [(key, item)]
  | (k, item) :: rest =>
    if k = key then (change (some item)).map fun item => (k, item) :: rest
    else (alter key change rest).map fun rest => (k, item) :: rest

/-- The items with a change made to the table that a header names. Tables on the way are implied if
they are missing; of an array of tables the last is meant. -/
def alterAt (change : Items → Option Items) : List Text → Items → Option Items
  | [], items => change items
  | key :: path, items =>
    alter key (fun
      | none => (alterAt change path []).map (.table .implied)
      | some (.table origin entries) => (alterAt change path entries).map (.table origin)
      | some (.tables finished last) => (alterAt change path last).map (.tables finished)
      | some (.value _) => none) items

/-- The items with a header for the table under a key. -/
def openTable (key : Text) (items : Items) : Option Items :=
  alter key (fun
    | none => some (.table .header [])
    | some (.table .implied entries) => some (.table .header entries)
    | some _ => none) items

/-- The items with a new table at the end of the array of tables under a key. -/
def openElement (key : Text) (items : Items) : Option Items :=
  alter key (fun
    | none => some (.tables [] [])
    | some (.tables finished last) => some (.tables (finished ++ [last]) [])
    | some _ => none) items

/-- The items with a value under a key that is new. -/
def addValue (key : Text) (v : Value) (items : Items) : Option Items :=
  alter key (fun
    | none => some (.value v)
    | some _ => none) items

/-- The items with a value under a dotted key: a path and a last key. -/
def addDotted (key : Text) (v : Value) : List Text → Items → Option Items
  | [], items => addValue key v items
  | first :: path, items =>
    alter first (fun
      | none => (addDotted key v path []).map (.table .dotted)
      | some (.table .dotted entries) => (addDotted key v path entries).map (.table .dotted)
      -- A table that a header implied takes no keys of its own this way, only deeper ones.
      | some (.table .implied entries) =>
        if path.isEmpty then none else (addDotted key v path entries).map (.table .implied)
      | some (.tables finished last) =>
        if path.isEmpty then none else (addDotted key v path last).map (.tables finished)
      | some (.table .header _) | some (.value _) => none) items

end Items

mutual

/-- What an item says when the document is complete. -/
def Item.toValue : Item → Value
  | .value v => v
  | .table _ entries => .table (entriesToValues entries)
  | .tables finished last =>
    .array (tablesToValues finished ++ [.table (entriesToValues last)])

/-- What the items of a table say. -/
def entriesToValues : List (Text × Item) → List (Text × Value)
  | [] => []
  | (key, item) :: rest => (key, item.toValue) :: entriesToValues rest

/-- What the tables of an array say. -/
def tablesToValues : List (List (Text × Item)) → List Value
  | [] => []
  | entries :: rest => .table (entriesToValues entries) :: tablesToValues rest

end

end BuildExpr.Toml
