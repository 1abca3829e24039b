import BuildExpr.Toml.Document

/-!
# A document has each key of a table once

The tables of a document grow while it is read, and each of them by one step only: what stands under a key
is changed, or is added if there was nothing (`Items.alter`). So no table ever gets a key twice, however
deeply it lies in others (`Items.Distinct.alter`), and neither does any table of the value that is read
(`distinct_read?`).
-/

namespace BuildExpr.Toml

/-! ## Tables in which no key stands twice -/

/-- In no table of a value is there a key twice. -/
inductive Value.Distinct : Value → Prop
  | string (value : Text) : (Value.string value).Distinct
  | scalar : Value.scalar.Distinct
  | array {items : List Value} (hitems : ∀ v ∈ items, v.Distinct) : (Value.array items).Distinct
  | table {entries : List (Text × Value)} (hkeys : (entries.map Prod.fst).Nodup)
      (hvalues : ∀ entry ∈ entries, entry.2.Distinct) : (Value.table entries).Distinct

/-- In no table of an item is there a key twice. -/
def Item.Distinct (item : Item) : Prop := item.toValue.Distinct

/-- No key of a table stands there twice, nor does one in the tables it contains. -/
def Items.Distinct (items : Items) : Prop := (Value.table (entriesToValues items)).Distinct

/-- The entries of a table become values one by one. -/
theorem entriesToValues_eq_map (items : Items) :
    entriesToValues items = items.map fun entry => (entry.1, entry.2.toValue) := by
  induction items with
  | nil => rfl
  | cons entry rest ih => rw [entriesToValues, ih, List.map_cons]

/-- So do the tables of a row. -/
theorem tablesToValues_eq_map (tables : List Items) :
    tablesToValues tables = tables.map fun entries => .table (entriesToValues entries) := by
  induction tables with
  | nil => rfl
  | cons entries rest ih => rw [tablesToValues, ih, List.map_cons]

/-- No key of a table stands there twice exactly if its own keys are distinct and so are those in
each of its items. -/
theorem Items.distinct_iff {items : Items} :
    items.Distinct ↔ (items.map Prod.fst).Nodup ∧ ∀ entry ∈ items, entry.2.Distinct := by
  have hkeys : (entriesToValues items).map Prod.fst = items.map Prod.fst := by
    rw [entriesToValues_eq_map, List.map_map]
    rfl
  have hvalues : (∀ entry ∈ entriesToValues items, entry.2.Distinct) ↔
      ∀ entry ∈ items, entry.2.Distinct := by
    rw [entriesToValues_eq_map, List.forall_mem_map]
    rfl
  rw [← hkeys, ← hvalues]
  constructor
  · rintro (_ | _ | _ | ⟨h, h'⟩)
    exact ⟨h, h'⟩
  · exact fun h => .table h.1 h.2

/-- The table without entries has no key twice. -/
theorem Items.distinct_nil : Items.Distinct [] := distinct_iff.2 ⟨List.nodup_nil, nofun⟩

/-- A value has no key twice as an item exactly if it has none. -/
@[simp] theorem Item.distinct_value {v : Value} : (Item.value v).Distinct ↔ v.Distinct := by
  rw [Distinct, toValue]

/-- A table has no key twice exactly if its entries have none. -/
@[simp] theorem Item.distinct_table {origin : Origin} {entries : Items} :
    (Item.table origin entries).Distinct ↔ entries.Distinct := by
  rw [Distinct, toValue, Items.Distinct]

/-- In a row of tables no key stands twice in one table exactly if that is so of each of them. -/
@[simp] theorem Item.distinct_tables {finished : List Items} {last : Items} :
    (Item.tables finished last).Distinct ↔ (∀ entries ∈ finished, entries.Distinct) ∧ last.Distinct := by
  have hitems : (Item.tables finished last).Distinct ↔
      ∀ v ∈ tablesToValues finished ++ [.table (entriesToValues last)], v.Distinct := by
    rw [Distinct, toValue]
    constructor
    · rintro (_ | _ | h | _)
      exact h
    · exact .array
  rw [hitems, List.forall_mem_append, tablesToValues_eq_map, List.forall_mem_map,
    List.forall_mem_singleton]
  rfl

/-! ## Changes to tables -/

namespace Items

/-- A change to a table that puts no key in twice. -/
def Safe (change : Items → Option Items) : Prop :=
  ∀ ⦃items changed⦄, items.Distinct → change items = some changed → changed.Distinct

/-- A change adds no key but the one it is made under. -/
theorem keys_alter {key : Text} {change : Option Item → Option Item} {items changed : Items}
    (h : alter key change items = some changed) {k : Text} (hk : k ∈ changed.map Prod.fst) :
    k = key ∨ k ∈ items.map Prod.fst := by
  induction items generalizing changed with
  | nil =>
    rw [alter, Option.map_eq_some_iff] at h
    obtain ⟨item, -, rfl⟩ := h
    exact .inl (List.mem_singleton.1 hk)
  | cons entry rest ih =>
    obtain ⟨first, item⟩ := entry
    rw [alter] at h
    split at h
    · rw [Option.map_eq_some_iff] at h
      obtain ⟨new, -, rfl⟩ := h
      exact .inr hk
    · rw [Option.map_eq_some_iff] at h
      obtain ⟨tail, htail, rfl⟩ := h
      rw [List.map_cons, List.mem_cons] at hk ⊢
      rcases hk with rfl | hk
      · exact .inr (.inl rfl)
      · exact (ih htail hk).imp_right .inr

/-- No key is put in twice when what stands under one key is changed. -/
theorem Distinct.alter {items changed : Items} (hitems : items.Distinct) {key : Text}
    {change : Option Item → Option Item}
    (hchange : ∀ old new, (∀ item, old = some item → item.Distinct) → change old = some new →
      new.Distinct)
    (h : Items.alter key change items = some changed) : changed.Distinct := by
  -- The key may be there already; what is under other keys is not touched.
  induction items generalizing changed with
  | nil =>
    rw [Items.alter, Option.map_eq_some_iff] at h
    obtain ⟨item, hitem, rfl⟩ := h
    have hnew : item.Distinct := hchange none item nofun hitem
    exact distinct_iff.2 ⟨List.pairwise_singleton _ key, List.forall_mem_singleton.2 hnew⟩
  | cons entry rest ih =>
    obtain ⟨first, item⟩ := entry
    rw [distinct_iff, List.forall_mem_cons, List.map_cons, List.nodup_cons] at hitems
    obtain ⟨⟨hfirst, hrest⟩, hitem, hothers⟩ := hitems
    rw [Items.alter] at h
    by_cases hkey : first = key
    · rw [if_pos hkey, Option.map_eq_some_iff] at h
      obtain ⟨new, hnew, rfl⟩ := h
      have hdistinct : new.Distinct := by
        refine hchange (some item) new ?_ hnew
        rintro _ ⟨⟩
        exact hitem
      exact distinct_iff.2 ⟨List.nodup_cons.2 ⟨hfirst, hrest⟩,
        List.forall_mem_cons.2 ⟨hdistinct, hothers⟩⟩
    · rw [if_neg hkey, Option.map_eq_some_iff] at h
      obtain ⟨others, htail, rfl⟩ := h
      obtain ⟨hkeys, hafter⟩ := distinct_iff.1 (ih (distinct_iff.2 ⟨hrest, hothers⟩) htail)
      -- A key that comes before the changed one does not come again behind it.
      refine distinct_iff.2 ⟨List.nodup_cons.2 ⟨fun hmem => ?_, hkeys⟩,
        List.forall_mem_cons.2 ⟨hitem, hafter⟩⟩
      exact (keys_alter htail hmem).elim hkey hfirst

/-- A safe change stays safe at the end of a path. -/
theorem Safe.alterAt {change : Items → Option Items} (hchange : Safe change) (path : List Text) :
    Safe (Items.alterAt change path) := by
  induction path with
  | nil => exact hchange
  | cons key path ih =>
    intro items changed hitems h
    rw [Items.alterAt] at h
    refine hitems.alter (fun old new hold hnew => ?_) h
    -- What is under the key is missing, or is a table or a row of tables in which the path goes on.
    match old, hold, hnew with
    | none, _, hnew =>
      obtain ⟨entries, hentries, rfl⟩ := Option.map_eq_some_iff.1 hnew
      exact Item.distinct_table.2 (ih distinct_nil hentries)
    | some (.table origin entries), hold, hnew =>
      obtain ⟨after, hafter, rfl⟩ := Option.map_eq_some_iff.1 hnew
      exact Item.distinct_table.2 (ih (Item.distinct_table.1 (hold _ rfl)) hafter)
    | some (.tables finished last), hold, hnew =>
      obtain ⟨after, hafter, rfl⟩ := Option.map_eq_some_iff.1 hnew
      obtain ⟨hfinished, hlast⟩ := Item.distinct_tables.1 (hold _ rfl)
      exact Item.distinct_tables.2 ⟨hfinished, ih hlast hafter⟩
    | some (.value _), _, hnew => cases hnew

/-- Opening a table is safe: it takes the place of none or of one that was only implied. -/
theorem safe_openTable (key : Text) : Safe (openTable key) := by
  intro items changed hitems h
  refine hitems.alter (fun old new hold hnew => ?_) h
  match old, hold, hnew with
  | none, _, rfl => exact Item.distinct_table.2 distinct_nil
  | some (.table .implied entries), hold, rfl =>
    exact Item.distinct_table.2 (Item.distinct_table.1 (hold _ rfl))

/-- Opening a further table of a row is safe, as it comes behind those before. -/
theorem safe_openElement (key : Text) : Safe (openElement key) := by
  intro items changed hitems h
  refine hitems.alter (fun old new hold hnew => ?_) h
  match old, hold with
  | none, _ =>
    cases hnew
    exact Item.distinct_tables.2 ⟨nofun, distinct_nil⟩
  | some (.tables finished last), hold =>
    cases hnew
    obtain ⟨hfinished, hlast⟩ := Item.distinct_tables.1 (hold _ rfl)
    refine Item.distinct_tables.2 ⟨?_, distinct_nil⟩
    exact List.forall_mem_append.2 ⟨hfinished, List.forall_mem_singleton.2 hlast⟩
  | some (.table _ _), _ => cases hnew
  | some (.value _), _ => cases hnew

/-- Adding a value under a dotted key is safe, as every table on the way is altered in its place. -/
theorem safe_addDotted (key : Text) {v : Value} (hv : v.Distinct) (path : List Text) :
    Safe (addDotted key v path) := by
  induction path with
  | nil =>
    intro items changed hitems h
    refine hitems.alter (fun old new hold hnew => ?_) h
    -- The last key of a path must be new, as a value cannot be changed.
    match old, hnew with
    | none, rfl => exact Item.distinct_value.2 hv
  | cons first path ih =>
    intro items changed hitems h
    rw [addDotted] at h
    refine hitems.alter (fun old new hold hnew => ?_) h
    -- On the way there are tables that may be extended and others that may not.
    match old, hold, hnew with
    | none, _, hnew =>
      obtain ⟨entries, hentries, rfl⟩ := Option.map_eq_some_iff.1 hnew
      exact Item.distinct_table.2 (ih distinct_nil hentries)
    | some (.table .dotted entries), hold, hnew =>
      obtain ⟨after, hafter, rfl⟩ := Option.map_eq_some_iff.1 hnew
      exact Item.distinct_table.2 (ih (Item.distinct_table.1 (hold _ rfl)) hafter)
    | some (.table .implied entries), hold, hnew =>
      obtain ⟨-, hnew⟩ := Option.ite_none_left_eq_some.1 hnew
      obtain ⟨after, hafter, rfl⟩ := Option.map_eq_some_iff.1 hnew
      exact Item.distinct_table.2 (ih (Item.distinct_table.1 (hold _ rfl)) hafter)
    | some (.tables finished last), hold, hnew =>
      obtain ⟨-, hnew⟩ := Option.ite_none_left_eq_some.1 hnew
      obtain ⟨after, hafter, rfl⟩ := Option.map_eq_some_iff.1 hnew
      obtain ⟨hfinished, hlast⟩ := Item.distinct_tables.1 (hold _ rfl)
      exact Item.distinct_tables.2 ⟨hfinished, ih hlast hafter⟩
    | some (.table .header _), _, hnew => cases hnew
    | some (.value _), _, hnew => cases hnew

end Items

/-! ## Values as they are read -/

/-- A reader of values in which no table has a key twice. -/
def ReadsDistinct (read : Text → Option (Value × Text)) : Prop :=
  ∀ ⦃t v rest⦄, read t = some (v, rest) → v.Distinct

section

variable {value : Text → Option (Value × Text)} (hvalue : ReadsDistinct value)

include hvalue

/-- No item of an array that is read has a key twice. -/
theorem distinct_of_readItems {more : Nat} {t rest : Text} {items : List Value}
    (h : readItems value more t = some (items, rest)) : ∀ v ∈ items, v.Distinct := by
  induction more generalizing t rest items with
  | zero => cases h
  | succ more ih =>
    -- An array ends at its bracket, behind an item or behind a comma.
    simp only [readItems, Option.bind_eq_bind, Option.bind_eq_some_iff] at h
    obtain ⟨start, -, h⟩ := h
    split at h
    · cases h
      nofun
    · rw [Option.bind_eq_some_iff] at h
      obtain ⟨⟨v, after⟩, hv, h⟩ := h
      simp only [Option.bind_eq_some_iff] at h
      obtain ⟨stop, -, h⟩ := h
      have hfirst : v.Distinct := hvalue hv
      split at h
      · cases h
        exact List.forall_mem_singleton.2 hfirst
      · rw [Option.bind_eq_some_iff] at h
        obtain ⟨⟨others, last⟩, hothers, h⟩ := h
        cases h
        exact List.forall_mem_cons.2 ⟨hfirst, ih hothers⟩
      · cases h

/-- An inline table that is read has no key twice if it had none at the start. -/
theorem distinct_of_readEntries {more : Nat} {items after : Items} {t rest : Text}
    (hitems : items.Distinct) (h : readEntries value more items t = some (after, rest)) :
    after.Distinct := by
  induction more generalizing items t with
  | zero => cases h
  | succ more ih =>
    simp only [readEntries, Option.bind_eq_bind, Option.bind_eq_some_iff] at h
    obtain ⟨⟨⟨path, key⟩, _⟩, -, _, -, ⟨v, _⟩, hv, added, hadded, h⟩ := h
    have hafter : added.Distinct := Items.safe_addDotted key (hvalue hv) path hitems hadded
    split at h
    · cases h
      exact hafter
    · exact ih hafter h
    · cases h

end

/-- Inside brackets and braces there are values that lie less deep. -/
theorem readsDistinct_readValue (depth : Nat) : ReadsDistinct (readValue depth) := by
  induction depth with
  | zero =>
    -- At the greatest depth there are only scalars and strings.
    intro t v rest h
    unfold readValue at h
    split at h
    · cases h
    · cases h
    · split at h
      · obtain ⟨⟨value, _⟩, -, h⟩ := Option.map_eq_some_iff.1 h
        cases h
        exact .string value
      · obtain ⟨_, -, h⟩ := Option.map_eq_some_iff.1 h
        cases h
        exact .scalar
  | succ depth ih =>
    intro t v rest h
    unfold readValue at h
    split at h
    · obtain ⟨⟨items, _⟩, hitems, h⟩ := Option.map_eq_some_iff.1 h
      cases h
      exact .array (distinct_of_readItems ih hitems)
    · dsimp only at h
      split at h
      · cases h
        exact .table List.nodup_nil nofun
      · obtain ⟨⟨items, _⟩, hitems, h⟩ := Option.map_eq_some_iff.1 h
        cases h
        exact distinct_of_readEntries ih Items.distinct_nil hitems
    · split at h
      · obtain ⟨⟨value, _⟩, -, h⟩ := Option.map_eq_some_iff.1 h
        cases h
        exact .string value
      · obtain ⟨_, -, h⟩ := Option.map_eq_some_iff.1 h
        cases h
        exact .scalar

/-! ## Documents -/

/-- An entry whose value, if it has one, has no key twice in a table. -/
def Entry.Distinct : Entry → Prop
  | .header .. | .element .. => True
  | .value _ _ v => v.Distinct

/-- No entry that is read has a key twice. -/
theorem distinct_of_readEntry {t rest : Text} {entry : Entry} (h : readEntry t = some (entry, rest)) :
    entry.Distinct := by
  unfold readEntry at h
  split at h
  · simp only [Option.bind_eq_bind, Option.bind_eq_some_iff] at h
    obtain ⟨_, -, _, -, _, -, _, -, h⟩ := h
    cases h
    trivial
  · simp only [Option.bind_eq_bind, Option.bind_eq_some_iff] at h
    obtain ⟨_, -, _, -, _, -, h⟩ := h
    cases h
    trivial
  · simp only [Option.bind_eq_bind, Option.bind_eq_some_iff] at h
    obtain ⟨_, -, _, -, ⟨v, _⟩, hv, _, -, h⟩ := h
    cases h
    exact readsDistinct_readValue nestingLimit hv

/-- So it is with all entries of a document. -/
theorem distinct_of_readLines {lines : Nat} {t : Text} {entries : List Entry}
    (h : readLines lines t = some entries) : ∀ entry ∈ entries, entry.Distinct := by
  induction lines generalizing t entries with
  | zero => cases h
  | succ lines ih =>
    simp only [readLines, Option.bind_eq_bind, Option.bind_eq_some_iff] at h
    obtain ⟨start, -, h⟩ := h
    split at h
    · cases h
      nofun
    · simp only [Option.bind_eq_some_iff] at h
      obtain ⟨⟨entry, _⟩, hentry, others, hothers, h⟩ := h
      cases h
      exact List.forall_mem_cons.2 ⟨distinct_of_readEntry hentry, ih hothers⟩

/-- An entry is added to the table of the document by a safe change at the end of a path. -/
theorem Assembly.distinct_add {a after : Assembly} {entry : Entry} (ha : a.items.Distinct)
    (hentry : entry.Distinct) (h : a.add entry = some after) : after.items.Distinct := by
  cases entry with
  | header path key =>
    obtain ⟨items, hitems, h⟩ := Option.bind_eq_some_iff.1 h
    cases h
    exact (Items.safe_openTable key).alterAt path ha hitems
  | element path key =>
    obtain ⟨items, hitems, h⟩ := Option.bind_eq_some_iff.1 h
    cases h
    exact (Items.safe_openElement key).alterAt path ha hitems
  | value path key v =>
    obtain ⟨items, hitems, h⟩ := Option.bind_eq_some_iff.1 h
    cases h
    exact (Items.safe_addDotted key hentry path).alterAt a.current ha hitems

/-- Adding entries one after the other keeps the keys of the document distinct. -/
theorem Assembly.distinct_foldlM {entries : List Entry} (hentries : ∀ entry ∈ entries, entry.Distinct)
    {a after : Assembly} (ha : a.items.Distinct) (h : entries.foldlM add a = some after) :
    after.items.Distinct := by
  induction entries generalizing a with
  | nil =>
    cases h
    exact ha
  | cons entry rest ih =>
    obtain ⟨hentry, hrest⟩ := List.forall_mem_cons.1 hentries
    obtain ⟨next, hnext, h⟩ := Option.bind_eq_some_iff.1 h
    exact ih hrest (distinct_add ha hentry hnext) h

/-- A reader as TOML demands it: no table of a document that it accepts has a key twice. -/
def Reader.Distinct (read : Reader) : Prop :=
  ∀ t entries, read t = some entries → (Value.table entries).Distinct

/-- The reader of this library is one. -/
theorem distinct_read? : Reader.Distinct read? := by
  intro t entries h
  obtain ⟨lines, hlines, h⟩ := Option.bind_eq_some_iff.1 h
  obtain ⟨assembly, hassembly, h⟩ := Option.bind_eq_some_iff.1 h
  cases h
  exact Assembly.distinct_foldlM (distinct_of_readLines hlines) Items.distinct_nil hassembly

end BuildExpr.Toml
