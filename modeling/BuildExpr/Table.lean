/-!
# Tables

A table maps keys to values. It is kept as the list of its entries in the order in which the keys
were first put in; putting a value under a key that is there already replaces the value in place.
The view is `get?`, and each operation has one lemma that says what it does to the view.
-/

namespace BuildExpr

/-- A map from keys to values, as its entries in order of first insertion. -/
structure Table (κ : Type) (α : Type) where
  /-- The entries. -/
  entries : List (κ × α) := []
deriving DecidableEq, Repr

namespace Table

variable {κ α : Type} [DecidableEq κ]

/-- The value of the first entry under a key. -/
def lookup (k : κ) : List (κ × α) → Option α
  | [] => none
  | (key, value) :: rest => if key = k then some value else lookup k rest

/-- The entries with the value under a key replaced, or with a new entry at the end. -/
def put (k : κ) (v : α) : List (κ × α) → List (κ × α)
  | [] => [(k, v)]
  | (key, value) :: rest => if key = k then (k, v) :: rest else (key, value) :: put k v rest

/-- The table without entries. -/
def empty : Table κ α := {}

/-- The value under a key. -/
def get? (t : Table κ α) (k : κ) : Option α := lookup k t.entries

/-- The table with a value put under a key. -/
def insert (t : Table κ α) (k : κ) (v : α) : Table κ α := ⟨put k v t.entries⟩

/-- The table without the entries under a key. -/
def erase (t : Table κ α) (k : κ) : Table κ α :=
  ⟨t.entries.filter fun entry => decide (entry.1 ≠ k)⟩

/-- Whether a key has a value. -/
def contains (t : Table κ α) (k : κ) : Bool := (t.get? k).isSome

/-- The keys in order of first insertion. -/
def keys (t : Table κ α) : List κ := t.entries.map Prod.fst

/-- The number of entries. -/
def size (t : Table κ α) : Nat := t.entries.length

/-- Whether no key has two entries, as in every table made by insertions. -/
def Distinct (t : Table κ α) : Prop := t.keys.Nodup

/-- The table with every entry of another put in, in the order of the other. -/
def merge (t u : Table κ α) : Table κ α :=
  u.entries.foldl (fun merged (key, value) => merged.insert key value) t

/-- A value put in is found under its key, and under other keys the same is found as before. -/
theorem lookup_put (k j : κ) (v : α) (entries : List (κ × α)) :
    lookup j (put k v entries) = if k = j then some v else lookup j entries := by
  induction entries with
  | nil => simp [put, lookup]
  | cons entry rest ih =>
    obtain ⟨key, value⟩ := entry
    by_cases hk : key = k
    · subst hk
      by_cases hj : key = j <;> simp [put, lookup, hj]
    · by_cases hj : key = j
      · subst hj
        simp [put, lookup, hk, Ne.symm hk]
      · simp [put, lookup, hk, hj, ih]

/-- Without the entries of a key nothing is found under it, and all else as before. -/
theorem lookup_filter_ne (k j : κ) (entries : List (κ × α)) :
    lookup j (entries.filter fun entry => decide (entry.1 ≠ k)) =
      if k = j then none else lookup j entries := by
  induction entries with
  | nil => simp [lookup]
  | cons entry rest ih =>
    obtain ⟨key, value⟩ := entry
    by_cases hk : key = k
    · subst hk
      by_cases hj : key = j <;> simp_all [lookup]
    · by_cases hj : key = j
      · subst hj
        simp [lookup, hk, Ne.symm hk]
      · simpa [lookup, hk, hj] using ih

/-- A value put in is found under its key, and no other key is touched. -/
@[simp] theorem get?_insert (t : Table κ α) (k j : κ) (v : α) :
    (t.insert k v).get? j = if k = j then some v else t.get? j :=
  lookup_put k j v t.entries

/-- A key that is erased has no value, and no other key is touched. -/
@[simp] theorem get?_erase (t : Table κ α) (k j : κ) :
    (t.erase k).get? j = if k = j then none else t.get? j :=
  lookup_filter_ne k j t.entries

/-- The keys after a value has been put in are those before and its own. -/
theorem mem_keys_put (k j : κ) (v : α) (entries : List (κ × α)) :
    j ∈ (put k v entries).map Prod.fst ↔ j = k ∨ j ∈ entries.map Prod.fst := by
  induction entries with
  | nil => simp [put]
  | cons entry rest ih =>
    obtain ⟨key, value⟩ := entry
    unfold put
    by_cases hk : key = k
    · simp [hk]
    · rw [if_neg hk, List.map_cons, List.map_cons, List.mem_cons, List.mem_cons, ih]
      exact or_left_comm

/-- An insertion adds its key. -/
theorem mem_keys_insert {t : Table κ α} {k j : κ} {v : α} :
    j ∈ (t.insert k v).keys ↔ j = k ∨ j ∈ t.keys := mem_keys_put k j v t.entries

/-- A merged table has the keys of both. -/
theorem mem_keys_merge {t u : Table κ α} {k : κ} :
    k ∈ (t.merge u).keys ↔ k ∈ t.keys ∨ k ∈ u.keys := by
  obtain ⟨entries⟩ := u
  induction entries generalizing t with
  | nil => simp [merge, keys]
  | cons entry rest ih =>
    obtain ⟨key, value⟩ := entry
    have hmerge : k ∈ (t.merge ⟨(key, value) :: rest⟩).keys ↔
        k ∈ (t.insert key value).keys ∨ k ∈ keys ⟨rest⟩ := ih
    have hcons : k ∈ keys ⟨(key, value) :: rest⟩ ↔ k = key ∨ k ∈ keys ⟨rest⟩ := List.mem_cons
    rw [hmerge, hcons, mem_keys_insert, or_assoc, or_left_comm]

/-- Putting in a value repeats no key. -/
theorem nodup_keys_put (k : κ) (v : α) {entries : List (κ × α)}
    (h : (entries.map Prod.fst).Nodup) : ((put k v entries).map Prod.fst).Nodup := by
  induction entries with
  | nil => simp [put]
  | cons entry rest ih =>
    obtain ⟨key, value⟩ := entry
    rw [List.map_cons, List.nodup_cons] at h
    unfold put
    by_cases hk : key = k
    · rw [if_pos hk, List.map_cons, List.nodup_cons, ← hk]
      exact h
    · rw [if_neg hk, List.map_cons, List.nodup_cons, mem_keys_put]
      exact ⟨fun hmem => hmem.elim hk h.1, ih h.2⟩

/-- Nothing is found under a key that no entry has. -/
theorem lookup_eq_none {k : κ} {entries : List (κ × α)} (h : k ∉ entries.map Prod.fst) :
    lookup k entries = none := by
  induction entries with
  | nil => rfl
  | cons entry rest ih =>
    obtain ⟨key, value⟩ := entry
    rw [List.map_cons, List.mem_cons, not_or] at h
    unfold lookup
    rw [if_neg (Ne.symm h.1)]
    exact ih h.2

/-- What is found under a key is an entry. -/
theorem mem_of_lookup {k : κ} {v : α} {entries : List (κ × α)} (h : lookup k entries = some v) :
    (k, v) ∈ entries := by
  induction entries with
  | nil => cases h
  | cons entry rest ih =>
    obtain ⟨key, value⟩ := entry
    rw [lookup] at h
    by_cases hkey : key = k
    · rw [if_pos hkey, Option.some.injEq] at h
      rw [hkey, h]
      exact List.mem_cons_self
    · rw [if_neg hkey] at h
      exact List.mem_cons_of_mem _ (ih h)

/-- What is found in a table stands in an entry of it. -/
theorem mem_entries_of_get? {t : Table κ α} {k : κ} {v : α} (h : t.get? k = some v) :
    (k, v) ∈ t.entries := mem_of_lookup h

/-- The keys are those that have a value. -/
theorem contains_iff {t : Table κ α} {k : κ} : t.contains k = true ↔ k ∈ t.keys := by
  obtain ⟨entries⟩ := t
  change (lookup k entries).isSome = true ↔ k ∈ entries.map Prod.fst
  induction entries with
  | nil => simp [lookup]
  | cons entry rest ih =>
    obtain ⟨key, value⟩ := entry
    rw [lookup, List.map_cons, List.mem_cons, ← ih]
    by_cases hk : key = k
    · simp [hk]
    · simp [hk, Ne.symm hk]

omit [DecidableEq κ] in
/-- The empty table has no key twice. -/
theorem distinct_empty : Distinct ({} : Table κ α) := List.nodup_nil

/-- An insertion repeats no key. -/
theorem Distinct.insert {t : Table κ α} (h : t.Distinct) (k : κ) (v : α) :
    (t.insert k v).Distinct := nodup_keys_put k v h

/-- Nor does merging in another table. -/
theorem Distinct.merge {t : Table κ α} (h : t.Distinct) (u : Table κ α) :
    (t.merge u).Distinct := by
  obtain ⟨entries⟩ := u
  induction entries generalizing t with
  | nil => exact h
  | cons entry rest ih => exact ih (h.insert entry.1 entry.2)

/-- In a merged table the entries of the second one come first. -/
theorem get?_merge (t : Table κ α) {u : Table κ α} (h : u.Distinct) (k : κ) :
    (t.merge u).get? k = (u.get? k).or (t.get? k) := by
  obtain ⟨entries⟩ := u
  induction entries generalizing t with
  | nil => rfl
  | cons entry rest ih =>
    obtain ⟨key, value⟩ := entry
    obtain ⟨hkey, hrest⟩ := List.nodup_cons.1 h
    have hmerge : (t.merge ⟨(key, value) :: rest⟩).get? k =
        (lookup k rest).or ((t.insert key value).get? k) := ih (t.insert key value) hrest
    have hcons : get? ⟨(key, value) :: rest⟩ k = if key = k then some value else lookup k rest := rfl
    rw [hmerge, hcons, get?_insert]
    by_cases hk : key = k
    · rw [if_pos hk, if_pos hk, lookup_eq_none (hk ▸ hkey)]
      rfl
    · rw [if_neg hk, if_neg hk]

end Table

end BuildExpr
