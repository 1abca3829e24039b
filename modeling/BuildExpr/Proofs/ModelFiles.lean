import Mathlib.Data.List.Sort
import BuildExpr.Model.File
import BuildExpr.Proofs.DocumentKeys
import BuildExpr.Proofs.ModelWrites

/-!
# What a model file makes of a model

The tables of a model file are in the order of their keys and have no key twice, since a document does not,
whatever reads it (`inOrder_of_parseWith`). The model they describe is built by one write after another, yet
what it answers can be read off the tables (`property?_toStore`): a property has the value that the last
table for a configuration of the name gives it, up to case, and if none gives it one the value for all
configurations.
-/

namespace BuildExpr

/-! ## Entries by key -/

namespace Table

variable {α β : Type}

/-- The one entry under a key makes all that the entries under it make. -/
theorem flatMap_of_nodup {entries : List (Text × α)} (h : (entries.map Prod.fst).Nodup) (key : Text)
    {make : Text × α → List β} (hother : ∀ entry ∈ entries, entry.1 ≠ key → make entry = []) :
    entries.flatMap make = ((lookup key entries).map fun value => make (key, value)).getD [] := by
  induction entries with
  | nil => rfl
  | cons entry rest ih =>
    obtain ⟨first, value⟩ := entry
    obtain ⟨hfirst, hrest⟩ := List.nodup_cons.1 h
    obtain ⟨hentry, hothers⟩ := List.forall_mem_cons.1 hother
    rw [List.flatMap_cons, ih hrest hothers, lookup]
    by_cases hkey : first = key
    · subst hkey
      rw [if_pos rfl, lookup_eq_none hfirst]
      exact List.append_nil _
    · rw [if_neg hkey, hentry hkey]
      rfl

end Table

namespace ModelFile

/-- The keys of some entries are in order, and none is there twice. -/
def Ordered {α : Type} (entries : List (Text × α)) : Prop :=
  (entries.map Prod.fst).Pairwise Text.Before

/-- Keys in order are not repeated. -/
theorem Ordered.nodup {α : Type} {entries : List (Text × α)} (h : Ordered entries) :
    (entries.map Prod.fst).Nodup := h.imp And.right

/-- Sorted entries are in the order of their keys. -/
theorem pairwise_sortByKey {α : Type} (entries : List (Text × α)) :
    (sortByKey entries).Pairwise fun a b => Text.le a.1 b.1 = true :=
  List.pairwise_mergeSort (fun a b c => Text.le_trans a.1 b.1 c.1) (fun a b => Text.le_total a.1 b.1)
    entries

/-- Entries with different keys are in order once they are sorted. -/
theorem ordered_sortByKey {α : Type} {entries : List (Text × α)}
    (h : (entries.map Prod.fst).Nodup) : Ordered (sortByKey entries) := by
  have hnodup : ((sortByKey entries).map Prod.fst).Nodup :=
    ((List.mergeSort_perm entries _).map Prod.fst).nodup_iff.2 h
  exact (List.pairwise_map.2 (pairwise_sortByKey entries)).and hnodup

/-- Entries are sorted by putting each one into its place, in front of those with the same key. The kernel can
compute this, which it cannot do for a recursion on lengths. -/
theorem sortByKey_eq_insertionSort {α : Type} (entries : List (Text × α)) :
    sortByKey entries = entries.insertionSort fun a b => Text.le a.1 b.1 = true := by
  induction entries with
  | nil => simp [sortByKey]
  | cons entry rest ih =>
    obtain ⟨smaller, others, hsort, hrest, hsmaller⟩ :
        ∃ smaller others, sortByKey (entry :: rest) = smaller ++ entry :: others ∧
          sortByKey rest = smaller ++ others ∧ ∀ b ∈ smaller, (!Text.le entry.1 b.1) = true :=
      List.mergeSort_cons (fun a b c => Text.le_trans a.1 b.1 c.1) (fun a b => Text.le_total a.1 b.1)
        entry rest
    have hsorted := pairwise_sortByKey (entry :: rest)
    rw [hsort] at hsorted
    have hothers : (entry :: others).Pairwise fun a b => Text.le a.1 b.1 = true :=
      (List.pairwise_append.1 hsorted).2.1
    rw [List.insertionSort_cons, ← ih, List.orderedInsert_eq_take_drop, hsort, hrest,
      List.takeWhile_append_of_pos (by simpa using hsmaller),
      List.dropWhile_append_of_pos (by simpa using hsmaller)]
    cases others with
    | nil => simp
    | cons other others => simp [List.rel_of_pairwise_cons hothers List.mem_cons_self]

/-- What is made of the values of some pairs stands under their keys, in their order. -/
theorem keys_of_mapM {α : Type} {make : Toml.Value → Option α} {pairs : List (Text × Toml.Value)}
    {entries : List (Text × α)}
    (h : (pairs.mapM fun (key, v) => (make v).map fun made => (key, made)) = some entries) :
    entries.map Prod.fst = pairs.map Prod.fst ∧
      ∀ entry ∈ entries, ∃ pair ∈ pairs, make pair.2 = some entry.2 := by
  induction pairs generalizing entries with
  | nil =>
    cases h
    exact ⟨rfl, nofun⟩
  | cons pair rest ih =>
    obtain ⟨key, v⟩ := pair
    simp only [List.mapM_cons, Option.bind_eq_bind, Option.bind_eq_some_iff,
      Option.map_eq_some_iff] at h
    obtain ⟨entry, ⟨made, hmade, rfl⟩, others, hothers, h⟩ := h
    cases h
    obtain ⟨hkeys, hmake⟩ := ih hothers
    refine ⟨congrArg (key :: ·) hkeys, List.forall_mem_cons.2 ⟨⟨(key, v), List.mem_cons_self, hmade⟩,
      fun entry hentry => ?_⟩⟩
    obtain ⟨pair, hpair, hvalue⟩ := hmake entry hentry
    exact ⟨pair, List.mem_cons_of_mem _ hpair, hvalue⟩

/-- The entries of a table are those of the document, in order, with what is made of each value. -/
theorem ordered_of_entries? {α : Type} {make : Toml.Value → Option α} {v : Toml.Value}
    (hv : v.Distinct) {entries : List (Text × α)} (h : entries? make v = some entries) :
    Ordered entries ∧ ∀ entry ∈ entries, ∃ w : Toml.Value, w.Distinct ∧ make w = some entry.2 := by
  cases hv with
  | string value => cases h
  | scalar => cases h
  | array hitems => cases h
  | @table pairs hkeys hvalues =>
    obtain ⟨hentries, hmake⟩ := keys_of_mapM h
    constructor
    · rw [Ordered, hentries]
      exact ordered_sortByKey hkeys
    · intro entry hentry
      obtain ⟨pair, hpair, hmade⟩ := hmake entry hentry
      exact ⟨pair.2, hvalues pair ((List.mergeSort_perm pairs _).mem_iff.1 hpair), hmade⟩

end ModelFile

/-! ## Files in order -/

/-- The entries of the table of a target are in order. -/
structure TargetTable.InOrder (table : TargetTable) : Prop where
  /-- The values for all configurations are. -/
  properties : ModelFile.Ordered table.properties
  /-- The configurations are. -/
  configs : ModelFile.Ordered table.configs
  /-- The values for each of them are. -/
  values : ∀ entry ∈ table.configs, ModelFile.Ordered entry.2

/-- The entries of all tables of a file are in order. -/
structure ModelFile.InOrder (file : ModelFile) : Prop where
  /-- The targets are. -/
  targets : Ordered file.targets
  /-- The entries of each of them are. -/
  tables : ∀ entry ∈ file.targets, entry.2.InOrder

namespace ModelFile

/-- The value under a key of a table without repeated keys has none either, and without one the
empty table stands for it. -/
theorem distinct_valueOf? {entries : List (Text × Toml.Value)} (h : (Toml.Value.table entries).Distinct)
    (key : Text) : ((valueOf? key entries).getD (.table [])).Distinct := by
  cases h with
  | table hkeys hvalues =>
    unfold valueOf?
    cases hfind : entries.find? fun entry => entry.1 == key with
    | none => exact .table List.nodup_nil nofun
    | some entry => exact hvalues entry (List.mem_of_find?_eq_some hfind)

/-- The table of a target is in order if it is read from a value without repeated keys. -/
theorem inOrder_of_targetTable? {v : Toml.Value} (hv : v.Distinct) {table : TargetTable}
    (h : targetTable? v = some table) : table.InOrder := by
  cases hv with
  | string value => cases h
  | scalar => cases h
  | array hitems => cases h
  | @table entries hkeys hvalues =>
    simp only [targetTable?, Option.bind_eq_bind, Option.bind_eq_some_iff] at h
    obtain ⟨configs, hconfigs, properties, hproperties, h⟩ := h
    cases h
    have hrest : (Toml.Value.table (entries.filter fun entry => entry.1 != "configs")).Distinct :=
      .table (hkeys.sublist (List.filter_sublist.map Prod.fst)) fun entry hentry =>
        hvalues entry (List.mem_of_mem_filter hentry)
    obtain ⟨hordered, hmade⟩ := ordered_of_entries? (distinct_valueOf? (.table hkeys hvalues) _) hconfigs
    refine ⟨(ordered_of_entries? hrest hproperties).1, hordered, fun entry hentry => ?_⟩
    obtain ⟨w, hw, hvalue⟩ := hmade entry hentry
    exact (ordered_of_entries? hw hvalue).1

/-- A file is in order if it is read from a document without repeated keys. -/
theorem inOrder_of_ofDocument? {entries : List (Text × Toml.Value)}
    (hentries : (Toml.Value.table entries).Distinct) {file : ModelFile}
    (h : ofDocument? entries = some file) : file.InOrder := by
  simp only [ofDocument?, Option.bind_eq_bind, Option.bind_eq_some_iff] at h
  obtain ⟨configurations, -, targets, htargets, h⟩ := h
  cases h
  obtain ⟨hordered, hmade⟩ := ordered_of_entries? (distinct_valueOf? hentries _) htargets
  refine ⟨hordered, fun entry hentry => ?_⟩
  obtain ⟨w, hw, htable⟩ := hmade entry hentry
  exact inOrder_of_targetTable? hw htable

/-- The tables of a file that is read are in order, whichever reader reads the document. -/
theorem inOrder_of_parseWith {read : Toml.Reader} (hread : read.Distinct) {t : Text} {file : ModelFile}
    (h : parseWith read t = .ok file) : file.InOrder := by
  unfold parseWith at h
  cases hdocument : read t >>= ofDocument? with
  | none =>
    rw [hdocument] at h
    cases h
  | some found =>
    obtain ⟨entries, hentries, hfound⟩ := Option.bind_eq_some_iff.1 hdocument
    rw [hdocument] at h
    dsimp only at h
    split at h
    · cases h
    · cases h
      exact inOrder_of_ofDocument? (hread t entries hentries) hfound

end ModelFile

/-! ## What the tables say -/

/-- The value of a property in a configuration: what the last table for a configuration of this name, up to
case, says about it that says anything, and else the value for all configurations. -/
def TargetTable.value? (table : TargetTable) (name config : Text) : Option PropertyValue :=
  (table.configs.filterMap fun (configuration, values) =>
      if configuration.eqIgnoringCase config then Table.lookup name values else none).getLast?.or
    (Table.lookup name table.properties)

namespace ModelFile

/-- Picking from what is made of each is picking from all that is made. -/
theorem filterMap_flatMap {α β γ : Type} (make : α → List β) (pick : β → Option γ) (l : List α) :
    (l.flatMap make).filterMap pick = l.flatMap fun a => (make a).filterMap pick := by
  simp only [List.filterMap_eq_flatMap_toList, List.flatMap_assoc]

/-- The values of a property among those of a table. -/
theorem filterMap_lookup {entries : List (Text × PropertyValue)} (h : Ordered entries) (name : Text) :
    (entries.filterMap fun entry => if entry.1 = name then some entry.2.toText else none) =
      ((Table.lookup name entries).map PropertyValue.toText).toList := by
  rw [List.filterMap_eq_flatMap_toList, Table.flatMap_of_nodup h.nodup name]
  · cases Table.lookup name entries with
    | none => rfl
    | some value => simp
  · intro entry _ hother
    rw [if_neg hother]
    rfl

/-- Writes of values for all configurations: at most one of them is of the property. -/
theorem written_base {entries : List (Text × PropertyValue)} (h : Ordered entries)
    (target name : Text) :
    (entries.map fun (property, value) =>
        Write.value (.base target property) value.toText).filterMap
          (Write.valueAt? (.base target name)) =
      ((Table.lookup name entries).map PropertyValue.toText).toList := by
  rw [List.filterMap_map, ← filterMap_lookup h]
  refine congrArg (List.filterMap · entries) (funext fun entry => ?_)
  simp [Write.valueAt?, Model.Place.same]

/-- Writes of values for a single configuration: they count if this is the one, up to case. -/
theorem written_config {entries : List (Text × PropertyValue)} (h : Ordered entries)
    (target name configuration config : Text) :
    (entries.map fun (property, value) =>
        Write.value (.config target configuration property) value.toText).filterMap
          (Write.valueAt? (.config target config name)) =
      ((if configuration.eqIgnoringCase config then Table.lookup name entries else none).map
        PropertyValue.toText).toList := by
  rw [List.filterMap_map]
  by_cases hconfig : configuration.eqIgnoringCase config = true
  · rw [if_pos hconfig, ← filterMap_lookup h]
    refine congrArg (List.filterMap · entries) (funext fun entry => ?_)
    simp [Write.valueAt?, Model.Place.same, hconfig]
  · rw [if_neg hconfig]
    refine List.filterMap_eq_nil_iff.2 fun entry _ => ?_
    simp [Write.valueAt?, Model.Place.same, hconfig]

section

variable {table : TargetTable} (h : table.InOrder) (target name : Text)

include h

/-- Among the writes of a target there is at most one of a value for all configurations. -/
theorem targetWrites_base :
    (targetWrites target table).filterMap (Write.valueAt? (.base target name)) =
      ((Table.lookup name table.properties).map PropertyValue.toText).toList := by
  have hconfigs : (table.configs.flatMap fun (config, values) => values.map fun (property, value) =>
      Write.value (.config target config property) value.toText).filterMap
        (Write.valueAt? (.base target name)) = [] := by
    refine List.filterMap_eq_nil_iff.2 fun change hchange => ?_
    obtain ⟨⟨config, values⟩, -, hmem⟩ := List.mem_flatMap.1 hchange
    obtain ⟨entry, -, rfl⟩ := List.mem_map.1 hmem
    rfl
  unfold targetWrites
  rw [List.cons_append, List.filterMap_cons_none rfl, List.filterMap_append,
    written_base h.properties, hconfigs, List.append_nil]

/-- The values for single configurations are written in the order of these. -/
theorem targetWrites_config (config : Text) :
    (targetWrites target table).filterMap (Write.valueAt? (.config target config name)) =
      (table.configs.filterMap fun (configuration, values) =>
        if configuration.eqIgnoringCase config then Table.lookup name values else none).map
          PropertyValue.toText := by
  have hproperties : (table.properties.map fun (property, value) =>
      Write.value (.base target property) value.toText).filterMap
        (Write.valueAt? (.config target config name)) = [] := by
    refine List.filterMap_eq_nil_iff.2 fun change hchange => ?_
    obtain ⟨entry, -, rfl⟩ := List.mem_map.1 hchange
    rfl
  unfold targetWrites
  rw [List.cons_append, List.filterMap_cons_none rfl, List.filterMap_append, hproperties,
    List.nil_append, filterMap_flatMap, List.map_filterMap, List.filterMap_eq_flatMap_toList]
  refine List.flatMap_congr fun entry hentry => ?_
  exact written_config (h.values entry hentry) target name entry.1 config

end

/-- The table of a target writes for that target only. -/
theorem owner_of_mem_targetWrites {name : Text} {table : TargetTable} {change : Write}
    (h : change ∈ targetWrites name table) : change.owner = name := by
  unfold targetWrites at h
  rw [List.cons_append, List.mem_cons, List.mem_append] at h
  rcases h with rfl | hmem | hmem
  · rfl
  · obtain ⟨entry, -, rfl⟩ := List.mem_map.1 hmem
    rfl
  · obtain ⟨config, -, hmem⟩ := List.mem_flatMap.1 hmem
    obtain ⟨entry, -, rfl⟩ := List.mem_map.1 hmem
    rfl

variable {file : ModelFile}

/-- What is written for a place is written by the table of its target. -/
theorem writes_at (h : file.InOrder) (place : Model.Place) :
    file.writes.filterMap (Write.valueAt? place) =
      ((Table.lookup place.target file.targets).map fun table =>
        (targetWrites place.target table).filterMap (Write.valueAt? place)).getD [] := by
  unfold writes
  rw [filterMap_flatMap]
  refine Table.flatMap_of_nodup h.targets.nodup place.target fun entry _ hother => ?_
  refine List.filterMap_eq_nil_iff.2 fun change hchange => ?_
  refine Write.valueAt?_eq_none ?_
  rw [owner_of_mem_targetWrites hchange]
  exact hother

/-- What the model answers about a property can be read off the table of the target. -/
theorem property?_toStore (h : file.InOrder) (target name config : Text) :
    file.toStore.model.property? target name config =
      ((Table.lookup target file.targets).bind fun table => table.value? name config).map
        PropertyValue.toText := by
  have hanswers := (Model.LoggedIn.ofWrites file.writes).answers
  change (Store.ofWrites file.writes).model.property? target name config = _
  rw [hanswers.property, Write.lastAt?, Write.lastAt?, writes_at h, writes_at h]
  cases htable : Table.lookup target file.targets with
  | none => simp [Model.Place.target, htable]
  | some table =>
    have hordered : table.InOrder := h.tables _ (Table.mem_of_lookup htable)
    simp only [Model.Place.target, htable, Option.map_some, Option.getD_some, Option.bind_some]
    rw [targetWrites_config hordered, targetWrites_base hordered, TargetTable.value?, Option.map_or,
      List.getLast?_map]
    cases Table.lookup name table.properties with
    | none => rfl
    | some value => rfl

/-- What a file writes is written by the table of one of its targets. -/
theorem exists_mem_writes {P : Write → Prop} :
    (∃ change ∈ file.writes, P change) ↔
      ∃ entry ∈ file.targets, ∃ change ∈ targetWrites entry.1 entry.2, P change := by
  unfold writes
  simp only [List.mem_flatMap]
  constructor
  · rintro ⟨change, ⟨entry, hentry, hchange⟩, hP⟩
    exact ⟨entry, hentry, change, hchange, hP⟩
  · rintro ⟨entry, hentry, change, hchange, hP⟩
    exact ⟨change, ⟨entry, hentry, hchange⟩, hP⟩

/-- The targets of the model are those of the file, in its order. -/
theorem targetNames_toStore (h : file.InOrder) :
    file.toStore.model.targetNames = file.targets.map Prod.fst := by
  obtain ⟨hordered, hmem⟩ := (Model.LoggedIn.ofWrites file.writes).answers.targetNames
  refine hordered.eq_of_mem_iff h.targets fun name => ?_
  rw [hmem, exists_mem_writes, List.mem_map]
  constructor
  · rintro ⟨entry, hentry, change, hchange, rfl⟩
    exact ⟨entry, hentry, (owner_of_mem_targetWrites hchange).symm⟩
  · rintro ⟨entry, hentry, rfl⟩
    exact ⟨entry, hentry, .target entry.1, List.mem_cons_self, rfl⟩

/-- A property is written by a table that has a value for it, in all configurations or in one. -/
theorem exists_named_targetWrite {target name : Text} {table : TargetTable} :
    (∃ change ∈ targetWrites target table, change.property? = some name) ↔
      name ∈ table.properties.map Prod.fst ∨ ∃ config ∈ table.configs, name ∈ config.2.map Prod.fst := by
  unfold targetWrites
  rw [List.cons_append]
  constructor
  · rintro ⟨change, hchange, hname⟩
    -- The target is mentioned first, then written for all configurations, then for single ones.
    rw [List.mem_cons, List.mem_append] at hchange
    rcases hchange with rfl | hmem | hmem
    · cases hname
    · obtain ⟨entry, hentry, rfl⟩ := List.mem_map.1 hmem
      cases hname
      exact .inl (List.mem_map_of_mem hentry)
    · obtain ⟨config, hconfig, hmem⟩ := List.mem_flatMap.1 hmem
      obtain ⟨entry, hentry, rfl⟩ := List.mem_map.1 hmem
      cases hname
      exact .inr ⟨config, hconfig, List.mem_map_of_mem hentry⟩
  · rintro (hmem | ⟨config, hconfig, hmem⟩)
    · obtain ⟨entry, hentry, rfl⟩ := List.mem_map.1 hmem
      exact ⟨_, List.mem_cons_of_mem _ (List.mem_append_left _ (List.mem_map_of_mem hentry)), rfl⟩
    · obtain ⟨entry, hentry, rfl⟩ := List.mem_map.1 hmem
      have hwritten : Write.value (.config target config.1 entry.1) entry.2.toText ∈
          table.configs.flatMap fun (config, values) => values.map fun (property, value) =>
            .value (.config target config property) value.toText :=
        List.mem_flatMap.2 ⟨config, hconfig, List.mem_map.2 ⟨entry, hentry, rfl⟩⟩
      exact ⟨_, List.mem_cons_of_mem _ (List.mem_append_right _ hwritten), rfl⟩

/-- A property of a target has a name if the table of the target has an entry for it. -/
theorem mem_propertyNames_toStore {target name : Text} :
    name ∈ file.toStore.model.propertyNames target ↔ ∃ table, (target, table) ∈ file.targets ∧
      (name ∈ table.properties.map Prod.fst ∨ ∃ config ∈ table.configs, name ∈ config.2.map Prod.fst) := by
  obtain ⟨-, hmem⟩ := (Model.LoggedIn.ofWrites file.writes).answers.propertyNames target
  refine (hmem name).trans ?_
  rw [exists_mem_writes]
  constructor
  · rintro ⟨⟨owner, table⟩, hentry, change, hchange, rfl, hname⟩
    rw [owner_of_mem_targetWrites hchange]
    exact ⟨table, hentry, exists_named_targetWrite.1 ⟨change, hchange, hname⟩⟩
  · rintro ⟨table, hentry, hname⟩
    obtain ⟨change, hchange, hproperty⟩ := exists_named_targetWrite.2 hname
    exact ⟨(target, table), hentry, change, hchange, owner_of_mem_targetWrites hchange, hproperty⟩

end ModelFile

/-! ## Models and logs -/

/-- A model built by any writes answers as the log of them: a property has the value that was written last
for the configuration, up to case, and if there is none the one written last for all configurations; the
targets and the properties are those ever mentioned, in order and each once. A model file is one such log, with
its tables in the order of their keys, so that what the model answers is what they say. -/
theorem Model.answers_log :
    (∀ log : List Write, (Store.ofWrites log).model.Answers log) ∧
    (∀ read : Toml.Reader, read.Distinct → ∀ (text : Text) (file : ModelFile),
      ModelFile.parseWith read text = .ok file → file.InOrder) ∧
    ∀ file : ModelFile, file.InOrder →
      file.toStore.model.Answers file.writes ∧
      (∀ target name config, file.toStore.model.property? target name config =
        ((Table.lookup target file.targets).bind fun table => table.value? name config).map
          PropertyValue.toText) ∧
      file.toStore.model.targetNames = file.targets.map Prod.fst ∧
      ∀ target name, name ∈ file.toStore.model.propertyNames target ↔
        ∃ table, (target, table) ∈ file.targets ∧ (name ∈ table.properties.map Prod.fst ∨
          ∃ config ∈ table.configs, name ∈ config.2.map Prod.fst) := by
  have hlog (log : List Write) : (Store.ofWrites log).model.Answers log := (LoggedIn.ofWrites log).answers
  refine ⟨hlog, fun read hread text file => ModelFile.inOrder_of_parseWith hread, fun file h => ?_⟩
  exact ⟨hlog file.writes, ModelFile.property?_toStore h, ModelFile.targetNames_toStore h,
    fun target name => ModelFile.mem_propertyNames_toStore⟩

/-- Two spellings of a configuration in one file: the later one in the order of the names counts. -/
theorem Model.answers_log_spellings :
    ∃ file, ModelFile.parseWith Toml.read?
        "[targets.a]\nP=['x','y']\n[targets.a.configs.d]\nP='c'\n[targets.a.configs.D]\nP='d'" =
          .ok file ∧
      file.toStore.model.property? "a" "P" "d" = some "c" ∧
      file.toStore.model.property? "a" "P" "r" = some "x;y" ∧
      file.toStore.model.targetNames = ["a"] := by
  have hread : ModelFile.parseWith Toml.read?
      "[targets.a]\nP=['x','y']\n[targets.a.configs.d]\nP='c'\n[targets.a.configs.D]\nP='d'" =
        .ok ⟨[], [("a", {
          properties := [("P", .list ["x", "y"])]
          configs := [("D", [("P", .one "d")]), ("d", [("P", .one "c")])] })]⟩ := by
    -- The sort by keys is put in a form that the kernel computes.
    delta ModelFile.parseWith ModelFile.ofDocument? ModelFile.targetTable? ModelFile.entries?
    simp only [ModelFile.sortByKey_eq_insertionSort]
    decide +kernel
  obtain ⟨-, hparse, hfile⟩ := answers_log
  obtain ⟨-, hproperty, htargets, -⟩ := hfile _ (hparse _ Toml.distinct_read? _ _ hread)
  refine ⟨_, hread, ?_, ?_, htargets⟩
  · rw [hproperty]
    decide
  · rw [hproperty]
    decide

end BuildExpr
