import Mathlib.Data.List.Induction
import BuildExpr.Store
import BuildExpr.Proofs.TextOrder

/-!
# What a model has after some writes

A model keeps its values in two tables for each target, one for all configurations and one for single ones,
and knows nothing of the writes it has come from. All the same the writes say what is in it: in each place
the last value that was written there (`LoggedIn.stored`), where two places for single configurations are the
same if the names of these differ in case only, and of targets and properties all that were ever mentioned.
One more write keeps this (`LoggedIn.write`), so it holds after any number of them (`LoggedIn.ofWrites`), and
all answers of the model follow from it (`LoggedIn.answers`).
-/

namespace BuildExpr

/-! ## Names in upper case -/

namespace Text

/-- The upper case of a character: of ASCII letters the number is lower by 32. -/
theorem toNat_toUpper (c : Char) :
    c.toUpper.toNat = if 97 ≤ c.toNat ∧ c.toNat ≤ 122 then c.toNat - 32 else c.toNat := by
  have hle (n : UInt32) : n ≤ c.val ↔ n.toNat ≤ c.toNat := UInt32.le_iff_toNat_le
  have hge (n : UInt32) : c.val ≤ n ↔ c.toNat ≤ n.toNat := UInt32.le_iff_toNat_le
  unfold Char.toUpper
  by_cases h : 'a'.val ≤ c.val ∧ c.val ≤ 'z'.val
  · rw [dif_pos h]
    rw [hle, hge] at h
    have hletter : 97 ≤ c.toNat ∧ c.toNat ≤ 122 := h
    rw [if_pos hletter]
    -- The distance is negative, so that it is added modulo the size of a word.
    have hdistance : ('A'.val - 'a'.val).toNat = 2 ^ 32 - 32 := by decide
    show (c.val + ('A'.val - 'a'.val)).toNat = c.toNat - 32
    rw [UInt32.toNat_add, hdistance]
    show (c.toNat + (2 ^ 32 - 32)) % 2 ^ 32 = c.toNat - 32
    omega
  · rw [dif_neg h]
    rw [hle, hge] at h
    have hother : ¬ (97 ≤ c.toNat ∧ c.toNat ≤ 122) := h
    rw [if_neg hother]

/-- The lower case of a character: of ASCII letters the number is higher by 32. -/
theorem toNat_toLower (c : Char) :
    c.toLower.toNat = if 65 ≤ c.toNat ∧ c.toNat ≤ 90 then c.toNat + 32 else c.toNat := by
  have hle (n : UInt32) : c.val ≥ n ↔ n.toNat ≤ c.toNat := UInt32.le_iff_toNat_le
  have hge (n : UInt32) : c.val ≤ n ↔ c.toNat ≤ n.toNat := UInt32.le_iff_toNat_le
  unfold Char.toLower
  by_cases h : c.val ≥ 'A'.val ∧ c.val ≤ 'Z'.val
  · rw [dif_pos h]
    rw [hle, hge] at h
    have hletter : 65 ≤ c.toNat ∧ c.toNat ≤ 90 := h
    rw [if_pos hletter]
    have hdistance : ('a'.val - 'A'.val).toNat = 32 := by decide
    show (c.val + ('a'.val - 'A'.val)).toNat = c.toNat + 32
    rw [UInt32.toNat_add, hdistance]
    show (c.toNat + 32) % 2 ^ 32 = c.toNat + 32
    omega
  · rw [dif_neg h]
    rw [hle, hge] at h
    have hother : ¬ (65 ≤ c.toNat ∧ c.toNat ≤ 90) := h
    rw [if_neg hother]

/-- Upper case brings together the characters that lower case does. -/
theorem toUpper_eq_toUpper_iff {c d : Char} : c.toUpper = d.toUpper ↔ c.toLower = d.toLower := by
  rw [← Char.toNat_inj, ← Char.toNat_inj, toNat_toUpper, toNat_toUpper, toNat_toLower, toNat_toLower]
  constructor
  · intro h
    split at h <;> split at h <;> split <;> split <;> omega
  · intro h
    split at h <;> split at h <;> split <;> split <;> omega

/-- Texts in upper case are the same exactly if the texts are equal up to case. -/
theorem upper_eq_upper_iff {a b : Text} : a.upper = b.upper ↔ a.eqIgnoringCase b = true := by
  rw [eqIgnoringCase, beq_iff_eq]
  unfold upper lower
  induction a generalizing b with
  | nil => cases b <;> simp
  | cons c a ih =>
    cases b with
    | nil => simp
    | cons d b => rw [List.map_cons, List.map_cons, List.map_cons, List.map_cons, List.cons.injEq,
        List.cons.injEq, toUpper_eq_toUpper_iff, ih]

end Text

/-! ## Values and the places they are stored in -/

namespace Model

namespace Place

/-- The target that a place belongs to. -/
def target : Place → Text
  | .base owner _ | .config owner _ _ => owner

/-- The name of the property that a place is for. -/
def property : Place → Text
  | .base _ name | .config _ _ name => name

/-- Two places are one: the same, or for configurations whose names differ in case only. -/
def same : Place → Place → Bool
  | .base owner name, .base owner' name' => owner = owner' && name = name'
  | .config owner configuration name, .config owner' configuration' name' =>
    owner = owner' && name = name' && configuration.eqIgnoringCase configuration'
  | .base _ _, .config _ _ _ | .config _ _ _, .base _ _ => false

/-- Two places that are one have the same target. -/
theorem target_eq_of_same {place other : Place} (h : place.same other = true) :
    place.target = other.target := by
  cases place with
  | base target name =>
    cases other with
    | base target' name' =>
      simp only [same, Bool.and_eq_true, decide_eq_true_eq] at h
      exact h.1
    | config target' config' name' => cases h
  | config target config name =>
    cases other with
    | base target' name' => cases h
    | config target' config' name' =>
      simp only [same, Bool.and_eq_true, decide_eq_true_eq] at h
      exact h.1.1

end Place

/-- New properties of a target are those of that target only. -/
theorem propertiesOf_insert (m : Model) (target other : Text) (p : Properties) :
    propertiesOf ⟨m.targets.insert target p⟩ other =
      if target = other then p else m.propertiesOf other := by
  unfold propertiesOf
  rw [Table.get?_insert]
  split <;> rfl

/-- What new properties of a target do not change about it, they change about no target. -/
theorem propertiesOf_insert_of_eq {α : Type} (read : Properties → α) (m : Model) {target : Text}
    {p : Properties} (h : read p = read (m.propertiesOf target)) (other : Text) :
    read (propertiesOf ⟨m.targets.insert target p⟩ other) = read (m.propertiesOf other) := by
  rw [propertiesOf_insert]
  by_cases htarget : target = other
  · rw [if_pos htarget, h, htarget]
  · rw [if_neg htarget]

/-- Adding a target changes the properties of none. -/
theorem propertiesOf_addTarget (m : Model) (name target : Text) :
    (m.addTarget name).propertiesOf target = m.propertiesOf target :=
  propertiesOf_insert_of_eq id m rfl target

/-- Adding a target stores nothing. -/
theorem stored?_addTarget (m : Model) (name : Text) (place : Place) :
    (m.addTarget name).stored? place = m.stored? place := by
  cases place with
  | base target property => rw [stored?, propertiesOf_addTarget, stored?]
  | config target config property => rw [stored?, propertiesOf_addTarget, stored?]

/-- Places that are one have one value. -/
theorem stored?_of_same {m : Model} {place other : Place} (h : place.same other = true) :
    m.stored? place = m.stored? other := by
  cases place with
  | base target name =>
    cases other with
    | base target' name' =>
      simp only [Place.same, Bool.and_eq_true, decide_eq_true_eq] at h
      rw [h.1, h.2]
    | config target' config' name' => cases h
  | config target config name =>
    cases other with
    | base target' name' => cases h
    | config target' config' name' =>
      simp only [Place.same, Bool.and_eq_true, decide_eq_true_eq, ← Text.upper_eq_upper_iff] at h
      unfold stored?
      dsimp only
      rw [h.1.1, h.1.2, h.2]

/-- A value that is stored in a place is found there, and nothing else changes. -/
theorem stored?_store (m : Model) (place other : Place) (value : Text) :
    (m.store place value).stored? other =
      if place.same other then some value else m.stored? other := by
  -- A place for all configurations is never the same as one for a single one.
  cases place with
  | base target name =>
    cases other with
    | base target' name' =>
      unfold stored? store
      dsimp only
      rw [propertiesOf_insert]
      by_cases htarget : target = target'
      · subst htarget
        simp [Place.same]
      · simp [Place.same, htarget]
    | config target' config' name' =>
      exact propertiesOf_insert_of_eq (fun p => p.overrides.get? (config'.upper, name')) m (by rfl)
        target'
  | config target config name =>
    cases other with
    | base target' name' =>
      exact propertiesOf_insert_of_eq (fun p => p.base.get? name') m (by rfl) target'
    | config target' config' name' =>
      unfold stored? store
      dsimp only
      rw [propertiesOf_insert]
      by_cases htarget : target = target'
      · subst htarget
        simp [Place.same, Text.upper_eq_upper_iff, and_comm]
      · simp [Place.same, htarget]

/-- A value stored in a place does not change what is stored where another value is. -/
theorem stored?_store_of_ne (m : Model) {place other : Place} (value : Text)
    (h : m.stored? other ≠ m.stored? place) :
    (m.store place value).stored? other = m.stored? other := by
  rw [stored?_store, if_neg fun hsame => h (stored?_of_same hsame).symm]

/-- The target that a value is stored for is there afterwards, as are those that were. -/
theorem mem_targets_store {m : Model} {place : Place} {value name : Text} :
    name ∈ (m.store place value).targets.keys ↔ name = place.target ∨ name ∈ m.targets.keys := by
  cases place with
  | base target property => exact Table.mem_keys_insert
  | config target config property => exact Table.mem_keys_insert

/-- The property that a value is stored for has a name afterwards, as have those that had. -/
theorem mem_names_store {m : Model} {place : Place} {value target name : Text} :
    name ∈ ((m.store place value).propertiesOf target).names ↔
      target = place.target ∧ name = place.property ∨ name ∈ (m.propertiesOf target).names := by
  have hinsert {p : Properties} (hnew : ∀ other, other ∈ p.names ↔
      other = place.property ∨ other ∈ (m.propertiesOf place.target).names) :
      name ∈ (propertiesOf ⟨m.targets.insert place.target p⟩ target).names ↔
        target = place.target ∧ name = place.property ∨ name ∈ (m.propertiesOf target).names := by
    rw [propertiesOf_insert]
    by_cases htarget : place.target = target
    · rw [if_pos htarget, hnew, htarget]
      simp
    · rw [if_neg htarget]
      simp [Ne.symm htarget]
  cases place with
  | base owner property =>
    refine hinsert fun other => ?_
    simp only [Properties.names, List.mem_append, Table.mem_keys_insert, or_assoc]
    rfl
  | config owner configuration property =>
    refine hinsert fun other => ?_
    simp only [Properties.names, List.mem_append, List.mem_map, Table.mem_keys_insert]
    -- The new key is found by its name; all others were there before.
    constructor
    · rintro (hbase | ⟨key, rfl | hkey, rfl⟩)
      · exact .inr (.inl hbase)
      · exact .inl rfl
      · exact .inr (.inr ⟨key, hkey, rfl⟩)
    · rintro (rfl | hbase | ⟨key, hkey, rfl⟩)
      · exact .inr ⟨_, .inl rfl, rfl⟩
      · exact .inl hbase
      · exact .inr ⟨key, .inr hkey, rfl⟩

/-- The model after a change. -/
def after (m : Model) : Write → Model
  | .target name => m.addTarget name
  | .value place value => m.store place value

end Model

/-- What a change makes of the model does not depend on the trees. -/
theorem Store.model_write (s : Store) (change : Write) :
    (s.write change).model = s.model.after change := by
  cases change with
  | target name => rfl
  | value place value =>
    unfold write
    dsimp only
    cases s.model.stored? place with
    | none => rfl
    | some old => rfl

/-- A change gives no target two entries. -/
theorem Store.write_distinct {s : Store} (h : s.model.targets.Distinct) (change : Write) :
    (s.write change).model.targets.Distinct := by
  rw [model_write]
  rcases change with name | ⟨⟨target, name⟩ | ⟨target, config, name⟩, value⟩
  · exact h.insert name _
  · exact h.insert target _
  · exact h.insert target _

/-! ## Logs -/

namespace Write

/-- The target that a change mentions. -/
def owner : Write → Text
  | .target name => name
  | .value place _ => place.target

/-- The name of the property that a change mentions, if it does. -/
def property? : Write → Option Text
  | .target _ => none
  | .value place _ => some place.property

/-- The value that a change stores in a place, if it does. -/
def valueAt? (place : Model.Place) : Write → Option Text
  | .target _ => none
  | .value written text => if written.same place then some text else none

/-- A change that mentions another target stores nothing in a place. -/
theorem valueAt?_eq_none {change : Write} {place : Model.Place} (h : change.owner ≠ place.target) :
    change.valueAt? place = none := by
  cases change with
  | target name => rfl
  | value written text => exact if_neg fun hsame => h (Model.Place.target_eq_of_same hsame)

/-- The value that is stored in a place last. -/
def lastAt? (log : List Write) (place : Model.Place) : Option Text :=
  (log.filterMap (valueAt? place)).getLast?

/-- What is stored in a place last is what the last change stores there, or else what was stored
before it. -/
theorem lastAt?_concat (log : List Write) (change : Write) (place : Model.Place) :
    lastAt? (log ++ [change]) place = (change.valueAt? place).or (lastAt? log place) := by
  unfold lastAt?
  rw [List.filterMap_append, List.getLast?_append]
  cases hvalue : change.valueAt? place with
  | none => simp [hvalue]
  | some value => simp [hvalue]

end Write

namespace Model

/-- A model has come about by the changes of a log. -/
structure LoggedIn (m : Model) (log : List Write) : Prop where
  /-- In each place there is the last value that was stored in it. -/
  stored : ∀ place, m.stored? place = Write.lastAt? log place
  /-- The targets are those that were mentioned. -/
  target : ∀ name, name ∈ m.targets.keys ↔ ∃ change ∈ log, change.owner = name
  /-- So are the properties of each target. -/
  property : ∀ target name, name ∈ (m.propertiesOf target).names ↔
    ∃ change ∈ log, change.owner = target ∧ change.property? = some name
  /-- No target has two entries. -/
  distinct : m.targets.Distinct

namespace LoggedIn

/-- The empty model has come about by no changes. -/
theorem empty : LoggedIn {} [] where
  stored place := by cases place <;> rfl
  target name := by simp [Table.keys]
  property target name := by simp [propertiesOf, Table.get?, Table.lookup, Properties.names, Table.keys]
  distinct := Table.distinct_empty

variable {log : List Write}

/-- One more change to the model is one more in the log. -/
theorem write {s : Store} (h : s.model.LoggedIn log) (change : Write) :
    (s.write change).model.LoggedIn (log ++ [change]) := by
  have hdistinct := Store.write_distinct h.distinct change
  rw [Store.model_write] at hdistinct ⊢
  -- A change is mentioned in the longer log if it is in the log or is the last one.
  have hlast {P : Write → Prop} :
      (∃ w ∈ log ++ [change], P w) ↔ P change ∨ ∃ w ∈ log, P w := by
    simp only [List.mem_append, List.mem_singleton, or_and_right, exists_or, exists_eq_left, or_comm]
  cases change with
  | target name =>
    refine ⟨fun place => ?_, fun other => ?_, fun target other => ?_, hdistinct⟩
    · rw [Write.lastAt?_concat, Write.valueAt?, Option.none_or, after, stored?_addTarget, h.stored]
    · rw [hlast, ← h.target, after, addTarget, Table.mem_keys_insert]
      exact or_congr_left eq_comm
    · rw [hlast, ← h.property, after, propertiesOf_addTarget]
      simp [Write.property?]
  | value place value =>
    refine ⟨fun other => ?_, fun other => ?_, fun target other => ?_, hdistinct⟩
    · rw [after, stored?_store, Write.lastAt?_concat, Write.valueAt?, h.stored]
      split <;> rfl
    · rw [hlast, ← h.target, after, mem_targets_store]
      exact or_congr_left eq_comm
    · rw [hlast, ← h.property, after, mem_names_store]
      simp [Write.owner, Write.property?, eq_comm]

/-- A model that is built by some changes has come about by them. -/
theorem ofWrites (log : List Write) : (Store.ofWrites log).model.LoggedIn log := by
  induction log using List.reverseRecOn with
  | nil => exact empty
  | append_singleton log change ih =>
    have hstep : Store.ofWrites (log ++ [change]) = (Store.ofWrites log).write change := by
      rw [Store.ofWrites, Store.writeAll, List.foldl_append]
      rfl
    rw [hstep]
    exact ih.write change

end LoggedIn

/-- A model answers as a log says. -/
structure Answers (m : Model) (log : List Write) : Prop where
  /-- A property has the value that was stored last for the configuration, up to case, or if there is none
  the one that was stored last for all of them. -/
  property : ∀ target name config, m.property? target name config =
    (Write.lastAt? log (.config target config name)).or (Write.lastAt? log (.base target name))
  /-- There are the targets that were mentioned. -/
  hasTarget : ∀ name, m.hasTarget name = true ↔ ∃ change ∈ log, change.owner = name
  /-- Their names are in order, and no other names are among them. -/
  targetNames : m.targetNames.Pairwise Text.Before ∧
    ∀ name, name ∈ m.targetNames ↔ ∃ change ∈ log, change.owner = name
  /-- So are those of the properties that were mentioned for a target. -/
  propertyNames : ∀ target, (m.propertyNames target).Pairwise Text.Before ∧
    ∀ name, name ∈ m.propertyNames target ↔
      ∃ change ∈ log, change.owner = target ∧ change.property? = some name

/-- A model answers as the log says that it has come about by. -/
theorem LoggedIn.answers {m : Model} {log : List Write} (h : m.LoggedIn log) : m.Answers log where
  property target name config := by
    rw [← h.stored, ← h.stored]
    rfl
  hasTarget name := by rw [hasTarget, Table.contains_iff, h.target]
  targetNames := by
    refine ⟨Text.before_sort h.distinct, fun name => ?_⟩
    rw [Model.targetNames, Text.sort, List.mem_mergeSort, h.target]
  propertyNames target := by
    refine ⟨Text.before_eraseDups (Text.pairwise_sort _), fun name => ?_⟩
    rw [Model.propertyNames, List.mem_eraseDups, Text.sort, List.mem_mergeSort, h.property]

end Model

end BuildExpr
