import Mathlib.Data.List.Perm.Subperm
import BuildExpr.Proofs.Lookups
import BuildExpr.Proofs.ModelWrites
import BuildExpr.Proofs.PropertyRecursion

/-!
# The trees that are kept are those of stored values

Trees are kept by their text, not by the property they belong to, and a text may be stored in many
places. When a value is replaced its text is forgotten even if another place still has it: that costs
a second reading, but it leaves no tree behind whose text is not stored any more. Evaluations keep the
tree of a text only where they have found it in the model. So from an empty model on, whatever is
written and evaluated, every tree that is kept is that of a value the model has
(`session_trees_stored`).

The invariant is `TreeCache.StoredIn`. It also says that no text has two entries, so there are no more
trees than values.
-/

namespace BuildExpr

open Compiled (finalRun)

/-! ## Values and the places they are stored in -/

namespace Model

/-- A text is the value stored in some place. -/
def Stores (m : Model) (text : Text) : Prop := ∃ place, m.stored? place = some text

/-- The value of a property is stored in one of its two places. -/
theorem stores_of_property? {m : Model} {target name config value : Text}
    (h : m.property? target name config = some value) : m.Stores value := by
  unfold property? Properties.value? at h
  rw [Option.or_eq_some_iff] at h
  rcases h with hconfig | ⟨-, hbase⟩
  · exact ⟨.config target config name, hconfig⟩
  · exact ⟨.base target name, hbase⟩

/-- What is stored in a place is one of the values of the model. -/
theorem Stores.exists_mem_values {m : Model} {text : Text} (h : m.Stores text) :
    ∃ v ∈ m.values, v.text = text := by
  obtain ⟨place, hplace⟩ := h
  cases place with
  | base target name =>
    exact ⟨_, mem_values_of_mem_entries (.inl (Table.mem_entries_of_get? hplace)), rfl⟩
  | config target config name =>
    exact ⟨_, mem_values_of_mem_entries (.inr ⟨_, Table.mem_entries_of_get? hplace⟩), rfl⟩

end Model

/-! ## Caches -/

/-- Erasing an entry repeats no key. -/
theorem Table.Distinct.erase {κ α : Type} [DecidableEq κ] {t : Table κ α} (h : t.Distinct) (k : κ) :
    (t.erase k).Distinct :=
  (List.filter_sublist.map Prod.fst).nodup h

/-- The keys after one has been erased are the others. -/
theorem Table.mem_keys_erase {κ α : Type} [DecidableEq κ] {t : Table κ α} {k j : κ} :
    j ∈ (t.erase k).keys ↔ j ∈ t.keys ∧ j ≠ k := by
  rw [← contains_iff, ← contains_iff, contains, contains, get?_erase]
  by_cases hk : k = j
  · simp [hk]
  · simp [hk, Ne.symm hk]

/-- Every tree of a cache is that of a value that the model has, and no text has two entries. -/
structure TreeCache.StoredIn (cache : TreeCache) (m : Model) : Prop where
  /-- No text has two entries. -/
  distinct : Table.Distinct cache
  /-- Every text is stored in the model. -/
  stored : ∀ source ∈ Table.keys cache, m.Stores source

namespace TreeCache.StoredIn

variable {cache : TreeCache} {m : Model}

/-- The tree of a stored value may be kept. -/
theorem insert (h : cache.StoredIn m) {source : Text} (hsource : m.Stores source)
    (kept : Nat × Tree) : TreeCache.StoredIn (Table.insert cache source kept) m where
  distinct := h.distinct.insert source kept
  stored other hother := by
    rcases Table.mem_keys_insert.1 hother with rfl | hmem
    · exact hsource
    · exact h.stored other hmem

/-- Fetching the tree of a stored value adds no other tree. -/
theorem fetch (h : cache.StoredIn m) {source : Text} (hsource : m.Stores source) (limit : Nat) :
    (cache.fetch limit source).2.StoredIn m := by
  unfold TreeCache.fetch
  dsimp only
  cases Table.get? cache source with
  | none => exact h.insert hsource _
  | some kept =>
    obtain ⟨under, tree⟩ := kept
    dsimp only
    split
    · exact h
    · exact h.insert hsource _

/-- A write forgets the text it replaces, and every other text is still stored. -/
theorem write {s : Store} (h : s.trees.StoredIn s.model) (change : Write) :
    (s.write change).trees.StoredIn (s.write change).model := by
  cases change with
  | target name =>
    refine ⟨h.distinct, fun source hsource => ?_⟩
    obtain ⟨place, hplace⟩ := h.stored source hsource
    exact ⟨place, (s.model.stored?_addTarget name place).trans hplace⟩
  | value place value =>
    -- A text that is not replaced stays in the place that it has been found in.
    have hkept {source : Text} (hsource : source ∈ Table.keys s.trees)
        (hreplaced : s.model.stored? place ≠ some source) :
        (s.model.store place value).Stores source := by
      obtain ⟨other, hother⟩ := h.stored source hsource
      refine ⟨other, (s.model.stored?_store_of_ne value ?_).trans hother⟩
      rw [hother]
      exact hreplaced.symm
    unfold Store.write
    dsimp only
    cases hold : s.model.stored? place with
    | none =>
      refine ⟨h.distinct, fun source hsource => hkept hsource ?_⟩
      rw [hold]
      nofun
    | some old =>
      refine ⟨h.distinct.erase old, fun source hsource => ?_⟩
      obtain ⟨hmem, hne⟩ := Table.mem_keys_erase.1 hsource
      refine hkept hmem ?_
      rw [hold]
      exact fun heq => hne (Option.some.inj heq).symm

end TreeCache.StoredIn

/-! ## Evaluations -/

/-- An evaluation that keeps trees of stored values only. -/
def Eval.KeepsStored (m : Model) {α : Type} (x : Eval α) : Prop :=
  ∀ ⦃r : Run⦄, r.trees.StoredIn m → (finalRun (x r)).trees.StoredIn m

namespace Eval.KeepsStored

variable {m : Model} {α β : Type} {x : Eval α}

/-- Keeping trees of stored values only is a kind of progress. -/
theorem progress (m : Model) :
    Run.Progress fun r s => r.trees.StoredIn m → s.trees.StoredIn m where
  refl _ h := h
  trans h h' hr := h' (h hr)
  within h := h

/-- What goes on from a value matters only for the values there can be. -/
theorem bind_of {f : α → Eval β} (hx : KeepsStored m x)
    (hf : ∀ run a after, x run = .ok a after → KeepsStored m (f a)) : KeepsStored m (x >>= f) :=
  (progress m).bind hx fun run a after h _ => hf run a after h (r := after)

/-- A footprint of its own makes no difference to the trees. -/
theorem apart (hx : KeepsStored m x) : KeepsStored m (Eval.apart x) := by
  intro run hrun
  rw [Eval.finalRun_apart]
  exact hx (r := { run with footprint := {} }) hrun

/-- Nor does a change to the footprint. -/
theorem touch (change : Footprint → Footprint) : KeepsStored m (Eval.touch change) :=
  fun _ hrun => hrun

end Eval.KeepsStored

open Eval (KeepsStored)

/-- The property as a relation, which says nothing about its second side. -/
def Eval.keepingStored (m : Model) (α : Type) (x _ : Eval α) : Prop := KeepsStored m x

/-- Keeping trees of stored values only is kept when evaluations are put together. -/
theorem keepingStored_congruence (m : Model) : Congruence (Eval.keepingStored m) :=
  (KeepsStored.progress m).congruence

section

variable {m : Model} {engine : Engine} {remaining : Nat} {call call' : Call}
  (h : Call.Parallel (Eval.keepingStored m) (fun _ _ _ _ => True) m.Stores
    (engine.hostAt m remaining) (engine.hostAt m remaining) call call')

include h

/-- The value that a call of `TARGET_PROPERTY` evaluates is a stored one. -/
theorem Operation.targetProperty_keepsStored : KeepsStored m (targetProperty.evaluate call) := by
  have hR := keepingStored_congruence m
  have hseek : KeepsStored m (seek call) := seek_fixed hR (fun change _ => .touch change) call
  unfold targetProperty
  dsimp only
  -- A congruence forgets where a value comes from, and here it matters that seeking has found it.
  refine hseek.bind_of fun run sought after hsought => ?_
  cases sought with
  | text value => exact fun _ hrun => hrun
  | value lookup stored =>
    obtain ⟨target, property, -, -, hfound⟩ := seek_eq_ok hsought
    obtain ⟨-, hstored⟩ := Sought.eq_of_ofValue hfound.symm
    rw [h.left] at hstored ⊢
    exact KeepsStored.apart
      (h.value _ _ call.scope call.chain stored (Model.stores_of_property? hstored) trivial)

/-- A built-in operation keeps trees of stored values only. -/
theorem Builtin.evaluate_keepsStored (b : Builtin) : KeepsStored m (b.operation.evaluate call) := by
  have hR := keepingStored_congruence m
  by_cases hproperty : b = .targetProperty
  · subst hproperty
    exact Operation.targetProperty_keepsStored h
  · by_cases hfeatures : b = .compileFeatures
    · subst hfeatures
      exact Operation.compileFeatures_fixed hR (fun change _ => .touch change) (fun _ _ => .touch _)
        call
    · exact Builtin.evaluate_fixed hR (fun change _ => .touch change) hproperty hfeatures call

end

/-- Fetching the tree of a stored value keeps trees of stored values only. -/
theorem Engine.fetch_storedIn (engine : Engine) {m : Model} {trees : TreeCache}
    (h : trees.StoredIn m) {value : Text} (hvalue : m.Stores value) :
    (engine.fetch trees value).2.StoredIn m := by
  unfold fetch
  split
  · exact h.fetch hvalue engine.limit
  · exact h

section

variable {engine : Engine} (hbuiltin : engine.registry.added = []) (m : Model)

include hbuiltin

/-- So does the evaluation of a forest. -/
theorem Engine.evaluateForest_keepsStored (remaining : Nat) (scope : Scope) (chain : Chain)
    (source : Text) (nodes : Forest) :
    KeepsStored m (engine.evaluateForest m remaining scope chain source nodes) := by
  have hR := keepingStored_congruence m
  change Eval.keepingStored m Text (engine.evaluateForest m remaining scope chain source nodes)
    (engine.evaluateForest m remaining scope chain source nodes)
  refine Engine.evaluateForest_parallel (S := fun _ _ _ _ => True) (V := m.Stores) hR rfl ?_ 0 ?_
    remaining ?_ source nodes trivial
  · intro forest _ hforest value hvalue
    have hfetch : KeepsStored m (engine.valueTree value) :=
      fun _ hrun => engine.fetch_storedIn hrun hvalue
    exact hfetch.bind_of fun _ tree _ _ => hR.fixed_evaluateTree hforest tree
  · intro scope chain _ _ source nodes _
    -- No operation may be opened any more: what is written fails and fetches nothing.
    refine hR.fixed_evaluateWith (fun _ _ span run hrun => ?_) nodes
    rw [Eval.finalRun_inExpression]
    exact hrun
  · intro name op hfind inner _ call call' hcall
    obtain ⟨b, -, rfl⟩ := Registry.exists_builtin hbuiltin hfind
    exact b.evaluate_keepsStored hcall

/-- So does that of the tree of an expression. -/
theorem Compiled.outcome_keepsStored (tree : Tree) (context : Context) (chain : Chain)
    {w : Workspace} (h : w.store.trees.StoredIn w.store.model) :
    (finalRun (outcome engine tree context chain w)).trees.StoredIn w.store.model := by
  have hR := keepingStored_congruence w.store.model
  have htree : KeepsStored w.store.model (engine.evaluateTree w.store.model
      (engine.limit - context.depth) context.scope chain tree) :=
    hR.fixed_evaluateTree
      (fun source nodes => Engine.evaluateForest_keepsStored hbuiltin _ _ _ _ source nodes) tree
  have hfinal := htree (r := context.toRun w) h
  rw [outcome_eq]
  cases hresult : engine.evaluateTree w.store.model (engine.limit - context.depth) context.scope
      chain tree (context.toRun w) with
  | ok value run =>
    rw [hresult] at hfinal
    exact hfinal
  | error failure run =>
    rw [hresult] at hfinal
    exact hfinal

end

/-- A workspace whose trees are all those of values its model has. -/
def Workspace.KeepsStored (w : Workspace) : Prop := w.store.trees.StoredIn w.store.model

section

variable {engine : Engine} (hbuiltin : engine.registry.added = []) {w : Workspace}
  (h : w.KeepsStored)

include hbuiltin h

/-- So does evaluating an expression in a context. -/
theorem Compiled.evaluateIn_keepsStored (c : Compiled) (context : Context) (chain : Chain) :
    (c.evaluateIn engine context chain w).2.2.KeepsStored := by
  unfold evaluateIn
  split
  · exact Compiled.outcome_keepsStored hbuiltin c.tree context chain h
  · exact h

/-- So does any task that is carried out. -/
theorem Task.carryOut_keepsStored (task : Task) : (task.carryOut engine w).2.KeepsStored := by
  cases task with
  | text source inputs chain =>
    change (engine.evaluateText source inputs chain w).2.KeepsStored
    unfold Engine.evaluateText
    split
    · exact h
    · have hafter := Compiled.evaluateIn_keepsStored hbuiltin h (engine.compile source)
        ((engine.compile source).context engine inputs) chain
      dsimp only
      split
      · exact hafter
      · exact hafter
  | compiled c inputs chain => exact Compiled.evaluateIn_keepsStored hbuiltin h c _ chain
  | inContext c context chain => exact Compiled.evaluateIn_keepsStored hbuiltin h c context chain
  | expression reader source name =>
    exact Compiled.evaluateIn_keepsStored hbuiltin h (engine.compile source) _ _
  | property reader name =>
    change (reader.evaluateProperty engine name w).2.2.KeepsStored
    unfold PropertyReader.evaluateProperty
    cases hvalue : w.store.model.property? reader.head name reader.config with
    | none => exact h
    | some value =>
      -- The stored value itself is fetched, and then those it looks up.
      have hfetched : (engine.compileValue value w).2.KeepsStored :=
        engine.fetch_storedIn h (Model.stores_of_property? hvalue)
      exact Compiled.evaluateIn_keepsStored hbuiltin hfetched (engine.compileValue value w).1 _ _

end

/-! ## Sessions -/

/-- A step that does not work on the kept trees itself. -/
def Step.isIndirect : Step → Bool
  | write _ | evaluate _ => true
  | fetch .. | invalidate _ | clear => false

/-- Writing and evaluating keep trees of stored values only. -/
theorem Step.run_keepsStored {w : Workspace} (h : w.KeepsStored) {step : Step}
    (hindirect : step.isIndirect = true) : (step.run w).KeepsStored := by
  cases step with
  | write change => exact TreeCache.StoredIn.write h change
  | evaluate request => exact Task.carryOut_keepsStored request.builtin h request.task
  | fetch limit source => cases hindirect
  | invalidate source => cases hindirect
  | clear => cases hindirect

/-- So does a whole run of such steps. -/
theorem foldl_run_keepsStored {w : Workspace} (h : w.KeepsStored) {steps : List Step}
    (hindirect : ∀ step ∈ steps, step.isIndirect = true) :
    (steps.foldl Step.run w).KeepsStored := by
  induction steps generalizing w with
  | nil => exact h
  | cons step rest ih =>
    rw [List.forall_mem_cons] at hindirect
    exact ih (Step.run_keepsStored h hindirect.1) hindirect.2

/-- There are no more trees than stored values. -/
theorem TreeCache.StoredIn.length_le {cache : TreeCache} {m : Model} (h : cache.StoredIn m) :
    Table.size cache ≤ m.values.length := by
  have hsubset : Table.keys cache ⊆ m.values.map StoredValue.text := fun source hsource => by
    obtain ⟨v, hv, htext⟩ := (h.stored source hsource).exists_mem_values
    exact List.mem_map.2 ⟨v, hv, htext⟩
  have hlength := (List.subperm_of_subset h.distinct hsubset).length_le
  rwa [Table.keys, List.length_map, List.length_map] at hlength

/-- From an empty model on, whatever is written and evaluated, every text whose tree is kept is the
value stored in some place, there are no more trees than stored values, and a text that is no value of
the model has no tree. -/
theorem session_trees_stored (steps : List Step)
    (hindirect : ∀ step ∈ steps, step.isIndirect = true) :
    let store := (session steps).store
    (∀ source, store.trees.contains source = true →
      ∃ place, store.model.stored? place = some source) ∧
    store.trees.size ≤ store.model.values.length ∧
    ∀ source, (∀ v ∈ store.model.values, v.text ≠ source) → store.trees.get? source = none := by
  have hempty : Workspace.KeepsStored {} := ⟨List.nodup_nil, nofun⟩
  have hstored : (session steps).store.trees.StoredIn (session steps).store.model :=
    foldl_run_keepsStored hempty hindirect
  refine ⟨fun source hsource => hstored.stored source (Table.contains_iff.1 hsource),
    hstored.length_le, fun source hnone => ?_⟩
  refine Table.lookup_eq_none fun hmem => ?_
  obtain ⟨v, hv, htext⟩ := (hstored.stored source hmem).exists_mem_values
  exact hnone v hv htext

/-- One text in two places: after an evaluation that reads it there is one tree. Replacing one of the
values forgets the tree, although the other place still has the text. -/
theorem session_trees_stored_shared :
    let value : Text := "$<1:x>"
    let evaluated : List Step :=
      [.write (.value (.base "app" "P") value), .write (.value (.config "app" "Debug" "P") value),
        .evaluate ⟨{}, rfl,
          .text "$<TARGET_PROPERTY:app,P>" { config := "Debug" } []⟩]
    let replaced := evaluated ++ [.write (.value (.base "app" "P") "y")]
    (session evaluated).store.trees.keys = [value] ∧
      (∃ place, (session evaluated).store.model.stored? place = some value) ∧
      (session evaluated).store.trees.get? "$<TARGET_PROPERTY:app,P>" = none ∧
      (session replaced).store.trees.keys = [] ∧
      (session replaced).store.model.stored? (.config "app" "Debug" "P") = some value := by
  intro value evaluated replaced
  have hkeys : (session evaluated).store.trees.keys = [value] := by decide +kernel
  have hother : ∀ v ∈ (session evaluated).store.model.values, v.text ≠ "$<TARGET_PROPERTY:app,P>" := by
    decide +kernel
  obtain ⟨hstored, -, hnone⟩ := session_trees_stored evaluated (by decide)
  -- The tree is that of a stored value, and the text that was evaluated is stored nowhere.
  refine ⟨hkeys, hstored value (Table.contains_iff.2 ?_), hnone _ hother, ?_, ?_⟩
  · rw [hkeys]
    exact List.mem_singleton_self value
  · decide +kernel
  · decide +kernel

end BuildExpr
