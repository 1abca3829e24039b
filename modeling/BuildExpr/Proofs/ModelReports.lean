import Mathlib.Data.List.Basic
import BuildExpr.CommandLine.Execution
import BuildExpr.Proofs.Dependence
import BuildExpr.Proofs.ModelFiles

/-!
# Reports on whole models

All properties of a model are evaluated by one engine, which keeps the trees of the values it reads. That
changes no answer: a task that is carried out after any others has the result it has by itself, since all
that they leave behind are faithful trees (`Task.run_eq_alone`). So the order in which the tasks are carried
out does not matter, and the report says about each property, once and in the order of the names, what
evaluating it alone gives (`evalModel_report`). How a model file is written down plays no part in this: the
reader of files is a parameter, of which nothing is assumed.
-/

namespace BuildExpr

/-- The engine that makes no messages of failures. -/
def Engine.silent (engine : Engine) : Engine := { engine with reports := false }

/-- Workspaces with the same targets and properties and with faithful trees. -/
structure Workspace.SameModel (w v : Workspace) : Prop where
  /-- They have the same targets and properties. -/
  model : w.store.model = v.store.model
  /-- The first trees are faithful. -/
  left : w.store.trees.Faithful
  /-- So are the second ones. -/
  right : v.store.trees.Faithful

/-- Without messages, every forest is evaluated like with them. -/
theorem Engine.evaluateForest_silent_twins {engine : Engine} (hbuiltin : engine.registry.added = [])
    (model : Model) (remaining : Nat) (scope : Scope) (chain : Chain) (source : Text)
    (nodes : Forest) :
    Coupled Run.Twins Text (engine.silent.evaluateForest model remaining scope chain source nodes)
      (engine.evaluateForest model remaining scope chain source nodes) := by
  refine Engine.evaluateForest_coupled Run.twins_respected ?_ ?_ ?_ ?_ model remaining scope chain
    source nodes
  · exact hbuiltin
  · rfl
  · rfl
  · exact engine.valueTree_twins

section

variable {engine : Engine} (hbuiltin : engine.registry.added = []) {w v : Workspace} (h : w.SameModel v)

include hbuiltin h

/-- Neither kept trees nor whether failures become messages can be told from an outcome. -/
theorem Compiled.outcome_twins (tree : Tree) (context : Context) (chain : Chain) :
    EndsAlike Run.Twins (outcome engine.silent tree context chain w)
      (outcome engine tree context chain v) := by
  have hlimit : engine.silent.limit = engine.limit := rfl
  have htree : Coupled Run.Twins Text
      (engine.silent.evaluateTree v.store.model (engine.limit - context.depth) context.scope chain tree)
      (engine.evaluateTree v.store.model (engine.limit - context.depth) context.scope chain tree) :=
    (Coupled.congruence Run.twins_respected).evaluateTree
      (Engine.evaluateForest_silent_twins hbuiltin _ _ _ _) tree
  have hstart : Run.Twins (context.toRun w) (context.toRun v) := ⟨rfl, rfl, h.left, h.right⟩
  rw [outcome_eq, outcome_eq, h.model, hlimit]
  rcases (htree hstart).ends with ⟨value, r, s, hr, hs, hrs⟩ | ⟨failure, r, s, hr, hs, hrs⟩
  · rw [hr, hs]
    exact .ok value hrs
  · rw [hr, hs]
    exact .error failure
      ⟨congrArg (fun f => { f with failed := true }) hrs.footprint, hrs.depth, hrs.left, hrs.right⟩

/-- An expression is the same after an evaluation, and the trees that are left are faithful again. -/
theorem Compiled.evaluate_twins (c : Compiled) (inputs : Inputs) (chain : Chain) :
    (c.evaluate engine.silent inputs chain w).1 = (c.evaluate engine inputs chain v).1 ∧
      (c.evaluate engine.silent inputs chain w).2.SameModel v := by
  rw [evaluate_eq, evaluate_eq]
  split
  · rcases (Compiled.outcome_twins hbuiltin h c.tree (c.context engine inputs) chain).ends with
      ⟨output, r, s, hr, hs, hrs⟩ | ⟨failure, r, s, hr, hs, hrs⟩
    · have hcontext : c.context engine.silent inputs = c.context engine inputs := rfl
      rw [hcontext, hr, hs]
      refine ⟨?_, h.model, hrs.left, h.right⟩
      simp only [conclude, hrs.footprint]
    · have hcontext : c.context engine.silent inputs = c.context engine inputs := rfl
      rw [hcontext, hr, hs]
      exact ⟨rfl, h.model, hrs.left, h.right⟩
  · exact ⟨rfl, h⟩

/-- So is every property that is read. -/
theorem PropertyReader.evaluateProperty_twins (reader : PropertyReader) (property : Text) :
    (reader.evaluateProperty engine.silent property w).1 =
        (reader.evaluateProperty engine property v).1 ∧
      (reader.evaluateProperty engine.silent property w).2.1 =
        (reader.evaluateProperty engine property v).2.1 ∧
      (reader.evaluateProperty engine.silent property w).2.2.SameModel v := by
  unfold evaluateProperty
  rw [h.model]
  cases v.store.model.property? reader.head property reader.config with
  | none => exact ⟨rfl, rfl, h⟩
  | some value =>
    -- The caches may hold different trees, but both fetch the tree of the value.
    have htree : (engine.silent.fetch w.store.trees value).1 = (engine.fetch v.store.trees value).1 :=
      (engine.silent.fetch_fst h.left value).trans (engine.fetch_fst h.right value).symm
    have hcompile : (engine.silent.compileValue value w).1 = (engine.compileValue value v).1 :=
      congrArg engine.compileTree htree
    have hfetched : (engine.silent.compileValue value w).2.SameModel (engine.compileValue value v).2 :=
      ⟨h.model, engine.silent.fetch_snd h.left value, engine.fetch_snd h.right value⟩
    obtain ⟨hc, hw⟩ := Compiled.evaluate_twins hbuiltin hfetched (engine.compileValue value v).1
      reader.inputs [⟨reader.head, chainProperty property, value⟩]
    dsimp only [run]
    rw [hcompile, hc]
    exact ⟨rfl, rfl, hw.model, hw.left, h.right⟩

end

namespace Model

/-- A property that has a value is one of the names. -/
theorem mem_names_of_property? {m : Model} {target name config value : Text}
    (h : m.property? target name config = some value) :
    target ∈ m.targetNames ∧ name ∈ m.propertyNames target := by
  constructor
  · rw [targetNames, Text.sort, List.mem_mergeSort, ← Table.contains_iff, Table.contains]
    cases hget : m.targets.get? target with
    | some p => rfl
    | none =>
      rw [property?, propertiesOf, hget] at h
      cases h
  · rw [propertyNames, List.mem_eraseDups, Text.sort, List.mem_mergeSort, Properties.names,
      List.mem_append]
    rw [property?, Properties.value?, Option.or_eq_some_iff] at h
    rcases h with hconfig | ⟨-, hbase⟩
    · have hmem : (config.upper, name) ∈ (m.propertiesOf target).overrides.keys := by
        rw [← Table.contains_iff, Table.contains, hconfig]
        rfl
      exact .inr (List.mem_map_of_mem hmem)
    · refine .inl ?_
      rw [← Table.contains_iff, Table.contains, hbase]
      rfl

end Model

/-- In a store built by some writes no target has two entries, and the kept trees are faithful. -/
theorem Store.writeAll_sound {s : Store} (hdistinct : s.model.targets.Distinct)
    (hfaithful : s.trees.Faithful) (writes : List Write) :
    (s.writeAll writes).model.targets.Distinct ∧ (s.writeAll writes).trees.Faithful := by
  induction writes generalizing s with
  | nil => exact ⟨hdistinct, hfaithful⟩
  | cons change rest ih =>
    exact ih (write_distinct hdistinct change) (write_faithful hfaithful change)

/-- The store of a file has no target twice and no trees yet. -/
theorem ModelFile.toStore_sound (file : ModelFile) :
    file.toStore.model.targets.Distinct ∧ file.toStore.trees.Faithful :=
  Store.writeAll_sound Table.distinct_empty TreeCache.faithful_empty file.writes

namespace CommandLine

/-! ## Tasks in any order -/

namespace Task

/-- What comes of the task by itself: a new engine with the settings evaluates the property over the
model, of which no tree has been kept. -/
def alone (settings : EngineSettings) (language : Option Text) (m : Model) (task : Task) :
    Option (Except Failure Text) :=
  (task.run settings.engine language { store := { model := m } }).1

variable (settings : EngineSettings) (language : Option Text) (m : Model)

/-- Something comes of a task exactly if the property has a value in the configuration. -/
theorem alone_eq_none_iff (task : Task) :
    task.alone settings language m = none ↔ m.property? task.target task.property task.config = none := by
  unfold alone run PropertyReader.evaluateProperty
  dsimp only
  cases m.property? task.target task.property task.config with
  | none => exact ⟨fun _ => rfl, fun _ => rfl⟩
  | some value =>
    dsimp only
    split
    · exact ⟨nofun, nofun⟩
    · exact ⟨nofun, nofun⟩

/-- After anything that leaves the model as it is and keeps faithful trees, the result of a task is the
one it has alone, and the same holds again. -/
theorem run_eq_alone (task : Task) {w : Workspace}
    (h : w.SameModel { store := { model := m } }) :
    (task.run settings.engine.silent language w).1 = task.alone settings language m ∧
      (task.run settings.engine.silent language w).2.SameModel { store := { model := m } } := by
  obtain ⟨houtput, hreader, hafter⟩ := PropertyReader.evaluateProperty_twins
    (rfl : settings.engine.registry.added = []) h
    { head := task.target, config := task.config, language } task.property
  unfold alone run
  dsimp only
  -- Nothing but what is known of the two readings is needed from here on.
  generalize PropertyReader.evaluateProperty settings.engine.silent _ _ w = left at *
  generalize PropertyReader.evaluateProperty settings.engine _ _ _ = right at *
  obtain ⟨output, reader, after⟩ := left
  obtain ⟨output', reader', after'⟩ := right
  dsimp only at houtput hreader hafter
  subst houtput hreader
  cases output with
  | none => exact ⟨rfl, hafter⟩
  | some output =>
    dsimp only
    cases reader.compiled.bind Compiled.failure with
    | none => exact ⟨rfl, hafter⟩
    | some failure => exact ⟨rfl, hafter⟩

/-- The results of tasks carried out in any order are those they have alone. -/
theorem runAll_eq_alone (order : List Task) {w : Workspace}
    (h : w.SameModel { store := { model := m } }) :
    runAll settings.engine.silent language order w =
      order.map fun task => (task, task.alone settings language m) := by
  induction order generalizing w with
  | nil => rfl
  | cons task rest ih =>
    obtain ⟨hresult, hafter⟩ := task.run_eq_alone settings language m h
    unfold runAll
    dsimp only
    rw [ih hafter, hresult, List.map_cons]

/-- The same, put in the order of the tasks again. -/
theorem results_eq_alone {tasks order : List Task}
    {results : List (Task × Option (Except Failure Text))} {w : Workspace}
    (h : w.SameModel { store := { model := m } })
    (hresults : results.Perm (runAll settings.engine.silent language order w))
    (htasks : results.map Prod.fst = tasks) :
    results = tasks.map fun task => (task, task.alone settings language m) := by
  rw [runAll_eq_alone settings language m order h] at hresults
  have hresult : ∀ result ∈ results, (result.1, result.1.alone settings language m) = result := by
    intro result hmem
    obtain ⟨task, -, rfl⟩ := List.mem_map.1 (hresults.mem_iff.1 hmem)
    rfl
  rw [← htasks, List.map_map]
  exact ((List.map_congr_left hresult).trans (List.map_id results)).symm

/-! ## The walk through a model -/

/-- The tasks of evaluating all properties of a model in some configurations, each with the place of
its configuration. -/
def placed (m : Model) (configs : List Text) : List (Task × Nat) :=
  m.targetNames.flatMap fun target =>
    (m.propertyNames target).flatMap fun property =>
      configs.zipIdx.map fun (config, place) => (⟨target, property, config⟩, place)

/-- Without their places these are the tasks of a model. -/
theorem map_fst_placed (configs : List Text) : (placed m configs).map Prod.fst = ofModel m configs := by
  have hconfigs (target property : Text) :
      configs.zipIdx.map (fun c => (⟨target, property, c.1⟩ : Task)) =
        configs.map fun config => ⟨target, property, config⟩ := by
    have hfst := congrArg (List.map fun config => (⟨target, property, config⟩ : Task))
      (List.zipIdx_map_fst 0 configs)
    rwa [List.map_map] at hfst
  unfold placed ofModel
  simp only [List.map_flatMap, List.map_map, Function.comp_def, hconfigs]

/-- They are those of its targets, properties and listed configurations, each configuration with its
place. -/
theorem mem_placed {configs : List Text} {task : Task} {place : Nat} :
    (task, place) ∈ placed m configs ↔
      task.target ∈ m.targetNames ∧ task.property ∈ m.propertyNames task.target ∧
        configs[place]? = some task.config := by
  simp only [placed, List.mem_flatMap, List.mem_map, Prod.mk.injEq]
  constructor
  · rintro ⟨target, htarget, property, hproperty, ⟨config, index⟩, hplace, rfl, rfl⟩
    exact ⟨htarget, hproperty, List.mem_zipIdx_iff_getElem?.1 hplace⟩
  · rintro ⟨htarget, hproperty, hconfig⟩
    exact ⟨_, htarget, _, hproperty, (task.config, place), List.mem_zipIdx_iff_getElem?.2 hconfig,
      rfl, rfl⟩

/-- A task that comes before another one: by target, then by property, then by the place of the
configuration. -/
def Before (a b : Task × Nat) : Prop :=
  a.1.target.Before b.1.target ∨ a.1.target = b.1.target ∧
    (a.1.property.Before b.1.property ∨ a.1.property = b.1.property ∧ a.2 < b.2)

/-- The walk takes each task once, and in order. -/
theorem before_placed (hdistinct : m.targets.Distinct) (configs : List Text) :
    (placed m configs).Pairwise Before := by
  unfold placed
  -- Within a property by place, within a target by property, and then by target.
  refine List.pairwise_flatMap.2 ⟨fun target _ => List.pairwise_flatMap.2 ⟨fun property _ => ?_, ?_⟩, ?_⟩
  · have hplaces : (configs.zipIdx.map Prod.snd).Pairwise (· < ·) := by
      rw [List.zipIdx_map_snd]
      exact List.pairwise_lt_range'
    rw [List.pairwise_map] at hplaces ⊢
    exact hplaces.imp fun hlt => .inr ⟨rfl, .inr ⟨rfl, hlt⟩⟩
  · refine (Text.before_eraseDups (Text.pairwise_sort _)).imp fun hbefore a ha b hb => ?_
    obtain ⟨_, -, rfl⟩ := List.mem_map.1 ha
    obtain ⟨_, -, rfl⟩ := List.mem_map.1 hb
    exact .inr ⟨rfl, .inl hbefore⟩
  · refine (Text.before_sort hdistinct).imp fun hbefore a ha b hb => ?_
    simp only [List.mem_flatMap, List.mem_map] at ha hb
    obtain ⟨_, -, _, -, rfl⟩ := ha
    obtain ⟨_, -, _, -, rfl⟩ := hb
    exact .inl hbefore

end Task

/-! ## Reports -/

/-- What a report has to say about a property in the configuration that is listed at a place. -/
structure Entry where
  /-- The target, the property and the configuration. -/
  task : Task
  /-- The place of the configuration. -/
  place : Nat
  /-- The value, or why there is none. -/
  answer : Except Failure Text

namespace Entry

/-- An entry that comes before another one: by target, then by property, then by the place of the
configuration. -/
def Before (e e' : Entry) : Prop := Task.Before (e.task, e.place) (e'.task, e'.place)

/-- The line for a value. -/
def line? (e : Entry) : Option Text := e.task.line? (some e.answer)

/-- The message about a failure. -/
def diagnostic? (e : Entry) : Option Text := e.task.diagnostic? (some e.answer)

/-- The entries that a walk through a model comes to. -/
def all (settings : EngineSettings) (language : Option Text) (m : Model) (configs : List Text) :
    List Entry :=
  (Task.placed m configs).filterMap fun (task, place) =>
    (task.alone settings language m).map fun answer => ⟨task, place, answer⟩

variable (settings : EngineSettings) (language : Option Text) (m : Model) (configs : List Text)

/-- The entries come in order. -/
theorem before_all (hdistinct : m.targets.Distinct) :
    (all settings language m configs).Pairwise Before := by
  unfold all
  refine (Task.before_placed m hdistinct configs).filterMap _ fun a b hbefore e he e' he' => ?_
  obtain ⟨_, -, rfl⟩ := Option.map_eq_some_iff.1 he
  obtain ⟨_, -, rfl⟩ := Option.map_eq_some_iff.1 he'
  exact hbefore

/-- There is an entry for every property with a value in a listed configuration. -/
theorem mem_all {e : Entry} :
    e ∈ all settings language m configs ↔
      configs[e.place]? = some e.task.config ∧ e.task.alone settings language m = some e.answer := by
  simp only [all, List.mem_filterMap, Option.map_eq_some_iff]
  constructor
  · rintro ⟨⟨task, place⟩, hplaced, answer, hanswer, rfl⟩
    exact ⟨((Task.mem_placed m).1 hplaced).2.2, hanswer⟩
  · rintro ⟨hconfig, hanswer⟩
    obtain ⟨value, hvalue⟩ :
        ∃ value, m.property? e.task.target e.task.property e.task.config = some value := by
      rw [← Option.ne_none_iff_exists', ne_eq, ← Task.alone_eq_none_iff settings language, hanswer]
      nofun
    obtain ⟨htarget, hproperty⟩ := Model.mem_names_of_property? hvalue
    exact ⟨(e.task, e.place), (Task.mem_placed m).2 ⟨htarget, hproperty, hconfig⟩, e.answer, hanswer,
      rfl⟩

/-- What a report makes of the result of each task that has one, it makes of the entries. -/
theorem filterMap_all (say : Task → Option (Except Failure Text) → Option Text)
    (hsay : ∀ task, say task none = none) :
    ((Task.ofModel m configs).map fun task => (task, task.alone settings language m)).filterMap
        (fun result => say result.1 result.2) =
      (all settings language m configs).filterMap fun e => say e.task (some e.answer) := by
  rw [← Task.map_fst_placed, List.map_map, List.filterMap_map, all, List.filterMap_filterMap]
  refine congrArg (fun pick => List.filterMap pick (Task.placed m configs)) (funext fun a => ?_)
  dsimp only [Function.comp]
  cases a.1.alone settings language m with
  | none => exact hsay a.1
  | some answer => rfl

/-- There is a message exactly if some entry is a failure. -/
theorem exists_message_iff (entries : List Entry) :
    (∃ message, message ∈ entries.filterMap diagnostic?) ↔
      ∃ e ∈ entries, ∃ failure, e.answer = .error failure := by
  constructor
  · rintro ⟨message, hmem⟩
    obtain ⟨e, he, hsay⟩ := List.mem_filterMap.1 hmem
    cases hanswer : e.answer with
    | ok value =>
      unfold diagnostic? at hsay
      rw [hanswer] at hsay
      cases hsay
    | error failure => exact ⟨e, he, failure, hanswer⟩
  · rintro ⟨e, he, failure, hanswer⟩
    refine ⟨List.flatten [e.task.label, ": ", failure.message], List.mem_filterMap.2 ⟨e, he, ?_⟩⟩
    unfold diagnostic?
    rw [hanswer]
    rfl

end Entry

/-- A report on a model says the same whatever the order in which the tasks are carried out by one
engine with one cache. By target, property and place of the configuration, it has an entry for each
property that has a value in a listed configuration, with the answer that one gets for that property
alone. Each value is a line of the output; each failure is a message, unless messages are not wanted,
and makes the report one of failure. All this is so whichever reader reads the document. -/
theorem evalModel_report {read : Toml.Reader} {contents : Option Text} {file : ModelFile}
    (hfile : loadModel read contents = .ok file) (configs : List Text) (language : Option Text)
    (settings : EngineSettings) :
    let m := file.toStore.model
    let listed := configurations configs file.configurations
    let tasks := Task.ofModel m listed
    let engine : Engine := { settings.engine with reports := false }
    ∃ (report : Report) (entries : List Entry),
      evalModel read contents configs language settings = .ok report ∧
      (∀ order results, order.Perm tasks →
        results.Perm (Task.runAll engine language order { store := file.toStore }) →
        results.map Prod.fst = tasks → Task.report settings.quiet results = report) ∧
      entries.Pairwise Entry.Before ∧
      (∀ e : Entry, e ∈ entries ↔
        listed[e.place]? = some e.task.config ∧ e.task.alone settings language m = some e.answer) ∧
      (∀ task : Task, task.alone settings language m = none ↔
        m.property? task.target task.property task.config = none) ∧
      report.output = Text.join ['\n'] (entries.filterMap Entry.line?) ∧
      report.diagnostics = (if settings.quiet then [] else entries.filterMap Entry.diagnostic?) ∧
      (report.failed = true ↔ ∃ e ∈ entries, ∃ failure, e.answer = .error failure) := by
  intro m listed tasks engine
  obtain ⟨hdistinct, hfaithful⟩ := file.toStore_sound
  have hstart : Workspace.SameModel { store := file.toStore } { store := { model := m } } :=
    ⟨rfl, hfaithful, TreeCache.faithful_empty⟩
  have hanyOrder (order : List Task) (results : List (Task × Option (Except Failure Text)))
      (hresults : results.Perm (Task.runAll engine language order { store := file.toStore }))
      (htasks : results.map Prod.fst = tasks) :
      results = tasks.map fun task => (task, task.alone settings language m) :=
    Task.results_eq_alone settings language m hstart hresults htasks
  have hrun : Task.runAll engine language tasks { store := file.toStore } =
      tasks.map fun task => (task, task.alone settings language m) :=
    Task.runAll_eq_alone settings language m tasks hstart
  have hmessages := Entry.filterMap_all settings language m listed Task.diagnostic? fun _ => rfl
  refine ⟨Task.report settings.quiet (tasks.map fun task => (task, task.alone settings language m)),
    Entry.all settings language m listed, ?_, ?_, Entry.before_all settings language m listed hdistinct,
    fun e => Entry.mem_all settings language m listed, Task.alone_eq_none_iff settings language m,
    ?_, ?_, ?_⟩
  · unfold evalModel
    rw [hfile]
    exact congrArg (fun results => Except.ok (Task.report settings.quiet results)) hrun
  · intro order results _ hresults htasks
    rw [hanyOrder order results hresults htasks]
  · exact congrArg (Text.join ['\n'])
      (Entry.filterMap_all settings language m listed Task.line? fun _ => rfl)
  · exact congrArg (fun messages => if settings.quiet then [] else messages) hmessages
  · -- There is a message for each failure, wanted or not.
    rw [Task.report, hmessages, Bool.not_eq_true', List.isEmpty_eq_false_iff_exists_mem]
    exact Entry.exists_message_iff _

/-- A model with a property that has a value, one that fails, and one that is set in one configuration
only. -/
theorem evalModel_report_mixed :
    ∃ (report : Report) (entries : List Entry),
      evalModel Toml.read?
          (some "[targets.app]\nL=\"$<X>\"\nP=\"$<CONFIG>\"\n[targets.app.configs.R]\nQ=\"z\"")
          ["D", "R"] none {} = .ok report ∧
      entries.Pairwise Entry.Before ∧ report.failed = true ∧
      (∃ e ∈ entries, e.task = ⟨"app", "P", "R"⟩ ∧ e.line? = some "app.P [R] = R") ∧
      ∀ e ∈ entries, e.task ≠ ⟨"app", "Q", "D"⟩ := by
  have hload :
      loadModel Toml.read?
          (some "[targets.app]\nL=\"$<X>\"\nP=\"$<CONFIG>\"\n[targets.app.configs.R]\nQ=\"z\"") =
        .ok
          { configurations := []
            targets := [("app",
              { properties := [("L", .one "$<X>"), ("P", .one "$<CONFIG>")]
                configs := [("R", [("Q", .one "z")])] })] } := by
    -- The sort by keys is put in a form that the kernel computes.
    delta loadModel ModelFile.parseWith ModelFile.ofDocument? ModelFile.targetTable? ModelFile.entries?
    simp only [ModelFile.sortByKey_eq_insertionSort]
    decide +kernel
  generalize hfile : (ModelFile.mk _ _) = file at hload
  have hvalue :
      Task.line? ⟨"app", "P", "R"⟩ (Task.alone {} none file.toStore.model ⟨"app", "P", "R"⟩) =
        some "app.P [R] = R" := by
    rw [← hfile]
    decide +kernel
  have hfailure :
      (Task.diagnostic? ⟨"app", "L", "D"⟩
        (Task.alone {} none file.toStore.model ⟨"app", "L", "D"⟩)).isSome = true := by
    rw [← hfile]
    decide +kernel
  obtain ⟨report, entries, hreport, -, hbefore, hmem, hnone, -, -, hfailed⟩ :=
    evalModel_report hload ["D", "R"] none {}
  refine ⟨report, entries, hreport, hbefore, hfailed.2 ?_, ?_, ?_⟩
  · cases halone : Task.alone {} none file.toStore.model ⟨"app", "L", "D"⟩ with
    | none =>
      rw [halone] at hfailure
      cases hfailure
    | some answer =>
      cases answer with
      | ok value =>
        rw [halone] at hfailure
        cases hfailure
      | error failure =>
        exact ⟨⟨⟨"app", "L", "D"⟩, 0, .error failure⟩, (hmem _).2 ⟨rfl, halone⟩, failure, rfl⟩
  · cases halone : Task.alone {} none file.toStore.model ⟨"app", "P", "R"⟩ with
    | none =>
      rw [halone] at hvalue
      cases hvalue
    | some answer =>
      rw [halone] at hvalue
      exact ⟨⟨⟨"app", "P", "R"⟩, 1, answer⟩, (hmem _).2 ⟨rfl, halone⟩, rfl, hvalue⟩
  · intro e he htask
    have hunset : file.toStore.model.property? "app" "Q" "D" = none := by
      rw [← hfile]
      decide +kernel
    have hanswer := ((hmem e).1 he).2
    rw [htask, (hnone ⟨"app", "Q", "D"⟩).2 hunset] at hanswer
    cases hanswer

end CommandLine

end BuildExpr
