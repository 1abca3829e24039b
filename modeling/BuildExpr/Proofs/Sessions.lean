import BuildExpr.Proofs.ModelWrites
import BuildExpr.Proofs.TreeCache

/-!
# Sessions

A session works in one workspace: values are written, trees are fetched and forgotten, and requests
for evaluations are carried out, each by an engine with the built-in operations and a nesting limit of
its own. However all this is mixed, the kept trees stay faithful, so nobody can tell from an answer
or from a message whether trees are kept (`session_transparent`).

The model of a session is the storage in memory (`Model`), whether trees are kept with it or not.
Statements about all sessions are about such models, not about storages that find targets in another
way.
-/

namespace BuildExpr

/-- Workspaces that differ in their trees only, of which the first are faithful. -/
structure Workspace.SameButTrees (w v : Workspace) : Prop where
  /-- They have the same targets and properties. -/
  model : w.store.model = v.store.model
  /-- The same messages have been sent. -/
  messages : w.messages = v.messages
  /-- The first trees are faithful. -/
  faithful : w.store.trees.Faithful

/-- A workspace with faithful trees is the same as itself. -/
theorem Workspace.SameButTrees.refl {w : Workspace} (h : w.store.trees.Faithful) :
    w.SameButTrees w := ⟨rfl, rfl, h⟩

section

variable {engine : Engine} (hbuiltin : engine.registry.added = []) {w v : Workspace}
  (h : w.SameButTrees v)

include hbuiltin h

/-- The tree of an expression is evaluated to the same end without kept trees. -/
theorem Compiled.outcome_withoutCache (tree : Tree) (context : Context) (chain : Chain) :
    EndsAlike Run.SameButTrees (outcome engine tree context chain w)
      (outcome engine.withoutCache tree context chain v) := by
  unfold outcome
  rw [← h.model]
  have hreports : engine.withoutCache.reports = engine.reports := rfl
  have hcoupled := Engine.evaluateReporting_coupled Run.sameButTrees_respected hreports hbuiltin rfl
    rfl engine.valueTree_withoutCache w.store.model (engine.limit - context.depth) context.scope chain
    tree
  -- Both runs start from the same context, so they differ in their trees only.
  exact hcoupled ⟨rfl, rfl, h.messages, h.faithful⟩

/-- An evaluation in a context leaves the same expression, the same context and the same messages. -/
theorem Compiled.evaluateIn_withoutCache (c : Compiled) (context : Context) (chain : Chain) :
    (c.evaluateIn engine context chain w).1 = (c.evaluateIn engine.withoutCache context chain v).1 ∧
      (c.evaluateIn engine context chain w).2.1 =
        (c.evaluateIn engine.withoutCache context chain v).2.1 ∧
      (c.evaluateIn engine context chain w).2.2.SameButTrees
        (c.evaluateIn engine.withoutCache context chain v).2.2 := by
  unfold evaluateIn
  split
  · rcases (Compiled.outcome_withoutCache hbuiltin h c.tree context chain).ends with
      ⟨output, r, s, hr, hs, hrs⟩ | ⟨failure, r, s, hr, hs, hrs⟩
    · dsimp only
      rw [hr, hs]
      refine ⟨?_, ?_, h.model, hrs.messages, hrs.faithful⟩
      · simp only [conclude, hrs.footprint]
      · simp only [Context.after, finalRun, hrs.footprint, hrs.depth]
    · dsimp only
      rw [hr, hs]
      refine ⟨rfl, ?_, h.model, hrs.messages, hrs.faithful⟩
      simp only [Context.after, finalRun, hrs.footprint, hrs.depth]
  · exact ⟨rfl, rfl, h⟩

/-- So the expression is left with the same result. -/
theorem Compiled.evaluate_withoutCache (c : Compiled) (inputs : Inputs) (chain : Chain) :
    (c.evaluate engine inputs chain w).1 = (c.evaluate engine.withoutCache inputs chain v).1 ∧
      (c.evaluate engine inputs chain w).2.SameButTrees
        (c.evaluate engine.withoutCache inputs chain v).2 := by
  obtain ⟨hc, -, hw⟩ := Compiled.evaluateIn_withoutCache hbuiltin h c _ chain
  exact ⟨hc, hw⟩

end

/-- Something to be evaluated. -/
inductive Task where
  /-- A text. -/
  | text (source : Text) (inputs : Inputs) (chain : Chain)
  /-- An expression that has been read before, and perhaps evaluated. -/
  | compiled (c : Compiled) (inputs : Inputs) (chain : Chain)
  /-- Such an expression, in a context. -/
  | inContext (c : Compiled) (context : Context) (chain : Chain)
  /-- An expression as the value of a property. -/
  | expression (reader : PropertyReader) (expression property : Text)
  /-- The stored value of a property. -/
  | property (reader : PropertyReader) (property : Text)

namespace Task

/-- What one gets for a task. An expression holds its output, its failure and its footprint, and a
reader holds the expression it has evaluated. -/
def Answer : Task → Type
  | text .. => Except Failure Text
  | compiled .. => Compiled
  | inContext .. => Compiled × Context
  | expression .. => Text × PropertyReader
  | property .. => Option Text × PropertyReader

/-- A task carried out by an engine, with the workspace afterwards. -/
def carryOut (engine : Engine) (w : Workspace) : (task : Task) → task.Answer × Workspace
  | text source inputs chain => engine.evaluateText source inputs chain w
  | compiled c inputs chain => c.evaluate engine inputs chain w
  | inContext c context chain =>
    let (c, context, w) := c.evaluateIn engine context chain w
    ((c, context), w)
  | expression reader source name =>
    let (output, reader, w) := reader.evaluate engine source name w
    ((output, reader), w)
  | property reader name =>
    let (output, reader, w) := reader.evaluateProperty engine name w
    ((output, reader), w)

end Task

section

variable {engine : Engine} (hbuiltin : engine.registry.added = []) {w v : Workspace}
  (h : w.SameButTrees v)

include hbuiltin h

/-- So is a caller who evaluates a text. -/
theorem Engine.evaluateText_withoutCache (source : Text) (inputs : Inputs) (chain : Chain) :
    (engine.evaluateText source inputs chain w).1 =
        (engine.withoutCache.evaluateText source inputs chain v).1 ∧
      (engine.evaluateText source inputs chain w).2.SameButTrees
        (engine.withoutCache.evaluateText source inputs chain v).2 := by
  obtain ⟨hc, hw⟩ := Compiled.evaluate_withoutCache hbuiltin h (engine.compile source) inputs chain
  have hcompile : engine.withoutCache.compile source = engine.compile source := rfl
  unfold evaluateText
  rw [hcompile]
  dsimp only
  rw [← hc]
  split
  · exact ⟨rfl, h⟩
  · split
    · exact ⟨rfl, hw⟩
    · exact ⟨rfl, hw⟩

/-- So is a reader of properties after evaluating an expression for one. -/
theorem PropertyReader.run_withoutCache (reader : PropertyReader) (c : Compiled)
    (expression property : Text) :
    (reader.run engine c expression property w).1 =
        (reader.run engine.withoutCache c expression property v).1 ∧
      (reader.run engine c expression property w).2.1 =
        (reader.run engine.withoutCache c expression property v).2.1 ∧
      (reader.run engine c expression property w).2.2.SameButTrees
        (reader.run engine.withoutCache c expression property v).2.2 := by
  obtain ⟨hc, hw⟩ := Compiled.evaluate_withoutCache hbuiltin h c reader.inputs
    [⟨reader.head, chainProperty property, expression⟩]
  unfold run
  dsimp only
  exact ⟨by rw [hc], by rw [hc], hw⟩

/-- So is a reader of properties after evaluating one that is stored. -/
theorem PropertyReader.evaluateProperty_withoutCache (reader : PropertyReader) (property : Text) :
    (reader.evaluateProperty engine property w).1 =
        (reader.evaluateProperty engine.withoutCache property v).1 ∧
      (reader.evaluateProperty engine property w).2.1 =
        (reader.evaluateProperty engine.withoutCache property v).2.1 ∧
      (reader.evaluateProperty engine property w).2.2.SameButTrees
        (reader.evaluateProperty engine.withoutCache property v).2.2 := by
  unfold evaluateProperty
  rw [← h.model]
  cases w.store.model.property? reader.head property reader.config with
  | none => exact ⟨rfl, rfl, h⟩
  | some value =>
    -- The stored value is fetched first, through the cache on one side and past it on the other.
    have hcompile : (engine.compileValue value w).1 = (engine.withoutCache.compileValue value v).1 := by
      unfold Engine.compileValue
      dsimp only
      rw [engine.fetch_fst h.faithful]
      rfl
    have hfetched : (engine.compileValue value w).2.SameButTrees
        (engine.withoutCache.compileValue value v).2 :=
      ⟨h.model, h.messages, engine.fetch_snd h.faithful value⟩
    obtain ⟨houtput, hreader, hw⟩ := PropertyReader.run_withoutCache hbuiltin hfetched reader
      (engine.compileValue value w).1 value property
    dsimp only
    rw [← hcompile]
    exact ⟨congrArg some houtput, hreader, hw⟩

/-- Whether trees are kept cannot be told from what one gets for a task. -/
theorem Task.carryOut_withoutCache (task : Task) :
    (task.carryOut engine w).1 = (task.carryOut engine.withoutCache v).1 ∧
      (task.carryOut engine w).2.SameButTrees (task.carryOut engine.withoutCache v).2 := by
  cases task with
  | text source inputs chain =>
    exact Engine.evaluateText_withoutCache hbuiltin h source inputs chain
  | compiled c inputs chain => exact Compiled.evaluate_withoutCache hbuiltin h c inputs chain
  | inContext c context chain =>
    obtain ⟨hc, hcontext, hw⟩ := Compiled.evaluateIn_withoutCache hbuiltin h c context chain
    exact ⟨Prod.ext hc hcontext, hw⟩
  | expression reader source name =>
    obtain ⟨houtput, hreader, hw⟩ := PropertyReader.run_withoutCache hbuiltin h reader
      (engine.compile source) source name
    exact ⟨Prod.ext houtput hreader, hw⟩
  | property reader name =>
    obtain ⟨houtput, hreader, hw⟩ :=
      PropertyReader.evaluateProperty_withoutCache hbuiltin h reader name
    exact ⟨Prod.ext houtput hreader, hw⟩

end

/-- A task for an engine that has the built-in operations only. -/
structure Request where
  /-- The engine. -/
  engine : Engine
  /-- No operations have been added to it. -/
  builtin : engine.registry.added = []
  /-- What it is to evaluate. -/
  task : Task

namespace Request

/-- What one gets for a request, with the workspace afterwards. -/
def carryOut (request : Request) (w : Workspace) : request.task.Answer × Workspace :=
  request.task.carryOut request.engine w

/-- The same request to an engine that sees no cache. -/
def withoutCache (request : Request) : Request :=
  { request with engine := request.engine.withoutCache, builtin := request.builtin }

end Request

/-- A step of a session. -/
inductive Step where
  /-- A target is added or a value is stored. -/
  | write (write : Write)
  /-- The tree of a text under a limit is fetched. -/
  | fetch (limit : Nat) (source : Text)
  /-- The tree of a text is forgotten. -/
  | invalidate (source : Text)
  /-- All trees are forgotten. -/
  | clear
  /-- Something is evaluated. -/
  | evaluate (request : Request)

namespace Step

/-- The workspace after a step. -/
def run (w : Workspace) : Step → Workspace
  | write change => { w with store := w.store.write change }
  | fetch limit source =>
    { w with store := { w.store with trees := (w.store.trees.fetch limit source).2 } }
  | invalidate source => { w with store := { w.store with trees := w.store.trees.erase source } }
  | clear => { w with store := { w.store with trees := {} } }
  | evaluate request => (request.carryOut w).2

/-- The same step where no engine sees a cache. -/
def withoutCache : Step → Step
  | evaluate request => evaluate request.withoutCache
  | step => step

end Step

/-- The workspace after some steps, in order, from an empty model on. -/
def session (steps : List Step) : Workspace := steps.foldl Step.run {}

/-- Writing keeps trees faithful, since it only ever forgets some. -/
theorem Store.write_faithful {s : Store} (h : s.trees.Faithful) (change : Write) :
    (s.write change).trees.Faithful := by
  cases change with
  | target name => exact h
  | value place value =>
    unfold write
    dsimp only
    cases s.model.stored? place with
    | none => exact h
    | some old => exact h.erase old

/-- A write changes the model in a way that does not depend on the trees. -/
theorem Store.write_model {s t : Store} (h : s.model = t.model) (change : Write) :
    (s.write change).model = (t.write change).model := by
  rw [model_write, model_write, h]

/-- A step keeps workspaces alike, of which the second may belong to engines that see no cache. -/
theorem Step.run_withoutCache {w v : Workspace} (h : w.SameButTrees v) (step : Step) :
    (Step.run w step).SameButTrees (Step.run v step.withoutCache) := by
  cases step with
  | write change =>
    exact ⟨Store.write_model h.model change, h.messages, Store.write_faithful h.faithful change⟩
  | fetch limit source => exact ⟨h.model, h.messages, h.faithful.fetch_snd limit source⟩
  | invalidate source => exact ⟨h.model, h.messages, h.faithful.erase source⟩
  | clear => exact ⟨h.model, h.messages, TreeCache.faithful_empty⟩
  | evaluate request => exact (Task.carryOut_withoutCache request.builtin h request.task).2

/-- So does a whole run of steps. -/
theorem foldl_run_withoutCache {w v : Workspace} (h : w.SameButTrees v) (steps : List Step) :
    (steps.foldl Step.run w).SameButTrees ((steps.map Step.withoutCache).foldl Step.run v) := by
  induction steps generalizing w v with
  | nil => exact h
  | cons step rest ih => exact ih (Step.run_withoutCache h step)

/-- At any point of a session, the workspace is the same but for its trees as without kept trees. -/
theorem session_sameButTrees (steps : List Step) :
    (session steps).SameButTrees (session (steps.map Step.withoutCache)) :=
  foldl_run_withoutCache (.refl TreeCache.faithful_empty) steps

/-- At any point of a session, what one gets for a request and the messages that have been sent are
the same as if the engine saw no cache there, and the same as if no engine had seen one from the
start on; and what is fetched is what reading the text under the limit gives. -/
theorem session_transparent (steps : List Step) :
    (∀ request : Request,
      (request.carryOut (session steps)).1 = (request.withoutCache.carryOut (session steps)).1 ∧
      (request.carryOut (session steps)).2.messages =
        (request.withoutCache.carryOut (session steps)).2.messages ∧
      (request.carryOut (session steps)).1 =
        (request.withoutCache.carryOut (session (steps.map Step.withoutCache))).1 ∧
      (request.carryOut (session steps)).2.messages =
        (request.withoutCache.carryOut (session (steps.map Step.withoutCache))).2.messages) ∧
    ∀ limit source, ((session steps).store.trees.fetch limit source).1 = Tree.parse limit source := by
  have hsession := session_sameButTrees steps
  constructor
  · intro request
    obtain ⟨hhere, hafter⟩ := Task.carryOut_withoutCache request.builtin
      (Workspace.SameButTrees.refl hsession.faithful) request.task
    obtain ⟨hthere, hafter'⟩ := Task.carryOut_withoutCache request.builtin hsession request.task
    exact ⟨hhere, hafter.messages, hthere, hafter'.messages⟩
  · exact hsession.faithful.fetch_fst

end BuildExpr
