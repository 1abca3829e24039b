import BuildExpr.Proofs.Congruence
import BuildExpr.Proofs.Standards

/-!
# Which standards an evaluation leaves recorded

Each part of the evaluator tracks its log: if the standard recorded before it is the newest of some
features, the one recorded after it is the newest of those that last. So the standard recorded at the
end is the newest one that lasts (`Engine.standard_of_evaluate`), and it is the newest one that was
handled exactly if none of those forgotten is newer than all that last.
-/

namespace BuildExpr

open Compiled (finalRun)
open Standard (Newest newest_nil)

/-- An evaluation that leaves all recorded standards as they are. -/
def Eval.KeepsStandards {α : Type} (x : Eval α) : Prop :=
  ∀ run, (finalRun (x run)).footprint.standards = run.footprint.standards

/-- Leaving all recorded standards is kept when evaluations are put together. -/
theorem keepsStandards_congruence : Congruence fun _ x _ => Eval.KeepsStandards x :=
  Run.Progress.congruence (R := fun r s => s.footprint.standards = r.footprint.standards)
    { refl := fun _ => rfl
      trans := fun h h' => h'.trans h
      within := fun h => h }

/-- Of the changes that built-in operations make to a footprint, only requiring a feature records a
standard. -/
theorem keepsStandards_mark (change : Footprint → Footprint) (h : Footprint.Mark change) :
    Eval.KeepsStandards (Eval.touch change) := by
  intro run
  cases h with
  | contextSensitive | headSensitive | named | objects | see => rfl

/-- Reading the tree of a value records none. -/
theorem Engine.valueTree_keepsStandards (engine : Engine) (value : Text) :
    Eval.KeepsStandards (engine.valueTree value) := fun _ => rfl

/-- Nor does reporting a failure. -/
theorem Engine.report_keepsStandards (engine : Engine) (scope : Scope) (failure : Failure) :
    Eval.KeepsStandards (engine.report scope failure) := by
  unfold report
  refine keepsStandards_congruence.fixed_bind (fun _ => rfl) fun _ => ?_
  split
  · exact fun _ => rfl
  · exact fun _ => rfl

/-- An evaluation after which the newest of those features is recorded that last after it. -/
def Logger.Tracks (head language : Text) {α : Type} (x : Eval α) (log : Logger) : Prop :=
  ∀ before run, Run.Records head language before run →
    Run.Records head language ((log run).lastingAfter language before) (finalRun (x run))

namespace Logger

/-- Nothing is added by what logs nothing. -/
theorem bind_none {α : Type} (x : Eval α) (first : Logger) :
    bind x first (fun _ => none) = first := by
  funext run
  unfold bind
  cases x run with
  | ok a after => exact Log.append_nil _
  | error failure after => exact Log.append_nil _

namespace Tracks

variable {head language : Text} {α β : Type} {x : Eval α} {log : Logger}

/-- An evaluation that records nothing has nothing to log. -/
theorem of_keepsStandards (h : x.KeepsStandards) : Tracks head language x none :=
  fun _ run hrun => hrun.of_standards_eq (h run)

/-- Of two steps in a row, the second goes on from what is recorded after the first. -/
theorem bind (hx : Tracks head language x log) {f : α → Eval β} {next : α → Logger}
    (hf : ∀ a, Tracks head language (f a) (next a)) :
    Tracks head language (x >>= f) (.bind x log next) := by
  intro before run hrun
  have hfirst := hx before run hrun
  rw [Eval.bind_apply]
  unfold Logger.bind
  rw [Log.lastingAfter_append]
  revert hfirst
  cases x run with
  | ok a after => exact fun hfirst => hf a _ after hfirst
  | error failure after => exact fun hfirst => hfirst

/-- Working on with the value logs nothing more. -/
theorem map (hx : Tracks head language x log) (f : α → β) :
    Tracks head language (x >>= fun a => pure (f a)) log := by
  have hbind : Tracks head language (x >>= fun a => pure (f a)) (.bind x log fun _ => none) :=
    hx.bind fun _ => of_keepsStandards fun _ => rfl
  rw [bind_none] at hbind
  exact hbind

/-- Placing failures in an expression records nothing. -/
theorem inExpression (hx : Tracks head language x log) (expression : Text) :
    Tracks head language (Eval.inExpression expression x) log := by
  intro before run hrun
  rw [Eval.finalRun_inExpression]
  exact hx before run hrun

/-- Nor does opening an operation around an evaluation. -/
theorem within (hx : Tracks head language x log) :
    Tracks head language (Eval.within x) (.within log) := by
  intro before run hrun
  have hbody := hx before { run with depth := run.depth + 1 } (hrun.of_standards_eq rfl)
  rw [Eval.finalRun_within]
  exact hbody.of_standards_eq rfl

/-- What lasts in a property value replaces what lasted before it. -/
theorem apart (hx : Tracks head language x log) :
    Tracks head language (Eval.apart x) (.apart log) := by
  intro before run hrun
  have hbody := hx [] { run with footprint := {} } (Run.records_nil rfl)
  rw [Eval.finalRun_apart]
  exact hrun.merge hbody rfl

/-- Handling a failure logs nothing if it keeps all standards. -/
theorem tryCatch (hx : Tracks head language x log) {handle : Failure → Eval α}
    (hhandle : ∀ failure, (handle failure).KeepsStandards) :
    Tracks head language (MonadExcept.tryCatch x handle) log := by
  intro before run hrun
  have hbody := hx before run hrun
  rw [Eval.tryCatch_apply]
  revert hbody
  cases x run with
  | ok a after => exact fun hbody => hbody
  | error failure after => exact fun hbody => hbody.of_standards_eq (hhandle failure after)

end Tracks

end Logger

open Logger (Tracks)

variable {head language : Text}

/-- A forest tracks its log if its operations track theirs. -/
theorem Forest.evaluateWith_tracks {operation : Forest → List Forest → Span → Eval Text}
    {log : Forest → List Forest → Span → Logger}
    (h : ∀ name parameters span,
      Tracks head language (operation name parameters span) (log name parameters span))
    (nodes : Forest) :
    Tracks head language (nodes.evaluateWith operation) (nodes.logWith operation log) := by
  induction nodes with
  | nil => exact .of_keepsStandards fun _ => rfl
  | cons node rest ih =>
    cases node with
    | text value => exact ih.map fun others => value ++ others
    | operation name parameters span =>
      exact (h name parameters span).bind fun value => ih.map fun others => value ++ others

/-- So does a tree. -/
theorem Tree.evaluateWith_tracks {forest : Text → Forest → Eval Text} {log : Text → Forest → Logger}
    (h : ∀ source nodes, Tracks head language (forest source nodes) (log source nodes))
    (tree : Tree) : Tracks head language (tree.evaluateWith forest) (tree.logWith log) := by
  cases tree with
  | plain source => exact .of_keepsStandards fun _ => rfl
  | forest source nodes => exact h source nodes
  | tooDeep source depth limit => exact .of_keepsStandards fun _ => rfl

section

variable (op : Operation) {evaluate : Forest → Eval Text} {log : Forest → Logger}
  (h : ∀ parameter, Tracks head language (evaluate parameter) (log parameter))

include h

/-- So do the parameters of an operation, from some index on. -/
theorem Operation.evaluateRest_tracks (joinedFrom index : Nat) (values : List Text)
    (parameters : List Forest) :
    Tracks head language (op.evaluateRest evaluate joinedFrom index values parameters)
      (op.logRest evaluate log joinedFrom index values parameters) := by
  induction parameters generalizing index values with
  | nil => exact .of_keepsStandards fun _ => rfl
  | cons parameter rest ih =>
    unfold evaluateRest logRest
    split
    · exact ih _ _
    · exact (h parameter).bind fun value => ih _ _

/-- Carrying out an operation tracks its parameters and its call. -/
theorem Operation.carryOut_tracks {call : List Text → Call} {logCall : List Text → Logger}
    (hcall : ∀ values, Tracks head language (op.evaluate (call values)) (logCall values))
    (parameters : List Forest) :
    Tracks head language (op.carryOut evaluate parameters call)
      (op.logCarryOut evaluate log parameters logCall) := by
  unfold carryOut logCarryOut
  dsimp only
  cases op.generates with
  | false =>
    refine .of_keepsStandards ?_
    rw [if_pos (show (!false) = true from rfl)]
    split
    · exact fun _ => rfl
    · exact fun _ => rfl
  | true =>
    cases op.arity.accepts (op.effectiveCount parameters.length) with
    | false => exact .of_keepsStandards fun _ => rfl
    | true => exact (Operation.evaluateRest_tracks op h _ _ _ _).bind hcall

end

/-- Noting features tracks them, up to one that is not known. -/
theorem Operation.requireAll_tracks (model : Model) (config : Text) (names : List Text) :
    Tracks head language (requireAll model head config names)
      fun _ => .ofFeatures (handled names) := by
  induction names with
  | nil => exact .of_keepsStandards fun _ => rfl
  | cons name rest ih =>
    unfold requireAll handled
    cases Feature.ofText? name with
    | none => exact .of_keepsStandards fun _ => rfl
    | some feature =>
      have htouch : Tracks head language (Eval.touch fun f => f.require head feature)
          fun _ => .feature feature .nil := fun _ _ hrun => hrun.require feature
      exact htouch.bind fun _ => ih.map fun others => satisfies model head config feature && others

/-- A built-in operation tracks its log if property values do. -/
theorem Builtin.evaluate_tracks (b : Builtin) {call : Call} (hhead : call.scope.head = some head)
    {logValue : Scope → Chain → Text → Logger}
    (hvalue : ∀ scope chain value, scope.head = some head →
      Tracks head language (call.host.evaluateValue scope chain value)
        (logValue scope chain value)) :
    Tracks head language (b.operation.evaluate call) (b.log logValue call) := by
  by_cases hfeatures : b = .compileFeatures
  · subst hfeatures
    unfold operation Operation.compileFeatures log
    dsimp only
    rw [hhead]
    have htouch : Tracks head language
        (Eval.touch fun f : Footprint => { f with headSensitive := true }) .none :=
      .of_keepsStandards fun _ => rfl
    exact htouch.bind fun _ => (Operation.requireAll_tracks _ _ _).map Text.ofBool
  · by_cases hproperty : b = .targetProperty
    · -- Finding the property notes no standards, and the value has a footprint of its own.
      subst hproperty
      unfold operation Operation.targetProperty log
      have hseek : Tracks head language (Operation.seek call) .none :=
        .of_keepsStandards
          (Operation.seek_fixed keepsStandards_congruence keepsStandards_mark call)
      refine hseek.bind fun sought => ?_
      cases sought with
      | text value => exact .of_keepsStandards fun _ => rfl
      | value lookup stored =>
        exact (hvalue (call.scope.derive lookup.target) (lookup :: call.chain) stored hhead).apart
    · have hnone : b.log logValue call = .none := by
        cases b with
        | compileFeatures => exact absurd rfl hfeatures
        | targetProperty => exact absurd rfl hproperty
        | _ => rfl
      rw [hnone]
      exact .of_keepsStandards (Builtin.evaluate_fixed keepsStandards_congruence
        keepsStandards_mark hproperty hfeatures call)

section

variable {engine : Engine} (hbuiltin : engine.registry.added = []) (model : Model)

include hbuiltin

/-- An operation written in a text tracks its log if the forests inside it do. -/
theorem Engine.evaluateOperation_tracks {inner : Scope → Chain → Text → Forest → Eval Text}
    {log : Scope → Chain → Text → Forest → Logger}
    (h : ∀ scope chain source nodes, scope.head = some head →
      Tracks head language (inner scope chain source nodes) (log scope chain source nodes))
    {scope : Scope} (hhead : scope.head = some head) (chain : Chain) (source : Text) (name : Forest)
    (parameters : List Forest) (span : Span) :
    Tracks head language
      (engine.evaluateOperation model inner scope chain source name parameters span)
      (engine.logOperation model inner log scope chain source name parameters span) := by
  unfold evaluateOperation logOperation
  refine Tracks.within (Tracks.inExpression ?_ _)
  refine (h scope chain source name hhead).bind fun called => ?_
  rw [Registry.find?_eq hbuiltin]
  cases Builtin.ofName? called with
  | none => exact .of_keepsStandards fun _ => rfl
  | some b =>
    -- The name and the parameters are evaluated for the same head, and so is the value of a property.
    refine Operation.carryOut_tracks _ (fun parameter => h scope chain source parameter hhead)
      (fun values => ?_) parameters
    refine b.evaluate_tracks hhead fun scope chain value hscope => ?_
    have htree : Tracks head language (engine.valueTree value) .none :=
      .of_keepsStandards (engine.valueTree_keepsStandards value)
    exact htree.bind fun tree =>
      Tree.evaluateWith_tracks (fun source nodes => h scope chain source nodes hscope) tree

/-- Every forest tracks its log. -/
theorem Engine.evaluateForest_tracks (remaining : Nat) {scope : Scope}
    (hhead : scope.head = some head) (chain : Chain) (source : Text) (nodes : Forest) :
    Tracks head language (engine.evaluateForest model remaining scope chain source nodes)
      (engine.logForest model remaining scope chain source nodes) := by
  -- As the evaluator recurs, over scopes that keep the head target.
  induction remaining generalizing scope chain source nodes with
  | zero =>
    -- The first operation already fails, before anything is handled.
    exact .of_keepsStandards (@Congruence.evaluateWith _ keepsStandards_congruence _
      (fun _ _ _ => pure []) (fun _ _ _ _ => rfl) nodes)
  | succ remaining ih =>
    exact Forest.evaluateWith_tracks (Engine.evaluateOperation_tracks hbuiltin model
      (fun scope chain source nodes hscope => ih hscope chain source nodes) hhead chain source) nodes

/-- So does every tree for a caller who wants failures noted and reported. -/
theorem Engine.evaluateReporting_tracks (remaining : Nat) {scope : Scope}
    (hhead : scope.head = some head) (chain : Chain) (tree : Tree) :
    Tracks head language
      (engine.evaluateReporting scope (engine.evaluateForest model remaining scope chain) tree)
      (tree.logWith (engine.logForest model remaining scope chain)) := by
  refine Tracks.tryCatch (Tree.evaluateWith_tracks (fun source nodes =>
    Engine.evaluateForest_tracks hbuiltin model remaining hhead chain source nodes) tree) ?_
  intro failure
  exact keepsStandards_congruence.fixed_bind (engine.report_keepsStandards scope failure)
    fun _ _ => rfl

end

/-- A successful evaluation of an expression that has not been evaluated before records the newest
standard that lasts. -/
theorem Compiled.newest_of_evaluate {engine : Engine} (hbuiltin : engine.registry.added = [])
    (c : Compiled) (hfresh : c.snapshot = {}) {inputs : Inputs} {head : Text}
    (hhead : inputs.head = some head) (chain : Chain) (w : Workspace)
    (hok : (c.evaluate engine inputs chain w).1.failure = none) (language : Text) :
    Newest language (((c.log engine inputs chain w).lasting language).map Feature.standard)
      ((c.evaluate engine inputs chain w).1.snapshot.standard? head language) := by
  have htracks : Tracks head language
      (engine.evaluateReporting (c.context engine inputs).scope
        (engine.evaluateForest w.store.model engine.limit (c.context engine inputs).scope chain)
        c.tree)
      (c.tree.logWith
        (engine.logForest w.store.model engine.limit (c.context engine inputs).scope chain)) :=
    Engine.evaluateReporting_tracks hbuiltin _ _ hhead chain c.tree
  have hrecords : Run.Records head language ((c.log engine inputs chain w).lasting language)
      (finalRun (outcome engine c.tree (c.context engine inputs) chain w)) :=
    htracks [] _ (Run.records_nil rfl)
  unfold evaluate evaluateIn at hok ⊢
  cases hneeds : c.tree.needsEvaluation with
  | false =>
    -- A text without expressions logs nothing and leaves the snapshot as it was.
    have hlog : c.log engine inputs chain w = .nil := by
      unfold log
      cases htree : c.tree with
      | plain source => rfl
      | forest source nodes =>
        rw [htree] at hneeds
        exact absurd hneeds nofun
      | tooDeep source depth limit =>
        rw [htree] at hneeds
        exact absurd hneeds nofun
    rw [hlog]
    simp only [Bool.false_eq_true, if_false, hfresh]
    exact newest_nil.2 rfl
  | true =>
    rw [hneeds, if_pos rfl] at hok
    rw [if_pos rfl]
    revert hok hrecords
    dsimp only
    cases outcome engine c.tree (c.context engine inputs) chain w with
    | ok output run => exact fun _ hrecords => hrecords.newest
    | error failure run => exact fun hok _ => absurd hok nofun

/-- When a text has been evaluated, the standard recorded for a language of the head target is the
newest one that lasts; one is recorded exactly if any was handled; and it is the newest one of all
that were handled exactly if none of them is newer than all that last. -/
theorem Engine.standard_of_evaluate {engine : Engine} (hbuiltin : engine.registry.added = [])
    (source : Text) {inputs : Inputs} {head : Text} (hhead : inputs.head = some head)
    (chain : Chain) (w : Workspace)
    (hok : ((engine.compile source).evaluate engine inputs chain w).1.failure = none)
    (language : Text) :
    let log := (engine.compile source).log engine inputs chain w
    let recorded :=
      ((engine.compile source).evaluate engine inputs chain w).1.snapshot.standard? head language
    Newest language ((log.lasting language).map Feature.standard) recorded ∧
      (recorded = none ↔ log.features language = []) ∧
      (Newest language ((log.features language).map Feature.standard) recorded ↔
        ∀ f ∈ log.features language, ∃ g ∈ log.lasting language, f.rank ≤ g.rank) := by
  intro log recorded
  have hnewest : Newest language ((log.lasting language).map Feature.standard) recorded :=
    Compiled.newest_of_evaluate hbuiltin (engine.compile source) rfl hhead chain w hok language
  refine ⟨hnewest, ?_, Log.newest_features_iff hnewest⟩
  have hnone := hnewest.eq_none_iff
  rw [List.map_eq_nil_iff] at hnone
  rw [hnone]
  unfold Log.lasting
  rw [Log.lastingAfter_eq_nil]
  exact and_iff_right rfl

/-- After a property value has asked for an older standard, the newer one asked for directly is
recorded. -/
theorem Engine.newest_recorded_after_value :
    let engine : Engine := {}
    let inputs : Inputs := { config := "Debug", head := some "app" }
    let w : Workspace :=
      { store := .ofWrites [.value (.base "app" "P") "$<COMPILE_FEATURES:cxx_std_11>"] }
    let c := engine.compile "$<TARGET_PROPERTY:P>$<COMPILE_FEATURES:cxx_std_20>"
    Newest "CXX" (((c.log engine inputs [] w).features "CXX").map Feature.standard)
      ((c.evaluate engine inputs [] w).1.snapshot.standard? "app" "CXX") := by
  intro engine inputs w c
  obtain ⟨-, -, hiff⟩ := Engine.standard_of_evaluate (rfl : engine.registry.added = [])
    "$<TARGET_PROPERTY:P>$<COMPILE_FEATURES:cxx_std_20>" (rfl : inputs.head = some "app") [] w
    (by decide +kernel) "CXX"
  exact hiff.2 (by decide +kernel)

/-- The other way round, the newer standard is forgotten: the recorded one is not the newest of those
handled. -/
theorem Engine.newer_standard_forgotten :
    let engine : Engine := {}
    let inputs : Inputs := { config := "Debug", head := some "app" }
    let w : Workspace :=
      { store := .ofWrites [.value (.base "app" "P") "$<COMPILE_FEATURES:cxx_std_11>"] }
    let c := engine.compile "$<COMPILE_FEATURES:cxx_std_20>$<TARGET_PROPERTY:P>"
    (c.evaluate engine inputs [] w).1.failure = none ∧
      ¬ Newest "CXX" (((c.log engine inputs [] w).features "CXX").map Feature.standard)
        ((c.evaluate engine inputs [] w).1.snapshot.standard? "app" "CXX") := by
  decide +kernel

end BuildExpr
