import BuildExpr.Proofs.Growth
import BuildExpr.Proofs.Sessions

/-!
# A footprint names what the result depends on

Which properties an evaluation reads is decided by what it has read before. Still the footprint it
ends with names all of them: a model that has the same targets, the same values for what is named, and
the same language standards for the head target leads to the same result and the same footprint
(`session_depends_on_footprint`).

The models are known to agree only on what the first evaluation has noted at its end. But footprints
only grow, so they agree on whatever it has noted at any moment; and every property is noted before it
is read. This is the relation `Followed` between an evaluation over the first model and one over the
second, which is kept when evaluations are put together.
-/

namespace BuildExpr

open Compiled (finalRun)

/-- Two models that have the same values in a configuration for what a footprint names. -/
structure Footprint.AgreedOn (f : Footprint) (m m' : Model) (config : Text) : Prop where
  /-- Every property read has the same value. -/
  seen : ∀ target property, (target, property) ∈ f.seen →
    m'.property? target property config = m.property? target property config
  /-- Every target depended on has the same object files. -/
  objects : ∀ target, target ∈ f.depend →
    m'.property? target Operation.objectsProperty config =
      m.property? target Operation.objectsProperty config

/-- Models that agree on a footprint agree on any that notes less. -/
theorem Footprint.AgreedOn.mono {f g : Footprint} {m m' : Model} {config : Text}
    (h : g.AgreedOn m m' config) (hwithin : f.Within g) : f.AgreedOn m m' config where
  seen target property hmem := h.seen target property (hwithin.seen hmem)
  objects target hmem := h.objects target (hwithin.depend hmem)

/-- Two models with the same targets, in which the head target, if there is one, is configured for the
same language standards. -/
structure Model.SameOutline (m m' : Model) (head : Option Text) (config : Text) : Prop where
  /-- They have the same targets. -/
  targets : ∀ name, m'.hasTarget name = m.hasTarget name
  /-- The head target has the same standard for each language that has standards. -/
  standards : ∀ target, head = some target → ∀ feature : Feature,
    m'.property? target (Operation.standardProperty feature.language) config =
      m.property? target (Operation.standardProperty feature.language) config

/-- Runs that have noted the same and have the same number of operations open, with faithful trees. -/
structure Run.Twins (r s : Run) : Prop where
  /-- They have noted the same. -/
  footprint : r.footprint = s.footprint
  /-- They have the same number of operations open. -/
  depth : r.depth = s.depth
  /-- The first trees are faithful. -/
  left : r.trees.Faithful
  /-- So are the second ones. -/
  right : s.trees.Faithful

/-- All that evaluations do to twin runs leaves them twins. -/
theorem Run.twins_respected : Run.Respected Run.Twins where
  enter h := ⟨h.footprint, congrArg (· + 1) h.depth, h.left, h.right⟩
  leave h := ⟨h.footprint, congrArg (· - 1) h.depth, h.left, h.right⟩
  touch change _ _ h := ⟨congrArg change h.footprint, h.depth, h.left, h.right⟩
  send _ _ _ h := ⟨h.footprint, h.depth, h.left, h.right⟩
  begin h := ⟨rfl, h.depth, h.left, h.right⟩
  merge h h' := ⟨by rw [h.footprint, h'.footprint], h.depth, h'.left, h'.right⟩
  depth_eq h := h.depth

/-! ## Evaluations that are followed -/

/-- An evaluation and one that ends like it if the models agree on what it has noted at its end. -/
structure Followed (m m' : Model) (config : Text) (α : Type) (x y : Eval α) : Prop where
  /-- The first evaluation takes back nothing that has been noted. -/
  grows : x.Grows
  /-- The second one ends like the first one. -/
  alike : ∀ ⦃r s : Run⦄, Run.Twins r s →
    (finalRun (x r)).footprint.AgreedOn m m' config → EndsAlike Run.Twins (x r) (y s)

namespace Followed

variable {m m' : Model} {config : Text} {α β : Type} {x y : Eval α}

/-- Evaluations that end alike whatever the models are. -/
theorem of_coupled (hgrows : x.Grows) (h : Coupled Run.Twins α x y) : Followed m m' config α x y :=
  ⟨hgrows, fun _ _ hrs _ => h hrs⟩

/-- An evaluation is followed through two steps if it is through each of them. -/
theorem bind {f g : α → Eval β} (hx : Followed m m' config α x y)
    (hf : ∀ a, Followed m m' config β (f a) (g a)) :
    Followed m m' config β (x >>= f) (y >>= g) where
  grows := hx.grows.bind fun a => (hf a).grows
  alike r s h hagreed := by
    have hfirst := Eval.Grows.within_bind (x := x) (fun a => (hf a).grows) r
    refine (hx.alike h (hagreed.mono hfirst)).bind fun a r' s' hr h' => (hf a).alike h' ?_
    -- The end of the whole is where the second part ends that goes on from the first.
    rw [Eval.bind_apply, hr] at hagreed
    exact hagreed

/-- Failures that are handled in ways that are followed are followed. -/
theorem tryCatch {f g : Failure → Eval α} (hx : Followed m m' config α x y)
    (hf : ∀ failure, Followed m m' config α (f failure) (g failure)) :
    Followed m m' config α (MonadExcept.tryCatch x f) (MonadExcept.tryCatch y g) where
  grows := hx.grows.tryCatch fun failure => (hf failure).grows
  alike r s h hagreed := by
    have hfirst := Eval.Grows.within_tryCatch (x := x) (fun failure => (hf failure).grows) r
    refine (hx.alike h (hagreed.mono hfirst)).tryCatch fun failure r' s' hr h' =>
      (hf failure).alike h' ?_
    rw [Eval.tryCatch_apply, hr] at hagreed
    exact hagreed

/-- Being followed is kept when evaluations are put together. -/
theorem congruence : Congruence (Followed m m' config) where
  pure a := of_coupled (.pure a) (Coupled.pure a)
  fail cause := of_coupled (.fail cause) (Coupled.throw _)
  bind := bind
  inExpression expression hx :=
    { grows := hx.grows.inExpression expression
      alike := fun r s h hagreed => by
        rw [Eval.finalRun_inExpression] at hagreed
        exact (hx.alike h hagreed).inExpression expression }
  within hx :=
    { grows := hx.grows.within
      alike := fun r s h hagreed => by
        rw [Eval.finalRun_within] at hagreed
        exact (hx.alike (Run.twins_respected.enter h) hagreed).within
          Run.twins_respected.leave }

/-- What is noted apart is named by the merged footprint. -/
theorem apart (hx : Followed m m' config α x y) :
    Followed m m' config α (Eval.apart x) (Eval.apart y) where
  grows := .apart x
  alike r s h hagreed := by
    rw [Eval.finalRun_apart] at hagreed
    have hinner := hagreed.mono (Footprint.within_merge_right r.footprint _)
    exact (hx.alike (Run.twins_respected.begin h) hinner).apart
      Run.twins_respected.merge h

/-- A change that only adds to the footprint is followed by itself. -/
theorem touch {change : Footprint → Footprint} (h : ∀ f : Footprint, f.Within (change f)) :
    Followed m m' config Unit (Eval.touch change) (Eval.touch change) :=
  of_coupled (.touch h) (Coupled.touch Run.twins_respected change)

/-- After something has been noted, what the models agree on because of it may be relied on. -/
theorem touch_bind {change : Footprint → Footprint} {f g : Unit → Eval β} {P : Prop}
    (hchange : ∀ f : Footprint, f.Within (change f))
    (hagree : ∀ f : Footprint, (change f).AgreedOn m m' config → P) (hf : (f ()).Grows)
    (h : P → Followed m m' config β (f ()) (g ())) :
    Followed m m' config β (Eval.touch change >>= f) (Eval.touch change >>= g) where
  grows := .bind (.touch hchange) fun _ => hf
  alike r s hrs hagreed := by
    -- What has been noted here is noted at the end, which is where the models agree.
    have hnoted := hagreed.mono (hf { r with footprint := change r.footprint })
    exact (h (hagree r.footprint hnoted)).alike (Run.twins_respected.touch change hrs) hagreed

end Followed

/-! ## Built-in operations -/

/-- Whether an operation makes use of the model. -/
def Builtin.readsModel : Builtin → Bool
  | targetProperty | targetExists | targetNameIfExists | targetObjects | compileFeatures => true
  | _ => false

/-- An operation that makes no use of the model makes none of its surroundings. -/
theorem Builtin.evaluate_unread {b : Builtin} (hb : b.readsModel = false) (parameters : List Text)
    (expression : Text) (chain : Chain) (scope : Scope) (host host' : Host) :
    b.operation.evaluate ⟨parameters, expression, chain, scope, host'⟩ =
      b.operation.evaluate ⟨parameters, expression, chain, scope, host⟩ := by
  cases b with
  | targetProperty | targetExists | targetNameIfExists | targetObjects | compileFeatures =>
    exact absurd hb (by decide)
  | _ => rfl

section

variable {m m' : Model} {head : Option Text} {config : Text}
  (hmodels : m.SameOutline m' head config)

/-- Two scopes that are the same, for a head target and a configuration. -/
def Scope.Shared (head : Option Text) (config : Text) (s s' : Scope) : Prop :=
  s = s' ∧ s.head = head ∧ s.config = config

variable {call call' : Call}
  (h : Call.Related (Followed m m' config) (Scope.Shared head config) m m' call call')

include hmodels h

/-- Whether there is a target is the same in both models. -/
theorem Operation.targetExistsFor_same (operation : Text) :
    targetExistsFor operation call' = targetExistsFor operation call := by
  unfold targetExistsFor
  rw [h.parameters, h.left, h.right]
  simp only [hmodels.targets]

omit h in
/-- Features are noted alike, and they are satisfied alike by the standards of the head target. -/
theorem Operation.requireAll_same {target : Text} (htarget : head = some target)
    (names : List Text) : requireAll m' target config names = requireAll m target config names := by
  have hsatisfies (feature : Feature) :
      satisfies m' target config feature = satisfies m target config feature := by
    unfold satisfies
    rw [hmodels.standards target htarget feature]
  induction names with
  | nil => rfl
  | cons name rest ih =>
    unfold requireAll
    rw [ih]
    simp only [hsatisfies]

/-- The operation `COMPILE_FEATURES` reads nothing but the standards of the head target, which the
models have in common. -/
theorem Operation.compileFeatures_same :
    compileFeatures.evaluate call' = compileFeatures.evaluate call := by
  unfold compileFeatures
  dsimp only
  rw [h.parameters, ← h.scope.1, h.left, h.right, h.scope.2.2]
  cases hhead : call.scope.head with
  | none => rfl
  | some target =>
    dsimp only
    rw [requireAll_same hmodels (h.scope.2.1.symm.trans hhead)]

/-- Only two operations read properties that the models may differ in. -/
theorem Builtin.evaluate_same {b : Builtin} (hproperty : b ≠ .targetProperty)
    (hobjects : b ≠ .targetObjects) : b.operation.evaluate call' = b.operation.evaluate call := by
  -- Operations that do not read the model are the same for any; the others are gone through one by one.
  by_cases hb : b.readsModel = true
  · cases b with
    | targetProperty => exact absurd rfl hproperty
    | targetObjects => exact absurd rfl hobjects
    | compileFeatures => exact Operation.compileFeatures_same hmodels h
    | targetExists =>
      unfold Builtin.operation Operation.targetExists
      dsimp only
      rw [Operation.targetExistsFor_same hmodels h]
    | targetNameIfExists =>
      unfold Builtin.operation Operation.targetNameIfExists
      dsimp only
      rw [Operation.targetExistsFor_same hmodels h, h.parameters]
    | _ => exact absurd hb (by decide)
  · obtain ⟨parameters, expression, chain, scope, host⟩ := call
    obtain ⟨parameters', expression', chain', scope', host'⟩ := call'
    obtain ⟨hparameters, hexpression, hchain, ⟨hscope, -⟩, -, -, -⟩ := h
    dsimp only at hparameters hexpression hchain hscope
    subst hparameters hexpression hchain hscope
    exact evaluate_unread (by simpa using hb) _ _ _ _ _ _

/-- The operation `TARGET_OBJECTS` is followed, since it notes the target before it reads the object
files. -/
theorem Operation.targetObjects_followed :
    Followed m m' config Text (targetObjects.evaluate call) (targetObjects.evaluate call') := by
  have hR : Congruence (Followed m m' config) := Followed.congruence
  have hmark := Footprint.Mark.objects (firstParameter call.parameters)
  -- The target is noted before its object files are read.
  have hnoted (f : Footprint)
      (hagreed : ((f.addDepend (firstParameter call.parameters)).addNamed
        (firstParameter call.parameters)).AgreedOn m m' config) :=
    hagreed.objects (firstParameter call.parameters) (Members.mem_insert.2 (.inl rfl))
  unfold targetObjects
  dsimp only
  rw [targetExistsFor_same hmodels h, h.parameters, ← h.scope.1, h.left, h.right, h.scope.2.2]
  refine hR.bind_unless (hR.fixed_fail _) (hR.bind (hR.ofExcept _) fun found => ?_)
  refine hR.bind_unless (hR.fixed_fail _) ?_
  refine Followed.touch_bind hmark.within hnoted (.pure _) fun hobjects => ?_
  rw [hobjects]
  exact hR.pure _

/-- A property look-up is followed, since it notes the property before it reads it. -/
theorem Operation.seek_followed :
    Followed m m' config Sought (seek call) (seek call') := by
  have hR : Congruence (Followed m m' config) := Followed.congruence
  have haddress : propertyAddress call' = propertyAddress call := by
    unfold propertyAddress
    rw [h.parameters, ← h.scope.1, h.left, h.right]
    simp only [hmodels.targets]
  unfold seek
  rw [haddress]
  refine hR.bind (propertyAddress_fixed hR (fun _ hchange => .touch hchange.within) call)
    fun address => ?_
  obtain ⟨target, property⟩ := address
  -- The property is noted before it is read.
  have hnoted (f : Footprint) (hagreed : (f.see target property).AgreedOn m m' config) :=
    hagreed.seen target property (Members.mem_insert.2 (.inl rfl))
  dsimp only
  refine hR.bind_unless (refuseProperty_fixed hR _) ?_
  refine hR.bind_unless (refuseProperty_fixed hR _) ?_
  refine Followed.touch_bind (Footprint.Mark.see target property).within hnoted
    (found_fixed grows_congruence _ _ _) fun hproperty => ?_
  rw [h.expression, h.chain, ← h.scope.1, h.left, h.right, h.scope.2.2, hproperty]
  exact found_fixed hR _ _ _

/-- So is `TARGET_PROPERTY`, if the values it goes on to evaluate are. -/
theorem Operation.targetProperty_followed :
    Followed m m' config Text (targetProperty.evaluate call) (targetProperty.evaluate call') := by
  refine (seek_followed hmodels h).bind fun sought => ?_
  cases sought with
  | text value => exact Followed.congruence.pure value
  | value lookup stored =>
    dsimp only
    rw [h.chain, ← h.scope.1]
    exact .apart (h.value _ _ _ stored ⟨rfl, h.scope.2⟩)

/-- Every built-in operation notes what it reads of the model, apart from what the models have in
common anyway. -/
theorem Builtin.evaluate_followed (b : Builtin) :
    Followed m m' config Text (b.operation.evaluate call) (b.operation.evaluate call') := by
  by_cases hproperty : b = .targetProperty
  · rw [hproperty]
    exact Operation.targetProperty_followed hmodels h
  · by_cases hobjects : b = .targetObjects
    · rw [hobjects]
      exact Operation.targetObjects_followed hmodels h
    · have hR : Congruence (Followed m m' config) := Followed.congruence
      rw [evaluate_same hmodels h hproperty hobjects]
      by_cases hfeatures : b = .compileFeatures
      · rw [hfeatures]
        exact Operation.compileFeatures_fixed hR (fun _ hchange => .touch hchange.within)
          (fun head feature => .touch fun f => f.within_require head feature) call
      · exact evaluate_fixed hR (fun _ hchange => .touch hchange.within) hproperty hfeatures call

end

/-! ## Evaluation -/

section

variable {m m' : Model} {config : Text} {engine : Engine}

/-- Faithful trees give the same tree of a property value and stay faithful. -/
theorem Engine.valueTree_twins (engine : Engine) (value : Text) :
    Coupled Run.Twins Tree (engine.valueTree value) (engine.valueTree value) := by
  intro r s h
  rw [engine.valueTree_apply value h.left, engine.valueTree_apply value h.right]
  exact .ok _ ⟨h.footprint, h.depth, engine.fetch_snd h.left value, engine.fetch_snd h.right value⟩

/-- Reading the tree of a value is followed by itself. -/
theorem Engine.valueTree_followed (engine : Engine) (value : Text) :
    Followed m m' config Tree (engine.valueTree value) (engine.valueTree value) :=
  .of_coupled (engine.valueTree_grows value) (engine.valueTree_twins value)

variable (hbuiltin : engine.registry.added = [])

include hbuiltin

/-- Evaluating a forest over the first model is followed by evaluating it over the second one. -/
theorem Engine.evaluateForest_followed {scope : Scope}
    (hmodels : m.SameOutline m' scope.head scope.config) (remaining : Nat) (chain : Chain)
    (source : Text) (nodes : Forest) :
    Followed m m' scope.config Text (engine.evaluateForest m remaining scope chain source nodes)
      (engine.evaluateForest m' remaining scope chain source nodes) := by
  have hR : Congruence (Followed m m' scope.config) := Followed.congruence
  refine Engine.evaluateForest_related (S := Scope.Shared scope.head scope.config) hR rfl ?_ ?_ 0 ?_
    remaining chain source nodes ⟨rfl, rfl, rfl⟩
  · intro forest forest' hforest value
    exact hR.bind (engine.valueTree_followed value) fun tree => hR.evaluateTree hforest tree
  · intro name op hfind call call' hcall
    obtain ⟨b, -, rfl⟩ := Registry.exists_builtin hbuiltin hfind
    exact b.evaluate_followed hmodels hcall
  · -- With no more operations to open, both fail at the first one.
    intro s s' chain source nodes hs
    obtain ⟨rfl, -⟩ := hs
    refine hR.evaluateWith (fun _ _ span => hR.inExpression _ ?_) nodes
    exact .of_coupled (fun run => .refl run.footprint)
      (Coupled.nestingTooDeep Run.twins_respected engine.limit)

/-- So it is if failures are reported. -/
theorem Engine.evaluateReporting_followed {scope : Scope}
    (hmodels : m.SameOutline m' scope.head scope.config) (remaining : Nat) (chain : Chain)
    (tree : Tree) :
    Followed m m' scope.config Text
      (engine.evaluateReporting scope (engine.evaluateForest m remaining scope chain) tree)
      (engine.evaluateReporting scope (engine.evaluateForest m' remaining scope chain) tree) := by
  have hR : Congruence (Followed m m' scope.config) := Followed.congruence
  refine .tryCatch ?_ fun failure => .bind ?_ fun _ => ?_
  · exact hR.evaluateTree (Engine.evaluateForest_followed hbuiltin hmodels remaining chain) tree
  · exact .of_coupled (engine.report_grows scope failure)
      (Engine.report_coupled Run.twins_respected rfl scope failure)
  · exact .of_coupled (fun run => .refl run.footprint) (Coupled.throw failure)

/-- Over two models that agree on what an evaluation ends up having noted over the first one, it ends
alike and with the same context. -/
theorem Compiled.evaluateIn_followed {w w' : Workspace} (htrees : w.store.trees.Faithful)
    (htrees' : w'.store.trees.Faithful) (c : Compiled) (context : Context) (chain : Chain)
    (hmodels : w.store.model.SameOutline w'.store.model context.scope.head context.scope.config)
    (hagreed : (c.evaluateIn engine context chain w).2.1.footprint.AgreedOn w.store.model
      w'.store.model context.scope.config) :
    (c.evaluateIn engine context chain w').1 = (c.evaluateIn engine context chain w).1 ∧
      (c.evaluateIn engine context chain w').2.1 = (c.evaluateIn engine context chain w).2.1 := by
  unfold Compiled.evaluateIn at hagreed ⊢
  by_cases hneeds : c.tree.needsEvaluation = true
  · simp only [hneeds, if_true] at hagreed ⊢
    have htwins : Run.Twins (context.toRun w) (context.toRun w') := ⟨rfl, rfl, htrees, htrees'⟩
    have halike : EndsAlike Run.Twins (outcome engine c.tree context chain w)
        (outcome engine c.tree context chain w') :=
      (Engine.evaluateReporting_followed hbuiltin hmodels _ chain c.tree).alike htwins hagreed
    -- Both end alike, and from equal footprints the same is concluded.
    rcases halike.ends with ⟨a, r, s, hr, hs, h⟩ | ⟨failure, r, s, hr, hs, h⟩
    · rw [hr, hs]
      simp only [conclude, finalRun, Context.after, h.footprint, h.depth, and_self]
    · rw [hr, hs]
      simp only [conclude, finalRun, Context.after, h.footprint, h.depth, and_self]
  · simp only [hneeds, Bool.false_eq_true, if_false, and_self]

end

/-- The footprint of an evaluation with built-in operations names all of the model that its result
depends on. After two sessions whose models have the same targets and the same language standards for
the head target, and agree in the configuration on the properties that the first evaluation has read
and on the object files of the targets it depends on, the second one has the same output or the same
failure and leaves the same context. -/
theorem session_depends_on_footprint (steps steps' : List Step) (engine : Engine)
    (hbuiltin : engine.registry.added = []) (c : Compiled) (context : Context) (chain : Chain)
    (hmodels : (session steps).store.model.SameOutline (session steps').store.model
      context.scope.head context.scope.config)
    (hagreed : (c.evaluateIn engine context chain (session steps)).2.1.footprint.AgreedOn
      (session steps).store.model (session steps').store.model context.scope.config) :
    (c.evaluateIn engine context chain (session steps')).1 =
        (c.evaluateIn engine context chain (session steps)).1 ∧
      (c.evaluateIn engine context chain (session steps')).2.1 =
        (c.evaluateIn engine context chain (session steps)).2.1 :=
  Compiled.evaluateIn_followed hbuiltin (session_sameButTrees steps).faithful
    (session_sameButTrees steps').faithful c context chain hmodels hagreed

/-- The languages that features are about. -/
theorem Feature.language_mem (f : Feature) :
    f.language ∈ (["C", "OBJC", "CXX", "CUDA", "HIP", "OBJCXX"] : List Text) := by
  show f.language ∈
    (["C", "OBJC"] : List Text) ++ (["CXX", "CUDA", "HIP", "OBJCXX"] : List Text)
  have hrank := f.rank_eq
  unfold Standard.rank? Standard.ofLanguage at hrank
  rw [List.mem_append]
  split at hrank
  · exact .inl ‹_›
  · split at hrank
    · exact .inr ‹_›
    · cases hrank

/-- A property in the branch that is not chosen does not matter: its value is another one in the second
model. -/
theorem session_depends_on_footprint_unchosen :
    let steps : List Step :=
      [.write (.value (.base "lib" "OBJECTS") "lib.o"), .write (.value (.base "app" "Q") "1"),
        .write (.value (.base "app" "R") "x"), .write (.value (.base "app" "CXX_STANDARD") "17"),
        .write (.value (.base "app" "P")
          "$<IF:$<TARGET_PROPERTY:Q>,$<TARGET_OBJECTS:lib>,$<TARGET_PROPERTY:R>>")]
    let steps' : List Step := steps ++ [.write (.value (.base "app" "R") "y")]
    let engine : Engine := { forBuildsystem := true }
    let c := engine.compile "$<TARGET_PROPERTY:P>$<COMPILE_FEATURES:cxx_std_20>"
    let context := Context.fresh engine { config := "Debug", head := some "app" }
    (session steps).store.model.property? "app" "R" "Debug" = some "x" ∧
      (session steps').store.model.property? "app" "R" "Debug" = some "y" ∧
      (c.evaluateIn engine context [] (session steps')).1.output = "lib.o0" := by
  intro steps steps' engine c context
  have hkeys : (session steps').store.model.targets.keys = (session steps).store.model.targets.keys := by
    decide +kernel
  have hlanguages : ∀ language ∈ (["C", "OBJC", "CXX", "CUDA", "HIP", "OBJCXX"] : List Text),
      (session steps').store.model.property? "app" (Operation.standardProperty language) "Debug" =
        (session steps).store.model.property? "app" (Operation.standardProperty language)
          "Debug" := by
    decide +kernel
  have hseen : ∀ entry ∈ (c.evaluateIn engine context [] (session steps)).2.1.footprint.seen,
      (session steps').store.model.property? entry.1 entry.2 "Debug" =
        (session steps).store.model.property? entry.1 entry.2 "Debug" := by
    decide +kernel
  have hobjects : ∀ target ∈ (c.evaluateIn engine context [] (session steps)).2.1.footprint.depend,
      (session steps').store.model.property? target Operation.objectsProperty "Debug" =
        (session steps).store.model.property? target Operation.objectsProperty "Debug" := by
    decide +kernel
  obtain ⟨hsame, -⟩ := session_depends_on_footprint steps steps' engine rfl c context []
    { targets := fun name => by
        rw [Bool.eq_iff_iff]
        unfold Model.hasTarget
        rw [Table.contains_iff, Table.contains_iff, hkeys]
      standards := fun target htarget feature => by
        cases htarget
        exact hlanguages _ feature.language_mem }
    { seen := fun target property hmem => hseen (target, property) hmem
      objects := hobjects }
  refine ⟨by decide +kernel, by decide +kernel, ?_⟩
  rw [hsame]
  decide +kernel

end BuildExpr
