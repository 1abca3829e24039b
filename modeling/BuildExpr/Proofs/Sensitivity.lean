import BuildExpr.Proofs.Dependence

/-!
# What the flags of a footprint rule out

An evaluation that uses its head target raises a flag, and so does `CONFIG`. The first flag is sound:
an evaluation that succeeds without it is repeated for any other head target
(`session_unflagged_head`). The second one is not. Values are looked up in the model for the
configuration, and no flag is raised for that, so an unflagged result may be another one in another
configuration (`unflagged_result_differs`). It is the same if what the footprint names has the same
values there (`session_unflagged_config`).

Only evaluations that succeed are compared: one may fail for want of a head target, and that raises
no flag. As in the comparison of two models, what is known of the footprint at the end is known at
every moment, since footprints only grow. The relation between an evaluation in one scope and one in
the other is `Repeated`.
-/

namespace BuildExpr

/-- A footprint that names only what has the same values in two configurations. -/
structure Footprint.SteadyIn (f : Footprint) (m : Model) (config config' : Text) : Prop where
  /-- Every property read has the same value. -/
  seen : ∀ target property, (target, property) ∈ f.seen →
    m.property? target property config' = m.property? target property config
  /-- Every target depended on has the same object files. -/
  objects : ∀ target, target ∈ f.depend →
    m.property? target Operation.objectsProperty config' =
      m.property? target Operation.objectsProperty config
  /-- Every target that a standard of a language is asked of is configured for the same one. -/
  standards : ∀ target language, (target, language) ∈ f.standards.keys →
    m.property? target (Operation.standardProperty language) config' =
      m.property? target (Operation.standardProperty language) config

/-- A footprint that names nothing for which it matters which of two scopes an evaluation has. -/
structure Footprint.Indifferent (f : Footprint) (m : Model) (s s' : Scope) : Prop
    extends f.SteadyIn m s.config s'.config where
  /-- If the configuration has been asked for, it is the same. -/
  config : f.contextSensitive = true → s'.config = s.config
  /-- So is the head target. -/
  head : f.headSensitive = true → s'.head = s.head

/-- A footprint that notes less names nothing more for which the scope matters. -/
theorem Footprint.Indifferent.mono {f g : Footprint} {m : Model} {s s' : Scope}
    (h : g.Indifferent m s s') (hwithin : f.Within g) : f.Indifferent m s s' where
  seen target property hmem := h.seen target property (hwithin.seen hmem)
  objects target hmem := h.objects target (hwithin.depend hmem)
  standards target language hmem := h.standards target language (hwithin.standards hmem)
  config hflag := h.config (hwithin.contextSensitive hflag)
  head hflag := h.head (hwithin.headSensitive hflag)

/-- In the same configuration everything has the same value. -/
theorem Footprint.steadyIn_refl (f : Footprint) (m : Model) (config : Text) :
    f.SteadyIn m config config :=
  ⟨fun _ _ _ => rfl, fun _ _ => rfl, fun _ _ _ => rfl⟩

/-- What is true of a snapshot is true of the footprint it was last taken from. -/
theorem Footprint.Indifferent.of_absorb {snapshot f : Footprint} {m : Model} {s s' : Scope}
    (h : (Compiled.absorb snapshot f).Indifferent m s s') : f.Indifferent m s s' where
  seen target property hmem := h.seen target property (Members.mem_union.2 (.inr hmem))
  objects := h.objects
  standards := h.standards
  config := h.config
  head := h.head

/-- A standard that has been asked for, or a newer one, is recorded. -/
theorem Footprint.mem_keys_require (f : Footprint) (target : Text) (feature : Feature) :
    (target, feature.language) ∈ (f.require target feature).standards.keys := by
  by_cases hmem : (target, feature.language) ∈ f.standards.keys
  · exact (f.within_require target feature).standards hmem
  · have hnone : f.standard? target feature.language = none := by
      rw [← Table.contains_iff] at hmem
      exact Option.not_isSome_iff_eq_none.1 hmem
    unfold require
    rw [hnone]
    exact Table.mem_keys_insert.2 (.inl rfl)

/-! ## Evaluations that are repeated -/

/-- An evaluation in one scope, and one in another scope that gives the same value if the first one
gives a value and has noted nothing by then for which it matters which of the two scopes it has. -/
structure Repeated (m : Model) (s s' : Scope) (α : Type) (x y : Eval α) : Prop where
  /-- The first evaluation takes back nothing that has been noted. -/
  grows : x.Grows
  /-- The second one gives the same value. -/
  again : ∀ ⦃r r' after : Run⦄ ⦃a : α⦄, Run.Twins r r' → x r = .ok a after →
    after.footprint.Indifferent m s s' → ∃ after', y r' = .ok a after' ∧ Run.Twins after after'

namespace Repeated

variable {m : Model} {s s' : Scope} {α β : Type} {x y : Eval α}

/-- Evaluations that end alike whatever the scopes are. -/
theorem of_coupled (hgrows : x.Grows) (h : Coupled Run.Twins α x y) : Repeated m s s' α x y where
  grows := hgrows
  again r r' after a htwins hx _ := by
    rcases (h htwins).ends with ⟨b, t, t', ht, hy, hafter⟩ | ⟨failure, t, t', ht, -, -⟩
    · obtain ⟨rfl, rfl⟩ := EStateM.Result.ok.inj (hx.symm.trans ht)
      exact ⟨t', hy, hafter⟩
    · cases hx.symm.trans ht

/-- A failure need not be repeated. -/
theorem fail_left (cause : Cause) (y : Eval α) : Repeated m s s' α (Eval.fail cause) y :=
  ⟨.fail cause, fun _ _ _ _ _ hx => nomatch hx⟩

/-- Two steps in a row are repeated if each of them is. -/
theorem bind {f g : α → Eval β} (hx : Repeated m s s' α x y)
    (hf : ∀ a, Repeated m s s' β (f a) (g a)) : Repeated m s s' β (x >>= f) (y >>= g) where
  grows := hx.grows.bind fun a => (hf a).grows
  again r r' after b htwins hxf hafter := by
    obtain ⟨a, between, hr, hfa⟩ := Eval.bind_eq_ok hxf
    -- What has been noted before the second part is noted at its end.
    have hwithin : between.footprint.Within after.footprint := by
      have hgrows := (hf a).grows between
      rw [hfa] at hgrows
      exact hgrows
    obtain ⟨between', hr', hbetween⟩ := hx.again htwins hr (hafter.mono hwithin)
    obtain ⟨after', hga, hends⟩ := (hf a).again hbetween hfa hafter
    refine ⟨after', ?_, hends⟩
    rw [Eval.bind_apply, hr']
    exact hga

/-- Placing failures in an expression keeps the values there are. -/
theorem inExpression (expression : Text) (hx : Repeated m s s' α x y) :
    Repeated m s s' α (Eval.inExpression expression x) (Eval.inExpression expression y) where
  grows := hx.grows.inExpression expression
  again r r' after a htwins hr hafter := by
    obtain ⟨after', hr', hends⟩ := hx.again htwins (Eval.inExpression_eq_ok.1 hr) hafter
    exact ⟨after', Eval.inExpression_eq_ok.2 hr', hends⟩

/-- So does opening an operation around both evaluations. -/
theorem within (hx : Repeated m s s' α x y) :
    Repeated m s s' α (Eval.within x) (Eval.within y) where
  grows := hx.grows.within
  again r r' after a htwins hr hafter := by
    obtain ⟨between, hbetween, rfl⟩ := Eval.within_eq_ok.1 hr
    obtain ⟨between', hbetween', hends⟩ :=
      hx.again (Run.twins_respected.enter htwins) hbetween hafter
    exact ⟨_, Eval.within_eq_ok.2 ⟨between', hbetween', rfl⟩, Run.twins_respected.leave hends⟩

/-- What is noted apart is named by the merged footprint. -/
theorem apart (hx : Repeated m s s' α x y) :
    Repeated m s s' α (Eval.apart x) (Eval.apart y) where
  grows := .apart x
  again r r' after a htwins hr hafter := by
    obtain ⟨between, hbetween, rfl⟩ := Eval.apart_eq_ok.1 hr
    have hinner := hafter.mono (Footprint.within_merge_right r.footprint between.footprint)
    obtain ⟨between', hbetween', hends⟩ :=
      hx.again (Run.twins_respected.begin htwins) hbetween hinner
    exact ⟨_, Eval.apart_eq_ok.2 ⟨between', hbetween', rfl⟩, Run.twins_respected.merge htwins hends⟩

/-- Being repeated is kept when evaluations are put together. -/
theorem congruence : Congruence (Repeated m s s') where
  pure a := of_coupled (.pure a) (Coupled.pure a)
  fail cause := fail_left cause _
  bind := bind
  inExpression := inExpression
  within := within

/-- A change that only adds to the footprint is repeated by itself. -/
theorem touch {change : Footprint → Footprint} (h : ∀ f : Footprint, f.Within (change f)) :
    Repeated m s s' Unit (Eval.touch change) (Eval.touch change) :=
  of_coupled (.touch h) (Coupled.touch Run.twins_respected change)

/-- Where something is noted first, what the scopes have in common because of it may be relied on. -/
theorem touch_assuming {change : Footprint → Footprint} {f : Unit → Eval β} {y : Eval β} {P : Prop}
    (hchange : ∀ f : Footprint, f.Within (change f))
    (hnoted : ∀ f : Footprint, (change f).Indifferent m s s' → P) (hf : (f ()).Grows)
    (h : P → Repeated m s s' β (Eval.touch change >>= f) y) :
    Repeated m s s' β (Eval.touch change >>= f) y where
  grows := .bind (.touch hchange) fun _ => hf
  again r r' after b htwins hr hafter := by
    have hgrows := hf { r with footprint := change r.footprint }
    have hrest : f () { r with footprint := change r.footprint } = .ok b after := hr
    rw [hrest] at hgrows
    exact (h (hnoted r.footprint (hafter.mono hgrows))).again htwins hr hafter

end Repeated

/-! ## Built-in operations -/

/-- Two scopes that have their configuration and their head target from two given ones and the rest,
but for the current target, in common. -/
structure Scope.Variants (s s' t t' : Scope) : Prop where
  /-- The first one has the first configuration. -/
  config : t.config = s.config
  /-- The second one has the second configuration. -/
  config' : t'.config = s'.config
  /-- The first one has the first head target. -/
  head : t.head = s.head
  /-- The second one has the second head target. -/
  head' : t'.head = s'.head
  /-- They are for the same language. -/
  language : t'.language = t.language
  /-- They are for the same files. -/
  forBuildsystem : t'.forBuildsystem = t.forBuildsystem

/-- Two scopes stay variants for the value of a property of any target. -/
theorem Scope.Variants.derive {s s' t t' : Scope} (h : Variants s s' t t') (current : Text) :
    Variants s s' (t.derive current) (t'.derive current) :=
  ⟨h.config, h.config', h.head, h.head', h.language, h.forBuildsystem⟩

/-- Whether an operation reads what it is carried out for. -/
def Builtin.readsScope : Builtin → Bool
  | config | compileLanguage | targetProperty | targetObjects | compileFeatures => true
  | _ => false

/-- An operation that does not read what it is carried out for does not depend on it. -/
theorem Builtin.evaluate_unscoped {b : Builtin} (hb : b.readsScope = false) (parameters : List Text)
    (expression : Text) (chain : Chain) (scope scope' : Scope) (host : Host) :
    b.operation.evaluate ⟨parameters, expression, chain, scope', host⟩ =
      b.operation.evaluate ⟨parameters, expression, chain, scope, host⟩ := by
  cases b with
  | config | compileLanguage | targetProperty | targetObjects | compileFeatures =>
    exact absurd hb (by decide)
  | _ => rfl

section

variable {m : Model} {s s' : Scope} {call call' : Call}
  (h : Call.Related (Repeated m s s') (Scope.Variants s s') m m call call')

/-- The changes that built-in operations make are repeated by themselves. -/
theorem Repeated.mark {change : Footprint → Footprint} (hchange : Footprint.Mark change) :
    Eval.Fixed (Repeated m s s') (Eval.touch change) := touch hchange.within

include h

/-- The operation `CONFIG` notes that it reads the configuration, which must then be the same. -/
theorem Operation.config_repeated :
    Repeated m s s' Text (config.evaluate call) (config.evaluate call') := by
  have hnoted (f : Footprint)
      (hafter : { f with contextSensitive := true : Footprint }.Indifferent m s s') :
      s'.config = s.config := hafter.config rfl
  refine Repeated.touch_assuming Footprint.Mark.contextSensitive.within hnoted ?_ fun hconfig => ?_
  · split
    · exact .pure _
    · cases call.parameters.find? fun parameter => !parameter.isWord with
      | none => exact .pure _
      | some bad => exact .fail _
  · have hsame : config.evaluate call' = config.evaluate call := by
      unfold config
      dsimp only
      rw [h.parameters, h.scope.config', hconfig, ← h.scope.config]
    rw [hsame]
    exact config_fixed Repeated.congruence (fun _ => Repeated.mark) call

/-- The operation `COMPILE_LANGUAGE` only reads the language, which is the same. -/
theorem Operation.compileLanguage_repeated :
    Repeated m s s' Text (compileLanguage.evaluate call) (compileLanguage.evaluate call') := by
  have hsame : compileLanguage.evaluate call' = compileLanguage.evaluate call := by
    unfold compileLanguage
    dsimp only
    rw [h.parameters, h.scope.language]
  rw [hsame]
  exact compileLanguage_fixed Repeated.congruence call

/-- The operation `TARGET_OBJECTS` notes the target of which it reads the object files. -/
theorem Operation.targetObjects_repeated :
    Repeated m s s' Text (targetObjects.evaluate call) (targetObjects.evaluate call') := by
  have hR : Congruence (Repeated m s s') := Repeated.congruence
  have hfound : targetExistsFor "TARGET_OBJECTS" call' = targetExistsFor "TARGET_OBJECTS" call := by
    unfold targetExistsFor
    rw [h.parameters, h.left, h.right]
  -- The target is noted before its object files are read.
  have hnoted (f : Footprint)
      (hafter : ((f.addDepend (firstParameter call.parameters)).addNamed
        (firstParameter call.parameters)).Indifferent m s s') :=
    hafter.objects (firstParameter call.parameters) (Members.mem_insert.2 (.inl rfl))
  unfold targetObjects
  dsimp only
  rw [hfound, h.parameters, h.scope.forBuildsystem, h.left, h.right, h.scope.config,
    h.scope.config']
  refine hR.bind_unless (hR.fixed_fail _) (hR.bind (hR.ofExcept _) fun found => ?_)
  refine hR.bind_unless (hR.fixed_fail _) ?_
  refine Repeated.touch_assuming (Footprint.Mark.objects _).within hnoted (.pure _)
    fun hobjects => hR.bind (.mark (.objects _)) fun _ => ?_
  rw [hobjects]
  exact hR.pure _

/-- Finding the property that a call names: it may be one of the head target. -/
theorem Operation.propertyAddress_repeated :
    Repeated m s s' (Text × Text) (propertyAddress call) (propertyAddress call') := by
  have hR : Congruence (Repeated m s s') := Repeated.congruence
  have hfixed (parameters : List Text) :
      Eval.Fixed (Repeated m s s') (propertyAddress { call with parameters }) :=
    propertyAddress_fixed hR (fun _ => Repeated.mark) _
  have hnoted (f : Footprint)
      (hafter : { f with headSensitive := true : Footprint }.Indifferent m s s') :
      s'.head = s.head := hafter.head rfl
  have hmodel : call'.host.model = call.host.model := h.right.trans h.left.symm
  unfold propertyAddress
  rw [h.parameters, hmodel]
  cases call.parameters with
  | nil => exact hR.fixed_fail _
  | cons first rest =>
    cases rest with
    | nil =>
      dsimp only
      cases hhead : call.scope.head with
      | none => exact .fail_left _ _
      | some target =>
        refine Repeated.touch_assuming Footprint.Mark.headSensitive.within hnoted (.pure _)
          fun hsame => ?_
        have hhead' : call'.scope.head = some target := by
          rw [h.scope.head', hsame, ← h.scope.head, hhead]
        rw [hhead']
        exact hR.bind (.mark .headSensitive) fun _ => hR.pure _
    | cons second more =>
      cases more with
      -- With the target named there is no difference between the two calls.
      | nil => exact hfixed [first, second]
      | cons third more => exact hR.fixed_fail _

/-- A property look-up notes the property that it reads, and the head target if it is that of the
property. -/
theorem Operation.seek_repeated : Repeated m s s' Sought (seek call) (seek call') := by
  have hR : Congruence (Repeated m s s') := Repeated.congruence
  unfold seek
  refine hR.bind (propertyAddress_repeated h) fun address => ?_
  obtain ⟨target, property⟩ := address
  -- The property is noted before it is read.
  have hnoted (f : Footprint) (hafter : (f.see target property).Indifferent m s s') :=
    hafter.seen target property (Members.mem_insert.2 (.inl rfl))
  dsimp only
  refine hR.bind_unless (refuseProperty_fixed hR _) (hR.bind_unless (refuseProperty_fixed hR _) ?_)
  refine Repeated.touch_assuming (Footprint.Mark.see target property).within hnoted
    (found_fixed grows_congruence _ _ _) fun hsame => hR.bind (.mark (.see _ _)) fun _ => ?_
  rw [h.expression, h.chain, h.left, h.right, h.scope.config, h.scope.config', hsame]
  exact found_fixed hR _ _ _

/-- So `TARGET_PROPERTY` is repeated, if the values it goes on to evaluate are. -/
theorem Operation.targetProperty_repeated :
    Repeated m s s' Text (targetProperty.evaluate call) (targetProperty.evaluate call') := by
  refine (seek_repeated h).bind fun sought => ?_
  cases sought with
  | text value => exact Repeated.congruence.pure value
  | value lookup stored =>
    dsimp only
    rw [h.chain]
    exact .apart (h.value _ _ _ stored (h.scope.derive lookup.target))

omit h in
/-- Each feature is noted before the standard that the target is configured for is read. -/
theorem Operation.requireAll_repeated (target : Text) (names : List Text) :
    Repeated m s s' Bool (requireAll m target s.config names)
      (requireAll m target s'.config names) := by
  have hR : Congruence (Repeated m s s') := Repeated.congruence
  induction names with
  | nil => exact hR.pure true
  | cons name rest ih =>
    unfold requireAll
    cases Feature.ofText? name with
    | none => exact .fail_left _ _
    | some feature =>
      have hnoted (f : Footprint) (hafter : (f.require target feature).Indifferent m s s') :=
        hafter.standards target feature.language (f.mem_keys_require target feature)
      have hwithin (f : Footprint) := f.within_require target feature
      refine Repeated.touch_assuming hwithin hnoted (ih.grows.bind fun _ => .pure _)
        fun hsame => hR.bind (.touch hwithin) fun _ => hR.bind ih fun others => ?_
      unfold satisfies
      rw [hsame]
      exact hR.pure _

/-- The operation `COMPILE_FEATURES` notes the head target and each language of which it reads the
standard. -/
theorem Operation.compileFeatures_repeated :
    Repeated m s s' Text (compileFeatures.evaluate call) (compileFeatures.evaluate call') := by
  have hR : Congruence (Repeated m s s') := Repeated.congruence
  have hnoted (f : Footprint)
      (hafter : { f with headSensitive := true : Footprint }.Indifferent m s s') :
      s'.head = s.head := hafter.head rfl
  unfold compileFeatures
  dsimp only
  rw [h.parameters, h.left, h.right, h.scope.config, h.scope.config']
  cases hhead : call.scope.head with
  | none => exact .fail_left _ _
  | some target =>
    have hrequired : Repeated m s s' Bool (requireAll m target s.config call.parameters)
        (requireAll m target s'.config call.parameters) := requireAll_repeated target call.parameters
    refine Repeated.touch_assuming Footprint.Mark.headSensitive.within hnoted
      (hrequired.grows.bind fun _ => .pure _) fun hsame => ?_
    have hhead' : call'.scope.head = some target := by
      rw [h.scope.head', hsame, ← h.scope.head, hhead]
    rw [hhead']
    exact hR.bind (.mark .headSensitive) fun _ => hR.bind hrequired fun _ => hR.pure _

/-- Every built-in operation notes what of its scope it makes use of, or else what it reads by way of
it. -/
theorem Builtin.evaluate_repeated (b : Builtin) :
    Repeated m s s' Text (b.operation.evaluate call) (b.operation.evaluate call') := by
  by_cases hb : b.readsScope = true
  · cases b with
    | config => exact Operation.config_repeated h
    | compileLanguage => exact Operation.compileLanguage_repeated h
    | targetProperty => exact Operation.targetProperty_repeated h
    | targetObjects => exact Operation.targetObjects_repeated h
    | compileFeatures => exact Operation.compileFeatures_repeated h
    | _ => exact absurd hb (by decide)
  · have hunscoped : b.readsScope = false := by simpa using hb
    have hproperty : b ≠ .targetProperty := fun heq => by rw [heq] at hb; exact hb rfl
    have hfeatures : b ≠ .compileFeatures := fun heq => by rw [heq] at hb; exact hb rfl
    -- An operation that reads nothing of the scope is the same in both.
    have hsame : b.operation.evaluate call' = b.operation.evaluate call := by
      obtain ⟨parameters, expression, chain, scope, host⟩ := call
      obtain ⟨parameters', expression', chain', scope', host'⟩ := call'
      obtain ⟨hparameters, hexpression, hchain, -, hleft, hright, -⟩ := h
      dsimp only at hparameters hexpression hchain hleft hright
      subst hparameters hexpression hchain
      calc b.operation.evaluate ⟨_, _, _, scope', host'⟩
        _ = b.operation.evaluate ⟨_, _, _, scope, host'⟩ := evaluate_unscoped hunscoped ..
        _ = b.operation.evaluate ⟨_, _, _, scope, host⟩ :=
          evaluate_host hproperty _ _ _ _ host host' (hright.trans hleft.symm)
    rw [hsame]
    exact evaluate_fixed Repeated.congruence (fun _ => Repeated.mark) hproperty hfeatures call

end

/-! ## Evaluation -/

section

variable {engine : Engine} (hbuiltin : engine.registry.added = [])

include hbuiltin

/-- Evaluating a forest in one scope is repeated by evaluating it in another one. -/
theorem Engine.evaluateForest_repeated {m : Model} {s s' t t' : Scope}
    (hscopes : Scope.Variants s s' t t') (remaining : Nat) (chain : Chain) (source : Text)
    (nodes : Forest) :
    Repeated m s s' Text (engine.evaluateForest m remaining t chain source nodes)
      (engine.evaluateForest m remaining t' chain source nodes) := by
  have hR : Congruence (Repeated m s s') := Repeated.congruence
  refine Engine.evaluateForest_related (S := Scope.Variants s s') hR rfl ?_ ?_ 0 ?_ remaining chain
    source nodes hscopes
  · intro forest forest' hforest value
    have htree : Repeated m s s' Tree (engine.valueTree value) (engine.valueTree value) :=
      .of_coupled (engine.valueTree_grows value) (engine.valueTree_twins value)
    exact hR.bind htree fun tree => hR.evaluateTree hforest tree
  · intro name op hfind call call' hcall
    obtain ⟨b, -, rfl⟩ := Registry.exists_builtin hbuiltin hfind
    exact b.evaluate_repeated hcall
  · -- With no more operations to open, both fail at the first one.
    intro t t' chain source nodes _
    refine hR.evaluateWith (fun _ _ span => hR.inExpression _ ?_) nodes
    exact .of_coupled (fun run => .refl run.footprint)
      (Coupled.nestingTooDeep Run.twins_respected engine.limit)

variable {w w' : Workspace} (hmodel : w'.store.model = w.store.model)
  (htrees : w.store.trees.Faithful) (htrees' : w'.store.trees.Faithful)

include hmodel htrees htrees'

/-- An evaluation that succeeds with a footprint that is indifferent to two scopes leaves in the
second one what it leaves in the first one. -/
theorem Compiled.evaluateIn_repeated (c : Compiled) (context : Context) (scope : Scope)
    (chain : Chain) (hlanguage : scope.language = context.scope.language)
    (hfiles : scope.forBuildsystem = context.scope.forBuildsystem)
    (hsuccess : (c.evaluateIn engine context chain w).1.failure = none)
    (hafter : (c.evaluateIn engine context chain w).2.1.footprint.Indifferent w.store.model
      context.scope scope) :
    (c.evaluateIn engine { context with scope } chain w').1 =
        (c.evaluateIn engine context chain w).1 ∧
      (c.evaluateIn engine { context with scope } chain w').2.1 =
        { (c.evaluateIn engine context chain w).2.1 with scope } := by
  unfold evaluateIn at hsuccess hafter ⊢
  by_cases hneeds : c.tree.needsEvaluation = true
  · simp only [hneeds, if_true] at hsuccess hafter ⊢
    rw [outcome_eq] at hsuccess hafter ⊢
    rw [outcome_eq, hmodel]
    have hscopes : Scope.Variants context.scope scope context.scope scope :=
      ⟨rfl, rfl, rfl, rfl, hlanguage, hfiles⟩
    have htwins : Run.Twins (context.toRun w) (({ context with scope } : Context).toRun w') :=
      ⟨rfl, rfl, htrees, htrees'⟩
    have hrepeated := Repeated.congruence.evaluateTree (Engine.evaluateForest_repeated hbuiltin
      (m := w.store.model) hscopes (engine.limit - context.depth) chain) c.tree
    cases hr : engine.evaluateTree w.store.model (engine.limit - context.depth) context.scope chain
        c.tree (context.toRun w) with
    | error failure after =>
      -- Only a success has a second run to be compared with.
      rw [hr] at hsuccess
      cases hsuccess
    | ok output after =>
      rw [hr] at hafter
      obtain ⟨after', hr', hends⟩ := hrepeated.again htwins hr hafter
      have hsecond : engine.evaluateTree w.store.model (engine.limit - context.depth) scope chain
          c.tree (({ context with scope } : Context).toRun w') = .ok output after' := hr'
      dsimp only
      rw [hsecond]
      simp only [conclude, finalRun, Context.after, hends.footprint, hends.depth, and_self]
  · simp only [hneeds, Bool.false_eq_true, if_false, and_self]

/-- So does an evaluation in a fresh context, which leaves a snapshot of its footprint. -/
theorem Compiled.evaluate_repeated (c : Compiled) (inputs inputs' : Inputs) (chain : Chain)
    (hlanguage : inputs'.language = inputs.language)
    (hsuccess : (c.evaluate engine inputs chain w).1.failure = none)
    (hafter : (c.evaluate engine inputs chain w).1.snapshot.Indifferent w.store.model
      (c.context engine inputs).scope (c.context engine inputs').scope) :
    (c.evaluate engine inputs' chain w').1 = (c.evaluate engine inputs chain w).1 := by
  -- The snapshot keeps what the footprint notes, so what holds of it holds of the footprint.
  have hfootprint : (c.evaluateIn engine (c.context engine inputs) chain w).2.1.footprint.Indifferent
      w.store.model (c.context engine inputs).scope (c.context engine inputs').scope := by
    unfold evaluate evaluateIn at hsuccess hafter
    unfold evaluateIn
    by_cases hneeds : c.tree.needsEvaluation = true
    · simp only [hneeds, if_true] at hsuccess hafter ⊢
      cases houtcome : outcome engine c.tree (c.context engine inputs) chain w with
      | ok output run =>
        rw [houtcome] at hafter
        exact hafter.of_absorb
      | error failure run =>
        rw [houtcome] at hsuccess
        cases hsuccess
    · simp only [hneeds, Bool.false_eq_true, if_false]
      exact ⟨⟨nofun, nofun, nofun⟩, nofun, nofun⟩
  exact (Compiled.evaluateIn_repeated hbuiltin hmodel htrees htrees' c (c.context engine inputs)
    (c.context engine inputs').scope chain hlanguage rfl hsuccess hfootprint).1

/-- And so does the evaluation of a text. -/
theorem Engine.evaluateText_repeated (source : Text) (inputs inputs' : Inputs) (chain : Chain)
    {output : Text} (hlanguage : inputs'.language = inputs.language)
    (hsuccess : (engine.evaluateText source inputs chain w).1 = .ok output)
    (hafter : ((engine.compile source).evaluate engine inputs chain w).1.snapshot.Indifferent
      w.store.model ((engine.compile source).context engine inputs).scope
      ((engine.compile source).context engine inputs').scope) :
    (engine.evaluateText source inputs' chain w').1 = .ok output := by
  unfold evaluateText at hsuccess ⊢
  -- A text without a complete expression is its own value whatever the scope.
  by_cases hshort : source.firstExpression.isNone = true
  · simp only [hshort, if_true] at hsuccess ⊢
    exact hsuccess
  · simp only [hshort, Bool.false_eq_true, if_false] at hsuccess ⊢
    cases hfailure : ((engine.compile source).evaluate engine inputs chain w).1.failure with
    | some failure =>
      rw [hfailure] at hsuccess
      cases hsuccess
    | none =>
      have hsame := Compiled.evaluate_repeated hbuiltin hmodel htrees htrees' (engine.compile source)
        inputs inputs' chain hlanguage hfailure hafter
      rw [hfailure] at hsuccess
      rw [hsame, hfailure]
      exact hsuccess

end

/-- The flag of the head target is sound. At any points of two sessions that have led to the same
model, an evaluation with built-in operations that succeeds without the flag has the same output and
leaves the same footprint for every other head target or none, whatever the current target is. -/
theorem session_unflagged_head (steps steps' : List Step)
    (hmodel : (session steps').store.model = (session steps).store.model) (engine : Engine)
    (hbuiltin : engine.registry.added = []) (chain : Chain) (head current : Option Text) :
    (∀ (c : Compiled) (context : Context),
      let scope : Scope := { context.scope with head, current }
      let first := c.evaluateIn engine context chain (session steps)
      let second := c.evaluateIn engine { context with scope } chain (session steps')
      first.1.failure = none → first.2.1.footprint.headSensitive = false →
        second.1 = first.1 ∧ second.2.1 = { first.2.1 with scope }) ∧
    (∀ (c : Compiled) (inputs : Inputs),
      let first := (c.evaluate engine inputs chain (session steps)).1
      let second := (c.evaluate engine { inputs with head, current } chain (session steps')).1
      first.failure = none → first.snapshot.headSensitive = false → second = first) ∧
    ∀ (source : Text) (inputs : Inputs) (output : Text),
      let compiled := ((engine.compile source).evaluate engine inputs chain (session steps)).1
      (engine.evaluateText source inputs chain (session steps)).1 = .ok output →
        compiled.snapshot.headSensitive = false →
        (engine.evaluateText source { inputs with head, current } chain (session steps')).1 =
          .ok output := by
  have htrees := (session_sameButTrees steps).faithful
  have htrees' := (session_sameButTrees steps').faithful
  -- Without the flag nothing is asked of the two head targets, and the configuration is the same.
  have hunflagged (f : Footprint) (scope : Scope) (head' current' : Option Text)
      (hflag : f.headSensitive = false) :
      f.Indifferent (session steps).store.model scope
        { scope with head := head', current := current' } :=
    ⟨f.steadyIn_refl _ _, fun _ => rfl, fun hset => absurd (hflag.symm.trans hset) nofun⟩
  refine ⟨?_, ?_, ?_⟩
  · intro c context scope first second hsuccess hflag
    exact Compiled.evaluateIn_repeated hbuiltin hmodel htrees htrees' c context scope chain rfl rfl
      hsuccess (hunflagged _ _ _ _ hflag)
  · intro c inputs first second hsuccess hflag
    exact Compiled.evaluate_repeated hbuiltin hmodel htrees htrees' c inputs _ chain rfl hsuccess
      (hunflagged _ _ _ _ hflag)
  · intro source inputs output compiled hsuccess hflag
    exact Engine.evaluateText_repeated hbuiltin hmodel htrees htrees' source inputs _ chain rfl
      hsuccess (hunflagged _ _ _ _ hflag)

/-- A property of the head target in a branch that is not chosen raises no flag, so there may as well be
no head target. The second evaluation finds the trees that the first one has left. -/
theorem session_unflagged_head_unchosen :
    let engine : Engine := {}
    let c := engine.compile "$<TARGET_PROPERTY:app,Q>"
    let inputs : Inputs := { config := "Debug", head := some "app" }
    let steps : List Step :=
      [.write (.value (.base "app" "P") "$<CONFIG>"),
        .write (.value (.base "app" "Q")
          "$<IF:0,$<TARGET_PROPERTY:P>,$<TARGET_PROPERTY:app,P>>")]
    let steps' : List Step := steps ++ [.evaluate ⟨engine, rfl, .compiled c inputs []⟩]
    (session steps').store.model = (session steps).store.model ∧
      (c.evaluate engine inputs [] (session steps)).1.snapshot.headSensitive = false ∧
      (c.evaluate engine inputs [] (session steps)).1.output = "Debug" ∧
      (c.evaluate engine { config := "Debug" } [] (session steps')).1.output = "Debug" := by
  intro engine c inputs steps steps'
  have hmodel : (session steps').store.model = (session steps).store.model := by decide +kernel
  have hnone : (c.evaluate engine inputs [] (session steps)).1.failure.isNone = true := by
    decide +kernel
  have hflag : (c.evaluate engine inputs [] (session steps)).1.snapshot.headSensitive = false := by
    decide +kernel
  have houtput : (c.evaluate engine inputs [] (session steps)).1.output = "Debug" := by
    decide +kernel
  obtain ⟨-, hcompiled, -⟩ := session_unflagged_head steps steps' hmodel engine rfl [] none none
  have hsame : (c.evaluate engine { config := "Debug" } [] (session steps')).1 =
      (c.evaluate engine inputs [] (session steps)).1 :=
    hcompiled c inputs (Option.isNone_iff_eq_none.1 hnone) hflag
  exact ⟨hmodel, hflag, houtput, (congrArg Compiled.output hsame).trans houtput⟩

/-- Without the flag of the configuration, only what has been looked up in the model can make a
difference. At any points of two sessions that have led to the same model, an evaluation with
built-in operations that succeeds without the flag has the same output and leaves the same footprint
in another configuration, if everything that its footprint names has the same values there. -/
theorem session_unflagged_config (steps steps' : List Step)
    (hmodel : (session steps').store.model = (session steps).store.model) (engine : Engine)
    (hbuiltin : engine.registry.added = []) (chain : Chain) (config : Text) :
    (∀ (c : Compiled) (context : Context),
      let scope : Scope := { context.scope with config }
      let first := c.evaluateIn engine context chain (session steps)
      let second := c.evaluateIn engine { context with scope } chain (session steps')
      first.1.failure = none → first.2.1.footprint.contextSensitive = false →
        first.2.1.footprint.SteadyIn (session steps).store.model context.scope.config config →
        second.1 = first.1 ∧ second.2.1 = { first.2.1 with scope }) ∧
    (∀ (c : Compiled) (inputs : Inputs),
      let first := (c.evaluate engine inputs chain (session steps)).1
      let second := (c.evaluate engine { inputs with config } chain (session steps')).1
      first.failure = none → first.snapshot.contextSensitive = false →
        first.snapshot.SteadyIn (session steps).store.model inputs.config config → second = first) ∧
    ∀ (source : Text) (inputs : Inputs) (output : Text),
      let compiled := ((engine.compile source).evaluate engine inputs chain (session steps)).1
      (engine.evaluateText source inputs chain (session steps)).1 = .ok output →
        compiled.snapshot.contextSensitive = false →
        compiled.snapshot.SteadyIn (session steps).store.model inputs.config config →
        (engine.evaluateText source { inputs with config } chain (session steps')).1 =
          .ok output := by
  have htrees := (session_sameButTrees steps).faithful
  have htrees' := (session_sameButTrees steps').faithful
  -- Without the flag the footprint says nothing about the configuration but what has been looked up.
  have hunflagged (f : Footprint) (scope : Scope) (config' : Text)
      (hflag : f.contextSensitive = false)
      (hsteady : f.SteadyIn (session steps).store.model scope.config config') :
      f.Indifferent (session steps).store.model scope { scope with config := config' } :=
    ⟨hsteady, fun hset => absurd (hflag.symm.trans hset) nofun, fun _ => rfl⟩
  refine ⟨?_, ?_, ?_⟩
  · intro c context scope first second hsuccess hflag hsteady
    exact Compiled.evaluateIn_repeated hbuiltin hmodel htrees htrees' c context scope chain rfl rfl
      hsuccess (hunflagged _ _ _ hflag hsteady)
  · intro c inputs first second hsuccess hflag hsteady
    exact Compiled.evaluate_repeated hbuiltin hmodel htrees htrees' c inputs _ chain rfl hsuccess
      (hunflagged _ (c.context engine inputs).scope _ hflag hsteady)
  · intro source inputs output compiled hsuccess hflag hsteady
    exact Engine.evaluateText_repeated hbuiltin hmodel htrees htrees' source inputs _ chain rfl
      hsuccess (hunflagged _ ((engine.compile source).context engine inputs).scope _ hflag hsteady)

/-- A value for a single configuration that is the same as elsewhere makes no difference. -/
theorem session_unflagged_config_override :
    let steps : List Step :=
      [.write (.value (.base "lib" "OBJECTS") "lib.o"),
        .write (.value (.config "lib" "Debug" "OBJECTS") "lib.o"),
        .write (.value (.base "app" "CXX_STANDARD") "17"),
        .write (.value (.base "app" "P") "$<TARGET_OBJECTS:lib>$<COMPILE_FEATURES:cxx_std_11>")]
    let engine : Engine := { forBuildsystem := true }
    let c := engine.compile "$<TARGET_PROPERTY:P>"
    let debug : Inputs := { config := "Debug", head := some "app" }
    let release : Inputs := { config := "Release", head := some "app" }
    (c.evaluate engine debug [] (session steps)).1.snapshot.contextSensitive = false ∧
      (c.evaluate engine debug [] (session steps)).1.output = "lib.o1" ∧
      (c.evaluate engine release [] (session steps)).1.output = "lib.o1" := by
  intro steps engine c debug release
  have hnone : (c.evaluate engine debug [] (session steps)).1.failure.isNone = true := by
    decide +kernel
  have hflag : (c.evaluate engine debug [] (session steps)).1.snapshot.contextSensitive = false := by
    decide +kernel
  have houtput : (c.evaluate engine debug [] (session steps)).1.output = "lib.o1" := by
    decide +kernel
  have hseen : ∀ entry ∈ (c.evaluate engine debug [] (session steps)).1.snapshot.seen,
      (session steps).store.model.property? entry.1 entry.2 "Release" =
        (session steps).store.model.property? entry.1 entry.2 "Debug" := by
    decide +kernel
  have hobjects : ∀ target ∈ (c.evaluate engine debug [] (session steps)).1.snapshot.depend,
      (session steps).store.model.property? target Operation.objectsProperty "Release" =
        (session steps).store.model.property? target Operation.objectsProperty "Debug" := by
    decide +kernel
  have hstandards : ∀ key ∈ (c.evaluate engine debug [] (session steps)).1.snapshot.standards.keys,
      (session steps).store.model.property? key.1 (Operation.standardProperty key.2) "Release" =
        (session steps).store.model.property? key.1 (Operation.standardProperty key.2) "Debug" := by
    decide +kernel
  -- What has been looked up is the same in the other configuration, although one value is set there only.
  have hsteady : (c.evaluate engine debug [] (session steps)).1.snapshot.SteadyIn
      (session steps).store.model "Debug" "Release" :=
    ⟨fun target property hmem => hseen (target, property) hmem, hobjects,
      fun target language hmem => hstandards (target, language) hmem⟩
  obtain ⟨-, hcompiled, -⟩ := session_unflagged_config steps steps rfl engine rfl [] "Release"
  have hsame : (c.evaluate engine release [] (session steps)).1 =
      (c.evaluate engine debug [] (session steps)).1 :=
    hcompiled c debug (Option.isNone_iff_eq_none.1 hnone) hflag hsteady
  exact ⟨hflag, houtput, (congrArg Compiled.output hsame).trans houtput⟩

/-- The flag alone does not rule a difference out: a property with a value for one configuration is
read, no flag is raised, and in another configuration the result is another one. -/
theorem unflagged_result_differs :
    let steps : List Step :=
      [.write (.value (.base "app" "P") "y"), .write (.value (.config "app" "Debug" "P") "x")]
    let engine : Engine := {}
    let c := engine.compile "$<TARGET_PROPERTY:app,P>"
    let debug := (c.evaluate engine { config := "Debug" } [] (session steps)).1
    let release := (c.evaluate engine { config := "Release" } [] (session steps)).1
    debug.failure.isNone = true ∧ debug.snapshot.contextSensitive = false ∧
      debug.output = "x" ∧ release.output = "y" := by
  decide +kernel

end BuildExpr
