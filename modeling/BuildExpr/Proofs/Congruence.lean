import BuildExpr.Proofs.Runs

/-!
# Comparing two evaluations of the same trees

Many facts about evaluations compare two of them: with and without kept trees, under two limits, for
two scopes, over two models. Such a fact is a relation between evaluations that every way of putting
evaluations together keeps, a `Congruence`. An engine only puts evaluations together in these ways, so
it is enough to look at the operations: if the relation holds of each operation carried out on the
two sides, it holds of the two evaluations of every forest (`Engine.evaluateForest_related`).

The relation may be one that says nothing about its second side; then the result is that every
evaluation has a property.
-/

namespace BuildExpr

/-- A relation between evaluations that is kept when evaluations are put together. -/
structure Congruence (R : (α : Type) → Eval α → Eval α → Prop) : Prop where
  /-- A value is related to itself. -/
  pure {α : Type} (a : α) : R α (pure a) (pure a)
  /-- So is a failure. -/
  fail {α : Type} (cause : Cause) : R α (Eval.fail cause) (Eval.fail cause)
  /-- Evaluations that go on from a value in related ways are related. -/
  bind {α β : Type} {x y : Eval α} {f g : α → Eval β} :
    R α x y → (∀ a, R β (f a) (g a)) → R β (x >>= f) (y >>= g)
  /-- Placing failures in an expression keeps the relation. -/
  inExpression {α : Type} {x y : Eval α} (expression : Text) :
    R α x y → R α (Eval.inExpression expression x) (Eval.inExpression expression y)
  /-- Opening an operation around the evaluations keeps the relation. -/
  within {α : Type} {x y : Eval α} : R α x y → R α (Eval.within x) (Eval.within y)

/-- An evaluation that is related to itself. -/
def Eval.Fixed (R : (α : Type) → Eval α → Eval α → Prop) {α : Type} (x : Eval α) : Prop := R α x x

namespace Congruence

variable {R : (α : Type) → Eval α → Eval α → Prop} (hR : Congruence R)

include hR

/-- A value is related to itself. -/
theorem fixed_pure {α : Type} (a : α) : Eval.Fixed R (Pure.pure a : Eval α) := hR.pure a

/-- So is a failure. -/
theorem fixed_fail {α : Type} (cause : Cause) : Eval.Fixed R (Eval.fail cause : Eval α) :=
  hR.fail cause

/-- Two steps in a row are if each of them is. -/
theorem fixed_bind {α β : Type} {x : Eval α} {f : α → Eval β} (hx : Eval.Fixed R x)
    (hf : ∀ a, Eval.Fixed R (f a)) : Eval.Fixed R (x >>= f) := hR.bind hx hf

/-- Going on in related ways only if a condition does not hold. -/
theorem bind_unless {α : Type} {p : Prop} [Decidable p] {x : Eval Unit} {f g : Unit → Eval α}
    (hx : Eval.Fixed R x) (h : R α (f ()) (g ())) :
    R α (if p then x >>= f else f ()) (if p then x >>= g else g ()) := by
  by_cases hp : p
  · rw [if_pos hp, if_pos hp]
    exact hR.bind hx fun _ => h
  · rw [if_neg hp, if_neg hp]
    exact h

/-- So is a step that is taken only if a condition holds, with what follows it. -/
theorem fixed_unless {α : Type} {p : Prop} [Decidable p] {x : Eval Unit} {f : Unit → Eval α}
    (hx : Eval.Fixed R x) (hf : Eval.Fixed R (f ())) :
    Eval.Fixed R (if p then x >>= f else f ()) := hR.bind_unless hx hf

/-- A value or a cause of failure is related to itself. -/
theorem ofExcept {α : Type} (result : Except Cause α) : Eval.Fixed R (Eval.ofExcept result) := by
  cases result with
  | ok a => exact hR.pure a
  | error cause => exact hR.fail cause

/-- Forests are related if their operations are. -/
theorem evaluateWith {operation operation' : Forest → List Forest → Span → Eval Text}
    (h : ∀ name parameters span,
      R Text (operation name parameters span) (operation' name parameters span))
    (nodes : Forest) : R Text (nodes.evaluateWith operation) (nodes.evaluateWith operation') := by
  induction nodes with
  | nil => exact hR.pure []
  | cons node rest ih =>
    cases node with
    | text value => exact hR.bind ih fun others => hR.pure (value ++ others)
    | operation name parameters span =>
      exact hR.bind (h name parameters span) fun value =>
        hR.bind ih fun others => hR.pure (value ++ others)

/-- The same tree is related if its forest is. -/
theorem evaluateTree {forest forest' : Text → Forest → Eval Text}
    (h : ∀ source nodes, R Text (forest source nodes) (forest' source nodes)) (tree : Tree) :
    R Text (tree.evaluateWith forest) (tree.evaluateWith forest') := by
  cases tree with
  | plain source => exact hR.pure source
  | forest source nodes => exact h source nodes
  | tooDeep source depth limit => exact hR.inExpression source (hR.fail _)

variable (op : Operation) {evaluate evaluate' : Forest → Eval Text}

/-- The values of parameters are related if parameters are. -/
theorem evaluateRest (h : ∀ parameter, R Text (evaluate parameter) (evaluate' parameter))
    (joinedFrom index : Nat) (values : List Text) (parameters : List Forest) :
    R (List Text) (op.evaluateRest evaluate joinedFrom index values parameters)
      (op.evaluateRest evaluate' joinedFrom index values parameters) := by
  induction parameters generalizing index values with
  | nil => exact hR.pure values
  | cons parameter rest ih =>
    simp only [Operation.evaluateRest]
    split
    · exact ih _ _
    · exact hR.bind (h parameter) fun value => ih _ _

/-- Carrying out an operation is related if its parameters are and if it is on related calls. -/
theorem carryOut (h : ∀ parameter, R Text (evaluate parameter) (evaluate' parameter))
    {call call' : List Text → Call}
    (hcall : ∀ values, R Text (op.evaluate (call values)) (op.evaluate (call' values)))
    (parameters : List Forest) :
    R Text (op.carryOut evaluate parameters call) (op.carryOut evaluate' parameters call') := by
  simp only [Operation.carryOut]
  split
  · split
    · exact hR.fail _
    · exact hR.pure []
  · split
    · exact hR.fail _
    · exact hR.bind (hR.evaluateRest op h _ _ _ parameters) hcall

end Congruence

/-! ## The run at the end of an evaluation -/

/-- A relation between the run an evaluation starts from and the run it ends with that holds of
evaluations put together if it holds of each of them. -/
structure Run.Progress (R : Run → Run → Prop) : Prop where
  /-- Nothing need happen. -/
  refl (run : Run) : R run run
  /-- One evaluation may follow another one. -/
  trans {r s t : Run} : R r s → R s t → R r t
  /-- An operation may be opened before and closed again. -/
  within {r s : Run} : R { r with depth := r.depth + 1 } s → R r { s with depth := s.depth - 1 }

/-- An evaluation that ends, with a value or not, with a run related to the one it starts from. -/
def Eval.Advances (R : Run → Run → Prop) {α : Type} (x : Eval α) : Prop :=
  ∀ run, R run (Compiled.finalRun (x run))

/-- The property as a relation, which says nothing about its second side. -/
def Eval.advancing (R : Run → Run → Prop) (α : Type) (x _ : Eval α) : Prop := x.Advances R

namespace Run.Progress

variable {R : Run → Run → Prop} (hR : Run.Progress R)

include hR

/-- What goes on from a value matters only for the values and the runs there can be. -/
theorem bind {α β : Type} {x : Eval α} {f : α → Eval β} (hx : x.Advances R)
    (hf : ∀ run a after, x run = .ok a after → R run after →
      R after (Compiled.finalRun (f a after))) : Eval.Advances R (x >>= f) := by
  intro run
  have hfirst := hx run
  rw [Eval.bind_apply]
  cases h : x run with
  | ok a after =>
    rw [h] at hfirst
    exact hR.trans hfirst (hf run a after h hfirst)
  | error failure after =>
    rw [h] at hfirst
    exact hfirst

/-- What only advances runs is closed under putting evaluations together. -/
theorem congruence : Congruence (Eval.advancing R) where
  pure _ run := hR.refl run
  fail _ run := hR.refl run
  bind hx hf := hR.bind hx fun _ a after _ _ => hf a after
  inExpression {_ x _} expression hx run := by
    rw [Eval.finalRun_inExpression]
    exact hx run
  within {_ x _} hx run := by
    rw [Eval.finalRun_within]
    exact hR.within (hx { run with depth := run.depth + 1 })

end Run.Progress

/-- Two calls of an operation that differ in what they are carried out for, in the look-ups under way
and in their surroundings only, with related evaluations of those property values that matter. -/
structure Call.Parallel (R : (α : Type) → Eval α → Eval α → Prop)
    (S : Scope → Chain → Scope → Chain → Prop) (V : Text → Prop) (host host' : Host)
    (call call' : Call) : Prop where
  /-- They have the same parameters. -/
  parameters : call'.parameters = call.parameters
  /-- They stand in the same expression. -/
  expression : call'.expression = call.expression
  /-- Their scopes and the look-ups under way are related. -/
  scope : S call.scope call.chain call'.scope call'.chain
  /-- The first one has the first surroundings. -/
  left : call.host = host
  /-- The second one has the second surroundings. -/
  right : call'.host = host'
  /-- Property values are evaluated to related results. -/
  value (scope : Scope) (chain : Chain) (scope' : Scope) (chain' : Chain) (value : Text) :
    V value → S scope chain scope' chain' →
      R Text (host.evaluateValue scope chain value) (host'.evaluateValue scope' chain' value)

/-- Two calls of an operation that differ in what they are carried out for and in their surroundings
only, with related scopes and related evaluations of property values. -/
structure Call.Related (R : (α : Type) → Eval α → Eval α → Prop) (S : Scope → Scope → Prop)
    (model model' : Model) (call call' : Call) : Prop where
  /-- They have the same parameters. -/
  parameters : call'.parameters = call.parameters
  /-- They stand in the same expression. -/
  expression : call'.expression = call.expression
  /-- They have the same look-ups under way. -/
  chain : call'.chain = call.chain
  /-- Their scopes are related. -/
  scope : S call.scope call'.scope
  /-- The first one sees the first model. -/
  left : call.host.model = model
  /-- The second one sees the second model. -/
  right : call'.host.model = model'
  /-- Property values are evaluated to related results. -/
  value (scope scope' : Scope) (chain : Chain) (value : Text) : S scope scope' →
    R Text (call.host.evaluateValue scope chain value) (call'.host.evaluateValue scope' chain value)

section

variable {R : (α : Type) → Eval α → Eval α → Prop} (hR : Congruence R)
  {S : Scope → Chain → Scope → Chain → Prop} {V : Text → Prop} {model model' : Model}
  {engine engine' : Engine} (hregistry : engine'.registry = engine.registry)
  (hvalue : ∀ (forest forest' : Text → Forest → Eval Text),
    (∀ source nodes, R Text (forest source nodes) (forest' source nodes)) → ∀ value, V value →
      R Text (do let tree ← engine.valueTree value; tree.evaluateWith forest)
        (do let tree ← engine'.valueTree value; tree.evaluateWith forest'))
  (extra : Nat)
  (hfull : ∀ scope chain scope' chain' source nodes, S scope chain scope' chain' →
    R Text (engine.evaluateForest model 0 scope chain source nodes)
      (engine'.evaluateForest model' extra scope' chain' source nodes))

include hR hregistry hvalue hfull

/-- Two evaluations of a forest are related if all operations are, and if they are when no more
operation may be opened on the first side and `extra` more on the second. -/
theorem Engine.evaluateForest_parallel (remaining : Nat)
    (hoperation : ∀ name op, engine.registry.find? name = some op → ∀ inner < remaining,
      ∀ call call', Call.Parallel R S V (engine.hostAt model inner)
        (engine'.hostAt model' (inner + extra)) call call' →
          R Text (op.evaluate call) (op.evaluate call'))
    {scope scope' : Scope} {chain chain' : Chain} (source : Text) (nodes : Forest)
    (hscope : S scope chain scope' chain') :
    R Text (engine.evaluateForest model remaining scope chain source nodes)
      (engine'.evaluateForest model' (remaining + extra) scope' chain' source nodes) := by
  -- The recursion of the evaluator, for all scopes and chains: a property value is evaluated for
  -- another scope and a longer chain.
  induction remaining generalizing scope scope' chain chain' source nodes with
  | zero =>
    rw [Nat.zero_add]
    exact hfull scope chain scope' chain' source nodes hscope
  | succ remaining ih =>
    have hinner {s s' : Scope} {c c' : Chain} (hs : S s c s' c') (source : Text) (nodes : Forest) :=
      ih (fun name op hfind inner hlt => hoperation name op hfind inner (Nat.lt_succ_of_lt hlt))
        source nodes hs
    rw [Nat.add_right_comm]
    refine hR.evaluateWith (fun name parameters span => ?_) nodes
    refine hR.within (hR.inExpression _ (hR.bind (hinner hscope source name) fun called => ?_))
    rw [hregistry]
    cases hfind : engine.registry.find? called with
    | none => exact hR.fail _
    | some op =>
      refine hR.carryOut op (fun parameter => hinner hscope source parameter) (fun values => ?_)
        parameters
      refine hoperation called op hfind remaining (Nat.lt_succ_self _) _ _
        ⟨rfl, rfl, hscope, rfl, rfl, ?_⟩
      intro s c s' c' value hmatters hs
      exact hvalue _ _ (fun source nodes => hinner hs source nodes) value hmatters

end

section

variable {R : (α : Type) → Eval α → Eval α → Prop} (hR : Congruence R)
  {S : Scope → Scope → Prop} {model model' : Model} {engine engine' : Engine}
  (hregistry : engine'.registry = engine.registry)
  (hvalue : ∀ (forest forest' : Text → Forest → Eval Text),
    (∀ source nodes, R Text (forest source nodes) (forest' source nodes)) → ∀ value,
      R Text (do let tree ← engine.valueTree value; tree.evaluateWith forest)
        (do let tree ← engine'.valueTree value; tree.evaluateWith forest'))
  (hoperation : ∀ name op, engine.registry.find? name = some op → ∀ call call',
    Call.Related R S model model' call call' → R Text (op.evaluate call) (op.evaluate call'))
  (extra : Nat)
  (hfull : ∀ scope scope' chain source nodes, S scope scope' →
    R Text (engine.evaluateForest model 0 scope chain source nodes)
      (engine'.evaluateForest model' extra scope' chain source nodes))

include hR hregistry hvalue hoperation hfull

/-- The same for the same look-ups under way and for all property values. -/
theorem Engine.evaluateForest_related (remaining : Nat) {scope scope' : Scope} (chain : Chain)
    (source : Text) (nodes : Forest) (hscope : S scope scope') :
    R Text (engine.evaluateForest model remaining scope chain source nodes)
      (engine'.evaluateForest model' (remaining + extra) scope' chain source nodes) := by
  let sameChain (scope : Scope) (chain : Chain) (scope' : Scope) (chain' : Chain) : Prop :=
    S scope scope' ∧ chain' = chain
  refine Engine.evaluateForest_parallel (S := sameChain) (V := fun _ => True) hR hregistry
    (fun forest forest' h value _ => hvalue forest forest' h value) extra ?_ remaining ?_ source
    nodes ⟨hscope, rfl⟩
  · rintro scope chain scope' _ source nodes ⟨hs, rfl⟩
    exact hfull scope scope' _ source nodes hs
  · intro name op hfind inner _ call call' h
    refine hoperation name op hfind call call' ⟨h.parameters, h.expression, h.scope.2, h.scope.1,
      by rw [h.left]; rfl, by rw [h.right]; rfl, fun s s' c value hs => ?_⟩
    rw [h.left, h.right]
    exact h.value s c s' c value trivial ⟨hs, rfl⟩

end

/-! ## Built-in operations -/

/-- Only built-in operations are found where none have been added. -/
theorem Registry.find?_eq {r : Registry} (hr : r.added = []) (name : Text) :
    r.find? name = (Builtin.ofName? name).map Builtin.operation := by
  unfold find?
  cases Builtin.ofName? name with
  | some b => rfl
  | none => rw [hr]; rfl

/-- What is found where none have been added is the built-in operation of that name. -/
theorem Registry.exists_builtin {r : Registry} (hr : r.added = []) {name : Text} {op : Operation}
    (h : r.find? name = some op) :
    ∃ b : Builtin, Builtin.ofName? name = some b ∧ b.operation = op := by
  rw [find?_eq hr] at h
  exact Option.map_eq_some_iff.1 h

/-- What no operation but `TARGET_PROPERTY` makes use of is how property values are evaluated. -/
theorem Builtin.evaluate_host {b : Builtin} (hb : b ≠ .targetProperty) (parameters : List Text)
    (expression : Text) (chain : Chain) (scope : Scope) (host host' : Host)
    (hmodel : host'.model = host.model) :
    b.operation.evaluate ⟨parameters, expression, chain, scope, host'⟩ =
      b.operation.evaluate ⟨parameters, expression, chain, scope, host⟩ := by
  obtain ⟨model, text, value⟩ := host
  obtain ⟨model', text', value'⟩ := host'
  dsimp only at hmodel
  subst hmodel
  -- In the others the host occurs by its model only.
  cases b with
  | targetProperty => exact absurd rfl hb
  | _ => rfl

/-- The changes that built-in operations make to a footprint, apart from noting standards. -/
inductive Footprint.Mark : (Footprint → Footprint) → Prop where
  | contextSensitive : Mark fun f => { f with contextSensitive := true }
  | headSensitive : Mark fun f => { f with headSensitive := true }
  | named (target : Text) : Mark fun f => (f.addNamed target).addDepend target
  | objects (target : Text) : Mark fun f => (f.addDepend target).addNamed target
  | see (target property : Text) : Mark fun f => f.see target property

section

variable {R : (α : Type) → Eval α → Eval α → Prop} (hR : Congruence R)
  (hmark : ∀ change, Footprint.Mark change → Eval.Fixed R (Eval.touch change))

include hR

/-- Refusing a parameter of `TARGET_PROPERTY` is related to itself. -/
theorem Operation.refuseProperty_fixed {α : Type} (reason : Text) :
    Eval.Fixed R (refuseProperty reason : Eval α) := hR.fixed_fail _

/-- The operation `COMPILE_LANGUAGE` is related to itself. -/
theorem Operation.compileLanguage_fixed (call : Call) :
    Eval.Fixed R (compileLanguage.evaluate call) := by
  unfold compileLanguage
  dsimp only
  cases call.scope.language with
  | none => exact hR.fixed_fail _
  | some language =>
    dsimp only
    split
    · exact hR.fixed_pure _
    · exact hR.fixed_pure _

include hmark

/-- So is `CONFIG`, which notes that the result depends on the configuration. -/
theorem Operation.config_fixed (call : Call) : Eval.Fixed R (config.evaluate call) := by
  unfold config
  refine hR.fixed_bind (hmark _ .contextSensitive) fun _ => ?_
  split
  · exact hR.fixed_pure _
  · cases call.parameters.find? fun parameter => !parameter.isWord with
    | none => exact hR.fixed_pure _
    | some bad => exact hR.fixed_fail _

/-- So is `TARGET_OBJECTS`, which notes the target. -/
theorem Operation.targetObjects_fixed (call : Call) :
    Eval.Fixed R (targetObjects.evaluate call) := by
  unfold targetObjects
  dsimp only
  refine hR.fixed_unless (hR.fixed_fail _) ?_
  refine hR.fixed_bind (hR.ofExcept _) fun found => ?_
  refine hR.fixed_unless (hR.fixed_fail _) ?_
  exact hR.fixed_bind (hmark _ (.objects _)) fun _ => hR.fixed_pure _

/-- Finding the property that a call of `TARGET_PROPERTY` names is related to itself. -/
theorem Operation.propertyAddress_fixed (call : Call) : Eval.Fixed R (propertyAddress call) := by
  unfold propertyAddress
  split
  · split
    · exact Operation.refuseProperty_fixed hR _
    · exact hR.fixed_bind (hmark _ .headSensitive) fun _ => hR.fixed_pure _
  · split
    · exact Operation.refuseProperty_fixed hR _
    · split
      · exact Operation.refuseProperty_fixed hR _
      · split
        · exact hR.fixed_fail _
        · exact hR.fixed_bind (hmark _ (.named _)) fun _ => hR.fixed_pure _
  · exact hR.fixed_fail _

omit hmark in
/-- What a look-up comes to once the property has been noted is related to itself: every way out is a
value or a failure. -/
theorem Operation.found_fixed (refusal : Option Cause) (lookup : Lookup) (found : Option Text) :
    Eval.Fixed R (do
      if let some cause := refusal then Eval.fail cause
      match found with
      | none => return .text []
      | some value =>
        return if value.firstExpression.isNone then .text value else .value lookup value :
      Eval Sought) := by
  cases found with
  | none =>
    cases refusal with
    | some cause => exact hR.fixed_bind (hR.fixed_fail cause) fun _ => hR.fixed_pure _
    | none => exact hR.fixed_pure _
  | some value =>
    cases refusal with
    | some cause => exact hR.fixed_bind (hR.fixed_fail cause) fun _ => hR.fixed_pure _
    | none => exact hR.fixed_pure _

/-- Looking a property up is related to itself as far as nothing is evaluated. -/
theorem Operation.seek_fixed (call : Call) : Eval.Fixed R (seek call) := by
  unfold seek
  refine hR.fixed_bind (Operation.propertyAddress_fixed hR hmark call) fun address => ?_
  obtain ⟨target, property⟩ := address
  dsimp only
  refine hR.fixed_unless (Operation.refuseProperty_fixed hR _) ?_
  refine hR.fixed_unless (Operation.refuseProperty_fixed hR _) ?_
  exact hR.fixed_bind (hmark _ (.see _ _)) fun _ => Operation.found_fixed hR _ _ _

/-- Every built-in operation that neither looks a property up nor notes standards is related to
itself. -/
theorem Builtin.evaluate_fixed {b : Builtin} (hproperty : b ≠ .targetProperty)
    (hfeatures : b ≠ .compileFeatures) (call : Call) :
    Eval.Fixed R (b.operation.evaluate call) := by
  cases b with
  | targetProperty => exact absurd rfl hproperty
  | compileFeatures => exact absurd rfl hfeatures
  | zero | one | buildInterface | installInterface => exact hR.fixed_pure _
  | bool | angle | comma | semicolon | lowerCase | upperCase | removeDuplicates =>
    exact hR.fixed_pure _
  | and | or | not | choice | stringEqual | integerEqual | inList | join => exact hR.ofExcept _
  | config => exact Operation.config_fixed hR hmark call
  | compileLanguage => exact Operation.compileLanguage_fixed hR call
  | targetExists | targetNameIfExists =>
    exact hR.fixed_bind (hR.ofExcept _) fun found => hR.fixed_pure _
  | targetObjects => exact Operation.targetObjects_fixed hR hmark call

omit hmark in
/-- Noting features on behalf of a target is related to itself. -/
theorem Operation.requireAll_fixed (model : Model) (head config : Text)
    (hrequire : ∀ feature, Eval.Fixed R (Eval.touch fun f => f.require head feature))
    (names : List Text) : Eval.Fixed R (requireAll model head config names) := by
  induction names with
  | nil => exact hR.fixed_pure true
  | cons name rest ih =>
    unfold requireAll
    cases Feature.ofText? name with
    | none => exact hR.fixed_fail _
    | some feature =>
      exact hR.fixed_bind (hrequire feature) fun _ =>
        hR.fixed_bind ih fun others => hR.fixed_pure _

variable (hrequire : ∀ head feature,
  Eval.Fixed R (Eval.touch fun f => f.require head feature))

include hrequire

/-- So is `COMPILE_FEATURES`, with all the standards it records. -/
theorem Operation.compileFeatures_fixed (call : Call) :
    Eval.Fixed R (compileFeatures.evaluate call) := by
  unfold compileFeatures
  dsimp only
  cases call.scope.head with
  | none => exact hR.fixed_fail _
  | some head =>
    refine hR.fixed_bind (hmark _ .headSensitive) fun _ => ?_
    exact hR.fixed_bind (Operation.requireAll_fixed hR _ head _ (hrequire head) _) fun _ =>
      hR.fixed_pure _

variable (hapart : ∀ x y, R Text x y → R Text (Eval.apart x) (Eval.apart y)) {model : Model}
  {call call' : Call} (h : Call.Related R Eq model model call call')

include hapart h

omit hrequire in
/-- Looking the same property up is related if evaluating property values is. -/
theorem Operation.targetProperty_related :
    R Text (targetProperty.evaluate call) (targetProperty.evaluate call') := by
  have hseek : seek call' = seek call := by
    unfold seek propertyAddress
    rw [h.parameters, h.expression, h.chain, ← h.scope, h.left, h.right]
  unfold targetProperty
  dsimp only
  rw [hseek]
  -- What is sought is the same on both sides, so only the evaluation of a value remains.
  refine hR.bind (Operation.seek_fixed hR hmark call) fun sought => ?_
  cases sought with
  | text value => exact hR.pure value
  | value lookup stored =>
    dsimp only
    rw [h.chain, ← h.scope]
    exact hapart _ _ (h.value _ _ _ stored rfl)

/-- A built-in operation is related to itself on calls that are alike. -/
theorem Builtin.evaluate_related (b : Builtin) :
    R Text (b.operation.evaluate call) (b.operation.evaluate call') := by
  by_cases hb : b = .targetProperty
  · rw [hb]
    exact Operation.targetProperty_related hR hmark hapart h
  · obtain ⟨parameters, expression, chain, scope, host⟩ := call
    obtain ⟨parameters', expression', chain', scope', host'⟩ := call'
    obtain ⟨hparameters, hexpression, hchain, hscope, hleft, hright, -⟩ := h
    dsimp only at hparameters hexpression hchain hscope hleft hright
    subst hparameters hexpression hchain hscope
    rw [Builtin.evaluate_host hb _ _ _ _ host host' (hright.trans hleft.symm)]
    by_cases hfeatures : b = .compileFeatures
    · rw [hfeatures]
      exact Operation.compileFeatures_fixed hR hmark hrequire _
    · exact Builtin.evaluate_fixed hR hmark hb hfeatures _

end

/-! ## Single evaluations -/

section

variable {R : (α : Type) → Eval α → Eval α → Prop} (hR : Congruence R)

include hR

/-- The evaluation of a forest is related to itself if its operations are. -/
theorem Congruence.fixed_evaluateWith {operation : Forest → List Forest → Span → Eval Text}
    (h : ∀ name parameters span, Eval.Fixed R (operation name parameters span)) (nodes : Forest) :
    Eval.Fixed R (nodes.evaluateWith operation) := hR.evaluateWith h nodes

/-- So is that of a tree. -/
theorem Congruence.fixed_evaluateTree {forest : Text → Forest → Eval Text}
    (h : ∀ source nodes, Eval.Fixed R (forest source nodes)) (tree : Tree) :
    Eval.Fixed R (tree.evaluateWith forest) := hR.evaluateTree h tree

variable (hmark : ∀ change, Footprint.Mark change → Eval.Fixed R (Eval.touch change))
  (hrequire : ∀ head feature, Eval.Fixed R (Eval.touch fun f => f.require head feature))
  (hapart : ∀ x y, R Text x y → R Text (Eval.apart x) (Eval.apart y)) {engine : Engine}
  (hbuiltin : engine.registry.added = [])
  (htree : ∀ value, Eval.Fixed R (engine.valueTree value))
  (hdeep : Eval.Fixed R (do
    let run ← get
    Eval.fail (.nestingTooDeep (run.depth + 1) engine.limit) : Eval Text))

include hmark hrequire hapart hbuiltin htree hdeep

/-- Evaluating a forest with built-in operations is related to itself if all that such evaluations are
put together from is. -/
theorem Engine.evaluateForest_fixed (model : Model) (remaining : Nat) (scope : Scope)
    (chain : Chain) (source : Text) (nodes : Forest) :
    Eval.Fixed R (engine.evaluateForest model remaining scope chain source nodes) := by
  refine Engine.evaluateForest_related hR rfl ?_ ?_ 0 ?_ remaining chain source nodes
    (rfl : scope = scope)
  · intro forest forest' hforest value
    exact hR.bind (htree value) fun tree => hR.evaluateTree hforest tree
  · intro name op hfind call call' hcall
    obtain ⟨b, -, rfl⟩ := Registry.exists_builtin hbuiltin hfind
    exact Builtin.evaluate_related hR hmark hrequire hapart hcall b
  · intro scope scope' chain source nodes hscope
    subst hscope
    exact hR.evaluateWith (fun _ _ span => hR.inExpression _ hdeep) nodes

end

end BuildExpr
