import BuildExpr.Proofs.Dependence
import BuildExpr.Proofs.PropertyRecursion

/-!
# A higher limit changes no answer

The nesting limit is asked for in two places: when the text of an expression or of a property value
is read, and when an operation is opened. In both places an evaluation that exceeds it fails, and no
operation recovers from that. So an evaluation either fails for the limit or never gets there, and
then it ends in the same way under any higher limit (`session_raised_limit`).

The relation of the two evaluations is `Extended`. The second one has trees of its own: a text that
is read under both limits is kept under each of them.
-/

namespace BuildExpr

open Compiled (finalRun)

/-- Runs that have noted and sent the same and have the same number of operations open, with
faithful trees. -/
structure Run.Alike (r s : Run) : Prop extends Run.Twins r s where
  /-- They have sent the same messages. -/
  messages : r.messages = s.messages

/-- All that evaluations do to runs that are alike leaves them alike. -/
theorem Run.alike_respected : Run.Respected Run.Alike where
  enter h := ⟨Run.twins_respected.enter h.toTwins, h.messages⟩
  leave h := ⟨Run.twins_respected.leave h.toTwins, h.messages⟩
  touch change _ _ h := ⟨Run.twins_respected.touch change h.toTwins, h.messages⟩
  send message _ _ h :=
    ⟨Run.twins_respected.send message h.toTwins, congrArg (· ++ [message]) h.messages⟩
  begin h := ⟨Run.twins_respected.begin h.toTwins, h.messages⟩
  merge h h' := ⟨Run.twins_respected.merge h.toTwins h'.toTwins, h'.messages⟩
  depth_eq h := h.depth

/-! ## Evaluations that end alike within the limit -/

/-- An end of an evaluation at the nesting limit. -/
def PastLimit {α : Type} (result : EStateM.Result Failure Run α) : Prop :=
  ∃ failure run, result = .error failure run ∧ ¬ failure.cause.WithinLimit

/-- An evaluation and one that ends like it unless the first one fails at the nesting limit. -/
def Extended (α : Type) (x y : Eval α) : Prop :=
  ∀ ⦃r s : Run⦄, Run.Alike r s → PastLimit (x r) ∨ EndsAlike Run.Alike (x r) (y s)

namespace PastLimit

variable {α β : Type} {x : Eval α} {r : Run}

/-- Nothing is done after such a failure. -/
theorem bind (h : PastLimit (x r)) (f : α → Eval β) : PastLimit ((x >>= f) r) := by
  obtain ⟨failure, run, hr, hcause⟩ := h
  refine ⟨failure, run, ?_, hcause⟩
  rw [Eval.bind_apply, hr]

/-- Placing the failure in an expression does not change that it is one at the limit. -/
theorem inExpression (h : PastLimit (x r)) (expression : Text) :
    PastLimit (Eval.inExpression expression x r) := by
  obtain ⟨failure, run, hr, hcause⟩ := h
  refine ⟨failure.inExpression expression, run, ?_, hcause⟩
  unfold Eval.inExpression
  rw [hr]

/-- Nor does closing the operation around it. -/
theorem within (h : PastLimit (x { r with depth := r.depth + 1 })) :
    PastLimit (Eval.within x r) := by
  obtain ⟨failure, run, hr, hcause⟩ := h
  refine ⟨failure, { run with depth := run.depth - 1 }, ?_, hcause⟩
  rw [Eval.within_apply, hr]

/-- Nor does merging its footprint. -/
theorem apart (h : PastLimit (x { r with footprint := {} })) : PastLimit (Eval.apart x r) := by
  obtain ⟨failure, run, hr, hcause⟩ := h
  refine ⟨failure, { run with footprint := r.footprint.merge run.footprint, depth := r.depth }, ?_,
    hcause⟩
  unfold Eval.apart
  rw [hr]

/-- Going on from the value keeps two ends alike unless one goes past the limit. -/
theorem or_bind {S : Run → Run → Prop} {y : Eval α} {s : Run}
    (hx : PastLimit (x r) ∨ EndsAlike S (x r) (y s)) {f g : α → Eval β}
    (hf : ∀ a r' s', S r' s' → PastLimit (f a r') ∨ EndsAlike S (f a r') (g a s')) :
    PastLimit ((x >>= f) r) ∨ EndsAlike S ((x >>= f) r) ((y >>= g) s) := by
  rcases hx with hpast | halike
  · exact .inl (hpast.bind f)
  · rw [Eval.bind_apply, Eval.bind_apply]
    rcases halike.ends with ⟨a, r', s', hr, hs, h'⟩ | ⟨failure, r', s', hr, hs, h'⟩
    · rw [hr, hs]
      exact hf a r' s' h'
    · rw [hr, hs]
      exact .inr (.error failure h')

/-- Opening one more operation than there may be goes past the limit. -/
theorem nestingTooDeep (expression : Text) (limit : Nat) (r : Run) :
    PastLimit (Eval.inExpression expression (do
      let run ← get
      Eval.fail (.nestingTooDeep (run.depth + 1) limit) : Eval α) r) :=
  ⟨_, r, rfl, fun hcause => hcause _ _ rfl⟩

end PastLimit

section

variable {R : (α : Type) → Eval α → Eval α → Prop} (hR : Congruence R)
  (hpast : ∀ x y : Eval Text, (∀ run, PastLimit (x run)) → R Text x y)
  (htouch : ∀ change, Eval.Fixed R (Eval.touch change))
  (hapart : ∀ x y : Eval Text, R Text x y → R Text (Eval.apart x) (Eval.apart y))
  {engine engine' : Engine} (hregistry : engine'.registry = engine.registry)
  (hbuiltin : engine.registry.added = [])
  (hvalue : ∀ (forest forest' : Text → Forest → Eval Text),
    (∀ source nodes, R Text (forest source nodes) (forest' source nodes)) → ∀ value,
      R Text (do let tree ← engine.valueTree value; tree.evaluateWith forest)
        (do let tree ← engine'.valueTree value; tree.evaluateWith forest'))

include hR hpast htouch hapart hregistry hbuiltin hvalue

/-- A forest is related to itself where `extra` more operations may be opened, if nothing is asked of
the second evaluation where the first one goes past the limit. -/
theorem Engine.evaluateForest_deeper (model : Model) (remaining extra : Nat) (scope : Scope)
    (chain : Chain) (source : Text) (nodes : Forest) :
    R Text (engine.evaluateForest model remaining scope chain source nodes)
      (engine'.evaluateForest model (remaining + extra) scope chain source nodes) := by
  refine Engine.evaluateForest_related hR hregistry hvalue ?_ extra ?_ remaining chain source nodes
    (rfl : scope = scope)
  · intro name op hfind call call' hcall
    obtain ⟨b, -, rfl⟩ := Registry.exists_builtin hbuiltin hfind
    exact Builtin.evaluate_related hR (fun change _ => htouch change) (fun _ _ => htouch _) hapart
      hcall b
  · -- With no more operations to open, the first one that is opened ends the first evaluation.
    intro scope scope' chain source nodes _
    obtain ⟨operation, heq⟩ := engine'.evaluateForest_eq model extra scope' chain source
    rw [heq]
    exact hR.evaluateWith (fun _ _ span => hpast _ _ (.nestingTooDeep (source.cut span) _)) nodes

end

namespace Extended

variable {α β : Type} {x y : Eval α}

/-- Evaluations that always end alike do so within the limit. -/
theorem of_coupled (h : Coupled Run.Alike α x y) : Extended α x y := fun _ _ hrs => .inr (h hrs)

/-- Two steps in a row end alike within the limit if each of them does. -/
theorem bind {f g : α → Eval β} (hx : Extended α x y) (hf : ∀ a, Extended β (f a) (g a)) :
    Extended β (x >>= f) (y >>= g) :=
  fun _ _ h => PastLimit.or_bind (hx h) fun a _ _ h' => hf a h'

/-- Ending alike within the limit is kept when evaluations are put together. -/
theorem congruence : Congruence Extended where
  pure a := of_coupled (Coupled.pure a)
  fail _ := of_coupled (Coupled.throw _)
  bind := bind
  inExpression expression hx _ _ h :=
    (hx h).imp (·.inExpression expression) (·.inExpression expression)
  within hx _ _ h :=
    (hx (Run.alike_respected.enter h)).imp (·.within) (·.within Run.alike_respected.leave)

/-- So do evaluations with footprints of their own. -/
theorem apart (hx : Extended α x y) : Extended α (Eval.apart x) (Eval.apart y) := fun _ _ h =>
  (hx (Run.alike_respected.begin h)).imp (·.apart) (·.apart Run.alike_respected.merge h)

/-- So does a change to the footprint. -/
theorem touch (change : Footprint → Footprint) :
    Extended Unit (Eval.touch change) (Eval.touch change) :=
  of_coupled (Coupled.touch Run.alike_respected change)

end Extended

namespace Engine

variable {engine : Engine} {limit : Nat} (hlimit : engine.limit ≤ limit)

/-- The engine with another nesting limit. -/
def withLimit (engine : Engine) (limit : Nat) : Engine := { engine with limit }

include hlimit

/-- The values of trees that are read under the two limits. -/
theorem evaluateWith_parse_extended {forest forest' : Text → Forest → Eval Text}
    (h : ∀ source nodes, Extended Text (forest source nodes) (forest' source nodes))
    (source : Text) :
    Extended Text ((engine.parse source).evaluateWith forest)
      (((engine.withLimit limit).parse source).evaluateWith forest') := by
  by_cases hsource : source.nesting ≤ engine.limit
  · have hparse : (engine.withLimit limit).parse source = engine.parse source :=
      Tree.parse_eq_of_le (hsource.trans hlimit) hsource
    rw [hparse]
    exact Extended.congruence.evaluateTree h (engine.parse source)
  · have hparse : engine.parse source = .tooDeep source source.nesting engine.limit :=
      Tree.parse_of_lt (Nat.not_le.1 hsource)
    intro r s _
    rw [hparse]
    exact .inl ⟨_, r, rfl, fun hcause => hcause _ _ rfl⟩

/-- Property values are read under the two limits as well. -/
theorem evaluateValue_extended {forest forest' : Text → Forest → Eval Text}
    (h : ∀ source nodes, Extended Text (forest source nodes) (forest' source nodes))
    (value : Text) :
    Extended Text (do let tree ← engine.valueTree value; tree.evaluateWith forest)
      (do let tree ← (engine.withLimit limit).valueTree value; tree.evaluateWith forest') := by
  intro r s hrs
  -- Each side keeps the tree that it reads itself.
  change PastLimit ((engine.fetch r.trees value).1.evaluateWith forest
      { r with trees := (engine.fetch r.trees value).2 }) ∨
    EndsAlike Run.Alike ((engine.fetch r.trees value).1.evaluateWith forest
        { r with trees := (engine.fetch r.trees value).2 })
      (((engine.withLimit limit).fetch s.trees value).1.evaluateWith forest'
        { s with trees := ((engine.withLimit limit).fetch s.trees value).2 })
  rw [engine.fetch_fst hrs.left, (engine.withLimit limit).fetch_fst hrs.right]
  exact evaluateWith_parse_extended hlimit h value
    ⟨⟨hrs.footprint, hrs.depth, engine.fetch_snd hrs.left value,
      (engine.withLimit limit).fetch_snd hrs.right value⟩, hrs.messages⟩

variable (hbuiltin : engine.registry.added = [])

include hbuiltin

/-- Under the higher limit more operations may be opened; a forest that is evaluated without the
lower limit being exceeded does not make use of that. -/
theorem evaluateForest_extended (model : Model) (remaining extra : Nat) (scope : Scope)
    (chain : Chain) (source : Text) (nodes : Forest) :
    Extended Text (engine.evaluateForest model remaining scope chain source nodes)
      ((engine.withLimit limit).evaluateForest model (remaining + extra) scope chain source
        nodes) := by
  have hregistry : (engine.withLimit limit).registry = engine.registry := rfl
  refine Engine.evaluateForest_deeper Extended.congruence (fun _ _ hpast r _ _ => .inl (hpast r))
    Extended.touch (fun _ _ hx => hx.apart) hregistry hbuiltin ?_ model remaining extra scope chain
    source nodes
  intro forest forest' hforest value
  exact evaluateValue_extended hlimit hforest value

/-- So does a tree with as many operations open around it in both evaluations. -/
theorem evaluateTree_extended (model : Model) (depth : Nat) (scope : Scope) (chain : Chain)
    (tree : Tree) :
    Extended Text (engine.evaluateTree model (engine.limit - depth) scope chain tree)
      ((engine.withLimit limit).evaluateTree model ((engine.withLimit limit).limit - depth) scope
        chain tree) := by
  obtain ⟨extra, hextra⟩ :
      ∃ extra, (engine.withLimit limit).limit - depth = engine.limit - depth + extra :=
    Nat.exists_eq_add_of_le (Nat.sub_le_sub_right hlimit depth)
  rw [hextra]
  exact Extended.congruence.evaluateTree
    (evaluateForest_extended hlimit hbuiltin model _ extra scope chain) tree

end Engine

/-- What an expression, its context and the messages are after an evaluation is the same under two
limits. -/
structure SameEnd (first second : Compiled × Context × Workspace) : Prop where
  /-- The expression has the same output, the same failure and the same snapshot. -/
  expression : second.1 = first.1
  /-- The context has the same footprint. -/
  context : second.2.1 = first.2.1
  /-- The same messages have been sent. -/
  messages : second.2.2.messages = first.2.2.messages

section

variable {engine : Engine} {limit : Nat} (hlimit : engine.limit ≤ limit)
  (hbuiltin : engine.registry.added = []) {w : Workspace} (htrees : w.store.trees.Faithful)

include hlimit hbuiltin htrees

/-- An expression that has been read fails at the limit or ends in the same way under the higher
one. -/
theorem Compiled.evaluateIn_extended (c : Compiled) (context : Context) (chain : Chain) :
    (∃ failure, (c.evaluateIn engine context chain w).1.failure = some failure ∧
      ¬ failure.cause.WithinLimit) ∨
    SameEnd (c.evaluateIn engine context chain w)
      (c.evaluateIn (engine.withLimit limit) context chain w) := by
  unfold evaluateIn
  cases c.tree.needsEvaluation with
  | false => exact .inr ⟨rfl, rfl, rfl⟩
  | true =>
    simp only [if_true]
    rw [outcome_eq, outcome_eq]
    have halike : Run.Alike (context.toRun w) (context.toRun w) := ⟨⟨rfl, rfl, htrees, htrees⟩, rfl⟩
    rcases Engine.evaluateTree_extended hlimit hbuiltin w.store.model context.depth context.scope
      chain c.tree halike with ⟨failure, run, hr, hcause⟩ | hends
    · -- The first evaluation goes past its limit, and nothing is said of the second.
      rw [hr]
      exact .inl ⟨failure, rfl, hcause⟩
    · -- Both end alike, with the same footprint and the same messages.
      rcases hends.ends with ⟨a, r, s, hr, hs, h⟩ | ⟨failure, r, s, hr, hs, h⟩
      · rw [hr, hs]
        refine .inr ⟨?_, ?_, h.messages.symm⟩
        · simp only [conclude, h.footprint]
        · simp only [finalRun, Context.after, h.footprint, h.depth]
      · rw [hr, hs]
        have hreports : (engine.withLimit limit).reports = engine.reports := rfl
        refine .inr ⟨rfl, ?_, ?_⟩
        · simp only [finalRun, Context.after, h.footprint, h.depth]
        · simp only [finalRun, Workspace.after, h.messages, hreports]

/-- So does a text: under both limits it is read into the same tree, if it can be read under the
lower one. -/
theorem Engine.evaluateIn_compile_extended (source : Text) (context : Context) (chain : Chain) :
    (∃ failure, ((engine.compile source).evaluateIn engine context chain w).1.failure =
      some failure ∧ ¬ failure.cause.WithinLimit) ∨
    SameEnd ((engine.compile source).evaluateIn engine context chain w)
      (((engine.withLimit limit).compile source).evaluateIn (engine.withLimit limit) context chain
        w) := by
  by_cases hsource : source.nesting ≤ engine.limit
  · have hcompile : (engine.withLimit limit).compile source = engine.compile source :=
      congrArg engine.compileTree (Tree.parse_eq_of_le (hsource.trans hlimit) hsource)
    rw [hcompile]
    exact Compiled.evaluateIn_extended hlimit hbuiltin htrees (engine.compile source) context chain
  · have htree : (engine.compile source).tree = .tooDeep source source.nesting engine.limit :=
      Tree.parse_of_lt (Nat.not_le.1 hsource)
    rw [Compiled.evaluateIn_tooDeep engine htree]
    exact .inl ⟨_, rfl, fun hcause => hcause _ _ rfl⟩

/-- And so does a text that need not be read. -/
theorem Engine.evaluateText_extended (source : Text) (inputs : Inputs) (chain : Chain) :
    (∃ failure, (engine.evaluateText source inputs chain w).1 = .error failure ∧
      ¬ failure.cause.WithinLimit) ∨
    ((engine.withLimit limit).evaluateText source inputs chain w).1 =
        (engine.evaluateText source inputs chain w).1 ∧
      ((engine.withLimit limit).evaluateText source inputs chain w).2.messages =
        (engine.evaluateText source inputs chain w).2.messages := by
  let context := (engine.compile source).context engine inputs
  have hcompile := Engine.evaluateIn_compile_extended hlimit hbuiltin htrees source context chain
  unfold evaluateText
  split
  · -- Plain text is its own value under any limit.
    exact .inr ⟨rfl, rfl⟩
  · rcases hcompile with ⟨failure, hfailure, hcause⟩ | hsame
    · have hfailure' : ((engine.compile source).evaluate engine inputs chain w).1.failure =
          some failure := hfailure
      dsimp only
      rw [hfailure']
      exact .inl ⟨failure, rfl, hcause⟩
    · have hexpression : (((engine.withLimit limit).compile source).evaluate
          (engine.withLimit limit) inputs chain w).1 =
            ((engine.compile source).evaluate engine inputs chain w).1 := hsame.expression
      have hmessages : (((engine.withLimit limit).compile source).evaluate
          (engine.withLimit limit) inputs chain w).2.messages =
            ((engine.compile source).evaluate engine inputs chain w).2.messages := hsame.messages
      dsimp only
      rw [hexpression]
      split
      · exact .inr ⟨rfl, hmessages⟩
      · exact .inr ⟨rfl, hmessages⟩

end

/-- At any point of a session with built-in operations, an evaluation that does not fail at the
nesting limit is the same under every higher limit: it ends with the same output or the same
failure, with the same footprint, and with the same messages having been sent. -/
theorem session_raised_limit (steps : List Step) (engine : Engine)
    (hbuiltin : engine.registry.added = []) (limit : Nat) (hlimit : engine.limit ≤ limit)
    (source : Text) (chain : Chain) :
    (∀ context : Context,
      let first := (engine.compile source).evaluateIn engine context chain (session steps)
      let second := ((engine.withLimit limit).compile source).evaluateIn (engine.withLimit limit)
        context chain (session steps)
      (∀ failure, first.1.failure = some failure → failure.cause.WithinLimit) →
        SameEnd first second) ∧
    ∀ inputs : Inputs,
      let first := engine.evaluateText source inputs chain (session steps)
      let second := (engine.withLimit limit).evaluateText source inputs chain (session steps)
      (∀ failure, first.1 = .error failure → failure.cause.WithinLimit) →
        second.1 = first.1 ∧ second.2.messages = first.2.messages := by
  have htrees := (session_sameButTrees steps).faithful
  constructor
  · intro context first second hwithin
    rcases Engine.evaluateIn_compile_extended hlimit hbuiltin htrees source context chain with
      ⟨failure, hfailure, hcause⟩ | hsame
    · exact absurd (hwithin failure hfailure) hcause
    · exact hsame
  · intro inputs first second hwithin
    rcases Engine.evaluateText_extended hlimit hbuiltin htrees source inputs chain with
      ⟨failure, hfailure, hcause⟩ | hsame
    · exact absurd (hwithin failure hfailure) hcause
    · exact hsame

/-- The value of a property may hold one more operation than the look-up around it. That takes a
limit of two, and a greater one gives the same value. -/
theorem session_raised_limit_in_value :
    let steps : List Step := [.write (.value (.base "app" "P") "$<CONFIG>")]
    let engine : Engine := { limit := 2 }
    let inputs : Inputs := { config := "Debug", head := some "app" }
    let source : Text := "$<TARGET_PROPERTY:P>"
    engine.limit ≤ 9 ∧
      (engine.evaluateText source inputs [] (session steps)).1.toOption = some "Debug" ∧
      ((engine.withLimit 9).evaluateText source inputs [] (session steps)).1.toOption =
        some "Debug" := by
  intro steps engine inputs source
  have hlimit : engine.limit ≤ 9 := by decide
  have hvalue :
      (engine.evaluateText source inputs [] (session steps)).1.toOption = some "Debug" := by
    decide +kernel
  have hwithin : ∀ failure,
      (engine.evaluateText source inputs [] (session steps)).1 = .error failure →
        failure.cause.WithinLimit := by
    intro failure hfailure
    rw [hfailure] at hvalue
    cases hvalue
  obtain ⟨-, htext⟩ := session_raised_limit steps engine rfl 9 hlimit source []
  exact ⟨hlimit, hvalue, (congrArg Except.toOption (htext inputs hwithin).1).trans hvalue⟩

end BuildExpr
