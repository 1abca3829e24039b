import BuildExpr.Proofs.Congruence

/-!
# Evaluations that end alike

Two evaluations are coupled under a relation of runs if, started from related runs, they end with the
same value or with the same failure, and in related runs. For a relation that everything an
evaluation does to its run respects, this is kept when evaluations are put together, so two engines
that agree on the trees of property values end alike on every forest.
-/

namespace BuildExpr

/-- Two ends of evaluations: equal values or equal failures, in related runs. -/
inductive EndsAlike (S : Run → Run → Prop) {α : Type} :
    EStateM.Result Failure Run α → EStateM.Result Failure Run α → Prop
  | ok (a : α) {r s : Run} (h : S r s) : EndsAlike S (.ok a r) (.ok a s)
  | error (failure : Failure) {r s : Run} (h : S r s) :
    EndsAlike S (.error failure r) (.error failure s)

/-- How two evaluations that end alike end. -/
theorem EndsAlike.ends {S : Run → Run → Prop} {α : Type} {p q : EStateM.Result Failure Run α}
    (h : EndsAlike S p q) :
    (∃ a r s, p = .ok a r ∧ q = .ok a s ∧ S r s) ∨
      ∃ failure r s, p = .error failure r ∧ q = .error failure s ∧ S r s := by
  cases h with
  | ok a h => exact .inl ⟨a, _, _, rfl, rfl, h⟩
  | error failure h => exact .inr ⟨failure, _, _, rfl, rfl, h⟩

/-- A relation of runs that what evaluations do to both of them respects. -/
structure Run.Respected (S : Run → Run → Prop) : Prop where
  /-- An operation is opened. -/
  enter {r s : Run} : S r s → S { r with depth := r.depth + 1 } { s with depth := s.depth + 1 }
  /-- An operation is closed. -/
  leave {r s : Run} : S r s → S { r with depth := r.depth - 1 } { s with depth := s.depth - 1 }
  /-- Something is noted in the footprint. -/
  touch (change : Footprint → Footprint) {r s : Run} : S r s →
    S { r with footprint := change r.footprint } { s with footprint := change s.footprint }
  /-- A message is sent. -/
  send (message : Text) {r s : Run} : S r s →
    S { r with messages := r.messages ++ [message] } { s with messages := s.messages ++ [message] }
  /-- A footprint of its own is begun. -/
  begin {r s : Run} : S r s → S { r with footprint := {} } { s with footprint := {} }
  /-- It is merged into the one before. -/
  merge {r s r' s' : Run} : S r s → S r' s' →
    S { r' with footprint := r.footprint.merge r'.footprint, depth := r.depth }
      { s' with footprint := s.footprint.merge s'.footprint, depth := s.depth }
  /-- The same number of operations is open. -/
  depth_eq {r s : Run} : S r s → r.depth = s.depth

namespace EndsAlike

variable {S : Run → Run → Prop} {α β : Type} {x y : Eval α} {r s : Run}

/-- Going on from the value keeps the ends alike if it does so from the runs that the first
evaluations end with. -/
theorem bind (hx : EndsAlike S (x r) (y s)) {f g : α → Eval β}
    (hf : ∀ a r' s', x r = .ok a r' → S r' s' → EndsAlike S (f a r') (g a s')) :
    EndsAlike S ((x >>= f) r) ((y >>= g) s) := by
  rw [Eval.bind_apply, Eval.bind_apply]
  rcases hx.ends with ⟨a, r', s', hr, hs, h⟩ | ⟨failure, r', s', hr, hs, h⟩
  · rw [hr, hs]
    exact hf a r' s' hr h
  · rw [hr, hs]
    exact .error failure h

/-- Placing failures in one expression keeps the ends alike. -/
theorem inExpression (expression : Text) (hx : EndsAlike S (x r) (y s)) :
    EndsAlike S (Eval.inExpression expression x r) (Eval.inExpression expression y s) := by
  unfold Eval.inExpression
  rcases hx.ends with ⟨a, r', s', hr, hs, h⟩ | ⟨failure, r', s', hr, hs, h⟩
  · rw [hr, hs]
    exact .ok a h
  · rw [hr, hs]
    exact .error _ h

/-- Failures are handled alike if that is so for the runs that the first evaluations end with. -/
theorem tryCatch (hx : EndsAlike S (x r) (y s)) {f g : Failure → Eval α}
    (hf : ∀ failure r' s', x r = .error failure r' → S r' s' →
      EndsAlike S (f failure r') (g failure s')) :
    EndsAlike S (MonadExcept.tryCatch x f r) (MonadExcept.tryCatch y g s) := by
  rw [Eval.tryCatch_apply, Eval.tryCatch_apply]
  rcases hx.ends with ⟨a, r', s', hr, hs, h⟩ | ⟨failure, r', s', hr, hs, h⟩
  · rw [hr, hs]
    exact .ok a h
  · rw [hr, hs]
    exact hf failure r' s' hr h

/-- Opening an operation around both keeps the ends alike, if closing it keeps the relation. -/
theorem within
    (hleave : ∀ {r s : Run}, S r s →
      S { r with depth := r.depth - 1 } { s with depth := s.depth - 1 })
    (hx : EndsAlike S (x { r with depth := r.depth + 1 }) (y { s with depth := s.depth + 1 })) :
    EndsAlike S (Eval.within x r) (Eval.within y s) := by
  rw [Eval.within_apply, Eval.within_apply]
  rcases hx.ends with ⟨a, r', s', hr, hs, h⟩ | ⟨failure, r', s', hr, hs, h⟩
  · rw [hr, hs]
    exact .ok a (hleave h)
  · rw [hr, hs]
    exact .error failure (hleave h)

/-- Footprints of their own keep the ends alike, if merging them keeps the relation. -/
theorem apart
    (hmerge : ∀ {r s r' s' : Run}, S r s → S r' s' →
      S { r' with footprint := r.footprint.merge r'.footprint, depth := r.depth }
        { s' with footprint := s.footprint.merge s'.footprint, depth := s.depth })
    (hrun : S r s)
    (hx : EndsAlike S (x { r with footprint := {} }) (y { s with footprint := {} })) :
    EndsAlike S (Eval.apart x r) (Eval.apart y s) := by
  unfold Eval.apart
  dsimp only
  rcases hx.ends with ⟨a, r', s', hr, hs, h⟩ | ⟨failure, r', s', hr, hs, h⟩
  · rw [hr, hs]
    exact .ok a (hmerge hrun h)
  · rw [hr, hs]
    exact .error failure (hmerge hrun h)

end EndsAlike

/-- Two evaluations that end alike from related runs. -/
def Coupled (S : Run → Run → Prop) (α : Type) (x y : Eval α) : Prop :=
  ∀ ⦃r s : Run⦄, S r s → EndsAlike S (x r) (y s)

namespace Coupled

variable {S : Run → Run → Prop} {α β : Type} {x y : Eval α}

/-- A value is coupled with itself. -/
theorem pure (a : α) : Coupled S α (Pure.pure a) (Pure.pure a) := fun _ _ h => .ok a h

/-- So is a failure. -/
theorem throw (failure : Failure) : Coupled S α (MonadExcept.throw failure)
    (MonadExcept.throw failure) := fun _ _ h => .error failure h

/-- Evaluations that go on from a value in coupled ways are coupled. -/
theorem bind {f g : α → Eval β} (hx : Coupled S α x y) (hf : ∀ a, Coupled S β (f a) (g a)) :
    Coupled S β (x >>= f) (y >>= g) :=
  fun _ _ h => (hx h).bind fun a _ _ _ h => hf a h

/-- Placing failures in one expression keeps evaluations coupled. -/
theorem inExpression (expression : Text) (hx : Coupled S α x y) :
    Coupled S α (Eval.inExpression expression x) (Eval.inExpression expression y) :=
  fun _ _ h => (hx h).inExpression expression

/-- Failures are handled alike. -/
theorem tryCatch {f g : Failure → Eval α} (hx : Coupled S α x y)
    (hf : ∀ failure, Coupled S α (f failure) (g failure)) :
    Coupled S α (MonadExcept.tryCatch x f) (MonadExcept.tryCatch y g) :=
  fun _ _ h => (hx h).tryCatch fun failure _ _ _ h => hf failure h

variable (hS : Run.Respected S)

include hS

/-- So does opening an operation around them. -/
theorem within (hx : Coupled S α x y) : Coupled S α (Eval.within x) (Eval.within y) :=
  fun _ _ h => (hx (hS.enter h)).within hS.leave

/-- So do footprints of their own. -/
theorem apart (hx : Coupled S α x y) : Coupled S α (Eval.apart x) (Eval.apart y) :=
  fun _ _ h => (hx (hS.begin h)).apart hS.merge h

/-- A change to the footprint is coupled with itself. -/
theorem touch (change : Footprint → Footprint) :
    Coupled S Unit (Eval.touch change) (Eval.touch change) := fun _ _ h => .ok () (hS.touch change h)

/-- So is sending a message. -/
theorem send (message : Text) : Coupled S Unit (Eval.send message) (Eval.send message) :=
  fun _ _ h => .ok () (hS.send message h)

/-- Ending alike is kept when evaluations are put together. -/
theorem congruence : Congruence (Coupled S) where
  pure := pure
  fail cause := throw ⟨cause, none⟩
  bind := bind
  inExpression := inExpression
  within := within hS

/-- Failing because too many operations are open. -/
theorem nestingTooDeep (limit : Nat) :
    Coupled S α (do let run ← get; Eval.fail (.nestingTooDeep (run.depth + 1) limit))
      (do let run ← get; Eval.fail (.nestingTooDeep (run.depth + 1) limit)) := by
  intro r s h
  rw [Eval.bind_apply, Eval.bind_apply]
  -- The failure names the number of open operations, which the two runs have in common.
  change EndsAlike S (.error ⟨.nestingTooDeep (r.depth + 1) limit, none⟩ r)
    (.error ⟨.nestingTooDeep (s.depth + 1) limit, none⟩ s)
  rw [hS.depth_eq h]
  exact .error _ h

end Coupled

section

variable {S : Run → Run → Prop} (hS : Run.Respected S) {engine engine' : Engine}
  (hreports : engine'.reports = engine.reports)

include hS hreports

/-- Failures are reported alike. -/
theorem Engine.report_coupled (scope : Scope) (failure : Failure) :
    Coupled S Unit (engine.report scope failure) (engine'.report scope failure) := by
  unfold report
  rw [hreports]
  refine Coupled.bind (Coupled.touch hS _) fun _ => ?_
  split
  · exact Coupled.send hS _
  · exact Coupled.pure ()

variable (hbuiltin : engine.registry.added = []) (hregistry : engine'.registry = engine.registry)
  (hlimit : engine'.limit = engine.limit)
  (htree : ∀ value, Coupled S Tree (engine.valueTree value) (engine'.valueTree value))

include hbuiltin hregistry hlimit htree

omit hreports in
/-- Engines that agree on the trees of property values end alike on every forest. -/
theorem Engine.evaluateForest_coupled (model : Model) (remaining : Nat) (scope : Scope)
    (chain : Chain) (source : Text) (nodes : Forest) :
    Coupled S Text (engine.evaluateForest model remaining scope chain source nodes)
      (engine'.evaluateForest model remaining scope chain source nodes) := by
  have hR : Congruence (Coupled S) := Coupled.congruence hS
  refine Engine.evaluateForest_related hR hregistry ?_ ?_ 0 ?_ remaining chain source nodes
    (rfl : scope = scope)
  · intro forest forest' hforest value
    exact Coupled.bind (htree value) fun tree => hR.evaluateTree hforest tree
  · intro name op hfind call call' hcall
    obtain ⟨b, -, rfl⟩ := Registry.exists_builtin hbuiltin hfind
    exact Builtin.evaluate_related hR (fun change _ => Coupled.touch hS change)
      (fun _ _ => Coupled.touch hS _) (fun _ _ => Coupled.apart hS) hcall b
  · -- With no more operations to open, both fail at the first one.
    intro scope scope' chain source nodes hscope
    subst hscope
    unfold Engine.evaluateForest
    rw [hlimit]
    exact hR.evaluateWith (fun _ _ span =>
      Coupled.inExpression _ (Coupled.nestingTooDeep hS engine.limit)) nodes

/-- So do they for a caller who wants failures noted and reported. -/
theorem Engine.evaluateReporting_coupled (model : Model) (remaining : Nat) (scope : Scope)
    (chain : Chain) (tree : Tree) :
    Coupled S Text
      (engine.evaluateReporting scope (engine.evaluateForest model remaining scope chain) tree)
      (engine'.evaluateReporting scope (engine'.evaluateForest model remaining scope chain)
        tree) := by
  refine Coupled.tryCatch ?_ fun failure => ?_
  · exact (Coupled.congruence hS).evaluateTree
      (Engine.evaluateForest_coupled hS hbuiltin hregistry hlimit htree model remaining scope chain)
      tree
  · exact Coupled.bind (Engine.report_coupled hS hreports scope failure) fun _ =>
      Coupled.throw failure

end

end BuildExpr
