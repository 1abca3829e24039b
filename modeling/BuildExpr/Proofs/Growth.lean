import BuildExpr.Proofs.Congruence
import BuildExpr.Proofs.Newest

/-!
# Footprints only grow

Whatever an evaluation has noted in its footprint stays there to the end, whether or not it fails: no
flag is taken back and no property, target or language is left out again. Only the standard noted for
a language may be replaced.
-/

namespace BuildExpr

open Compiled (finalRun)

/-- Everything noted in one footprint is noted in another one. -/
structure Footprint.Within (f g : Footprint) : Prop where
  /-- So is a failure, -/
  failed : f.failed = true → g.failed = true
  /-- that the result depends on the configuration, -/
  contextSensitive : f.contextSensitive = true → g.contextSensitive = true
  /-- that it depends on the head target, -/
  headSensitive : f.headSensitive = true → g.headSensitive = true
  /-- every property read, -/
  seen : f.seen ⊆ g.seen
  /-- every target the result depends on, -/
  depend : f.depend ⊆ g.depend
  /-- every target named, -/
  all : f.all ⊆ g.all
  /-- and every language of a target that a standard is asked for. -/
  standards : f.standards.keys ⊆ g.standards.keys

namespace Footprint

/-- What is noted in a footprint is noted in it. -/
theorem Within.refl (f : Footprint) : f.Within f :=
  ⟨id, id, id, fun _ => id, fun _ => id, fun _ => id, fun _ => id⟩

/-- What is noted in a footprint is noted in any that notes more. -/
theorem Within.trans {f g h : Footprint} (hfg : f.Within g) (hgh : g.Within h) : f.Within h where
  failed := hgh.failed ∘ hfg.failed
  contextSensitive := hgh.contextSensitive ∘ hfg.contextSensitive
  headSensitive := hgh.headSensitive ∘ hfg.headSensitive
  seen := List.Subset.trans hfg.seen hgh.seen
  depend := List.Subset.trans hfg.depend hgh.depend
  all := List.Subset.trans hfg.all hgh.all
  standards := List.Subset.trans hfg.standards hgh.standards

/-- Merging keeps what is noted in the first footprint. -/
theorem within_merge_left (f g : Footprint) : f.Within (f.merge g) where
  failed h := by simp [merge, h]
  contextSensitive h := by simp [merge, h]
  headSensitive h := by simp [merge, h]
  seen _ h := Members.mem_union.2 (.inl h)
  depend _ h := Members.mem_union.2 (.inl h)
  all _ h := Members.mem_union.2 (.inl h)
  standards _ h := Table.mem_keys_merge.2 (.inl h)

/-- Merging keeps what is noted in the second footprint. -/
theorem within_merge_right (f g : Footprint) : g.Within (f.merge g) where
  failed h := by simp [merge, h]
  contextSensitive h := by simp [merge, h]
  headSensitive h := by simp [merge, h]
  seen _ h := Members.mem_union.2 (.inr h)
  depend _ h := Members.mem_union.2 (.inr h)
  all _ h := Members.mem_union.2 (.inr h)
  standards _ h := Table.mem_keys_merge.2 (.inr h)

/-- A property read is added to those noted before. -/
theorem within_see (f : Footprint) (target property : Text) : f.Within (f.see target property) :=
  { Within.refl f with seen := fun _ h => Members.mem_insert.2 (.inr h) }

/-- So is a target that the result depends on. -/
theorem within_addDepend (f : Footprint) (target : Text) : f.Within (f.addDepend target) :=
  { Within.refl f with depend := fun _ h => Members.mem_insert.2 (.inr h) }

/-- So is a target that is named. -/
theorem within_addNamed (f : Footprint) (target : Text) : f.Within (f.addNamed target) :=
  { Within.refl f with all := fun _ h => Members.mem_insert.2 (.inr h) }

/-- Every change that a built-in operation makes adds something. -/
theorem Mark.within {change : Footprint → Footprint} (h : Mark change) (f : Footprint) :
    f.Within (change f) := by
  cases h with
  | contextSensitive => exact { Within.refl f with contextSensitive := fun _ => rfl }
  | headSensitive => exact { Within.refl f with headSensitive := fun _ => rfl }
  | named target => exact (f.within_addNamed target).trans (within_addDepend _ target)
  | objects target => exact (f.within_addDepend target).trans (within_addNamed _ target)
  | see target property => exact f.within_see target property

/-- So does asking for a standard. -/
theorem within_require (f : Footprint) (target : Text) (feature : Feature) :
    f.Within (f.require target feature) := by
  rcases f.require_cases target feature with hset | hsame
  · rw [hset]
    exact { Within.refl f with standards := fun _ h => Table.mem_keys_insert.2 (.inr h) }
  · rw [hsame]
    exact .refl f

end Footprint

/-- An evaluation that keeps everything that has been noted. -/
def Eval.Grows {α : Type} (x : Eval α) : Prop :=
  ∀ run : Run, run.footprint.Within (finalRun (x run)).footprint

namespace Eval.Grows

variable {α β : Type} {x : Eval α}

/-- Giving a value keeps what has been noted. -/
theorem pure (a : α) : Grows (Pure.pure a) := fun run => .refl run.footprint

/-- So does failing. -/
theorem fail (cause : Cause) : Grows (Eval.fail cause : Eval α) := fun run => .refl run.footprint

/-- What has been noted when a value is given is noted at the end. -/
theorem within_bind {f : α → Eval β} (hf : ∀ a, Grows (f a)) (run : Run) :
    (finalRun (x run)).footprint.Within (finalRun ((x >>= f) run)).footprint := by
  rw [Eval.bind_apply]
  cases x run with
  | ok a after => exact hf a after
  | error failure after => exact .refl after.footprint

/-- So do two steps in a row. -/
theorem bind {f : α → Eval β} (hx : Grows x) (hf : ∀ a, Grows (f a)) : Grows (x >>= f) :=
  fun run => (hx run).trans (within_bind hf run)

/-- What has been noted when a failure is handled is noted at the end. -/
theorem within_tryCatch {handle : Failure → Eval α} (hhandle : ∀ failure, Grows (handle failure))
    (run : Run) :
    (finalRun (x run)).footprint.Within (finalRun (MonadExcept.tryCatch x handle run)).footprint := by
  rw [Eval.tryCatch_apply]
  cases x run with
  | ok a after => exact .refl after.footprint
  | error failure after => exact hhandle failure after

/-- So does an evaluation whose failures are handled. -/
theorem tryCatch (hx : Grows x) {handle : Failure → Eval α}
    (hhandle : ∀ failure, Grows (handle failure)) : Grows (MonadExcept.tryCatch x handle) :=
  fun run => (hx run).trans (within_tryCatch hhandle run)

/-- Placing failures in an expression notes nothing and takes nothing back. -/
theorem inExpression (expression : Text) (hx : Grows x) : Grows (Eval.inExpression expression x) := by
  intro run
  rw [Eval.finalRun_inExpression]
  exact hx run

/-- Nor does opening an operation around an evaluation. -/
theorem within (hx : Grows x) : Grows (Eval.within x) := by
  intro run
  rw [Eval.finalRun_within]
  exact hx { run with depth := run.depth + 1 }

/-- What is noted apart is added to what was noted before. -/
theorem apart (x : Eval α) : Grows (Eval.apart x) := by
  intro run
  rw [Eval.finalRun_apart]
  exact Footprint.within_merge_left _ _

/-- A change to the footprint has to keep what has been noted. -/
theorem touch {change : Footprint → Footprint} (h : ∀ f : Footprint, f.Within (change f)) :
    Grows (Eval.touch change) := fun run => h run.footprint

/-- Sending a message leaves the footprint as it is. -/
theorem send (message : Text) : Grows (Eval.send message) := fun run => .refl run.footprint

end Eval.Grows

/-- Keeping what has been noted is kept when evaluations are put together. -/
theorem grows_congruence : Congruence fun _ x _ => Eval.Grows x where
  pure := .pure
  fail := .fail
  bind hx hf := hx.bind hf
  inExpression expression hx := hx.inExpression expression
  within hx := hx.within

section

variable {engine : Engine}

/-- Reading the tree of a value leaves the footprint as it is. -/
theorem Engine.valueTree_grows (engine : Engine) (value : Text) :
    Eval.Grows (engine.valueTree value) := fun run => .refl run.footprint

/-- Reporting a failure keeps what has been noted. -/
theorem Engine.report_grows (engine : Engine) (scope : Scope) (failure : Failure) :
    Eval.Grows (engine.report scope failure) := by
  have htouch (f : Footprint) : f.Within { f with failed := true } :=
    { Footprint.Within.refl f with failed := fun _ => rfl }
  refine .bind (.touch htouch) fun _ => ?_
  split
  · exact .send _
  · exact .pure ()

variable (hbuiltin : engine.registry.added = [])

include hbuiltin

/-- Evaluating a forest takes back nothing that has been noted. -/
theorem Engine.evaluateForest_grows (model : Model) (remaining : Nat) (scope : Scope)
    (chain : Chain) (source : Text) (nodes : Forest) :
    Eval.Grows (engine.evaluateForest model remaining scope chain source nodes) := by
  exact Engine.evaluateForest_fixed grows_congruence (fun _ hchange => .touch hchange.within)
    (fun head feature => .touch fun f => f.within_require head feature) (fun x _ _ => .apart x)
    hbuiltin engine.valueTree_grows (fun run => .refl run.footprint) model remaining scope chain
    source nodes

/-- Neither does evaluating a tree and reporting its failure. -/
theorem Engine.evaluateReporting_grows (model : Model) (remaining : Nat) (scope : Scope)
    (chain : Chain) (tree : Tree) :
    Eval.Grows
      (engine.evaluateReporting scope (engine.evaluateForest model remaining scope chain) tree) := by
  have hforest := Engine.evaluateForest_grows hbuiltin model remaining scope chain
  refine .tryCatch (grows_congruence.fixed_evaluateTree hforest tree) fun failure => ?_
  exact .bind (engine.report_grows scope failure) fun _ run => .refl run.footprint

/-- Whether or not an evaluation succeeds, its context then has everything noted that it had before. -/
theorem Compiled.evaluateIn_grows (c : Compiled) (context : Context) (chain : Chain)
    (w : Workspace) :
    context.footprint.Within (c.evaluateIn engine context chain w).2.1.footprint := by
  unfold Compiled.evaluateIn
  split
  · exact Engine.evaluateReporting_grows hbuiltin _ _ _ chain c.tree (context.toRun w)
  · exact .refl context.footprint

end

end BuildExpr
