import BuildExpr.Proofs.OpenOperations
import BuildExpr.Proofs.Seams
import BuildExpr.Proofs.Sessions
import BuildExpr.Proofs.Shortcut

/-!
# Evaluating one text after another

A text behind a closed one is read as it is by itself, except for its spans, and to an evaluation spans
do not matter as long as they cut out what is written there. So evaluating two such texts in a row is
evaluating the first one and then, from the run that is left, the second one
(`Engine.evaluateTree_append`). How the second one ends does not depend on what the first one has left:
all that could matter is the number of open operations, which is what it was, and the trees of property
values, which are those of their texts. So what one is told about the whole text is put together from
what one is told about its parts (`session_concatenation`).
-/

namespace BuildExpr

open Forest (spelledIn_scan spelledIn_extend spelledIn_append)

/-- Behind a closed text, a text is evaluated as it is by itself. -/
theorem Engine.evaluateTree_append (engine : Engine) (m : Model) (remaining : Nat) (scope : Scope)
    (chain : Chain) {limit : Nat} {a b : Text} (ha : a.Closed) (hab : Text.Apart a b)
    (hlimit : a.nesting ≤ limit) (hlimit' : b.nesting ≤ limit) :
    engine.evaluateTree m remaining scope chain (Tree.parse limit (a ++ b)) = (do
      let first ← engine.evaluateTree m remaining scope chain (Tree.parse limit a)
      let second ← engine.evaluateTree m remaining scope chain (Tree.parse limit b)
      return first ++ second) := by
  have hnesting : (a ++ b).nesting ≤ limit := by
    rw [ha.nesting_append hab]
    omega
  obtain ⟨nodes, hsame, hforest⟩ := Forest.ofTokens_append ha hab
  -- Both parts of the forest are spelled in the whole text.
  have hspelled := spelledIn_scan (a ++ b)
  rw [hforest, spelledIn_extend, spelledIn_append] at hspelled
  have hfirst := engine.evaluateForest_respelled m remaining scope chain hspelled.1
    (spelledIn_scan a) rfl
  have hsecond := engine.evaluateForest_respelled m remaining scope chain hspelled.2
    (spelledIn_scan b) hsame
  let evaluate := engine.evaluateForest m remaining scope chain
  let forest (t : Text) : Forest := Forest.ofTokens (Token.scan t)
  calc engine.evaluateTree m remaining scope chain (Tree.parse limit (a ++ b))
    _ = evaluate (a ++ b) ((forest a).extend nodes) := by
      rw [engine.evaluateTree_parse m remaining scope chain hnesting, hforest]
    _ = evaluate (a ++ b) (forest a ++ nodes) := engine.evaluateForest_extend _ _ _ _ _ _ _
    _ = (do
        let first ← evaluate (a ++ b) (forest a)
        let second ← evaluate (a ++ b) nodes
        return first ++ second) := engine.evaluateForest_append _ _ _ _ _ _ _
    _ = (do
        let first ← evaluate a (forest a)
        let second ← evaluate b (forest b)
        return first ++ second) := by
      rw [show evaluate (a ++ b) (forest a) = evaluate a (forest a) from hfirst,
        show evaluate (a ++ b) nodes = evaluate b (forest b) from hsecond]
    _ = _ := by
      rw [engine.evaluateTree_parse m remaining scope chain hlimit,
        engine.evaluateTree_parse m remaining scope chain hlimit']

/-! ## What an evaluation depends on -/

/-- Runs with the same number of open operations and with faithful trees. -/
structure Run.Level (r s : Run) : Prop where
  /-- They have the same number of operations open. -/
  depth : r.depth = s.depth
  /-- The first trees are faithful. -/
  left : r.trees.Faithful
  /-- So are the second ones. -/
  right : s.trees.Faithful

/-- Being at one level is respected by all that evaluations do to a run. -/
theorem Run.level_respected : Run.Respected Run.Level where
  enter h := ⟨congrArg (· + 1) h.depth, h.left, h.right⟩
  leave h := ⟨congrArg (· - 1) h.depth, h.left, h.right⟩
  touch _ _ _ h := ⟨h.depth, h.left, h.right⟩
  send _ _ _ h := ⟨h.depth, h.left, h.right⟩
  begin h := ⟨h.depth, h.left, h.right⟩
  merge h h' := ⟨h.depth, h'.left, h'.right⟩
  depth_eq h := h.depth

namespace Engine

/-- Reading the tree of a value goes alike at one level. -/
theorem valueTree_level (engine : Engine) (value : Text) :
    Coupled Run.Level Tree (engine.valueTree value) (engine.valueTree value) := by
  intro r s h
  rw [engine.valueTree_apply value h.left, engine.valueTree_apply value h.right]
  exact .ok _ ⟨h.depth, engine.fetch_snd h.left value, engine.fetch_snd h.right value⟩

variable {engine : Engine} (hbuiltin : engine.registry.added = [])

include hbuiltin

/-- How a tree with built-in operations evaluates does not depend on what has been noted or sent. -/
theorem evaluateTree_level (m : Model) (remaining : Nat) (scope : Scope) (chain : Chain)
    (tree : Tree) :
    Coupled Run.Level Text (engine.evaluateTree m remaining scope chain tree)
      (engine.evaluateTree m remaining scope chain tree) :=
  (Coupled.congruence Run.level_respected).evaluateTree
    (evaluateForest_coupled Run.level_respected hbuiltin rfl rfl engine.valueTree_level m remaining
      scope chain) tree

/-- When a tree has been evaluated, with a value or not, the next one evaluates as it would have before. -/
theorem level_of_evaluateTree (m : Model) (remaining : Nat) (scope : Scope) (chain : Chain)
    (tree : Tree) {run : Run} (htrees : run.trees.Faithful) {value : Text} {after : Run}
    (h : engine.evaluateTree m remaining scope chain tree run = .ok value after) :
    Run.Level after run := by
  have hdepth := evaluateTree_keepsDepth hbuiltin m remaining scope chain tree run
  rw [h] at hdepth
  have hends := evaluateTree_level hbuiltin m remaining scope chain tree ⟨rfl, htrees, htrees⟩
  rw [h] at hends
  cases hends with
  | ok _ hafter => exact ⟨hdepth, hafter.left, htrees⟩

end Engine

/-! ## What one is told -/

/-- What one is told when a text is made ready and evaluated. -/
def Engine.answer (engine : Engine) (inputs : Inputs) (chain : Chain) (w : Workspace) (source : Text) :
    Except Failure Text :=
  ((engine.compile source).evaluate engine inputs chain w).1.answer

/-- The answer to a request, by the evaluation of the tree of its text. -/
theorem Engine.answer_eq (engine : Engine) (inputs : Inputs) (chain : Chain) (w : Workspace)
    (source : Text) :
    engine.answer inputs chain w source =
      match engine.evaluateTree w.store.model engine.limit (Context.fresh engine inputs).scope chain
        (Tree.parse engine.limit source) ((Context.fresh engine inputs).toRun w) with
      | .ok value _ => .ok value
      | .error failure _ => .error failure :=
  engine.answer_compileTree (engine.parse source) inputs chain w

/-- At any point of a session and with built-in operations, a closed text and a text that does not meet
it in an opening are evaluated in a row like one by one: the answer is the failure of the first one, or
else the failure of the second one, or else the two outputs one after the other. The second text need
not be closed. -/
theorem session_concatenation (steps : List Step) (engine : Engine)
    (hbuiltin : engine.registry.added = []) {a b : Text} (ha : a.Closed) (hab : Text.Apart a b)
    (hlimit : a.nesting ≤ engine.limit) (hlimit' : b.nesting ≤ engine.limit) (inputs : Inputs)
    (chain : Chain) :
    let answer := engine.answer inputs chain (session steps)
    answer (a ++ b) = do
      let first ← answer a
      let second ← answer b
      return first ++ second := by
  intro answer
  let m := (session steps).store.model
  let scope := (Context.fresh engine inputs).scope
  let run := (Context.fresh engine inputs).toRun (session steps)
  have htrees : run.trees.Faithful := (session_sameButTrees steps).faithful
  have hsplit := engine.evaluateTree_append m engine.limit scope chain ha hab hlimit hlimit'
  change engine.answer inputs chain (session steps) (a ++ b) = do
    let first ← engine.answer inputs chain (session steps) a
    let second ← engine.answer inputs chain (session steps) b
    return first ++ second
  rw [engine.answer_eq, engine.answer_eq, engine.answer_eq, hsplit, Eval.bind_apply]
  cases hfirst : engine.evaluateTree m engine.limit scope chain (Tree.parse engine.limit a) run with
  | error failure after => rfl
  | ok first after =>
    -- The second text is evaluated from the run that the first one leaves, not from the first run.
    have hlevel := Engine.level_of_evaluateTree hbuiltin m engine.limit scope chain _ htrees hfirst
    have hends := Engine.evaluateTree_level hbuiltin m engine.limit scope chain
      (Tree.parse engine.limit b) hlevel
    dsimp only
    rw [Eval.bind_apply]
    rcases hends.ends with ⟨second, r, s, hr, hs, -⟩ | ⟨failure, r, s, hr, hs, -⟩
    · rw [hr, hs]
      rfl
    · rw [hr, hs]
      rfl

/-- The second text opens an expression that never ends and has one inside that does. In the first one
the value of a property is evaluated. -/
theorem session_concatenation_unterminated :
    let steps : List Step := [.write (.value (.base "app" "P") "$<CONFIG>")]
    let engine : Engine := {}
    let inputs : Inputs := { config := "Debug", head := some "app" }
    let answer := engine.answer inputs [] (session steps)
    let a : Text := "-$<TARGET_PROPERTY:P>$"
    let b : Text := "$<JOIN:$<CONFIG>,"
    a.Closed ∧ ¬ b.Closed ∧ answer a = .ok "-Debug$" ∧ answer b = .ok "$<JOIN:Debug," ∧
      answer (a ++ b) = .ok "-Debug$$<JOIN:Debug," := by
  intro steps engine inputs answer a b
  have ha : a.Closed := by decide +kernel
  have hfirst : answer a = .ok "-Debug$" := by decide +kernel
  have hsecond : answer b = .ok "$<JOIN:Debug," := by decide +kernel
  have hab : Text.Apart a b := fun _ => by decide
  have hwhole : answer (a ++ b) = do
      let first ← answer a
      let second ← answer b
      return first ++ second :=
    session_concatenation steps engine rfl ha hab (by decide +kernel) (by decide +kernel) inputs []
  refine ⟨ha, by decide +kernel, hfirst, hsecond, ?_⟩
  rw [hwhole, hfirst, hsecond]
  rfl

end BuildExpr
