import BuildExpr.Proofs.Congruence
import BuildExpr.Proofs.Reading

/-!
# The history of a compiled expression

A compiled expression may be evaluated many times, by different engines and for different inputs,
while values are written to the model and the expression is made quiet or noisy in between. What it
holds at any moment, and which messages have been sent, follows from how its evaluations have ended
(`history_recorded`): of the properties read it remembers those of every success, of everything else
those of the last one, and a failure leaves all that as it is.

That a failure is reported exactly once, however deep it arises, is because evaluating a tree sends
no message at all (`Engine.evaluateForest_silent`): the value of a property is evaluated like any
tree, and only the caller who asked for the whole expression reports.
-/

namespace BuildExpr

open Compiled (finalRun)

/-! ## Evaluating trees sends nothing -/

/-- An evaluation that sends no message. -/
def Eval.Silent {α : Type} (x : Eval α) : Prop :=
  ∀ run : Run, (finalRun (x run)).messages = run.messages

namespace Eval.Silent

variable {α β : Type} {x : Eval α}

/-- Two steps in a row send nothing if neither does. -/
theorem bind {f : α → Eval β} (hx : Silent x) (hf : ∀ a, Silent (f a)) : Silent (x >>= f) := by
  intro run
  have hrun := hx run
  rw [Eval.bind_apply]
  cases h : x run with
  | ok a after =>
    rw [h] at hrun
    exact (hf a after).trans hrun
  | error failure after =>
    rw [h] at hrun
    exact hrun

/-- Placing failures in an expression sends nothing. -/
theorem inExpression (expression : Text) (hx : Silent x) :
    Silent (Eval.inExpression expression x) := by
  intro run
  rw [Eval.finalRun_inExpression]
  exact hx run

/-- Nor does opening an operation around an evaluation. -/
theorem within (hx : Silent x) : Silent (Eval.within x) := by
  intro run
  rw [Eval.finalRun_within]
  exact hx { run with depth := run.depth + 1 }

/-- Nor does giving it a footprint of its own. -/
theorem apart (hx : Silent x) : Silent (Eval.apart x) := by
  intro run
  rw [Eval.finalRun_apart]
  exact hx { run with footprint := {} }

/-- Nor does changing the footprint. -/
theorem touch (change : Footprint → Footprint) : Silent (Eval.touch change) := fun _ => rfl

end Eval.Silent

/-- Sending nothing is kept when evaluations are put together. -/
theorem silent_congruence : Congruence fun _ x _ => Eval.Silent x where
  pure _ _ := rfl
  fail _ _ := rfl
  bind hx hf := hx.bind hf
  inExpression expression hx := hx.inExpression expression
  within hx := hx.within

section

variable {engine : Engine} (hbuiltin : engine.registry.added = [])

include hbuiltin

/-- Evaluating a forest sends no message, whatever properties are looked up on the way. -/
theorem Engine.evaluateForest_silent (model : Model) (remaining : Nat) (scope : Scope)
    (chain : Chain) (source : Text) (nodes : Forest) :
    Eval.Silent (engine.evaluateForest model remaining scope chain source nodes) :=
  Engine.evaluateForest_fixed silent_congruence (fun change _ => .touch change)
    (fun _ _ => .touch _) (fun _ _ hx => hx.apart) hbuiltin (fun _ _ => rfl) (fun _ => rfl) model
    remaining scope chain source nodes

/-- Evaluating a tree sends nothing. -/
theorem Engine.evaluateTree_silent (model : Model) (remaining : Nat) (scope : Scope)
    (chain : Chain) (tree : Tree) :
    Eval.Silent (engine.evaluateTree model remaining scope chain tree) :=
  silent_congruence.fixed_evaluateTree
    (Engine.evaluateForest_silent hbuiltin model remaining scope chain) tree

end

/-! ## Single evaluations -/

/-- An evaluation asked of an engine that has the built-in operations only. -/
structure Evaluation where
  /-- The engine. -/
  engine : Engine
  /-- No operations have been added to it. -/
  builtin : engine.registry.added = []
  /-- What the expression is evaluated for. -/
  inputs : Inputs
  /-- The property look-ups under way. -/
  chain : Chain

/-- How an evaluation of an expression ends. -/
inductive Ending where
  /-- With an output, having touched what the footprint says. -/
  | success (output : Text) (footprint : Footprint)
  /-- With a failure that is reported or not. -/
  | failure (reason : Failure) (reported : Bool)

namespace Ending

/-- The output one is left with. -/
def output : Ending → Text
  | .success output _ => output
  | .failure .. => []

/-- What a successful evaluation has touched. -/
def footprint? : Ending → Option Footprint
  | .success _ footprint => some footprint
  | .failure .. => none

/-- Why the evaluation failed, if it did. -/
def failure? : Ending → Option Failure
  | .success .. => none
  | .failure reason _ => some reason

/-- The message that is sent, if there is one: the failure in words. -/
def message? : Ending → Option Text
  | .success .. => none
  | .failure reason reported => if reported then some reason.message else none

/-- A failure sends one message if it is reported, and none otherwise. -/
theorem message?_failure (reason : Failure) (reported : Bool) :
    (failure reason reported).message?.toList = if reported then [reason.message] else [] := by
  cases reported <;> rfl

end Ending

namespace Evaluation

/-- The value of the tree of an expression in a fresh context: what it is before anything of it is
kept or reported. -/
def walk (e : Evaluation) (c : Compiled) (w : Workspace) : EStateM.Result Failure Run Text :=
  let context := c.context e.engine e.inputs
  e.engine.evaluateTree w.store.model e.engine.limit context.scope e.chain c.tree (context.toRun w)

/-- An evaluation ends as the tree does. A failure is reported if neither the engine nor the
expression is quiet and the engine passes reports on. -/
def ending (e : Evaluation) (c : Compiled) (w : Workspace) : Ending :=
  match e.walk c w with
  | .ok output run => .success output run.footprint
  | .error failure _ => .failure failure (!(e.engine.quiet || c.quiet) && e.engine.reports)

/-- The expression and the workspace afterwards. -/
def carryOut (e : Evaluation) (c : Compiled) (w : Workspace) : Compiled × Workspace :=
  c.evaluate e.engine e.inputs e.chain w

/-- The tree evaluated for a caller who wants failures reported ends as without, and of all messages
only that of its failure has been sent. -/
theorem outcome_ends (e : Evaluation) (c : Compiled) (w : Workspace) :
    let outcome := Compiled.outcome e.engine c.tree (c.context e.engine e.inputs) e.chain w
    (∃ output run, e.walk c w = .ok output run ∧ outcome = .ok output run ∧
      run.messages = w.messages) ∨
    ∃ failure run after, e.walk c w = .error failure run ∧ outcome = .error failure after ∧
      after.messages = w.messages ++ (e.ending c w).message?.toList := by
  intro outcome
  have hsilent : (finalRun (e.walk c w)).messages = w.messages :=
    Engine.evaluateTree_silent e.builtin w.store.model e.engine.limit _ e.chain c.tree _
  have houtcome : outcome = _ :=
    Compiled.outcome_eq e.engine c.tree (c.context e.engine e.inputs) e.chain w
  -- A fresh context has no operation open.
  have hdepth : e.engine.limit - (c.context e.engine e.inputs).depth = e.engine.limit := rfl
  rw [hdepth] at houtcome
  unfold ending
  cases hwalk : e.walk c w with
  | ok output run =>
    rw [hwalk] at hsilent
    unfold walk at hwalk
    rw [hwalk] at houtcome
    exact .inl ⟨output, run, rfl, houtcome, hsilent⟩
  | error failure run =>
    rw [hwalk] at hsilent
    unfold walk at hwalk
    rw [hwalk] at houtcome
    refine .inr ⟨failure, run, _, rfl, houtcome, ?_⟩
    dsimp only
    rw [show run.messages = w.messages from hsilent, Ending.message?_failure]
    rfl

/-- A failure is reported if nobody is quiet and reports are passed on. -/
theorem reported_eq (e : Evaluation) {c : Compiled} {w : Workspace} {reason : Failure}
    {reported : Bool} (h : e.ending c w = .failure reason reported) :
    reported = (!(e.engine.quiet || c.quiet) && e.engine.reports) := by
  unfold ending at h
  cases hwalk : e.walk c w with
  | ok output run =>
    rw [hwalk] at h
    cases h
  | error failure run =>
    rw [hwalk] at h
    exact (Ending.failure.inj h).2.symm

end Evaluation

/-- An expression that stands for its own text holds that text and nothing else. -/
def Compiled.Settled (c : Compiled) : Prop :=
  c.tree.needsEvaluation = false → c.output = c.tree.source ∧ c.snapshot = {} ∧ c.failure = none

/-- Evaluating such an expression changes nothing, and ends with its text and an empty footprint. -/
theorem Evaluation.carryOut_plain (e : Evaluation) {c : Compiled} (hc : c.Settled)
    (hplain : c.tree.needsEvaluation = false) (w : Workspace) :
    e.carryOut c w = (c, w) ∧ e.ending c w = .success c.output {} ∧
      c = { c with snapshot := Compiled.absorb c.snapshot {}, failure := none } := by
  obtain ⟨houtput, hsnapshot, hfailure⟩ := hc hplain
  obtain ⟨tree, output, snapshot, quiet, forBuildsystem, failure⟩ := c
  dsimp only at houtput hsnapshot hfailure
  subst houtput hsnapshot hfailure
  cases tree with
  | plain source => exact ⟨rfl, rfl, rfl⟩
  | forest source nodes => cases hplain
  | tooDeep source depth limit => cases hplain

/-- What an evaluation does to an expression and to the messages, by the way it ends. -/
theorem Evaluation.carryOut_cases (e : Evaluation) {c : Compiled} (hc : c.Settled)
    (w : Workspace) :
    (∃ output footprint, e.ending c w = .success output footprint ∧
      (e.carryOut c w).1 =
        { c with
          output := output
          snapshot := Compiled.absorb c.snapshot footprint
          failure := none } ∧
      (e.carryOut c w).2.messages = w.messages) ∨
    ∃ failure reported, e.ending c w = .failure failure reported ∧
      (e.carryOut c w).1 = { c with output := [], failure := some failure } ∧
      (e.carryOut c w).2.messages = w.messages ++ (e.ending c w).message?.toList := by
  cases hneeds : c.tree.needsEvaluation with
  | false =>
    -- Without expressions nothing is evaluated, and a settled state is what it would come to.
    obtain ⟨hcarry, hending, hsame⟩ := e.carryOut_plain hc hneeds w
    rw [hcarry]
    exact .inl ⟨c.output, {}, hending, hsame, rfl⟩
  | true =>
    -- Otherwise the outcome is that of the walk.
    have hcarry : e.carryOut c w = _ := Compiled.evaluate_eq e.engine c e.inputs e.chain w
    rw [hneeds, if_pos rfl] at hcarry
    rcases e.outcome_ends c w with
      ⟨output, run, hwalk, houtcome, hmessages⟩ | ⟨failure, run, after, hwalk, houtcome, hmessages⟩
    · rw [hcarry, houtcome]
      refine .inl ⟨output, run.footprint, ?_, rfl, hmessages⟩
      rw [ending, hwalk]
    · rw [hcarry, houtcome]
      refine .inr ⟨failure, !(e.engine.quiet || c.quiet) && e.engine.reports, ?_, rfl, hmessages⟩
      rw [ending, hwalk]

/-! ## Histories -/

/-- Something that happens while an expression is in use. -/
inductive Event where
  /-- It is evaluated. -/
  | evaluate (evaluation : Evaluation)
  /-- A target is added to the model or a value is stored in it. -/
  | write (change : Write)
  /-- Its failures are not to be reported from now on, or are again. -/
  | setQuiet (quiet : Bool)
  /-- Its result goes into the files of the build system from now on, or does not. -/
  | setForBuildsystem (forBuildsystem : Bool)

namespace Event

/-- The expression and the workspace after an event. -/
def run (state : Compiled × Workspace) : Event → Compiled × Workspace
  | evaluate e => e.carryOut state.1 state.2
  | write change => (state.1, { state.2 with store := state.2.store.write change })
  | setQuiet quiet => ({ state.1 with quiet }, state.2)
  | setForBuildsystem forBuildsystem => ({ state.1 with forBuildsystem }, state.2)

/-- How an event ends that is an evaluation. -/
def ending? (state : Compiled × Workspace) : Event → Option Ending
  | evaluate e => some (e.ending state.1 state.2)
  | write _ | setQuiet _ | setForBuildsystem _ => none

end Event

/-- How the evaluations among some events end, in order. -/
def endings : Compiled × Workspace → List Event → List Ending
  | _, [] => []
  | state, event :: rest => (event.ending? state).toList ++ endings (event.run state) rest

/-- What an expression holds and which messages have been sent after evaluations that have ended in
certain ways. -/
structure Recorded (tree : Tree) (before : List Text) (ends : List Ending)
    (state : Compiled × Workspace) : Prop where
  /-- The tree is the same as ever. -/
  unchanged : state.1.tree = tree
  /-- The properties remembered are those that any successful evaluation has read. -/
  seen : ∀ entry, entry ∈ state.1.snapshot.seen ↔
    ∃ footprint ∈ ends.filterMap Ending.footprint?, entry ∈ footprint.seen
  /-- All else that is remembered is from the last successful evaluation, and not failed. -/
  rest : { state.1.snapshot with seen := [] } =
    match (ends.filterMap Ending.footprint?).getLast? with
    | none => {}
    | some footprint => { footprint with failed := false, seen := [] }
  /-- The failure is that of the last evaluation. -/
  failure : state.1.failure = ends.getLast?.bind Ending.failure?
  /-- The output is that of the last evaluation. -/
  output : state.1.output = (ends.getLast?.map Ending.output).getD (Compiled.ofTree tree).output
  /-- One message has been sent for every failure that is reported, and no other. -/
  messages : state.2.messages = before ++ ends.filterMap Ending.message?
  /-- An expression that stands for its own text has changed nothing. -/
  settled : state.1.Settled

/-- An expression that stands for its own text does so after any evaluation. -/
theorem Evaluation.carryOut_settled (e : Evaluation) {c : Compiled} (hc : c.Settled)
    (w : Workspace) : (e.carryOut c w).1.Settled := by
  intro hplain
  have htree : (e.carryOut c w).1.tree = c.tree := by
    rcases e.carryOut_cases hc w with ⟨output, footprint, -, hafter, -⟩ |
      ⟨failure, reported, -, hafter, -⟩
    · rw [hafter]
    · rw [hafter]
  rw [htree] at hplain
  rw [(e.carryOut_plain hc hplain w).1]
  exact hc hplain

namespace Recorded

variable {tree : Tree} {before : List Text} {ends : List Ending} {state : Compiled × Workspace}

/-- An expression that has not been evaluated holds nothing. -/
theorem ofTree (tree : Tree) (quiet forBuildsystem : Bool) (w : Workspace) :
    Recorded tree w.messages [] ({ Compiled.ofTree tree with quiet, forBuildsystem }, w) where
  unchanged := rfl
  seen entry := by
    constructor
    · intro h
      cases h
    · rintro ⟨footprint, h, -⟩
      cases h
  rest := rfl
  failure := rfl
  output := rfl
  messages := (List.append_nil _).symm
  settled := fun hplain : tree.needsEvaluation = false =>
    ⟨if_neg (by rw [hplain]; decide), rfl, rfl⟩

/-- A success adds the properties it has read and replaces the rest. -/
theorem success (h : Recorded tree before ends state) {e : Evaluation} {output : Text}
    {footprint : Footprint}
    (hafter : (e.carryOut state.1 state.2).1 =
      { state.1 with
        output := output
        snapshot := Compiled.absorb state.1.snapshot footprint
        failure := none })
    (hmessages : (e.carryOut state.1 state.2).2.messages = state.2.messages) :
    Recorded tree before (ends ++ [.success output footprint]) (e.carryOut state.1 state.2) where
  unchanged := by rw [hafter]; exact h.unchanged
  seen entry := by
    rw [hafter, List.filterMap_append]
    simp only [Compiled.absorb, Members.mem_union, h.seen, Ending.footprint?, List.filterMap_cons,
      List.filterMap_nil, List.mem_append, List.mem_singleton, or_and_right, exists_or,
      exists_eq_left]
  rest := by
    rw [hafter, List.filterMap_append]
    simp only [Ending.footprint?, List.filterMap_cons, List.filterMap_nil, List.getLast?_concat]
    rfl
  failure := by rw [hafter, List.getLast?_concat]; rfl
  output := by rw [hafter, List.getLast?_concat]; rfl
  messages := by
    rw [hmessages, h.messages, List.filterMap_append]
    simp only [Ending.message?, List.filterMap_cons, List.filterMap_nil, List.append_nil]
  settled := e.carryOut_settled h.settled state.2

/-- A failure leaves what is remembered as it is. -/
theorem failed (h : Recorded tree before ends state) {e : Evaluation} {reason : Failure}
    {reported : Bool}
    (hafter : (e.carryOut state.1 state.2).1 =
      { state.1 with output := [], failure := some reason })
    (hmessages : (e.carryOut state.1 state.2).2.messages =
      state.2.messages ++ (Ending.failure reason reported).message?.toList) :
    Recorded tree before (ends ++ [.failure reason reported]) (e.carryOut state.1 state.2) where
  unchanged := by rw [hafter]; exact h.unchanged
  seen entry := by
    rw [hafter, List.filterMap_append]
    simp only [Ending.footprint?, List.filterMap_cons, List.filterMap_nil, List.append_nil]
    exact h.seen entry
  rest := by
    rw [hafter, List.filterMap_append]
    simp only [Ending.footprint?, List.filterMap_cons, List.filterMap_nil, List.append_nil]
    exact h.rest
  failure := by rw [hafter, List.getLast?_concat]; rfl
  output := by rw [hafter, List.getLast?_concat]; rfl
  messages := by
    rw [hmessages, h.messages, List.filterMap_append, List.append_assoc]
    cases hmessage : (Ending.failure reason reported).message? with
    | none => simp only [hmessage, List.filterMap_cons, List.filterMap_nil, Option.toList_none]
    | some message =>
      simp only [hmessage, List.filterMap_cons, List.filterMap_nil, Option.toList_some]
  settled := e.carryOut_settled h.settled state.2

/-- Every event is recorded. -/
theorem run (h : Recorded tree before ends state) (event : Event) :
    Recorded tree before (ends ++ (event.ending? state).toList) (event.run state) := by
  cases event with
  | evaluate e =>
    change Recorded tree before (ends ++ [e.ending state.1 state.2]) (e.carryOut state.1 state.2)
    rcases e.carryOut_cases h.settled state.2 with ⟨output, footprint, hending, hafter, hmessages⟩ |
      ⟨reason, reported, hending, hafter, hmessages⟩
    · rw [hending]
      exact h.success hafter hmessages
    · rw [hending] at hmessages ⊢
      exact h.failed hafter hmessages
  | write change =>
    rw [show (Event.write change).ending? state = none from rfl, Option.toList_none,
      List.append_nil]
    exact ⟨h.unchanged, h.seen, h.rest, h.failure, h.output, h.messages, h.settled⟩
  | setQuiet quiet | setForBuildsystem forBuildsystem =>
    rw [Event.ending?, Option.toList_none, List.append_nil]
    exact ⟨h.unchanged, h.seen, h.rest, h.failure, h.output, h.messages, h.settled⟩

/-- So are all events in order. -/
theorem foldl_run (h : Recorded tree before ends state) (events : List Event) :
    Recorded tree before (ends ++ endings state events) (events.foldl Event.run state) := by
  induction events generalizing ends state with
  | nil =>
    rw [endings, List.append_nil]
    exact h
  | cons event rest ih =>
    rw [endings, ← List.append_assoc, List.foldl_cons]
    exact ih (h.run event)

end Recorded

/-- However evaluations of an expression follow each other, with changes to the model and to the
expression in between, it holds what they leave according to how they have ended, and for each
failure that is reported one message has been sent. Any further evaluation either succeeds, which
clears the failure and sends nothing, or fails, which leaves what is remembered as it is and the
output empty. A text without openings keeps its output and has nothing remembered. -/
theorem history_recorded (tree : Tree) (quiet forBuildsystem : Bool) (w : Workspace)
    (events : List Event) :
    let start : Compiled × Workspace := ({ Compiled.ofTree tree with quiet, forBuildsystem }, w)
    let now := events.foldl Event.run start
    Recorded tree w.messages (endings start events) now ∧
    (∀ e : Evaluation,
      (∃ output footprint, e.ending now.1 now.2 = .success output footprint ∧
        (e.carryOut now.1 now.2).1.output = output ∧
        (e.carryOut now.1 now.2).1.failure = none ∧
        (e.carryOut now.1 now.2).2.messages = now.2.messages) ∨
      ∃ reason, e.ending now.1 now.2 =
          .failure reason (!(e.engine.quiet || now.1.quiet) && e.engine.reports) ∧
        (e.carryOut now.1 now.2).1.output = [] ∧
        (e.carryOut now.1 now.2).1.failure = some reason ∧
        (e.carryOut now.1 now.2).1.snapshot = now.1.snapshot ∧
        (e.carryOut now.1 now.2).2.messages = now.2.messages ++
          if !(e.engine.quiet || now.1.quiet) && e.engine.reports then [reason.message] else []) ∧
    ∀ limit source, ¬ opening <:+: source → tree = Tree.parse limit source →
      now.1.output = source ∧ now.1.snapshot = {} ∧ now.1.failure = none := by
  intro start now
  have hnow : Recorded tree w.messages (endings start events) now := by
    simpa using (Recorded.ofTree tree quiet forBuildsystem w).foldl_run events
  refine ⟨hnow, fun e => ?_, ?_⟩
  · rcases e.carryOut_cases hnow.settled now.2 with
      ⟨output, footprint, hending, hafter, hmessages⟩ |
      ⟨reason, reported, hending, hafter, hmessages⟩
    · exact .inl ⟨output, footprint, hending, by rw [hafter], by rw [hafter], hmessages⟩
    · -- Whether a failure is reported is up to the engine and the expression, and to nothing else.
      have hreported : reported = (!(e.engine.quiet || now.1.quiet) && e.engine.reports) :=
        e.reported_eq hending
      rw [hending] at hmessages
      subst hreported
      refine .inr ⟨reason, hending, by rw [hafter], by rw [hafter], by rw [hafter], ?_⟩
      rw [hmessages, Ending.message?_failure]
  · rintro limit source hsource rfl
    have hplain : now.1.tree.needsEvaluation = false := by
      rw [hnow.unchanged, ← Bool.not_eq_true, Tree.needsEvaluation_parse]
      exact hsource
    have hsettled := hnow.settled hplain
    rw [hnow.unchanged, Tree.source_parse] at hsettled
    exact hsettled

-- A failure in the value of a property in the value of a property is reported once, and not at all
-- when the expression is quiet.
example :
    let e : Evaluation := ⟨{}, rfl, { config := "Debug" }, []⟩
    let store := Store.ofWrites [.value (.base "a" "P") "$<TARGET_PROPERTY:a,Q>",
      .value (.base "a" "Q") "$<NOPE>"]
    let events : List Event := [.evaluate e, .setQuiet true, .evaluate e]
    let tree := Tree.parse defaultLimit "$<TARGET_PROPERTY:a,P>"
    (events.foldl Event.run (Compiled.ofTree tree, { store })).2.messages.length = 1 := by
  decide +kernel

end BuildExpr
