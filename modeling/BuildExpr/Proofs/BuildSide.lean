import BuildExpr.Proofs.Depths
import BuildExpr.Proofs.Inlined
import BuildExpr.Proofs.Shortcut

/-!
# The build side before and during evaluation

That content is for the build side can be decided at two times. Before a text is evaluated, its build
side can be kept, which is a change to the text. While it is evaluated, selectors are operations: one
joins the values of its parameters, the other one gives nothing. Both come to the same
(`session_build_side`).

As an operation a selector is evaluated like its content with one more operation open
(`Engine.evaluateOperation_selector`). So a forest is evaluated like the one that has the content of
selectors in their places (`Engine.evaluateForest_inlined`), and the text that is kept says just that
forest, spelled at other places. The operation that is open around the content counts for the nesting
limit: it is the only thing that one way of evaluating needs more of than the other.
-/

namespace BuildExpr

open Forest (buildNodes side? inlineNode inlined)

/-! ## Selectors as operations -/

/-- The operation that a selector of a side calls. -/
def Side.operation : Side → Operation
  | .build => .buildInterface
  | .install => .installInterface

/-- A registry finds the operation that selects a side by its name. -/
theorem Registry.find?_selector (r : Registry) (side : Side) :
    r.find? side.selector = some side.operation := by
  cases side with
  | build => exact r.find?_name .buildInterface
  | install => exact r.find?_name .installInterface

namespace Operation

variable (operation : Forest → List Forest → Span → Eval Text)

/-- Values of parameters that are joined with commas are the value of the parameters with commas
between them. -/
theorem evaluateRest_buildInterface {index : Nat} (hindex : 0 < index) (last : Text)
    (parameters : List Forest) :
    buildInterface.evaluateRest (Forest.evaluateWith operation) 0 index [last] parameters = (do
      let others ← Forest.evaluateWith operation
        (Forest.OpenExpression.spreadParts [','] parameters)
      return [last ++ others]) := by
  induction parameters generalizing index last with
  | nil =>
    simp only [evaluateRest, Forest.OpenExpression.spreadParts, Forest.evaluateWith, pure_bind,
      List.append_nil]
  | cons part rest ih =>
    have hadd (value : Text) :
        buildInterface.addValue 0 index [last] value = [last ++ ',' :: value] := by
      simp [addValue, buildInterface, hindex]
    have hneeded : (0 < index && !buildInterface.wantsNext [last]) = false := Bool.and_false _
    rw [evaluateRest, hneeded, if_neg Bool.false_ne_true]
    simp only [hadd, ih (Nat.succ_pos index), Forest.OpenExpression.spreadParts, List.cons_append,
      Forest.evaluateWith, Forest.evaluateWith_append, bind_assoc, pure_bind, List.append_assoc,
      List.nil_append]

/-- So the result of a selector is the value of its content. -/
theorem carryOut_selector (side : Side) {parameters : List Forest} (h : parameters ≠ [])
    (call : List Text → Call) (hcall : ∀ values, (call values).parameters = values) :
    side.operation.carryOut (Forest.evaluateWith operation) parameters call =
      Forest.evaluateWith operation (buildNodes side parameters) := by
  obtain ⟨part, rest, rfl⟩ := List.exists_cons_of_ne_nil h
  cases side with
  | install =>
    -- What is for the installation says nothing here, so none of its parameters is evaluated.
    have hcount : installInterface.effectiveCount (part :: rest).length ≠ 0 := by
      simp [effectiveCount, installInterface, Arity.exactly]
    exact carryOut_of_not_generates rfl hcount call
  | build =>
    -- What is for building has one parameter, however many commas are in it, and says it back.
    have hcount : buildInterface.effectiveCount (part :: rest).length = 1 := by
      simp [effectiveCount, buildInterface, Arity.exactly]
    have hadd (value : Text) : buildInterface.addValue 0 0 [] value = [value] := rfl
    have hresult (value : Text) :
        buildInterface.evaluate (call [value]) = pure value :=
      congrArg (fun values => pure (firstParameter values)) (hcall [value])
    have haccepts : buildInterface.arity.accepts
        (buildInterface.effectiveCount (part :: rest).length) = true := by rw [hcount]; rfl
    have hfirst : (decide (0 < 0) && !buildInterface.wantsNext []) = false := rfl
    unfold Side.operation
    dsimp only
    rw [carryOut_of_accepts rfl haccepts, evaluateParameters, hcount, evaluateRest, hfirst,
      if_neg Bool.false_ne_true]
    simp only [hadd, evaluateRest_buildInterface operation Nat.one_pos, bind_assoc, pure_bind,
      hresult, buildNodes, Forest.evaluateWith_append]

end Operation

namespace Engine

/-- A selector is evaluated like its content, with one more operation open. -/
theorem evaluateOperation_selector (engine : Engine) (m : Model) (remaining : Nat) (scope : Scope)
    (chain : Chain) (source : Text) {name : Forest} {parameters : List Forest} {side : Side}
    (h : side? name parameters = some side) (span : Span) :
    engine.evaluateOperation m (engine.evaluateForest m remaining) scope chain source name
        parameters span =
      Eval.within
        (engine.evaluateForest m remaining scope chain source (buildNodes side parameters)) := by
  obtain ⟨hname, hparameters⟩ := Forest.side?_eq_some h
  have hcalled := engine.evaluateForest_literal m remaining scope chain source hname
  have hplaced := engine.evaluateForest_placed m remaining scope chain source
    (buildNodes side parameters)
  obtain ⟨operation, heq⟩ := engine.evaluateForest_eq m remaining scope chain source
  unfold evaluateOperation
  dsimp only
  rw [hcalled, pure_bind, engine.registry.find?_selector side]
  dsimp only
  rw [heq, Operation.carryOut_selector operation side hparameters _ fun _ => rfl, ← heq,
    hplaced.inExpression_eq]

variable {engine : Engine} (hbuiltin : engine.registry.added = []) (m : Model) (remaining : Nat)
  (scope : Scope) (chain : Chain) (source : Text)

include hbuiltin

/-- Unless that fails at the nesting limit, a node is evaluated like its content if it is a
selector. -/
theorem evaluateForest_inlineNode (node : Node) :
    Shallower Text (engine.evaluateForest m remaining scope chain source [node])
      (engine.evaluateForest m remaining scope chain source (inlineNode node)) := by
  rcases Forest.inlineNode_cases node with heq | ⟨name, parameters, span, side, rfl, hside, heq⟩
  · rw [heq]
    exact evaluateForest_shallower hbuiltin m remaining 0 scope chain source [node]
  · rw [heq]
    cases remaining with
    | zero =>
      -- No operation may be opened any more, so the selector itself goes past the limit.
      intro r s _
      exact .inl ((PastLimit.nestingTooDeep (source.cut span) engine.limit r).bind _)
    | succ remaining =>
      -- The selector opens one operation around its parameters. Without it they may open one more.
      have hselector := engine.evaluateOperation_selector m remaining scope chain source hside span
      have hsingle : engine.evaluateForest m (remaining + 1) scope chain source
          [.operation name parameters span] =
          Eval.within
            (engine.evaluateForest m remaining scope chain source (buildNodes side parameters)) := by
        rw [evaluateForest, Forest.evaluateWith_single, hselector]
      rw [hsingle]
      exact (evaluateForest_shallower hbuiltin m remaining 1 scope chain source _).within_left

/-- So a forest is evaluated like the one with the content of its selectors in their places. -/
theorem evaluateForest_inlined (nodes : Forest) :
    Shallower Text (engine.evaluateForest m remaining scope chain source nodes)
      (engine.evaluateForest m remaining scope chain source (inlined nodes)) := by
  induction nodes with
  | nil => exact evaluateForest_shallower hbuiltin m remaining 0 scope chain source []
  | cons node rest ih =>
    have hsplit := engine.evaluateForest_append m remaining scope chain source [node] rest
    rw [List.singleton_append] at hsplit
    rw [hsplit, Forest.inlined_cons, engine.evaluateForest_append]
    exact (evaluateForest_inlineNode hbuiltin m remaining scope chain source node).bind fun _ =>
      ih.bind fun _ => Shallower.congruence.pure _

end Engine

/-! ## Before and during evaluation -/

open Compiled (finalRun)
open Interface (select kept)

/-- A text that can be read is evaluated like what is kept of it for the build side. -/
theorem Engine.evaluateTree_select {engine : Engine} (hbuiltin : engine.registry.added = [])
    (m : Model) (remaining : Nat) (scope : Scope) (chain : Chain) {source : Text}
    (h : source.Selectable) (root : Option Text) (hnesting : source.nesting ≤ engine.limit) :
    Shallower Text (engine.evaluateTree m remaining scope chain (engine.parse source))
      (engine.evaluateTree m remaining scope chain
        (engine.parse (select (kept .build root) source))) := by
  let forest := Forest.ofTokens (Token.scan source)
  let selected := select (kept .build root) source
  -- What is selected reads as the forest without the selectors, but for the places of its nodes.
  have hread : engine.evaluateTree m remaining scope chain (engine.parse selected) =
      engine.evaluateForest m remaining scope chain source (inlined forest) := by
    have hspelled : Forest.SpelledIn source (Forest.extend [] (inlined forest)) :=
      Forest.spelledIn_extend.2 (Forest.spelledIn_inlined (Forest.spelledIn_scan _))
    calc engine.evaluateTree m remaining scope chain (engine.parse selected)
      _ = engine.evaluateForest m remaining scope chain selected
          (Forest.ofTokens (Token.scan selected)) :=
        engine.evaluateTree_parse m remaining scope chain
          ((h.nesting_select_le root).trans hnesting)
      _ = engine.evaluateForest m remaining scope chain source
          (Forest.extend [] (inlined forest)) :=
        engine.evaluateForest_respelled m remaining scope chain (h.spelledIn_select root) hspelled
          (h.ofTokens_scan_select root)
      _ = engine.evaluateForest m remaining scope chain source (inlined forest) :=
        engine.evaluateForest_extend m remaining scope chain source [] (inlined forest)
  have hsource : engine.evaluateTree m remaining scope chain (engine.parse source) =
      engine.evaluateForest m remaining scope chain source forest :=
    engine.evaluateTree_parse m remaining scope chain hnesting
  rw [hread, hsource]
  exact engine.evaluateForest_inlined hbuiltin m remaining scope chain source forest

/-- Two expressions that have been evaluated, with the same answer. -/
structure SameAnswer (first second : Compiled × Workspace) : Prop where
  /-- They have the same output. -/
  output : second.1.output = first.1.output
  /-- They have failed in the same way if they have failed. -/
  failure : second.1.failure = first.1.failure
  /-- They have the same snapshot. -/
  snapshot : second.1.snapshot = first.1.snapshot
  /-- The same messages have been sent. -/
  messages : second.2.messages = first.2.messages

/-- The two evaluations give the same answer. -/
theorem SameAnswer.answer {first second : Compiled × Workspace} (h : SameAnswer first second) :
    second.1.answer = first.1.answer := by
  rw [Compiled.answer, Compiled.answer, h.failure, h.output]

section

variable {engine : Engine} (hbuiltin : engine.registry.added = []) {w : Workspace}
  (htrees : w.store.trees.Faithful) {source : Text} (h : source.Selectable) (root : Option Text)
  (inputs : Inputs) (chain : Chain)

include hbuiltin htrees h

/-- Evaluating a text fails at the nesting limit or has the same answer as evaluating what is kept of
it. -/
theorem Engine.evaluate_compile_select :
    (∃ failure, ((engine.compile source).evaluate engine inputs chain w).1.failure = some failure ∧
      ¬ failure.cause.WithinLimit) ∨
    SameAnswer ((engine.compile source).evaluate engine inputs chain w)
      ((engine.compile (select (kept .build root) source)).evaluate engine inputs chain w) := by
  by_cases hnesting : source.nesting ≤ engine.limit
  · let context := (engine.compile source).context engine inputs
    have hevaluate (t : Text) : (engine.compile t).evaluate engine inputs chain w =
        ((engine.compile t).conclude (Compiled.outcome engine (engine.parse t) context chain w),
          w.after (finalRun (Compiled.outcome engine (engine.parse t) context chain w))) :=
      engine.evaluate_compileTree (engine.parse t) inputs chain w
    have hrun : Run.SameButDepth (context.toRun w) (context.toRun w) := ⟨rfl, rfl, htrees, htrees⟩
    have hends := engine.evaluateTree_select hbuiltin w.store.model (engine.limit - context.depth)
      context.scope chain h root hnesting hrun
    rw [hevaluate, hevaluate, Compiled.outcome_eq, Compiled.outcome_eq]
    -- Either the source goes past the limit, or both end alike.
    rcases hends with ⟨failure, run, hr, hcause⟩ | halike
    · rw [hr]
      exact .inl ⟨failure, rfl, hcause⟩
    · rcases halike.ends with ⟨output, r, s, hr, hs, hrs⟩ | ⟨failure, r, s, hr, hs, hrs⟩
      · rw [hr, hs]
        exact .inr ⟨rfl, rfl, congrArg (Compiled.absorb {}) hrs.footprint.symm, hrs.messages.symm⟩
      · rw [hr, hs]
        refine .inr ⟨rfl, rfl, rfl, ?_⟩
        simp only [finalRun, Workspace.after, hrs.messages]
  · rw [Engine.evaluate_compile_tooDeep engine source inputs chain w (Nat.not_le.1 hnesting)]
    exact .inl ⟨_, rfl, fun hcause => hcause _ _ rfl⟩

/-- So does a text that need not be read. -/
theorem Engine.evaluateText_select :
    (∃ failure, (engine.evaluateText source inputs chain w).1 = .error failure ∧
      ¬ failure.cause.WithinLimit) ∨
    (engine.evaluateText (select (kept .build root) source) inputs chain w).1 =
        (engine.evaluateText source inputs chain w).1 ∧
      (engine.evaluateText (select (kept .build root) source) inputs chain w).2.messages =
        (engine.evaluateText source inputs chain w).2.messages := by
  -- A text that is taken for plain text has no openings, so it is within any limit.
  have hsource := engine.evaluateText_eq source inputs chain w fun hunterminated => by
    rw [Text.nesting_of_no_opening (h.closed.no_opening_of_unterminated hunterminated)]
    exact Nat.zero_le _
  rw [hsource]
  dsimp only
  by_cases hnesting : source.nesting ≤ engine.limit
  · have hselected := engine.evaluateText_eq (select (kept .build root) source) inputs chain w
      fun _ => (h.nesting_select_le root).trans hnesting
    rw [hselected]
    rcases Engine.evaluate_compile_select hbuiltin htrees h root inputs chain with
      ⟨failure, hfailure, hcause⟩ | hsame
    · refine .inl ⟨failure, ?_, hcause⟩
      rw [Compiled.answer, hfailure]
    · exact .inr ⟨hsame.answer, hsame.messages⟩
  · rw [Engine.evaluate_compile_tooDeep engine source inputs chain w (Nat.not_le.1 hnesting)]
    exact .inl ⟨_, rfl, fun hcause => hcause _ _ rfl⟩

end

/-- At any point of a session with built-in operations, it does not matter whether the build side of a
text is kept before the text is evaluated or by evaluating it, if all expressions of the text end, it
uses `$` for nothing else, and its selectors are outermost: what is kept ends with the same output or
the same failure, with the same snapshot, and with the same messages having been sent. Only if the text
itself fails at the nesting limit, what is kept may still have a value. -/
theorem session_build_side (steps : List Step) (engine : Engine)
    (hbuiltin : engine.registry.added = []) (source : Text) (h : source.Selectable)
    (root : Option Text) (inputs : Inputs) (chain : Chain) :
    let selected := select (kept .build root) source
    (let first := (engine.compile source).evaluate engine inputs chain (session steps)
      let second := (engine.compile selected).evaluate engine inputs chain (session steps)
      (∀ failure, first.1.failure = some failure → failure.cause.WithinLimit) →
        SameAnswer first second) ∧
    let first := engine.evaluateText source inputs chain (session steps)
    let second := engine.evaluateText selected inputs chain (session steps)
    (∀ failure, first.1 = .error failure → failure.cause.WithinLimit) →
      second.1 = first.1 ∧ second.2.messages = first.2.messages := by
  have htrees := (session_sameButTrees steps).faithful
  intro selected
  constructor
  · intro first second hwithin
    rcases Engine.evaluate_compile_select hbuiltin htrees h root inputs chain with
      ⟨failure, hfailure, hcause⟩ | hsame
    · exact absurd (hwithin failure hfailure) hcause
    · exact hsame
  · intro first second hwithin
    rcases Engine.evaluateText_select hbuiltin htrees h root inputs chain with
      ⟨failure, hfailure, hcause⟩ | hsame
    · exact absurd (hwithin failure hfailure) hcause
    · exact hsame

/-- Content with a comma, with a selector inside it, and with what comes next to it, and content for
installations that would fail. -/
theorem session_build_side_nested :
    let steps : List Step := [.write (.value (.base "app" "P") "$<CONFIG>")]
    let engine : Engine := {}
    let inputs : Inputs := { config := "Debug", head := some "app" }
    let source : Text :=
      "$<BUILD_INTERFACE:$<BUILD_INTERFACE:x>,$<TARGET_PROPERTY:P>>y$<INSTALL_INTERFACE:$<NO>>"
    let selected : Text := "$<BUILD_INTERFACE:x>,$<TARGET_PROPERTY:P>y"
    source.Selectable ∧ select (kept .build none) source = selected ∧
      (engine.evaluateText source inputs [] (session steps)).1.toOption = some "x,Debugy" ∧
      (engine.evaluateText selected inputs [] (session steps)).1.toOption = some "x,Debugy" := by
  intro steps engine inputs source selected
  have hselectable : source.Selectable :=
    ⟨by decide +kernel, by decide +kernel, by decide +kernel⟩
  have hselected : select (kept .build none) source = selected := by decide +kernel
  have hvalue :
      (engine.evaluateText source inputs [] (session steps)).1.toOption = some "x,Debugy" := by
    decide +kernel
  have hwithin : ∀ failure,
      (engine.evaluateText source inputs [] (session steps)).1 = .error failure →
        failure.cause.WithinLimit := by
    intro failure hfailure
    rw [hfailure] at hvalue
    cases hvalue
  obtain ⟨-, htext⟩ := session_build_side steps engine rfl source hselectable none inputs []
  rw [hselected] at htext
  exact ⟨hselectable, hselected, hvalue, (congrArg Except.toOption (htext hwithin).1).trans hvalue⟩

end BuildExpr
