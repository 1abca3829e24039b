import BuildExpr.Proofs.Depths
import BuildExpr.Proofs.ParameterCounts

/-!
# Parameters that are not selected

Some operations do not need all their parameters: a choice needs the condition and the text it selects,
and a combination of truth values needs none after the first decisive one. A parameter that is not
needed is passed as the empty text, which the operation would not accept as a truth value. But
what the evaluator asks of an operation, whether it needs the next parameter, and what the operation
makes of the parameters in the end come to the same: it does not look at those it has not asked for.
So what is written there has no effect (`evaluateForest_unselected`).
-/

namespace BuildExpr

namespace Operation

variable {op : Operation} {evaluate : Forest → Eval Text} {joinedFrom index : Nat}
  {values : List Text}

/-- A parameter that is needed is evaluated. -/
theorem evaluateRest_needed (hjoins : op.joinsExtra = false)
    (hneeded : 0 < index → op.wantsNext values = true) (parameter : Forest) (rest : List Forest) :
    op.evaluateRest evaluate joinedFrom index values (parameter :: rest) = (do
      let value ← evaluate parameter
      op.evaluateRest evaluate joinedFrom (index + 1) (values ++ [value]) rest) := by
  have hwanted : ¬ (decide (0 < index) && !op.wantsNext values) = true := by simpa using hneeded
  rw [evaluateRest, if_neg hwanted]
  simp only [addValue_of_not_joins hjoins]

/-- One that is not needed is passed as the empty text. -/
theorem evaluateRest_unneeded (hindex : 0 < index) (hunneeded : op.wantsNext values = false)
    (parameter : Forest) (rest : List Forest) :
    op.evaluateRest evaluate joinedFrom index values (parameter :: rest) =
      op.evaluateRest evaluate joinedFrom (index + 1) (values ++ [[]]) rest := by
  have hskipped : (decide (0 < index) && !op.wantsNext values) = true := by simp [hindex, hunneeded]
  rw [evaluateRest, if_pos hskipped]

/-! ## Choices -/

/-- A truth value is read back from the text it is written as. -/
@[simp] theorem toBool?_ofBool (b : Bool) : (Text.ofBool b).toBool? = some b := by
  cases b <;> rfl

variable {condition yes no : Forest} {b : Bool} {run decided : Run}

/-- The parameters of a choice are the condition, the text it selects, and nothing in place of the other
text. -/
theorem evaluateParameters_choice
    (hcondition : evaluate condition run = .ok (Text.ofBool b) decided) :
    choice.evaluateParameters evaluate [condition, yes, no] run =
      (do
        let value ← evaluate (if b then yes else no)
        return Text.ofBool b :: if b then [value, []] else [[], value]) decided := by
  have hfirst : 0 < 0 → choice.wantsNext [] = true := fun h => absurd h (Nat.lt_irrefl 0)
  rw [evaluateParameters, evaluateRest_needed rfl hfirst, Eval.bind_of_ok hcondition]
  cases b with
  | true =>
    have hunneeded (value : Text) :
        choice.wantsNext ([] ++ [Text.ofBool true] ++ [value]) = false := rfl
    rw [evaluateRest_needed rfl fun _ => rfl]
    refine congrFun (bind_congr fun value => ?_) decided
    rw [evaluateRest_unneeded (Nat.succ_pos 1) (hunneeded value)]
    rfl
  | false =>
    have hunneeded : choice.wantsNext ([] ++ [Text.ofBool false]) = false := rfl
    rw [evaluateRest_unneeded (Nat.succ_pos 0) hunneeded, evaluateRest_needed rfl fun _ => rfl]
    rfl

/-- A choice gives the text that its condition selects. -/
theorem choose_ofBool (b : Bool) (value : Text) :
    choose (Text.ofBool b :: if b then [value, []] else [[], value]) = .ok value := by
  cases b <;> rfl

/-- So it has the value of the text that its condition selects. -/
theorem carryOut_choice (call : List Text → Call)
    (hcall : ∀ values, (call values).parameters = values)
    (hcondition : evaluate condition run = .ok (Text.ofBool b) decided) :
    choice.carryOut evaluate [condition, yes, no] call run =
      evaluate (if b then yes else no) decided := by
  have hresult (value : Text) :
      choice.evaluate (call (Text.ofBool b :: if b then [value, []] else [[], value])) =
        pure value := by
    change Eval.ofExcept (choose (call _).parameters) = pure value
    rw [hcall, choose_ofBool]
    rfl
  calc choice.carryOut evaluate [condition, yes, no] call run
    _ = (choice.evaluateParameters evaluate [condition, yes, no] >>= fun values =>
          choice.evaluate (call values)) run := by rw [carryOut_of_accepts rfl rfl]
    _ = ((do
          let value ← evaluate (if b then yes else no)
          return Text.ofBool b :: if b then [value, []] else [[], value]) >>= fun values =>
            choice.evaluate (call values)) decided := by
        rw [Eval.bind_apply, evaluateParameters_choice hcondition, ← Eval.bind_apply]
    _ = evaluate (if b then yes else no) decided := by
        simp only [bind_assoc, pure_bind, hresult, bind_pure]

/-! ## Combinations -/

variable {name : Text} {decisive : Bool} {rest : List Forest}

/-- After a decisive value every parameter is empty. -/
theorem evaluateRest_decided (hindex : 0 < index) (h : Text.ofBool decisive ∈ values) :
    (combining name decisive).evaluateRest evaluate joinedFrom index values rest =
      pure (values ++ List.replicate rest.length []) := by
  induction rest generalizing index values with
  | nil => rw [evaluateRest, List.length_nil, List.replicate_zero, List.append_nil]
  | cons parameter rest ih =>
    have hunneeded : (combining name decisive).wantsNext values = false := by
      simp [combining, h]
    rw [evaluateRest_unneeded hindex hunneeded, ih (Nat.succ_pos index) (List.mem_append_left _ h),
      List.append_assoc, List.singleton_append, ← List.replicate_succ, List.length_cons]

/-- As long as no value is decisive, the next one is needed. -/
theorem wantsNext_undecided (name : Text) (decisive : Bool) (count : Nat) :
    (combining name decisive).wantsNext (List.replicate count (Text.ofBool !decisive)) = true := by
  have hne : Text.ofBool decisive ≠ Text.ofBool !decisive := by cases decisive <;> decide
  simp [combining, List.mem_replicate, hne]

/-- As long as no value is decisive, the next parameter is evaluated. -/
theorem evaluateRest_undecided {before : List Forest} {reached : Run}
    (h : before.mapM evaluate run =
      .ok (List.replicate before.length (Text.ofBool !decisive)) reached) :
    (combining name decisive).evaluateRest evaluate joinedFrom index
        (List.replicate index (Text.ofBool !decisive)) (before ++ rest) run =
      (combining name decisive).evaluateRest evaluate joinedFrom (index + before.length)
        (List.replicate (index + before.length) (Text.ofBool !decisive)) rest reached := by
  induction before generalizing index run with
  | nil =>
    cases h
    rfl
  | cons parameter before ih =>
    have hneeded := wantsNext_undecided name decisive index
    rw [List.mapM_cons, List.length_cons, List.replicate_succ] at h
    obtain ⟨value, between, hvalue, h⟩ := Eval.bind_eq_ok h
    obtain ⟨values, reached', hvalues, h⟩ := Eval.bind_eq_ok h
    cases h
    -- The parameter is one of those that leave the result open, so it is collected like them.
    have hlength : index + (parameter :: before).length = index + 1 + before.length := by
      rw [List.length_cons]
      omega
    rw [List.cons_append, evaluateRest_needed rfl fun _ => hneeded, Eval.bind_of_ok hvalue, hlength,
      ← List.replicate_succ', ih hvalues]

/-- The first decisive value is the result. -/
theorem combine_decided (before : Nat) (rest : List Text) :
    combine name decisive
        (List.replicate before (Text.ofBool !decisive) ++ Text.ofBool decisive :: rest) =
      .ok (Text.ofBool decisive) := by
  induction before with
  | zero => simp [combine]
  | succ before ih =>
    rw [List.replicate_succ, List.cons_append, combine, toBool?_ofBool]
    cases decisive with
    | true => exact ih
    | false => exact ih

/-- A combination gets its parameters up to the decisive one, and nothing in place of the others. -/
theorem evaluateParameters_combining {before : List Forest} {settling : Forest}
    {reached settled : Run}
    (hbefore : before.mapM evaluate run =
      .ok (List.replicate before.length (Text.ofBool !decisive)) reached)
    (hsettling : evaluate settling reached = .ok (Text.ofBool decisive) settled) :
    (combining name decisive).evaluateParameters evaluate (before ++ settling :: rest) run =
      .ok (List.replicate before.length (Text.ofBool !decisive) ++
        Text.ofBool decisive :: List.replicate rest.length []) settled := by
  let op := combining name decisive
  let undecided := List.replicate (0 + before.length) (Text.ofBool !decisive)
  have hundecided : undecided = List.replicate before.length (Text.ofBool !decisive) := by
    rw [← Nat.zero_add before.length]
  have hneeded : op.wantsNext undecided = true := wantsNext_undecided name decisive _
  -- Up to the parameter that settles the result each is evaluated, from there on none.
  calc op.evaluateRest evaluate _ 0 [] (before ++ settling :: rest) run
    _ = op.evaluateRest evaluate _ (0 + before.length) undecided (settling :: rest) reached :=
      evaluateRest_undecided hbefore
    _ = op.evaluateRest evaluate _ (0 + before.length + 1) (undecided ++ [Text.ofBool decisive]) rest
          settled := by
      rw [evaluateRest_needed rfl fun _ => hneeded, Eval.bind_of_ok hsettling]
    _ = .ok (undecided ++ [Text.ofBool decisive] ++ List.replicate rest.length []) settled := by
      rw [evaluateRest_decided (Nat.succ_pos _) (List.mem_append_right _ List.mem_cons_self)]
      rfl
    _ = _ := by rw [List.append_assoc, List.singleton_append, hundecided]

/-- So its first decisive parameter is its value. -/
theorem carryOut_combining {before : List Forest} {settling : Forest} {reached settled : Run}
    (call : List Text → Call) (hcall : ∀ values, (call values).parameters = values)
    (hbefore : before.mapM evaluate run =
      .ok (List.replicate before.length (Text.ofBool !decisive)) reached)
    (hsettling : evaluate settling reached = .ok (Text.ofBool decisive) settled) :
    (combining name decisive).carryOut evaluate (before ++ settling :: rest) call run =
      .ok (Text.ofBool decisive) settled := by
  have haccepts : (combining name decisive).arity.accepts
      ((combining name decisive).effectiveCount (before ++ settling :: rest).length) = true := by
    simp [combining, effectiveCount, Arity.atLeast, Arity.accepts]
    omega
  rw [carryOut_of_accepts rfl haccepts,
    Eval.bind_of_ok (evaluateParameters_combining hbefore hsettling)]
  change Eval.ofExcept (combine name decisive (call _).parameters) settled = _
  rw [hcall, combine_decided]
  rfl

end Operation

namespace Engine

open Eval (Placed)

variable (engine : Engine) (m : Model)

/-- The value of a forest that has so many operations open around it. -/
def evaluateAt (depth : Nat) (scope : Scope) (chain : Chain) (source : Text) : Forest → Eval Text :=
  engine.evaluateForest m (engine.limit - depth) scope chain source

variable (scope : Scope) (chain : Chain) (source : Text)

/-- An operation whose name has the value of a built-in one is that operation carried out. -/
theorem evaluateAt_builtin {run named : Run} (hdepth : run.depth < engine.limit) {name : Forest}
    (b : Builtin)
    (hname : engine.evaluateAt m (run.depth + 1) scope chain source name
      { run with depth := run.depth + 1 } = .ok b.name named)
    {parameters : List Forest} {body : Eval Text}
    (hbody : ∀ call : List Text → Call, (∀ values, (call values).parameters = values) →
      b.operation.carryOut (engine.evaluateAt m (run.depth + 1) scope chain source) parameters call
        named = body named) (span : Span) :
    engine.evaluateAt m run.depth scope chain source [.operation name parameters span] run =
      Eval.within (Eval.inExpression (source.cut span) (do
        let _ ← engine.evaluateAt m (run.depth + 1) scope chain source name
        body)) run := by
  have hremaining : engine.limit - run.depth = engine.limit - (run.depth + 1) + 1 := by omega
  rw [evaluateAt, hremaining, evaluateForest, Forest.evaluateWith_single, evaluateOperation]
  refine Eval.within_congr (Eval.inExpression_congr ?_ _)
  rw [evaluateAt] at hname ⊢
  rw [Eval.bind_of_ok hname, Eval.bind_of_ok hname, engine.registry.find?_name b]
  exact hbody _ fun _ => rfl

/-- Every failure at a depth has a place. -/
theorem evaluateAt_placed (depth : Nat) (nodes : Forest) :
    Placed (engine.evaluateAt m depth scope chain source nodes) :=
  engine.evaluateForest_placed m (engine.limit - depth) scope chain source nodes

section

variable {engine m scope chain source} {run named : Run} (hdepth : run.depth < engine.limit)
  {name : Forest} (span : Span)

include hdepth

/-- A choice is evaluated like its condition and the text that this selects. -/
theorem evaluateAt_choice {condition yes no : Forest} {b : Bool} {decided : Run}
    (hname : engine.evaluateAt m (run.depth + 1) scope chain source name
      { run with depth := run.depth + 1 } = .ok Builtin.choice.name named)
    (hcondition : engine.evaluateAt m (run.depth + 1) scope chain source condition named =
      .ok (Text.ofBool b) decided) :
    let inside := engine.evaluateAt m (run.depth + 1) scope chain source
    engine.evaluateAt m run.depth scope chain source
        [.operation name [condition, yes, no] span] run =
      Eval.within (do
        let _ ← inside name
        let _ ← inside condition
        inside (if b then yes else no)) run := by
  intro inside
  -- What is left of the operation is the condition and the parameter that it selects.
  let selected : Eval Text := do
    let _ ← inside condition
    inside (if b then yes else no)
  have hplaced (nodes : Forest) : Placed (inside nodes) :=
    engine.evaluateAt_placed m scope chain source _ nodes
  have hbody (call : List Text → Call) (hcall : ∀ values, (call values).parameters = values) :
      Operation.choice.carryOut inside [condition, yes, no] call named = selected named := by
    rw [Operation.carryOut_choice call hcall hcondition]
    exact (Eval.bind_of_ok hcondition fun _ => inside _).symm
  have hevaluated := engine.evaluateAt_builtin m scope chain source hdepth .choice hname hbody span
  rw [((hplaced name).bind fun _ => (hplaced condition).bind fun _ => hplaced _).inExpression_eq]
    at hevaluated
  exact hevaluated

/-- A combination is evaluated up to its first decisive parameter. -/
theorem evaluateAt_combining {decisive : Bool} {before : List Forest} {settling : Forest}
    {rest : List Forest} {reached settled : Run} (b : Builtin)
    (hb : b.operation = Operation.combining b.name decisive)
    (hname : engine.evaluateAt m (run.depth + 1) scope chain source name
      { run with depth := run.depth + 1 } = .ok b.name named)
    (hbefore : before.mapM (engine.evaluateAt m (run.depth + 1) scope chain source) named =
      .ok (List.replicate before.length (Text.ofBool !decisive)) reached)
    (hsettling : engine.evaluateAt m (run.depth + 1) scope chain source settling reached =
      .ok (Text.ofBool decisive) settled) :
    engine.evaluateAt m run.depth scope chain source
        [.operation name (before ++ settling :: rest) span] run =
      .ok (Text.ofBool decisive) { settled with depth := settled.depth - 1 } := by
  -- The parameters behind the one that settles the result have no part in it.
  let needed : Eval Text := do
    let _ ← before.mapM (engine.evaluateAt m (run.depth + 1) scope chain source)
    engine.evaluateAt m (run.depth + 1) scope chain source settling
  have hneeded : needed named = .ok (Text.ofBool decisive) settled :=
    (Eval.bind_of_ok hbefore _).trans hsettling
  have hbody (call : List Text → Call) (hcall : ∀ values, (call values).parameters = values) :
      b.operation.carryOut (engine.evaluateAt m (run.depth + 1) scope chain source)
          (before ++ settling :: rest) call named = needed named := by
    rw [hneeded, hb, Operation.carryOut_combining call hcall hbefore hsettling]
  rw [engine.evaluateAt_builtin m scope chain source hdepth b hname hbody span,
    Eval.within_eq_ok]
  refine ⟨settled, ?_, rfl⟩
  rw [Eval.inExpression_eq_ok, Eval.bind_of_ok hname]
  exact hneeded

/-- An operation without a result is not evaluated at all. -/
theorem evaluateAt_of_not_generates (b : Builtin) (hb : b.operation.generates = false)
    (hname : name.literal? = some b.name) {parameters : List Forest} (hparameters : parameters ≠ []) :
    engine.evaluateAt m run.depth scope chain source [.operation name parameters span] run =
      .ok [] run := by
  have hcount : b.operation.effectiveCount parameters.length ≠ 0 :=
    Nat.ne_of_gt (b.operation.effectiveCount_pos (List.length_pos_iff.2 hparameters))
  have hcalled : engine.evaluateAt m (run.depth + 1) scope chain source name
      { run with depth := run.depth + 1 } = .ok b.name { run with depth := run.depth + 1 } := by
    rw [evaluateAt, engine.evaluateForest_literal m _ scope chain source hname]
    rfl
  have hbody (call : List Text → Call) (_ : ∀ values, (call values).parameters = values) :
      b.operation.carryOut (engine.evaluateAt m (run.depth + 1) scope chain source) parameters call
          { run with depth := run.depth + 1 } =
        (pure [] : Eval Text) { run with depth := run.depth + 1 } := by
    rw [Operation.carryOut_of_not_generates hb hcount]
  rw [engine.evaluateAt_builtin m scope chain source hdepth b hcalled hbody span,
    Eval.within_eq_ok]
  refine ⟨{ run with depth := run.depth + 1 }, ?_, rfl⟩
  rw [Eval.inExpression_eq_ok, Eval.bind_of_ok hcalled]
  rfl

end

end Engine

/-- What is written in a parameter that is not selected has no effect, whatever it is. A choice is
evaluated like its condition followed by the text that the condition selects, with the same value or
failure and the same run afterwards. A combination of truth values ends with the first decisive one, in
the run that its evaluation left. And an operation literally called by the name of one that has no
result leaves everything as it was if it has parameters. -/
theorem evaluateForest_unselected (engine : Engine) (m : Model) (scope : Scope) (chain : Chain)
    (source : Text) (run : Run) (hdepth : run.depth < engine.limit) (name : Forest) (span : Span) :
    let value := engine.evaluateAt m run.depth scope chain source
    let inside := engine.evaluateAt m (run.depth + 1) scope chain source
    let opened : Run := { run with depth := run.depth + 1 }
    (∀ condition yes no : Forest, ∀ b : Bool, ∀ named decided : Run,
      inside name opened = .ok "IF" named →
      inside condition named = .ok (Text.ofBool b) decided →
      value [.operation name [condition, yes, no] span] run =
        Eval.within (do
          let _ ← inside name
          let _ ← inside condition
          inside (if b then yes else no)) run) ∧
    (∀ decisive : Bool, ∀ before : List Forest, ∀ settling : Forest, ∀ rest : List Forest,
      ∀ named reached settled : Run,
      inside name opened = .ok (if decisive then "OR" else "AND") named →
      before.mapM inside named =
        .ok (List.replicate before.length (Text.ofBool !decisive)) reached →
      inside settling reached = .ok (Text.ofBool decisive) settled →
      value [.operation name (before ++ settling :: rest) span] run =
        .ok (Text.ofBool decisive) { settled with depth := settled.depth - 1 }) ∧
    ∀ text ∈ (["0", "INSTALL_INTERFACE"] : List Text), ∀ parameters : List Forest,
      name.literal? = some text → parameters ≠ [] →
      value [.operation name parameters span] run = .ok [] run := by
  intro value inside opened
  refine ⟨?_, ?_, ?_⟩
  · intro condition yes no b named decided hname hcondition
    exact Engine.evaluateAt_choice hdepth span hname hcondition
  · intro decisive before settling rest named reached settled hname hbefore hsettling
    cases decisive with
    | false => exact Engine.evaluateAt_combining hdepth span .and rfl hname hbefore hsettling
    | true => exact Engine.evaluateAt_combining hdepth span .or rfl hname hbefore hsettling
  · intro text htext parameters hname hparameters
    rcases List.mem_cons.1 htext with rfl | hinstall
    · exact Engine.evaluateAt_of_not_generates hdepth span .zero rfl hname hparameters
    · obtain rfl := List.mem_singleton.1 hinstall
      exact Engine.evaluateAt_of_not_generates hdepth span .installInterface rfl hname hparameters

/-- Conditions that note what they depend on, around content that would fail. -/
theorem evaluateForest_unselected_failing :
    let engine : Engine := { limit := 2 }
    let value := engine.evaluateAt {} 0 { config := "Debug" } [] "$<CONFIG:Debug>$<CONFIG:Release>$<NO>"
    let debug : Forest := [.operation [.text "CONFIG"] [[.text "Debug"]] ⟨0, 15⟩]
    let release : Forest := [.operation [.text "CONFIG"] [[.text "Release"]] ⟨15, 32⟩]
    let failing : Forest := [.operation [.text "NO"] [] ⟨32, 37⟩]
    let noted : Run := { footprint := { contextSensitive := true } }
    value failing {} = .error ⟨.unknownOperation "NO", some "$<NO>"⟩ {} ∧
      value [.operation [.text "IF"] [debug, [.text "yes"], failing] ⟨0, 37⟩] {} =
        .ok "yes" noted ∧
      value [.operation [.text "IF"] [release, failing, [.text "no"]] ⟨0, 37⟩] {} = .ok "no" noted ∧
      value [.operation [.text "AND"] ([[.text "1"]] ++ release :: [failing]) ⟨0, 37⟩] {} =
        .ok "0" noted ∧
      value [.operation [.text "0"] [failing] ⟨0, 37⟩] {} = .ok [] {} := by
  intro engine value debug release failing noted
  have h (name : Forest) := evaluateForest_unselected engine {} { config := "Debug" } []
    "$<CONFIG:Debug>$<CONFIG:Release>$<NO>" {} (by decide) name ⟨0, 37⟩
  let opened : Run := { footprint := { contextSensitive := true }, depth := 1 }
  refine ⟨rfl, ?_, ?_, ?_, ?_⟩
  · exact ((h [.text "IF"]).1 debug [.text "yes"] failing true { depth := 1 } opened rfl rfl).trans rfl
  · exact ((h [.text "IF"]).1 release failing [.text "no"] false { depth := 1 } opened rfl rfl).trans rfl
  · exact (h [.text "AND"]).2.1 false [[.text "1"]] release [failing] { depth := 1 } { depth := 1 }
      opened rfl rfl rfl
  · exact (h [.text "0"]).2.2 "0" (by decide) [failing] rfl nofun

end BuildExpr
