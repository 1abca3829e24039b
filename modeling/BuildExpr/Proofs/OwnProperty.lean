import BuildExpr.Proofs.Balanced
import BuildExpr.Proofs.Concatenation
import BuildExpr.Proofs.PropertyValues

/-!
# Values that ask for their own property

A text is read as the value of a property while that property counts as being looked up, so that it fails
if it asks for the property. For the flags of a target it is the options that count as being looked up. What
a text asks for is looked up by the name that it writes, though. So as the value of the flags a text fails
if it asks for the options; if it asks for the flags it has in that place what is stored for them
(`PropertyReader.told_refused_iff`). Every other property fails in its own value.

The expression that asks may stand anywhere in the text. As there are no expressions around it, they are
evaluated in a row, and the text around is its own value (`Engine.evaluateTree_between`).
-/

namespace BuildExpr

/-! ## Expressions in plain text -/

namespace Text

/-- The text that asks for a property is one expression. -/
theorem isExpression_askingFor {property : Text} (hword : property.isWord = true) :
    IsExpression (askingFor property) := by
  -- Neither the name of the operation nor that of the property has a delimiter in it.
  have hname : '$' ∉ ("TARGET_PROPERTY" : Text) ∧ '>' ∉ ("TARGET_PROPERTY" : Text) := by decide
  rw [askingFor_eq]
  generalize ("TARGET_PROPERTY" : Text) = name at hname
  have hdollar : '$' ∉ name ++ ':' :: property := by
    simp [hname.1, not_mem_of_isWord (c := '$') (by decide) hword]
  have hclosing : '>' ∉ name ++ ':' :: property := by
    simp [hname.2, not_mem_of_isWord (c := '>') (by decide) hword]
  have hbalanced : Balanced (name ++ ':' :: property) :=
    balanced_of_no_delimiter (fun h => hdollar (h.subset List.mem_cons_self)) hclosing
  exact isExpression_of_splitAtClosing (hbalanced.splitAtClosing_zero [])

end Text

namespace Engine

open Text (IsExpression Closed Apart)

/-- A text without openings is its own value. -/
theorem evaluateTree_plain (engine : Engine) (m : Model) (remaining : Nat) (scope : Scope)
    (chain : Chain) (limit : Nat) {t : Text} (ht : ¬ opening <:+: t) :
    engine.evaluateTree m remaining scope chain (Tree.parse limit t) = pure t :=
  engine.evaluateTree_unterminated ((Text.nesting_of_no_opening ht).trans_le (Nat.zero_le limit))
    (fun before after h => absurd ⟨before, after, h.symm⟩ ht) m remaining scope chain

/-- An expression in between texts that have none is evaluated as it is by itself. -/
theorem evaluateTree_between (engine : Engine) (m : Model) (remaining : Nat) (scope : Scope)
    (chain : Chain) {limit : Nat} {a b e : Text} (ha : ¬ opening <:+: a) (hb : ¬ opening <:+: b)
    (he : IsExpression e) (hlimit : e.nesting ≤ limit) :
    engine.evaluateTree m remaining scope chain (Tree.parse limit (a ++ e ++ b)) = (do
      let value ← engine.evaluateTree m remaining scope chain (Tree.parse limit e)
      return a ++ value ++ b) := by
  have hplain {t : Text} (ht : ¬ opening <:+: t) : t.nesting ≤ limit :=
    (Text.nesting_of_no_opening ht).trans_le (Nat.zero_le limit)
  have hae : Apart a e := Text.apart_of_head? (by rw [he.head?_eq]; decide)
  have hclosed : Closed (a ++ e) := ((Text.closed_of_no_opening ha).append_iff hae).2 he.closed
  have hnesting : (a ++ e).nesting ≤ limit := by
    rw [(Text.closed_of_no_opening ha).nesting_append hae]
    exact Nat.max_le.2 ⟨hplain ha, hlimit⟩
  rw [engine.evaluateTree_append m remaining scope chain hclosed (he.apart a b) hnesting (hplain hb),
    engine.evaluateTree_append m remaining scope chain (Text.closed_of_no_opening ha) hae (hplain ha)
      hlimit,
    engine.evaluateTree_plain m remaining scope chain limit ha,
    engine.evaluateTree_plain m remaining scope chain limit hb]
  simp only [pure_bind, bind_assoc]

end Engine

/-! ## Asking while a property is looked up -/

namespace Operation

variable {call : Call} {head property : Text} (hparameters : call.parameters = [property])
  (hhead : call.scope.head = some head)

include hparameters hhead

/-- Asking for a property without a name is refused. -/
theorem targetProperty_nameless (hname : property = []) (run : Run) :
    ∃ reason after,
      targetProperty.evaluate call run =
        .error ⟨.invalidParameter "TARGET_PROPERTY" reason, none⟩ after := by
  obtain ⟨parameters, expression, chain, scope, host⟩ := call
  obtain ⟨config, language, head', current, quiet, forBuildsystem⟩ := scope
  dsimp only at hparameters hhead
  subst hparameters hhead hname
  exact ⟨_, _, rfl⟩

variable (hname : property ≠ []) (hword : property.isWord = true)

include hname hword

/-- Asking for a property fails for the cause that the look-ups under way have to refuse it. -/
theorem targetProperty_refused {cause : Cause}
    (hrefused : Chain.refusal? ⟨head, property, call.expression⟩ call.chain = some cause) (run : Run) :
    ∃ after, targetProperty.evaluate call run = .error ⟨cause, none⟩ after := by
  obtain ⟨footprint, hseek⟩ := seek_of_asked hparameters hhead hname hword run
  rw [hrefused] at hseek
  unfold targetProperty
  dsimp only
  rw [Eval.bind_apply, hseek]
  exact ⟨_, rfl⟩

/-- If it is not refused, a property without expressions in its value is what it is stored as, and one
that is not stored is empty. -/
theorem targetProperty_stored
    (hallowed : Chain.refusal? ⟨head, property, call.expression⟩ call.chain = none) {found : Option Text}
    (hfound : call.host.model.property? head property call.scope.config = found)
    (hplain : ∀ value, found = some value → value.firstExpression = none) (run : Run) :
    ∃ after, targetProperty.evaluate call run = .ok (found.getD []) after := by
  obtain ⟨footprint, hseek⟩ := seek_of_asked hparameters hhead hname hword run
  rw [hallowed, hfound] at hseek
  unfold targetProperty
  dsimp only
  rw [Eval.bind_apply, hseek]
  cases found with
  | none => exact ⟨_, rfl⟩
  | some value =>
    rw [Sought.ofValue, hplain value rfl]
    exact ⟨_, rfl⟩

end Operation

namespace PropertyReader

open Operation (Sought)
open Text (askingFor)

/-- Every property but the flags counts as itself. -/
theorem eq_chainProperty_iff (property : Text) :
    property = chainProperty property ↔ property ≠ "COMPILE_FLAGS" := by
  unfold chainProperty
  by_cases hflags : property = "COMPILE_FLAGS"
  · rw [if_pos hflags, hflags]
    decide
  · rw [if_neg hflags]
    exact iff_of_true rfl hflags

/-- What one is told about a text that is read as the value of a property: its output, and why it failed
if it did. -/
def told (engine : Engine) (reader : PropertyReader) (text property : Text) (w : Workspace) :
    Text × Option Failure :=
  let (output, reader, _) := reader.evaluate engine text property w
  (output, reader.compiled.bind Compiled.failure)

/-- It is how the tree of the text is evaluated with the property under way. -/
theorem told_eq (engine : Engine) (reader : PropertyReader) (text property : Text) (w : Workspace) :
    reader.told engine text property w =
      match engine.evaluateTree w.store.model engine.limit (Context.fresh engine reader.inputs).scope
        [⟨reader.head, chainProperty property, text⟩] (engine.parse text)
        ((Context.fresh engine reader.inputs).toRun w) with
      | .ok value _ => (value, none)
      | .error failure _ => ([], some failure) := by
  have hlimit : engine.limit - (Context.fresh engine reader.inputs).depth = engine.limit := rfl
  have hevaluate := engine.evaluate_compileTree (engine.parse text) reader.inputs
    [⟨reader.head, chainProperty property, text⟩] w
  dsimp only at hevaluate
  rw [engine.context_compileTree, Compiled.outcome_eq, hlimit] at hevaluate
  unfold told PropertyReader.evaluate PropertyReader.run Engine.compile
  dsimp only
  rw [hevaluate]
  cases engine.evaluateTree w.store.model engine.limit (Context.fresh engine reader.inputs).scope
      [⟨reader.head, chainProperty property, text⟩] (engine.parse text)
      ((Context.fresh engine reader.inputs).toRun w) with
  | ok value after => rfl
  | error failure after => rfl

variable {engine : Engine} (hlimit : 0 < engine.limit) {a b : Text} (ha : ¬ opening <:+: a)
  (hb : ¬ opening <:+: b) (reader : PropertyReader)

include hlimit ha hb

/-- An expression that asks for a property, in plain text, is one call of `TARGET_PROPERTY`. -/
theorem told_askingFor {asked : Text} (hword : asked.isWord = true) (property : Text) (w : Workspace) :
    ∃ call : Call, ∃ run : Run, call.parameters = [asked] ∧ call.expression = askingFor asked ∧
      call.chain = [⟨reader.head, chainProperty property, a ++ askingFor asked ++ b⟩] ∧
      call.scope.head = some reader.head ∧ call.scope.config = reader.config ∧
      call.host.model = w.store.model ∧
      reader.told engine (a ++ askingFor asked ++ b) property w =
        match Operation.targetProperty.evaluate call run with
        | .ok value _ => (a ++ value ++ b, none)
        | .error failure _ => ([], some (failure.inExpression (askingFor asked))) := by
  let scope := (Context.fresh engine reader.inputs).scope
  let run := (Context.fresh engine reader.inputs).toRun w
  let chain : Chain := [⟨reader.head, chainProperty property, a ++ askingFor asked ++ b⟩]
  obtain ⟨hnesting, hasking⟩ :=
    engine.evaluateTree_askingFor w.store.model hlimit scope chain hlimit hword
  let call : Call :=
    ⟨[asked], askingFor asked, chain, scope, engine.hostAt w.store.model (engine.limit - 1)⟩
  refine ⟨call, { run with depth := run.depth + 1 }, rfl, rfl, rfl, rfl, rfl, rfl, ?_⟩
  -- The texts around the expression are plain, so the outcome is that of the operation between them.
  have htree := engine.evaluateTree_between w.store.model engine.limit scope chain ha hb
    (Text.isExpression_askingFor hword) hnesting
  rw [hasking] at htree
  rw [told_eq, Engine.parse, htree, Eval.bind_apply, Eval.within_apply, Eval.inExpression]
  cases Operation.targetProperty.evaluate call { run with depth := run.depth + 1 } with
  | ok value after => rfl
  | error failure after => rfl

/-- If the property that is asked for is the one that counts as being looked up, the text fails. -/
theorem told_of_underWay {asked property : Text} (hname : asked ≠ []) (hword : asked.isWord = true)
    (hsame : asked = chainProperty property) (w : Workspace) :
    reader.told engine (a ++ askingFor asked ++ b) property w =
      ([], some ⟨.selfReference reader.head asked, some (askingFor asked)⟩) := by
  obtain ⟨call, run, hparameters, -, hchain, hhead, -, -, htold⟩ :=
    told_askingFor hlimit ha hb reader hword property w
  have hrefused : Chain.refusal? ⟨reader.head, asked, call.expression⟩ call.chain =
      some (.selfReference reader.head asked) := by
    rw [hchain, ← hsame]
    simp [Chain.refusal?, Lookup.sameProperty]
  obtain ⟨after, hfails⟩ :=
    Operation.targetProperty_refused hparameters hhead hname hword hrefused run
  rw [htold, hfails]
  rfl

/-- If another one is asked for, the text has what is stored for it in that place, as far as there are no
expressions in that. -/
theorem told_of_stored {asked property : Text} (hname : asked ≠ []) (hword : asked.isWord = true)
    (hother : asked ≠ chainProperty property) {w : Workspace} {found : Option Text}
    (hfound : w.store.model.property? reader.head asked reader.config = found)
    (hplain : ∀ value, found = some value → value.firstExpression = none) :
    reader.told engine (a ++ askingFor asked ++ b) property w = (a ++ found.getD [] ++ b, none) := by
  obtain ⟨call, run, hparameters, -, hchain, hhead, hconfig, hmodel, htold⟩ :=
    told_askingFor hlimit ha hb reader hword property w
  have hallowed : Chain.refusal? ⟨reader.head, asked, call.expression⟩ call.chain = none := by
    rw [hchain]
    simp [Chain.refusal?, Chain.stepsTo, Lookup.sameProperty, hother]
  rw [← hmodel, ← hconfig] at hfound
  obtain ⟨after, hvalue⟩ :=
    Operation.targetProperty_stored hparameters hhead hname hword hallowed hfound hplain run
  rw [htold, hvalue]

/-- Whatever is stored, a text fails because of the property that it asks for, exactly if that is the one
that counts as being looked up. -/
theorem told_refused_iff {asked : Text} (hword : asked.isWord = true) (property : Text) :
    (∀ w, reader.told engine (a ++ askingFor asked ++ b) property w =
        ([], some ⟨.selfReference reader.head asked, some (askingFor asked)⟩)) ↔
      asked ≠ [] ∧ asked = chainProperty property := by
  refine ⟨fun h => ?_, fun ⟨hname, hsame⟩ => told_of_underWay hlimit ha hb reader hname hword hsame⟩
  have hempty := h {}
  by_cases hname : asked = []
  · obtain ⟨call, run, hparameters, -, -, hhead, -, -, htold⟩ :=
      told_askingFor hlimit ha hb reader hword property {}
    obtain ⟨reason, after, hfails⟩ :=
      Operation.targetProperty_nameless hparameters hhead hname run
    rw [htold, hfails] at hempty
    cases hempty
  · refine ⟨hname, Classical.not_not.1 fun hother => ?_⟩
    -- In an empty model nothing is stored, so the text does not fail.
    have hstored := told_of_stored hlimit ha hb reader hname hword hother (w := {}) rfl nofun
    rw [hstored] at hempty
    cases congrArg Prod.snd hempty

/-- Whatever is stored for it, a property fails in a value of its own, for all properties but the flags. A
value of the flags that asks for them has what is stored for them in that place, as far as there are no
expressions in that. -/
theorem own_property_refused_iff {property : Text} (hword : property.isWord = true) :
    let value := a ++ askingFor property ++ b
    ((∀ w, reader.told engine value property w =
        ([], some ⟨.selfReference reader.head property, some (askingFor property)⟩)) ↔
      property ≠ [] ∧ property ≠ "COMPILE_FLAGS") ∧
    (property = "COMPILE_FLAGS" → ∀ (w : Workspace) (found : Option Text),
      w.store.model.property? reader.head property reader.config = found →
      (∀ stored : Text, found = some stored → stored.firstExpression = none) →
      reader.told engine value property w = (a ++ found.getD [] ++ b, none)) := by
  intro value
  constructor
  · have hrefused := told_refused_iff hlimit ha hb reader hword property
    rwa [eq_chainProperty_iff] at hrefused
  · intro hflags w found hfound hplain
    refine told_of_stored hlimit ha hb reader ?_ hword ?_ hfound hplain
    · rw [hflags]
      decide
    · rw [ne_eq, eq_chainProperty_iff]
      exact fun hother => hother hflags

end PropertyReader

/-- The include directories fail in a value of their own, with text before and after. -/
theorem PropertyReader.own_property_refused_directories :
    let reader : PropertyReader := { head := "app", config := "Debug" }
    let value : Text := ("x>;$" : Text) ++ Text.askingFor "INCLUDES" ++ "<y"
    ∀ w, reader.told {} value "INCLUDES" w =
      ([], some ⟨.selfReference "app" "INCLUDES", some (Text.askingFor "INCLUDES")⟩) := by
  intro reader value
  have hlimit : 0 < ({} : Engine).limit := by decide
  have hbefore : ¬ opening <:+: ("x>;$" : Text) := by decide
  have hafter : ¬ opening <:+: ("<y" : Text) := by decide
  have hword : Text.isWord "INCLUDES" = true := by decide
  obtain ⟨hrefused, -⟩ := own_property_refused_iff hlimit hbefore hafter reader hword
  exact hrefused.2 ⟨by decide, by decide⟩

/-- The flags can be read in a value of their own. -/
theorem PropertyReader.own_flags_not_refused :
    let reader : PropertyReader := { head := "app", config := "Debug" }
    let w : Workspace := session [.write (.value (.base "app" "COMPILE_FLAGS") "-g")]
    reader.told {} (Text.askingFor "COMPILE_FLAGS") "COMPILE_FLAGS" w =
      (("-g" : Text), none) := by
  decide +kernel

end BuildExpr
