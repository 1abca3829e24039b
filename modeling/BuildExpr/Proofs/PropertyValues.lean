import BuildExpr.Proofs.Depths
import BuildExpr.Proofs.OtherLookups
import BuildExpr.Proofs.Shortcut

/-!
# A stored property has one value

The value of a property can be read for a target, or asked for by an expression. The look-ups under
way differ: reading takes flags for options there, asking does not, and asking opens one operation
more. Still, what is read without failure is what the expression gives, unless that operation is one too
many, and then it is the only one: the expression gives the value where the limit is any greater
(`session_property_value`). There is no expression that asks for a property without a name.

The look-ups under way are changed first (`Engine.evaluateTree_own`). Then as many operations may be opened
as the limit leaves: one fewer (`Engine.evaluateTree_attains`), or enough under a greater limit
(`Engine.evaluateTree_raised`).
-/

namespace BuildExpr

/-! ## Asking for a property -/

/-- An end of an evaluation that gives a value, or a failure for one of the causes that are allowed for. -/
def Attains (allowed : Cause → Prop) (value : Text) (result : EStateM.Result Failure Run Text) : Prop :=
  (∃ after, result = .ok value after) ∨
    ∃ failure after, result = .error failure after ∧ allowed failure.cause

namespace Attains

variable {allowed : Cause → Prop} {value : Text} {x : Eval Text} {run : Run}

/-- Placing failures in an expression changes neither the value nor the causes. -/
theorem inExpression (h : Attains allowed value (x run)) (expression : Text) :
    Attains allowed value (Eval.inExpression expression x run) := by
  refine h.imp (fun ⟨after, hok⟩ => ⟨after, Eval.inExpression_eq_ok.2 hok⟩) ?_
  rintro ⟨failure, after, hr, hcause⟩
  refine ⟨failure.inExpression expression, after, ?_, hcause⟩
  unfold Eval.inExpression
  rw [hr]

/-- Nor does opening an operation around the evaluation. -/
theorem within (h : Attains allowed value (x { run with depth := run.depth + 1 })) :
    Attains allowed value (Eval.within x run) := by
  refine h.imp (fun ⟨after, hok⟩ => ⟨_, Eval.within_eq_ok.2 ⟨after, hok, rfl⟩⟩) ?_
  rintro ⟨failure, after, hr, hcause⟩
  refine ⟨failure, { after with depth := after.depth - 1 }, ?_, hcause⟩
  rw [Eval.within_apply, hr]

/-- Nor does giving it a footprint of its own. -/
theorem apart (h : Attains allowed value (x { run with footprint := {} })) :
    Attains allowed value (Eval.apart x run) := by
  refine h.imp (fun ⟨after, hok⟩ => ⟨_, Eval.apart_eq_ok.2 ⟨after, hok, rfl⟩⟩) ?_
  rintro ⟨failure, after, hr, hcause⟩
  refine ⟨failure, { after with footprint := run.footprint.merge after.footprint, depth := run.depth },
    ?_, hcause⟩
  unfold Eval.apart
  rw [hr]

end Attains

/-- A property of the head target that is asked for by its name has the value that evaluating what is
stored gives. -/
theorem Operation.targetProperty_attains {call : Call} {allowed : Cause → Prop}
    {head property stored value : Text}
    (hparameters : call.parameters = [property]) (hhead : call.scope.head = some head)
    (hname : property ≠ []) (hword : property.isWord = true) (hchain : call.chain = [])
    (hstored : call.host.model.property? head property call.scope.config = some stored)
    (hshort : stored.firstExpression.isNone = true → stored = value)
    (hlong : stored.firstExpression.isNone = false → ∀ run : Run, run.trees.Faithful →
      Attains allowed value (call.host.evaluateValue (call.scope.derive head)
        [⟨head, property, call.expression⟩] stored run))
    {run : Run} (hrun : run.trees.Faithful) :
    Attains allowed value (targetProperty.evaluate call run) := by
  obtain ⟨footprint, hseek⟩ := seek_of_asked hparameters hhead hname hword run
  rw [hchain, Chain.refusal?, hstored, Sought.ofValue] at hseek
  unfold targetProperty
  dsimp only
  rw [Eval.bind_apply, hseek]
  -- A value without an expression is told as it is; any other is evaluated as a tree of its own.
  cases hexpression : stored.firstExpression.isNone with
  | true => exact .inl ⟨_, congrArg (EStateM.Result.ok · _) (hshort hexpression)⟩
  | false =>
    dsimp only
    rw [if_neg Bool.false_ne_true, hchain]
    exact Attains.apart (hlong hexpression _ hrun)

/-- A property without a name is refused. -/
theorem Operation.targetProperty_of_nil (call : Call) {head : Text} (hparameters : call.parameters = [[]])
    (hhead : call.scope.head = some head) (run : Run) :
    ∃ after, targetProperty.evaluate call run = .error ⟨.invalidParameter "TARGET_PROPERTY"
      "$<TARGET_PROPERTY:...> expression requires a non-empty property name.", none⟩ after := by
  let noted : Run := { run with footprint := { run.footprint with headSensitive := true } }
  have haddress : propertyAddress call run = .ok (head, []) noted := by
    unfold propertyAddress
    rw [hparameters, hhead]
    rfl
  refine ⟨noted, ?_⟩
  unfold targetProperty seek
  dsimp only
  rw [Eval.bind_apply, Eval.bind_apply, haddress]
  rfl

namespace Text

/-- The text that asks for a property of the head target. -/
def askingFor (property : Text) : Text := ("$<TARGET_PROPERTY:" : Text) ++ property ++ ['>']

/-- What such a text says. -/
def asked (property : Text) : Forest :=
  [.operation [.text "TARGET_PROPERTY"] [[.text property]] ⟨0, 0⟩]

/-- The text character by character, with the name of the operation as a whole. -/
theorem askingFor_eq (property : Text) :
    askingFor property =
      '$' :: '<' :: (("TARGET_PROPERTY" : Text) ++ ':' :: property ++ ['>']) := by
  have hbefore :
      ("$<TARGET_PROPERTY:" : Text) = '$' :: '<' :: (("TARGET_PROPERTY" : Text) ++ [':']) := by
    decide +kernel
  unfold askingFor
  rw [hbefore]
  generalize ("TARGET_PROPERTY" : Text) = name
  simp

/-- What such a text says is written like this. -/
theorem render_asked (property : Text) : (asked property).render = askingFor property := by
  rw [askingFor_eq, asked]
  generalize ("TARGET_PROPERTY" : Text) = name
  simp [Forest.renderNode, Forest.renderParts, opening]

/-- The expression in such a text ends. -/
theorem not_unterminated_askingFor (property : Text) : ¬ (askingFor property).Unterminated := by
  rw [askingFor_eq]
  generalize ("TARGET_PROPERTY" : Text) = name
  intro h
  obtain ⟨hnone, hrest⟩ := unterminated_opening.1 h
  exact (unterminated_iff_not_mem hnone).1 hrest (by simp)

/-- A word has letters, digits and underscores only. -/
theorem not_mem_of_isWord {t : Text} {c : Char} (hc : (c.isAlphanum || c == '_') = false)
    (hword : t.isWord = true) : c ∉ t := by
  intro hmem
  have hchar := List.all_eq_true.1 hword c hmem
  rw [hc] at hchar
  cases hchar

variable {property : Text} (hname : property ≠ []) (hword : property.isWord = true)

include hname hword

/-- A name made of letters, digits and underscores may stand as a parameter. -/
theorem wellFormed_asked : (asked property).WellFormed .outside := by
  have hother {c : Char} (hc : (c.isAlphanum || c == '_') = false) : c ∉ property :=
    not_mem_of_isWord hc hword
  have hopening : ¬ opening <:+: property := fun h =>
    hother (c := '$') (by decide) (h.subset List.mem_cons_self)
  have hadmits : ∀ c ∈ property, Forest.Place.parameter.admits c = true := by
    intro c hc
    have hcomma : c ≠ ',' := fun heq => hother (by rw [heq]; decide) hc
    have hclosing : c ≠ '>' := fun heq => hother (by rw [heq]; decide) hc
    simp [Forest.Place.admits, hcomma, hclosing]
  have hcalled : Forest.WellFormed .name [.text "TARGET_PROPERTY"] := by decide +kernel
  have hparameter : Forest.WellFormed .parameter [.text property] := by
    simp only [Forest.WellFormed, Forest.NodeWellFormed, and_true]
    exact ⟨⟨hname, hopening, hadmits⟩, fun _ => rfl⟩
  rw [asked, Forest.WellFormed, Forest.NodeWellFormed]
  refine ⟨⟨hcalled, ?_⟩, fun htext => Bool.noConfusion htext, ?_⟩
  · simp only [Forest.PartsWellFormed, and_true]
    exact hparameter
  · simp only [Forest.WellFormed]

end Text

/-- Reading such a text gives one operation with one parameter. -/
theorem Engine.nodes_askingFor {property : Text} (hname : property ≠ [])
    (hword : property.isWord = true) :
    (Text.askingFor property).nesting = 1 ∧
    ∃ span, Forest.ofTokens (Token.scan (Text.askingFor property)) =
      [.operation [.text "TARGET_PROPERTY"] [[.text property]] span] := by
  have hwell := Text.wellFormed_asked hname hword
  have hnesting : (Text.asked property).nesting = 1 := by
    simp [Text.asked, Forest.nesting, Forest.nodeNesting, Forest.partsNesting]
  have htext : (Text.askingFor property).nesting = 1 := by
    rw [← Text.render_asked, Forest.nesting_render hwell, hnesting]
  refine ⟨htext, ?_⟩
  have hread : (Tree.parse 1 (Text.askingFor property)).nodes =
      Forest.ofTokens (Token.scan (Text.askingFor property)) := Tree.nodes_parse (Nat.le_of_eq htext)
  rw [← hread, ← Text.render_asked, Tree.nodes_parse_render hwell (Nat.le_of_eq hnesting)]
  simp only [Text.asked, Forest.located, Forest.nodeAt, Forest.partsAt]
  exact ⟨_, rfl⟩

/-- An operation that asks for a property of the head target by its name calls `TARGET_PROPERTY` with that
name. -/
theorem Engine.evaluateOperation_asked (engine : Engine) (m : Model) (remaining : Nat) (scope : Scope)
    (chain : Chain) (source : Text) {parameter : Forest} {property : Text}
    (hparameter : parameter.literal? = some property) (span : Span) :
    engine.evaluateOperation m (engine.evaluateForest m remaining) scope chain source
        [.text "TARGET_PROPERTY"] [parameter] span =
      Eval.within (Eval.inExpression (source.cut span) (Operation.targetProperty.evaluate
        ⟨[property], source.cut span, chain, scope, engine.hostAt m remaining⟩)) := by
  have hcalled : engine.evaluateForest m remaining scope chain source [.text "TARGET_PROPERTY"] =
      pure ("TARGET_PROPERTY" : Text) := engine.evaluateForest_literal m remaining scope chain source rfl
  have hfind : engine.registry.find? "TARGET_PROPERTY" = some .targetProperty :=
    engine.registry.find?_name .targetProperty
  have hparameters : Operation.targetProperty.evaluateParameters
      (engine.evaluateForest m remaining scope chain source) [parameter] = pure [property] :=
    Operation.evaluateRest_literal .targetProperty rfl (fun _ => rfl)
      (fun _ _ => engine.evaluateForest_literal m remaining scope chain source)
      (by simp [hparameter]) _ 0 []
  unfold evaluateOperation
  dsimp only
  rw [hcalled, pure_bind, hfind]
  dsimp only
  rw [Operation.carryOut_of_evaluateParameters rfl rfl hparameters]
  rfl

/-- The text that asks for a property calls `TARGET_PROPERTY`. -/
theorem Engine.evaluateTree_askingFor (engine : Engine) (m : Model) {remaining : Nat} (hopen : 0 < remaining)
    (scope : Scope) (chain : Chain) {limit : Nat} (hlimit : 0 < limit) {property : Text}
    (hword : property.isWord = true) :
    (Text.askingFor property).nesting ≤ limit ∧
    engine.evaluateTree m remaining scope chain (Tree.parse limit (Text.askingFor property)) =
      Eval.within (Eval.inExpression (Text.askingFor property) (Operation.targetProperty.evaluate
        ⟨[property], Text.askingFor property, chain, scope, engine.hostAt m (remaining - 1)⟩)) := by
  obtain ⟨remaining, rfl⟩ := Nat.exists_eq_succ_of_ne_zero (Nat.ne_of_gt hopen)
  -- Without a name the parameter is empty, and with one it is a single text.
  have hread : (Text.askingFor property).nesting = 1 ∧ ∃ parameter span,
      Forest.literal? parameter = some property ∧ parameter.render = property ∧
        Forest.ofTokens (Token.scan (Text.askingFor property)) =
          [.operation [.text "TARGET_PROPERTY"] [parameter] span] := by
    by_cases hname : property = []
    · subst hname
      exact ⟨by decide +kernel, [], ⟨0, 19⟩, rfl, by simp, rfl⟩
    · obtain ⟨hnesting, span, hnodes⟩ := Engine.nodes_askingFor hname hword
      exact ⟨hnesting, [.text property], span, rfl, by simp, hnodes⟩
  obtain ⟨hnesting, parameter, span, hliteral, hrender, hnodes⟩ := hread
  have hdepth : (Text.askingFor property).nesting ≤ limit := by omega
  have hspelled := Forest.spelledIn_scan (Text.askingFor property)
  rw [hnodes, Forest.SpelledIn, Forest.NodeSpelledIn] at hspelled
  -- The operation is all there is, so its span covers the text.
  have hcut : (Text.askingFor property).cut span = Text.askingFor property := by
    rw [hspelled.1.1, Text.askingFor_eq]
    generalize ("TARGET_PROPERTY" : Text) = name
    simp [Forest.renderNode, Forest.renderParts, hrender, opening]
  refine ⟨hdepth, ?_⟩
  rw [engine.evaluateTree_parse m (remaining + 1) scope chain hdepth, hnodes, evaluateForest,
    Forest.evaluateWith_single, engine.evaluateOperation_asked m remaining scope chain _ hliteral, hcut]
  rfl

/-- A text in which no expression is found is its own value, if it has one. -/
theorem Engine.eq_of_evaluateTree_isNone {engine : Engine} {m : Model} {remaining : Nat}
    {scope : Scope} {chain : Chain} {source value : Text} {run after : Run}
    (hnone : source.firstExpression.isNone = true)
    (hok : engine.evaluateTree m remaining scope chain (engine.parse source) run = .ok value after) :
    source = value := by
  have hsource : source.Unterminated :=
    (Text.firstExpression_eq_none_iff source).1 (Option.isNone_iff_eq_none.1 hnone)
  unfold parse at hok
  by_cases hlimit : source.nesting ≤ engine.limit
  · rw [engine.evaluateTree_unterminated hlimit hsource] at hok
    cases hok
    rfl
  · rw [Tree.parse_of_lt (Nat.not_le.1 hlimit)] at hok
    cases hok

/-- A cause that is not about nesting, or about nesting beyond this limit. -/
def Cause.NamesLimit (limit : Nat) (c : Cause) : Prop :=
  ∀ depth other, c = .nestingTooDeep depth other → other = limit

section

variable {engine : Engine} (hbuiltin : engine.registry.added = []) {m : Model}

include hbuiltin

open Eval (Ensures FailsOnly)

/-- With built-in operations, the limit that a failure names is that of the engine. -/
theorem Engine.evaluateForest_namesLimit (m : Model) (remaining : Nat) (scope : Scope) (chain : Chain)
    (source : Text) (nodes : Forest) :
    FailsOnly (Cause.NamesLimit engine.limit)
      (engine.evaluateForest m remaining scope chain source nodes) := by
  have hnames (depth : Nat) : Cause.NamesLimit engine.limit (.nestingTooDeep depth engine.limit) := by
    rintro _ _ ⟨⟩
    rfl
  have hother (c : Cause) (h : c.WithinLimit) : Cause.NamesLimit engine.limit c :=
    fun depth other heq => absurd heq (h depth other)
  induction remaining generalizing scope chain source nodes with
  | zero =>
    exact Forest.evaluateWith_failsOnly fun _ _ _ _ =>
      Ensures.inExpression _ fun _ htrees => .error htrees (hnames _)
  | succ remaining ih =>
    refine Forest.evaluateWith_failsOnly fun name parameters span _ => ?_
    refine evaluateOperation_failsOnly (fun c h => hother c (Cause.withinLimit_of_isRefusal c h)) hbuiltin
      (fun c h => hother c (Cause.withinLimit_of_isCycle c h)) span (ih scope chain source name)
      (fun parameter _ => ih scope chain source parameter) fun lookup stored _ _ => ?_
    refine (engine.valueTree_ensures stored _).bind fun tree htree => ?_
    rw [htree]
    exact Tree.evaluateWith_parse_failsOnly hnames (ih _ _ _ _)

/-- A value that a text has is attained with one operation less to be opened as well, if not the limit is
exceeded. -/
theorem Engine.evaluateTree_attains {remaining : Nat} {scope : Scope} {chain : Chain}
    {source value : Text} {run after : Run} (hrun : run.trees.Faithful)
    (hok : engine.evaluateTree m (remaining + 1) scope chain (engine.parse source) run =
      .ok value after) :
    Attains (fun c => ∃ depth, c = .nestingTooDeep depth engine.limit) value
      (engine.evaluateTree m remaining scope chain (engine.parse source) run) := by
  have hshallow := Shallower.congruence.evaluateTree
    (Engine.evaluateForest_shallower hbuiltin m remaining 1 scope chain) (engine.parse source)
  have hsame : Run.SameButDepth run run := ⟨rfl, rfl, hrun, hrun⟩
  rcases hshallow hsame with ⟨failure, after', hr, hpast⟩ | halike
  · -- The cause is one of nesting, and the only limit there is to name is that of the engine.
    have hnames : FailsOnly (Cause.NamesLimit engine.limit)
        (engine.evaluateTree m remaining scope chain (engine.parse source)) :=
      Tree.evaluateWith_parse_failsOnly (fun _ _ _ heq => (Cause.nestingTooDeep.inj heq).2.symm)
        (Engine.evaluateForest_namesLimit hbuiltin m remaining scope chain source _)
    have hends := hnames hrun
    rw [show engine.evaluateTree m remaining scope chain (engine.parse source) run = _ from hr] at hends
    obtain ⟨depth, hdepth⟩ := Classical.not_forall.1 hpast
    obtain ⟨limit, hcause⟩ := Classical.not_forall.1 hdepth
    cases hends with
    | error _ hlimit =>
      have heq : failure.cause = .nestingTooDeep depth limit := Classical.not_not.1 hcause
      exact .inr ⟨failure, after', hr, depth, by rw [heq, hlimit depth limit heq]⟩
  · rcases halike.ends with ⟨value', r, s, hr, hs, -⟩ | ⟨failure, r, s, hr, hs, -⟩
    · cases hs.symm.trans hok
      exact .inl ⟨r, hr⟩
    · cases hs.symm.trans hok

/-- A value that a text has is the same under a greater limit, where as many operations may be opened or
more. -/
theorem Engine.evaluateTree_raised {limit : Nat} (hlimit : engine.limit ≤ limit) {remaining : Nat}
    (extra : Nat) {scope : Scope} {chain : Chain} {source value : Text} {run after : Run}
    (hrun : run.trees.Faithful)
    (hok : engine.evaluateTree m remaining scope chain (engine.parse source) run = .ok value after) :
    ∃ after', (engine.withLimit limit).evaluateTree m (remaining + extra) scope chain
      ((engine.withLimit limit).parse source) run = .ok value after' := by
  have hextended := Engine.evaluateWith_parse_extended hlimit
    (Engine.evaluateForest_extended hlimit hbuiltin m remaining extra scope chain) source
  have halike : Run.Alike run run := ⟨⟨rfl, rfl, hrun, hrun⟩, rfl⟩
  rcases hextended halike with ⟨failure, after', hr, -⟩ | hends
  · cases hr.symm.trans hok
  · rcases hends.ends with ⟨value', r, s, hr, hs, -⟩ | ⟨failure, r, s, hr, hs, -⟩
    · cases hr.symm.trans hok
      exact ⟨s, hs⟩
    · cases hr.symm.trans hok

end

section

variable (engine : Engine) {m : Model} {scope : Scope} {head property stored value : Text}
  (hhead : scope.head = some head) (hcurrent : scope.derive head = scope) (hname : property ≠ [])
  (hword : property.isWord = true)
  (hstored : m.property? head property scope.config = some stored)

include hhead hcurrent hname hword hstored

/-- The text that asks for a property attains the value that its stored value attains inside one operation,
with the look-up of the property under way. -/
theorem Engine.evaluateTree_askingFor_attains (hlimit : 0 < engine.limit) {allowed : Cause → Prop}
    (hshort : stored.firstExpression.isNone = true → stored = value)
    (hlong : stored.firstExpression.isNone = false → ∀ run : Run, run.trees.Faithful →
      Attains allowed value (engine.evaluateTree m (engine.limit - 1) scope
        [⟨head, property, Text.askingFor property⟩] (engine.parse stored) run))
    {start : Run} (hstart : start.trees.Faithful) :
    Attains allowed value
      (engine.evaluateTree m engine.limit scope [] (engine.parse (Text.askingFor property)) start) := by
  -- The tree is fetched before the value is evaluated, which leaves the cache faithful.
  have hvalue (hsome : stored.firstExpression.isNone = false) (inner : Run)
      (hinner : inner.trees.Faithful) :
      Attains allowed value ((engine.hostAt m (engine.limit - 1)).evaluateValue (scope.derive head)
        [⟨head, property, Text.askingFor property⟩] stored inner) := by
    change Attains allowed value ((do
      let tree ← engine.valueTree stored
      tree.evaluateWith (engine.evaluateForest m (engine.limit - 1) (scope.derive head)
        [⟨head, property, Text.askingFor property⟩])) inner)
    rw [hcurrent, Eval.bind_apply, engine.valueTree_apply stored hinner]
    exact hlong hsome _ (engine.fetch_snd hinner stored)
  obtain ⟨-, hasking⟩ := engine.evaluateTree_askingFor m hlimit scope [] hlimit hword
  rw [parse, hasking]
  refine Attains.within (Attains.inExpression ?_ _)
  exact Operation.targetProperty_attains rfl hhead hname hword rfl hstored hshort hvalue hstart

variable (hbuiltin : engine.registry.added = []) {chain : Chain} {run after start : Run}
  (hrun : run.trees.Faithful)
  (hok : engine.evaluateTree m engine.limit scope chain (engine.parse stored) run = .ok value after)
  (hstart : start.trees.Faithful)

include hbuiltin hrun hok hstart

/-- If what is stored is evaluated for its target without failure, whatever look-ups are under way, then
the text that asks for the property has the same value, unless it goes past the limit. -/
theorem Engine.evaluateTree_askingFor_of_value :
    Attains (fun c => ∃ depth, c = .nestingTooDeep depth engine.limit) value
      (engine.evaluateTree m engine.limit scope [] (engine.parse (Text.askingFor property)) start) := by
  rcases Nat.eq_zero_or_pos engine.limit with hlimit | hlimit
  · -- Not even the operation that asks may be opened.
    obtain ⟨hnesting, -⟩ := Engine.nodes_askingFor hname hword
    have hdeep : engine.parse (Text.askingFor property) =
        .tooDeep (Text.askingFor property) 1 0 := by
      rw [parse, hlimit, Tree.parse_of_lt (by rw [hnesting]; exact Nat.zero_lt_one), hnesting]
    rw [hdeep]
    exact .inr ⟨_, start, rfl, 1, by rw [hlimit]; rfl⟩
  · refine engine.evaluateTree_askingFor_attains hhead hcurrent hname hword hstored hlimit
      (fun hnone => Engine.eq_of_evaluateTree_isNone hnone hok) (fun hsome inner hinner => ?_) hstart
    -- First the look-ups under way are changed, then there is one operation less to be opened.
    obtain ⟨after', hown⟩ := Engine.evaluateTree_own hbuiltin hcurrent hstored hsome chain
      (Text.askingFor property) hrun hok hinner
    rw [← Nat.sub_add_cancel hlimit] at hown
    exact Engine.evaluateTree_attains hbuiltin hinner hown

/-- Under a greater limit it has the same value. -/
theorem Engine.evaluateTree_askingFor_raised {limit : Nat} (hlimit : engine.limit < limit) :
    ∃ after', (engine.withLimit limit).evaluateTree m limit scope []
      ((engine.withLimit limit).parse (Text.askingFor property)) start = .ok value after' := by
  obtain ⟨extra, hextra⟩ := Nat.exists_eq_add_of_le (Nat.le_sub_one_of_lt hlimit)
  have hattains : Attains (fun _ => False) value ((engine.withLimit limit).evaluateTree m limit scope []
      ((engine.withLimit limit).parse (Text.askingFor property)) start) := by
    refine (engine.withLimit limit).evaluateTree_askingFor_attains hhead hcurrent hname hword hstored
      (Nat.zero_lt_of_lt hlimit) (fun hnone => Engine.eq_of_evaluateTree_isNone hnone hok)
      (fun hsome inner hinner => .inl ?_) hstart
    obtain ⟨after', hown⟩ := Engine.evaluateTree_own hbuiltin hcurrent hstored hsome chain
      (Text.askingFor property) hrun hok hinner
    rw [show (engine.withLimit limit).limit - 1 = engine.limit + extra from hextra]
    exact Engine.evaluateTree_raised hbuiltin (Nat.le_of_lt hlimit) extra hinner hown
  rcases hattains with hvalue | ⟨_, _, -, hfalse⟩
  · exact hvalue
  · exact hfalse.elim

end

/-- A property that is read without failure, at any point of a session, has been evaluated. -/
theorem PropertyReader.evaluateTree_of_evaluateProperty {engine : Engine} {reader : PropertyReader}
    {property value : Text} {w : Workspace} (hfaithful : w.store.trees.Faithful)
    (hvalue : (reader.evaluateProperty engine property w).1 = some value)
    (hfailure : (reader.evaluateProperty engine property w).2.1.compiled.bind Compiled.failure = none) :
    ∃ stored, w.store.model.property? reader.head property reader.config = some stored ∧
      ∃ chain, ∃ run after : Run, run.trees.Faithful ∧
        engine.evaluateTree w.store.model engine.limit (Context.fresh engine reader.inputs).scope chain
          (engine.parse stored) run = .ok value after := by
  unfold evaluateProperty at hvalue hfailure
  cases hstored : w.store.model.property? reader.head property reader.config with
  | none =>
    rw [hstored] at hvalue
    cases hvalue
  | some stored =>
    rw [hstored] at hvalue hfailure
    let chain : Chain := [⟨reader.head, chainProperty property, stored⟩]
    let fetched := (engine.compileValue stored w).2
    -- Whatever has been fetched before, what is evaluated is the tree of the value.
    have htree : (engine.compileValue stored w).1 = engine.compileTree (engine.parse stored) :=
      congrArg engine.compileTree (engine.fetch_fst hfaithful stored)
    dsimp only [run] at hvalue hfailure
    rw [htree] at hvalue hfailure
    have hanswer : ((engine.compileTree (engine.parse stored)).evaluate engine reader.inputs chain
        fetched).1.answer = .ok value := by
      rw [Compiled.answer, show Compiled.failure _ = none from hfailure]
      exact congrArg Except.ok (Option.some.inj hvalue)
    have hmodel : fetched.store.model = w.store.model := rfl
    rw [engine.answer_compileTree, hmodel] at hanswer
    refine ⟨stored, rfl, chain, (Context.fresh engine reader.inputs).toRun fetched, ?_⟩
    cases hresult : engine.evaluateTree w.store.model engine.limit
        (Context.fresh engine reader.inputs).scope chain (engine.parse stored)
        ((Context.fresh engine reader.inputs).toRun fetched) with
    | ok value' after =>
      rw [hresult] at hanswer
      cases hanswer
      exact ⟨after, engine.fetch_snd hfaithful stored, rfl⟩
    | error failure after =>
      rw [hresult] at hanswer
      cases hanswer

section

variable (engine : Engine) (inputs : Inputs) (property : Text) (w : Workspace)

/-- The text that asks for a property is not taken for plain text, so its answer is how its tree ends. -/
theorem Engine.evaluateText_askingFor :
    (engine.evaluateText (Text.askingFor property) inputs [] w).1 =
      match engine.evaluateTree w.store.model engine.limit (Context.fresh engine inputs).scope []
        (engine.parse (Text.askingFor property)) ((Context.fresh engine inputs).toRun w) with
      | .ok value _ => .ok value
      | .error failure _ => .error failure := by
  have hread := engine.evaluateText_eq (Text.askingFor property) inputs [] w
    fun h => absurd h (Text.not_unterminated_askingFor property)
  exact (congrArg Prod.fst hread).trans
    (engine.answer_compileTree (engine.parse (Text.askingFor property)) inputs [] w)

/-- The value of the tree of such a text is what asking gives. -/
theorem Engine.evaluateText_askingFor_of_ok {value : Text} {after : Run}
    (h : engine.evaluateTree w.store.model engine.limit (Context.fresh engine inputs).scope []
      (engine.parse (Text.askingFor property)) ((Context.fresh engine inputs).toRun w) =
        .ok value after) :
    (engine.evaluateText (Text.askingFor property) inputs [] w).1 = .ok value := by
  rw [engine.evaluateText_askingFor, h]

/-- So is its failure. -/
theorem Engine.evaluateText_askingFor_of_error {failure : Failure} {after : Run}
    (h : engine.evaluateTree w.store.model engine.limit (Context.fresh engine inputs).scope []
      (engine.parse (Text.askingFor property)) ((Context.fresh engine inputs).toRun w) =
        .error failure after) :
    (engine.evaluateText (Text.askingFor property) inputs [] w).1 = .error failure := by
  rw [engine.evaluateText_askingFor, h]

end

/-- Asking for a property without a name fails. -/
theorem Engine.evaluateText_askingFor_nil {engine : Engine} (hlimit : 0 < engine.limit) (inputs : Inputs)
    {head : Text} (hhead : inputs.head = some head) (w : Workspace) :
    ∃ failure, (engine.evaluateText (Text.askingFor []) inputs [] w).1 = .error failure ∧
      failure.cause = .invalidParameter "TARGET_PROPERTY"
        "$<TARGET_PROPERTY:...> expression requires a non-empty property name." := by
  let context := Context.fresh engine inputs
  have hword : Text.isWord [] = true := rfl
  obtain ⟨-, hasking⟩ :=
    engine.evaluateTree_askingFor w.store.model hlimit context.scope [] hlimit hword
  obtain ⟨after, hrefused⟩ := Operation.targetProperty_of_nil
    ⟨[[]], Text.askingFor [], [], context.scope, engine.hostAt w.store.model (engine.limit - 1)⟩ rfl hhead
    { context.toRun w with depth := (context.toRun w).depth + 1 }
  have hfails : engine.evaluateTree w.store.model engine.limit context.scope []
      (engine.parse (Text.askingFor [])) (context.toRun w) =
        .error ⟨.invalidParameter "TARGET_PROPERTY"
          "$<TARGET_PROPERTY:...> expression requires a non-empty property name.",
          some (Text.askingFor [])⟩ { after with depth := after.depth - 1 } := by
    rw [parse, hasking, Eval.within_apply, Eval.inExpression, hrefused]
    rfl
  exact ⟨_, engine.evaluateText_askingFor_of_error inputs [] w hfails, rfl⟩

/-- The two ways to a stored property agree. If at some point of a session the value of a property is
read for a target without failure, then at any point of a session with the same model the text that
asks for that property of the head target, in the same configuration and for the same language, has the
same value, or the operation it opens is one too many; then any greater limit makes room for it. For a
property without a name the text fails, although such a property can be read. -/
theorem session_property_value (steps steps' : List Step)
    (hmodel : (session steps').store.model = (session steps).store.model) (engine : Engine)
    (hbuiltin : engine.registry.added = []) (reader : PropertyReader) (property value : Text)
    (hword : property.isWord = true)
    (hvalue : (reader.evaluateProperty engine property (session steps)).1 = some value)
    (hfailure :
      (reader.evaluateProperty engine property (session steps)).2.1.compiled.bind Compiled.failure =
        none) :
    let ask (engine : Engine) : Except Failure Text :=
      (engine.evaluateText (Text.askingFor property) reader.inputs [] (session steps')).1
    (property ≠ [] →
      (ask engine = .ok value ∨ ∃ failure depth, ask engine = .error failure ∧
        failure.cause = .nestingTooDeep depth engine.limit) ∧
      ∀ limit, engine.limit < limit → ask (engine.withLimit limit) = .ok value) ∧
    (property = [] → 0 < engine.limit → ∃ failure, ask engine = .error failure ∧
      failure.cause = .invalidParameter "TARGET_PROPERTY"
        "$<TARGET_PROPERTY:...> expression requires a non-empty property name.") := by
  intro ask
  obtain ⟨stored, hstored, chain, run, after, hrun, hok⟩ :=
    PropertyReader.evaluateTree_of_evaluateProperty (session_sameButTrees steps).faithful hvalue hfailure
  rw [← hmodel] at hstored hok
  have hstart : ((Context.fresh engine reader.inputs).toRun (session steps')).trees.Faithful :=
    (session_sameButTrees steps').faithful
  refine ⟨fun hname => ⟨?_, fun limit hlimit => ?_⟩, ?_⟩
  · rcases engine.evaluateTree_askingFor_of_value rfl rfl hname hword hstored hbuiltin hrun hok hstart with
      ⟨after', hvalue'⟩ | ⟨failure, after', hfails, depth, hcause⟩
    · exact .inl (engine.evaluateText_askingFor_of_ok reader.inputs property _ hvalue')
    · have hanswer := engine.evaluateText_askingFor_of_error reader.inputs property _ hfails
      exact .inr ⟨failure, depth, hanswer, hcause⟩
  · obtain ⟨after', hraised⟩ := engine.evaluateTree_askingFor_raised rfl rfl hname hword hstored hbuiltin
      hrun hok hstart hlimit
    exact (engine.withLimit limit).evaluateText_askingFor_of_ok reader.inputs property _ hraised
  · -- The limit lets the operation be opened, and it refuses the empty name.
    rintro rfl hlimit
    exact Engine.evaluateText_askingFor_nil hlimit reader.inputs rfl (session steps')

/-- Flags whose value asks for another property can be read under a limit of two; asked for by an
expression they need a limit of three. Under the usual limit they have the same value both ways. -/
theorem session_property_value_of_flags :
    let reader : PropertyReader := { head := "app", config := "Debug" }
    let steps : List Step :=
      [.write (.value (.base "app" "COMPILE_FLAGS") "$<TARGET_PROPERTY:Q>"),
        .write (.value (.config "app" "Debug" "Q") "-O$<CONFIG>")]
    let read (engine : Engine) := (reader.evaluateProperty engine "COMPILE_FLAGS" (session steps)).1
    let ask (engine : Engine) := (engine.evaluateText (Text.askingFor "COMPILE_FLAGS") reader.inputs []
      (session steps)).1
    Text.askingFor "COMPILE_FLAGS" = "$<TARGET_PROPERTY:COMPILE_FLAGS>" ∧
      (read { limit := 2 } = some "-ODebug" ∧
        (∃ failure depth, ask { limit := 2 } = .error failure ∧
          failure.cause = .nestingTooDeep depth 2) ∧
        ask { limit := 3 } = .ok "-ODebug") ∧
      read {} = some "-ODebug" ∧ ask {} = .ok "-ODebug" := by
  intro reader steps read ask
  have hread (engine : Engine) (h : engine = { limit := 2 } ∨ engine = {}) :
      read engine = some "-ODebug" ∧ ((reader.evaluateProperty engine "COMPILE_FLAGS"
        (session steps)).2.1.compiled.bind Compiled.failure).isNone = true := by
    rcases h with rfl | rfl
    · decide +kernel
    · decide +kernel
  obtain ⟨hvalue, hfailure⟩ := hread { limit := 2 } (.inl rfl)
  obtain ⟨hvalue', hfailure'⟩ := hread {} (.inr rfl)
  obtain ⟨hnamed, -⟩ := session_property_value steps steps rfl { limit := 2 } rfl reader "COMPILE_FLAGS"
    "-ODebug" (by decide) hvalue (Option.isNone_iff_eq_none.1 hfailure)
  obtain ⟨hnamed', -⟩ := session_property_value steps steps rfl {} rfl reader "COMPILE_FLAGS"
    "-ODebug" (by decide) hvalue' (Option.isNone_iff_eq_none.1 hfailure')
  obtain ⟨hasked, hraised⟩ := hnamed (by decide)
  refine ⟨by decide +kernel, ⟨hvalue, ?_, hraised 3 (by decide)⟩, hvalue', ?_⟩
  · have hfails : (ask { limit := 2 }).toOption = none := by decide +kernel
    refine hasked.resolve_left fun hok => ?_
    rw [show ask { limit := 2 } = _ from hok] at hfails
    cases hfails
  · have hsucceeds : (ask {}).toOption.isSome = true := by decide +kernel
    refine (hnamed' (by decide)).1.resolve_right ?_
    rintro ⟨failure, depth, hfails, -⟩
    rw [show ask {} = _ from hfails] at hsucceeds
    cases hsucceeds

/-- A value can be stored without a name and read, but no text asks for it. -/
theorem session_property_value_unnamed :
    let engine : Engine := {}
    let reader : PropertyReader := { head := "app", config := "Debug" }
    let steps : List Step := [.write (.value (.base "app" "") "x")]
    let answer := (engine.evaluateText "$<TARGET_PROPERTY:>" reader.inputs [] (session steps)).1
    Text.isWord "" = true ∧ (reader.evaluateProperty engine "" (session steps)).1 = some "x" ∧
      ((reader.evaluateProperty engine "" (session steps)).2.1.compiled.bind Compiled.failure).isNone =
        true ∧
      ∃ failure, answer = .error failure ∧ ∀ depth limit, failure.cause ≠ .nestingTooDeep depth limit := by
  intro engine reader steps answer
  have hasked : Text.askingFor [] = "$<TARGET_PROPERTY:>" := by decide +kernel
  obtain ⟨failure, hfails, hcause⟩ :=
    Engine.evaluateText_askingFor_nil (show 0 < engine.limit by decide) reader.inputs rfl (session steps)
  rw [hasked] at hfails
  refine ⟨rfl, by decide +kernel, by decide +kernel, failure, hfails, fun depth limit hdeep => ?_⟩
  rw [hcause] at hdeep
  cases hdeep

end BuildExpr
