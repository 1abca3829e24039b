import BuildExpr.Proofs.TreeCache

/-!
# What evaluations can fail for

A bound on the causes an evaluation can fail for is put together like the evaluation itself, starting
from the built-in operations: all but `TARGET_PROPERTY` only refuse what they are given, and that one
besides may find that a property depends on itself, or fail as the evaluation of a property value
does. To say anything about that value one has to know where it comes from, so the bounds also speak
of the values an evaluation can give (`Eval.Ensures`); and as its tree may be a kept one, all of this
is about runs with faithful trees.
-/

namespace BuildExpr

/-- Whether something was asked for that there is not or that is not accepted. -/
def Cause.isRefusal : Cause → Bool
  | .wrongCount .. | .unknownOperation .. | .invalidParameter .. | .targetNotFound .. => true
  | _ => false

/-- An end of an evaluation with faithful trees, at a value or for a cause of some kind. -/
inductive EndsWith {α : Type} (value : α → Prop) (cause : Cause → Prop) :
    EStateM.Result Failure Run α → Prop
  | ok {a : α} {run : Run} (htrees : run.trees.Faithful) (h : value a) :
    EndsWith value cause (.ok a run)
  | error {failure : Failure} {run : Run} (htrees : run.trees.Faithful)
    (h : cause failure.cause) : EndsWith value cause (.error failure run)

/-- How such an evaluation ends. -/
theorem EndsWith.ends {α : Type} {value : α → Prop} {cause : Cause → Prop}
    {p : EStateM.Result Failure Run α} (h : EndsWith value cause p) :
    (∃ a run, p = .ok a run ∧ run.trees.Faithful ∧ value a) ∨
      ∃ failure run, p = .error failure run ∧ run.trees.Faithful ∧ cause failure.cause := by
  cases h with
  | ok htrees h => exact .inl ⟨_, _, rfl, htrees, h⟩
  | error htrees h => exact .inr ⟨_, _, rfl, htrees, h⟩

namespace Eval

variable {α β : Type}

/-- An evaluation that from faithful trees always ends at a value or for a cause of some kind. -/
def Ensures (value : α → Prop) (cause : Cause → Prop) (x : Eval α) : Prop :=
  ∀ ⦃run : Run⦄, run.trees.Faithful → EndsWith value cause (x run)

/-- An evaluation that fails for causes of some kind only. -/
abbrev FailsOnly (cause : Cause → Prop) (x : Eval α) : Prop := Ensures (fun _ => True) cause x

namespace Ensures

variable {value : α → Prop} {cause : Cause → Prop} {x : Eval α}

/-- A value ensures what holds of it. -/
theorem pure {a : α} (h : value a) : Ensures value cause (Pure.pure a) := fun _ htrees => .ok htrees h

/-- Failing ensures what holds of the cause. -/
theorem fail {c : Cause} (h : cause c) : Ensures value cause (Eval.fail c) :=
  fun _ htrees => .error htrees h

/-- An evaluation that ensures something ensures anything weaker. -/
theorem mono {value' : α → Prop} {cause' : Cause → Prop} (hvalue : ∀ a, value a → value' a)
    (hcause : ∀ c, cause c → cause' c) (hx : Ensures value cause x) :
    Ensures value' cause' x := by
  intro run htrees
  rcases (hx htrees).ends with ⟨a, after, hrun, htrees, h⟩ | ⟨failure, after, hrun, htrees, h⟩
  · rw [hrun]
    exact .ok htrees (hvalue a h)
  · rw [hrun]
    exact .error htrees (hcause _ h)

/-- What one step ensures of its value may be used for what the next step ensures. -/
theorem bind {value' : β → Prop} {f : α → Eval β} (hx : Ensures value cause x)
    (hf : ∀ a, value a → Ensures value' cause (f a)) : Ensures value' cause (x >>= f) := by
  intro run htrees
  rw [bind_apply]
  rcases (hx htrees).ends with ⟨a, after, hrun, htrees, h⟩ | ⟨failure, after, hrun, htrees, h⟩
  · rw [hrun]
    exact hf a h htrees
  · rw [hrun]
    exact .error htrees h

/-- Going on only if a condition does not hold. -/
theorem bind_unless {p : Prop} [Decidable p] {value' : β → Prop} {x : Eval Unit} {f : Unit → Eval β}
    (hx : p → FailsOnly cause x) (hf : Ensures value' cause (f ())) :
    Ensures value' cause (if p then x >>= f else f ()) := by
  by_cases hp : p
  · rw [if_pos hp]
    exact bind (hx hp) fun _ _ => hf
  · rw [if_neg hp]
    exact hf

/-- A place added to a failure does not change its cause. -/
theorem inExpression (expression : Text) (hx : Ensures value cause x) :
    Ensures value cause (Eval.inExpression expression x) := by
  intro run htrees
  unfold Eval.inExpression
  rcases (hx htrees).ends with ⟨a, after, hrun, htrees, h⟩ | ⟨failure, after, hrun, htrees, h⟩
  · rw [hrun]
    exact .ok htrees h
  · rw [hrun]
    exact .error htrees h

/-- Opening an operation around an evaluation changes nothing about how it ends. -/
theorem within (hx : Ensures value cause x) : Ensures value cause (Eval.within x) := by
  intro run htrees
  rw [within_apply]
  have hentered : Run.trees { run with depth := run.depth + 1 } |>.Faithful := htrees
  rcases (hx hentered).ends with ⟨a, after, hrun, htrees, h⟩ | ⟨failure, after, hrun, htrees, h⟩
  · rw [hrun]
    exact .ok htrees h
  · rw [hrun]
    exact .error htrees h

/-- Nor does a footprint of its own. -/
theorem apart (hx : Ensures value cause x) : Ensures value cause (Eval.apart x) := by
  intro run htrees
  unfold Eval.apart
  dsimp only
  have hbegun : Run.trees { run with footprint := {} } |>.Faithful := htrees
  rcases (hx hbegun).ends with ⟨a, after, hrun, htrees, h⟩ | ⟨failure, after, hrun, htrees, h⟩
  · rw [hrun]
    exact .ok htrees h
  · rw [hrun]
    exact .error htrees h

/-- A change to the footprint does not fail. -/
theorem touch (change : Footprint → Footprint) : FailsOnly cause (Eval.touch change) :=
  fun _ htrees => .ok htrees trivial

/-- Sending a message does not fail. -/
theorem send (message : Text) : FailsOnly cause (Eval.send message) :=
  fun _ htrees => .ok htrees trivial

/-- A result fails for its own cause only. -/
theorem ofExcept {result : Except Cause α} (h : ∀ c, result = .error c → cause c) :
    FailsOnly cause (Eval.ofExcept result) := by
  cases result with
  | ok a => exact pure trivial
  | error c => exact fail (h c rfl)

/-- A failure that is handled by doing something and failing again keeps its cause. -/
theorem handled {handle : Failure → Eval Unit} (hx : Ensures value cause x)
    (hhandle : ∀ failure, FailsOnly cause (handle failure)) :
    Ensures value cause (tryCatch x fun failure => do handle failure; throw failure) := by
  intro run htrees
  rw [tryCatch_apply]
  rcases (hx htrees).ends with ⟨a, after, hrun, htrees, h⟩ | ⟨failure, after, hrun, htrees, h⟩
  · rw [hrun]
    exact .ok htrees h
  · have hthrow : Ensures value cause (throw failure) := fun _ htrees => .error htrees h
    rw [hrun]
    exact bind (hhandle failure) (fun _ _ => hthrow) htrees

end Ensures

end Eval

open Eval (Ensures FailsOnly)

/-! ## Built-in operations -/

namespace Operation

/-- A result that is a refusal if it is a failure. -/
def Refuses {α : Type} (result : Except Cause α) : Prop :=
  ∀ c, result = .error c → c.isRefusal = true

/-- A value refuses nothing. -/
theorem refuses_ok {α : Type} (a : α) : Refuses (.ok a) := nofun

/-- A refusal is one. -/
theorem refuses_error {α : Type} {c : Cause} (h : c.isRefusal = true) :
    Refuses (.error c : Except Cause α) := by
  intro c' hc
  cases hc
  exact h

/-- Two steps refuse only if each of them does. -/
theorem Refuses.bind {α β : Type} {result : Except Cause α} {f : α → Except Cause β}
    (hresult : Refuses result) (hf : ∀ a, Refuses (f a)) : Refuses (result >>= f) := by
  cases result with
  | ok a => exact hf a
  | error c => exact refuses_error (hresult c rfl)

/-- The conjunction and the disjunction of truth values only refuse what is none. -/
theorem combine_refuses (name : Text) (decisive : Bool) (parameters : List Text) :
    Refuses (combine name decisive parameters) := by
  induction parameters with
  | nil => exact refuses_ok _
  | cons parameter rest ih =>
    unfold combine
    cases parameter.toBool? with
    | none => exact refuses_error rfl
    | some value =>
      dsimp only
      split
      · exact refuses_ok _
      · exact ih

/-- The choice between two texts only refuses its condition. -/
theorem choose_refuses (parameters : List Text) : Refuses (choose parameters) := by
  unfold choose
  split
  · split
    · exact refuses_ok _
    · exact refuses_ok _
    · exact refuses_error rfl
  · exact refuses_error rfl

/-- Reading an integer only refuses what is none. -/
theorem integer_refuses (parameter : Text) : Refuses (integer parameter) := by
  unfold integer
  split
  · exact refuses_ok _
  · exact refuses_error rfl

/-- So does reading any number of them. -/
theorem integers_refuse (parameters : List Text) : Refuses (parameters.mapM integer) := by
  induction parameters with
  | nil => exact refuses_ok []
  | cons parameter rest ih =>
    rw [List.mapM_cons]
    exact (integer_refuses parameter).bind fun _ => ih.bind fun _ => refuses_ok _

/-- Asking whether there is a target only refuses what it is given. -/
theorem targetExistsFor_refuses (operation : Text) (call : Call) :
    Refuses (targetExistsFor operation call) := by
  unfold targetExistsFor
  dsimp only
  split
  · exact refuses_ok _
  · exact refuses_error rfl

/-- Noting features only refuses those that are not known. -/
theorem requireAll_refuses (model : Model) (head config : Text) (names : List Text) :
    FailsOnly (fun c => c.isRefusal = true) (requireAll model head config names) := by
  induction names with
  | nil => exact Ensures.pure trivial
  | cons name rest ih =>
    unfold requireAll
    cases Feature.ofText? name with
    | none => exact Ensures.fail rfl
    | some feature =>
      exact (Ensures.touch _).bind fun _ _ => ih.bind fun _ _ => Ensures.pure trivial

/-- The operation `CONFIG` only refuses what it is given. -/
theorem config_refuses (call : Call) :
    FailsOnly (fun c => c.isRefusal = true) (config.evaluate call) := by
  refine (Ensures.touch _).bind fun _ _ => ?_
  split
  · exact Ensures.pure trivial
  · split
    · exact Ensures.fail rfl
    · exact Ensures.pure trivial

/-- The operation `COMPILE_LANGUAGE` only refuses what it is given. -/
theorem compileLanguage_refuses (call : Call) :
    FailsOnly (fun c => c.isRefusal = true) (compileLanguage.evaluate call) := by
  unfold compileLanguage
  dsimp only
  split
  · exact Ensures.fail rfl
  · split
    · exact Ensures.pure trivial
    · exact Ensures.pure trivial

/-- The operation `COMPILE_FEATURES` only refuses what it is given. -/
theorem compileFeatures_refuses (call : Call) :
    FailsOnly (fun c => c.isRefusal = true) (compileFeatures.evaluate call) := by
  unfold compileFeatures
  dsimp only
  split
  · exact Ensures.fail rfl
  · exact (Ensures.touch _).bind fun _ _ =>
      (requireAll_refuses _ _ _ _).bind fun _ _ => Ensures.pure trivial

/-- The operation `TARGET_OBJECTS` only refuses what it is given. -/
theorem targetObjects_refuses (call : Call) :
    FailsOnly (fun c => c.isRefusal = true) (targetObjects.evaluate call) := by
  unfold targetObjects
  dsimp only
  refine Ensures.bind_unless (fun _ => Ensures.fail rfl) ?_
  refine (Ensures.ofExcept (targetExistsFor_refuses _ call)).bind fun found _ => ?_
  refine Ensures.bind_unless (fun _ => Ensures.fail rfl) ?_
  exact (Ensures.touch _).bind fun _ _ => Ensures.pure trivial

end Operation

open Operation in
/-- Every operation that looks no property up fails only by refusing what it is given. -/
theorem Builtin.evaluate_refuses {b : Builtin} (hb : b ≠ .targetProperty) (call : Call) :
    FailsOnly (fun c => c.isRefusal = true) (b.operation.evaluate call) := by
  cases b with
  | targetProperty => exact absurd rfl hb
  -- These have a result whatever they are given.
  | zero | one | buildInterface | installInterface => exact Ensures.pure trivial
  | bool | angle | comma | semicolon | lowerCase | upperCase | removeDuplicates =>
    exact Ensures.pure trivial
  | and | or => exact Ensures.ofExcept (combine_refuses _ _ _)
  | choice => exact Ensures.ofExcept (choose_refuses _)
  | not =>
    refine Ensures.ofExcept (show Refuses _ from ?_)
    dsimp only
    split
    · exact refuses_ok _
    · exact refuses_error rfl
  | stringEqual | inList | join =>
    refine Ensures.ofExcept (show Refuses _ from ?_)
    dsimp only
    split
    · exact refuses_ok _
    · exact refuses_error rfl
  | integerEqual => exact Ensures.ofExcept ((integers_refuse _).bind fun _ => refuses_ok _)
  | config => exact config_refuses call
  | compileLanguage => exact compileLanguage_refuses call
  | targetExists | targetNameIfExists =>
    exact (Ensures.ofExcept (targetExistsFor_refuses _ call)).bind fun _ _ => Ensures.pure trivial
  | targetObjects => exact targetObjects_refuses call
  | compileFeatures => exact compileFeatures_refuses call

/-! ## Looking properties up -/

/-- A look-up is refused only because its property is on the chain. -/
theorem Chain.isCycle_of_refusal? {lookup : Lookup} {chain : Chain} {c : Cause}
    (h : Chain.refusal? lookup chain = some c) : c.isCycle = true := by
  cases chain with
  | nil => cases h
  | cons parent rest =>
    rw [Chain.refusal?] at h
    by_cases hparent : lookup.sameProperty parent = true
    · rw [if_pos hparent] at h
      cases h
      rfl
    · rw [if_neg hparent, Option.map_eq_some_iff] at h
      obtain ⟨steps, -, rfl⟩ := h
      rfl

namespace Operation

/-- The target and the property that the parameters of `TARGET_PROPERTY` name for a head target, if their
number is right. -/
def addressed? (head : Option Text) : List Text → Option (Text × Text)
  | [property] => head.map fun target => (target, property)
  | [target, property] => some (target, property)
  | _ => none

/-- A stored value is to be evaluated only if its property is asked for and its look-up is not refused,
and it is the one that the model has. -/
def Sought.Admitted (call : Call) : Sought → Prop
  | .text _ => True
  | .value lookup stored =>
    addressed? call.scope.head call.parameters = some (lookup.target, lookup.property) ∧
      Chain.refusal? lookup call.chain = none ∧
      call.host.model.property? lookup.target lookup.property call.scope.config = some stored

variable {cause : Cause → Prop} (hrefusal : ∀ c, c.isRefusal = true → cause c)

include hrefusal

/-- A refused property look-up ensures anything of its value, as it has none. -/
theorem refuseProperty_ensures {α : Type} (value : α → Prop) (reason : Text) :
    Ensures value cause (refuseProperty reason) := Ensures.fail (hrefusal _ rfl)

/-- An address that is found is the one that the parameters and the head target give. -/
theorem propertyAddress_ensures (call : Call) :
    Ensures (fun address => addressed? call.scope.head call.parameters = some address) cause
      (propertyAddress call) := by
  unfold propertyAddress
  -- First by the number of parameters, then by what there is to refuse about them.
  split
  · split
    · exact refuseProperty_ensures hrefusal _ _
    · rename_i hparameters _ _ hhead
      rw [hparameters, hhead]
      exact (Ensures.touch _).bind fun _ _ => Ensures.pure rfl
  · split
    · exact refuseProperty_ensures hrefusal _ _
    · split
      · exact refuseProperty_ensures hrefusal _ _
      · split
        · exact Ensures.fail (hrefusal _ rfl)
        · rename_i hparameters _ _ _
          rw [hparameters]
          exact (Ensures.touch _).bind fun _ _ => Ensures.pure rfl
  · exact Ensures.fail (hrefusal _ rfl)

variable {call : Call} (hchain : ∀ target property c,
  addressed? call.scope.head call.parameters = some (target, property) →
    Chain.refusal? ⟨target, property, call.expression⟩ call.chain = some c → cause c)

include hchain

/-- Seeking a property fails by refusing what is given or because the property is on the chain. -/
theorem seek_ensures : Ensures (Sought.Admitted call) cause (seek call) := by
  unfold seek
  refine (propertyAddress_ensures hrefusal call).bind fun address haddress => ?_
  obtain ⟨target, property⟩ := address
  dsimp only
  refine Ensures.bind_unless (fun _ => refuseProperty_ensures hrefusal _ _) ?_
  refine Ensures.bind_unless (fun _ => refuseProperty_ensures hrefusal _ _) ?_
  refine (Ensures.touch _).bind fun _ _ => ?_
  -- A stored value is come to only where the look-up has not been refused.
  cases hrefused : Chain.refusal? ⟨target, property, call.expression⟩ call.chain with
  | some c =>
    have hfail : Ensures (fun _ => False) cause (Eval.fail c : Eval PUnit) :=
      Ensures.fail (hchain target property c haddress hrefused)
    exact hfail.bind fun _ hfalse => hfalse.elim
  | none =>
    cases hvalue : call.host.model.property? target property call.scope.config with
    | none => exact Ensures.pure trivial
    | some stored =>
      refine Ensures.pure ?_
      split
      · trivial
      · exact ⟨haddress, hrefused, hvalue⟩

/-- `TARGET_PROPERTY` fails by refusing what it is given, because the property is on the chain, or as
the evaluation of a stored value does. -/
theorem targetProperty_failsOnly
    (hvalue : ∀ lookup stored,
      addressed? call.scope.head call.parameters = some (lookup.target, lookup.property) →
      Chain.refusal? lookup call.chain = none →
      call.host.model.property? lookup.target lookup.property call.scope.config = some stored →
      FailsOnly cause (call.host.evaluateValue (call.scope.derive lookup.target)
        (lookup :: call.chain) stored)) :
    FailsOnly cause (targetProperty.evaluate call) := by
  refine (seek_ensures hrefusal hchain).bind fun sought hsought => ?_
  cases sought with
  | text value => exact Ensures.pure trivial
  | value lookup stored =>
    obtain ⟨haddress, hrefused, hstored⟩ := hsought
    exact Ensures.apart (hvalue lookup stored haddress hrefused hstored)

end Operation

/-! ## Forests -/

section

variable {cause : Cause → Prop}

/-- A forest fails as one of its operations does. -/
theorem Forest.evaluateWith_failsOnly {operation : Forest → List Forest → Span → Eval Text}
    {nodes : Forest} (h : ∀ name parameters span, .operation name parameters span ∈ nodes →
      FailsOnly cause (operation name parameters span)) :
    FailsOnly cause (nodes.evaluateWith operation) := by
  induction nodes with
  | nil => exact Ensures.pure trivial
  | cons node rest ih =>
    have hrest := ih fun name parameters span hmem => h name parameters span (.tail _ hmem)
    cases node with
    | text value => exact hrest.bind fun _ _ => Ensures.pure trivial
    | operation name parameters span =>
      exact (h name parameters span (.head _)).bind fun _ _ =>
        hrest.bind fun _ _ => Ensures.pure trivial

/-- The parameters from some index on fail for the causes that single ones fail for. -/
theorem Operation.evaluateRest_failsOnly (op : Operation) {evaluate : Forest → Eval Text}
    (joinedFrom index : Nat) (values : List Text) {parameters : List Forest}
    (h : ∀ parameter ∈ parameters, FailsOnly cause (evaluate parameter)) :
    FailsOnly cause (op.evaluateRest evaluate joinedFrom index values parameters) := by
  induction parameters generalizing index values with
  | nil => exact Ensures.pure trivial
  | cons parameter rest ih =>
    have hrest (index : Nat) (values : List Text) :=
      ih index values fun parameter hmem => h parameter (.tail _ hmem)
    simp only [Operation.evaluateRest]
    split
    · exact hrest _ _
    · exact (h parameter (.head _)).bind fun _ _ => hrest _ _

variable (hrefusal : ∀ c, c.isRefusal = true → cause c)

include hrefusal

/-- Carrying out an operation fails because of the number of its parameters, as one of these does, or
as the operation does for the values they have. -/
theorem Operation.carryOut_failsOnly (op : Operation) {evaluate : Forest → Eval Text}
    {parameters : List Forest} (call : List Text → Call) {given : List Text → Prop}
    (hparameters : Ensures given cause (op.evaluateParameters evaluate parameters))
    (hcall : ∀ values, given values → FailsOnly cause (op.evaluate (call values))) :
    FailsOnly cause (op.carryOut evaluate parameters call) := by
  simp only [Operation.carryOut]
  split
  · split
    · exact Ensures.fail (hrefusal _ rfl)
    · exact Ensures.pure trivial
  · split
    · exact Ensures.fail (hrefusal _ rfl)
    · exact hparameters.bind hcall

variable {engine : Engine} (hbuiltin : engine.registry.added = [])

include hbuiltin

/-- With built-in operations only, an operation fails by a refusal, as its name or one of its
parameters does, or because of a property that it asks for: if that is on the chain, or as its stored
value does. -/
theorem Engine.evaluateOperation_asking {model : Model}
    {inner : Scope → Chain → Text → Forest → Eval Text} {scope : Scope} {chain : Chain}
    {source : Text} {name : Forest} {parameters : List Forest} (span : Span)
    {named : Text → Prop} {asked : Text × Text → Prop}
    (hname : Ensures named cause (inner scope chain source name))
    (hparameters : ∀ parameter ∈ parameters, FailsOnly cause (inner scope chain source parameter))
    (hasked : named Operation.targetProperty.name →
      Ensures (fun values => ∀ address,
        Operation.addressed? scope.head values = some address → asked address) cause
        (Operation.targetProperty.evaluateParameters (inner scope chain source) parameters))
    (hchain : ∀ target property c, asked (target, property) →
      Chain.refusal? ⟨target, property, source.cut span⟩ chain = some c → cause c)
    (hvalue : ∀ lookup stored, asked (lookup.target, lookup.property) →
      Chain.refusal? lookup chain = none →
      model.property? lookup.target lookup.property scope.config = some stored →
      FailsOnly cause ((engine.host model inner).evaluateValue (scope.derive lookup.target)
        (lookup :: chain) stored)) :
    FailsOnly cause
      (engine.evaluateOperation model inner scope chain source name parameters span) := by
  refine Ensures.within (Ensures.inExpression _ (hname.bind fun called hcalled => ?_))
  cases hfind : engine.registry.find? called with
  | none => exact Ensures.fail (hrefusal _ rfl)
  | some op =>
    obtain ⟨b, hb, rfl⟩ := Registry.exists_builtin hbuiltin hfind
    -- Only `TARGET_PROPERTY` looks at the chain and evaluates values.
    by_cases hproperty : b = .targetProperty
    · subst hproperty
      have hnamed : named Operation.targetProperty.name := by
        rw [← Builtin.name_of_ofName? hb] at hcalled
        exact hcalled
      refine Operation.carryOut_failsOnly hrefusal _ _ (hasked hnamed) fun values hvalues => ?_
      refine Operation.targetProperty_failsOnly hrefusal (fun target property c haddress => ?_)
        fun lookup stored haddress => ?_
      · exact hchain target property c (hvalues _ haddress)
      · exact hvalue lookup stored (hvalues _ haddress)
    · refine Operation.carryOut_failsOnly hrefusal _ _
        (b.operation.evaluateRest_failsOnly _ _ _ hparameters) fun values _ => ?_
      exact (Builtin.evaluate_refuses hproperty _).mono (fun _ h => h) hrefusal

/-- Where cycles are among the causes, it does not matter which properties an operation asks for. -/
theorem Engine.evaluateOperation_failsOnly (hcycle : ∀ c, c.isCycle = true → cause c)
    {model : Model} {inner : Scope → Chain → Text → Forest → Eval Text} {scope : Scope}
    {chain : Chain} {source : Text} {name : Forest} {parameters : List Forest} (span : Span)
    (hname : FailsOnly cause (inner scope chain source name))
    (hparameters : ∀ parameter ∈ parameters, FailsOnly cause (inner scope chain source parameter))
    (hvalue : ∀ lookup stored, Chain.refusal? lookup chain = none →
      model.property? lookup.target lookup.property scope.config = some stored →
      FailsOnly cause ((engine.host model inner).evaluateValue (scope.derive lookup.target)
        (lookup :: chain) stored)) :
    FailsOnly cause
      (engine.evaluateOperation model inner scope chain source name parameters span) := by
  have hasked : Ensures (fun values => ∀ address,
      Operation.addressed? scope.head values = some address → True) cause
      (Operation.targetProperty.evaluateParameters (inner scope chain source) parameters) :=
    (Operation.targetProperty.evaluateRest_failsOnly _ _ _ hparameters).mono
      (fun _ _ _ _ => trivial) fun _ h => h
  refine Engine.evaluateOperation_asking hrefusal hbuiltin span hname hparameters
    (fun _ => hasked) (fun target property c _ hc => ?_) fun lookup stored _ => hvalue lookup stored
  exact hcycle c (Chain.isCycle_of_refusal? hc)

end

/-! ## Trees -/

/-- The tree of a stored value is that of its text. -/
theorem Engine.valueTree_ensures (engine : Engine) (value : Text) (cause : Cause → Prop) :
    Ensures (fun tree => tree = engine.parse value) cause (engine.valueTree value) := by
  intro run htrees
  rw [engine.valueTree_apply value htrees]
  exact .ok (engine.fetch_snd htrees value) rfl

/-- A tree that does not nest too deep fails as its forest does. -/
theorem Tree.evaluateWith_failsOnly {cause : Cause → Prop} {forest : Text → Forest → Eval Text}
    {tree : Tree} (hoverflow : tree.overflow? = none)
    (h : FailsOnly cause (forest tree.source tree.nodes)) :
    FailsOnly cause (tree.evaluateWith forest) := by
  cases tree with
  | plain source => exact Ensures.pure trivial
  | forest source nodes => exact h
  | tooDeep source depth limit => cases hoverflow

/-- Reporting a failure does not fail itself. -/
theorem Engine.report_failsOnly (engine : Engine) (scope : Scope) (failure : Failure)
    (cause : Cause → Prop) : FailsOnly cause (engine.report scope failure) := by
  refine (Ensures.touch _).bind fun _ _ => ?_
  split
  · exact Ensures.send _
  · exact Ensures.pure trivial

/-- Reporting a failure does not change its cause. -/
theorem Engine.evaluateReporting_failsOnly (engine : Engine) (scope : Scope)
    {cause : Cause → Prop} {forest : Text → Forest → Eval Text} {tree : Tree}
    (h : FailsOnly cause (tree.evaluateWith forest)) :
    FailsOnly cause (engine.evaluateReporting scope forest tree) :=
  Ensures.handled h fun failure => engine.report_failsOnly scope failure cause

/-- A compiled expression that has not failed before fails as its evaluation does. -/
theorem Compiled.failure_of_evaluate {cause : Cause → Prop} {engine : Engine} {c : Compiled}
    (hfresh : c.failure = none) {inputs : Inputs} {chain : Chain} {w : Workspace}
    (htrees : w.store.trees.Faithful)
    (h : FailsOnly cause (c.tree.evaluateWith
      (engine.evaluateForest w.store.model engine.limit (c.context engine inputs).scope chain)))
    {failure : Failure} (hfailure : (c.evaluate engine inputs chain w).1.failure = some failure) :
    cause failure.cause := by
  unfold Compiled.evaluate Compiled.evaluateIn at hfailure
  by_cases hneeds : c.tree.needsEvaluation = true
  · simp only [hneeds, if_true] at hfailure
    have houtcome : EndsWith (fun _ => True) cause
        (outcome engine c.tree (c.context engine inputs) chain w) :=
      engine.evaluateReporting_failsOnly _ h htrees
    rcases houtcome.ends with ⟨a, after, hrun, -, -⟩ | ⟨failure', after, hrun, -, hcause⟩
    · rw [hrun] at hfailure
      cases hfailure
    · rw [hrun] at hfailure
      cases hfailure
      exact hcause
  · -- Without anything to evaluate the expression stays fresh, and then it has no failure.
    simp only [hneeds, Bool.false_eq_true, if_false, hfresh] at hfailure
    cases hfailure

/-- If the value of a text is a failure, its compiled form fails with it. -/
theorem Engine.failure_of_evaluateText {engine : Engine} {source : Text} {inputs : Inputs}
    {chain : Chain} {w : Workspace} {failure : Failure}
    (h : (engine.evaluateText source inputs chain w).1 = .error failure) :
    ((engine.compile source).evaluate engine inputs chain w).1.failure = some failure := by
  unfold evaluateText at h
  split at h
  · cases h
  · cases hresult : ((engine.compile source).evaluate engine inputs chain w).1.failure with
    | none =>
      simp only [hresult] at h
      cases h
    | some other =>
      simp only [hresult] at h
      cases h
      rfl

end BuildExpr
