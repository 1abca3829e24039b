import Mathlib.Logic.Relation
import BuildExpr.Proofs.PropertyRecursion

/-!
# No cycle is found where there is none

If all stored values write out the operations they use and the properties they ask for, one can tell
from them which property may ask for which: these are the references of the model. If no references
lead from a property back to itself, no look-up is ever refused (`session_without_cycle`), whatever
the text that is evaluated asks for and however often it does.

The invariant of the recursion is about the chain of look-ups under way: references lead from each of
their properties to the one whose value is being evaluated. A look-up of a property on the chain would
close a cycle of references. A property that has been looked up before is not on the chain any more.
-/

namespace BuildExpr

/-! ## Operations as they are written -/

namespace Forest

mutual

/-- The operations in a node, inner ones included, each with its name and its parameters. -/
def nodeWritten : Node → List (Forest × List Forest)
  | .text _ => []
  | .operation name parameters _ => (name, parameters) :: (written name ++ partsWritten parameters)

/-- The operations in a forest, inner ones included. -/
def written : Forest → List (Forest × List Forest)
  | [] => []
  | node :: rest => nodeWritten node ++ written rest

/-- The operations in some parameters, inner ones included. -/
def partsWritten : List Forest → List (Forest × List Forest)
  | [] => []
  | part :: rest => written part ++ partsWritten rest

end

/-- The operations of a node are among those of its forest. -/
theorem nodeWritten_subset {node : Node} {nodes : Forest} (h : node ∈ nodes) :
    nodeWritten node ⊆ written nodes := by
  induction nodes with
  | nil => cases h
  | cons first rest ih =>
    rw [written]
    rcases List.mem_cons.1 h with rfl | hrest
    · exact List.subset_append_left _ _
    · exact List.Subset.trans (ih hrest) (List.subset_append_right _ _)

/-- The operations of a parameter are among those of all. -/
theorem written_subset {part : Forest} {parts : List Forest} (h : part ∈ parts) :
    written part ⊆ partsWritten parts := by
  induction parts with
  | nil => cases h
  | cons first rest ih =>
    rw [partsWritten]
    rcases List.mem_cons.1 h with rfl | hrest
    · exact List.subset_append_left _ _
    · exact List.Subset.trans (ih hrest) (List.subset_append_right _ _)

/-- An operation whose name is plain text, and so are its parameters if it looks a property up. -/
def WrittenOut (name : Forest) (parameters : List Forest) : Prop :=
  name.literal?.isSome = true ∧ (name.literal? = some Operation.targetProperty.name →
    ∀ parameter ∈ parameters, parameter.literal?.isSome = true)

instance (name : Forest) (parameters : List Forest) : Decidable (WrittenOut name parameters) :=
  inferInstanceAs (Decidable (_ ∧ _))

/-- The property that an operation looks up for a head target, as far as it is written out. -/
def reference? (head : Option Text) (name : Forest) (parameters : List Forest) :
    Option (Text × Text) :=
  if name.literal? = some Operation.targetProperty.name then
    (parameters.mapM literal?).bind (Operation.addressed? head)
  else none

/-- Parameters that are plain text have their texts. -/
theorem exists_mapM_literal? {parameters : List Forest}
    (h : ∀ parameter ∈ parameters, parameter.literal?.isSome = true) :
    ∃ texts, parameters.mapM literal? = some texts := by
  induction parameters with
  | nil => exact ⟨[], rfl⟩
  | cons parameter rest ih =>
    obtain ⟨text, htext⟩ := Option.isSome_iff_exists.1 (h parameter List.mem_cons_self)
    obtain ⟨texts, htexts⟩ := ih fun other hother => h other (List.mem_cons_of_mem _ hother)
    refine ⟨text :: texts, ?_⟩
    rw [List.mapM_cons, htext, htexts]
    rfl

end Forest

/-! ## References between properties -/

namespace StoredValue

/-- The target and the property that have a value. -/
def owner (v : StoredValue) : Text × Text := (v.target, v.property)

/-- The operations written in a value. -/
def operations (v : StoredValue) : List (Forest × List Forest) :=
  Forest.written (Forest.ofTokens (Token.scan v.text))

end StoredValue

namespace Model

/-- A model whose values write out all operations and all properties that they look up. -/
def Literal (m : Model) : Prop :=
  ∀ v ∈ m.values, ∀ operation ∈ v.operations, Forest.WrittenOut operation.1 operation.2

instance (m : Model) : Decidable m.Literal :=
  inferInstanceAs (Decidable (∀ v ∈ m.values, ∀ operation ∈ v.operations, _))

/-- The references of a model for a head target: which properties the values of a property look up. -/
def references (m : Model) (head : Option Text) : List ((Text × Text) × (Text × Text)) :=
  m.values.flatMap fun v =>
    v.operations.filterMap fun operation =>
      (Forest.reference? head operation.1 operation.2).map fun asked => (v.owner, asked)

/-- A property has a value that looks another one up. -/
def Refers (m : Model) (head : Option Text) (a b : Text × Text) : Prop := (a, b) ∈ m.references head

/-- What an operation in a stored value looks up is referred to. -/
theorem refers_of_reference? {m : Model} {head : Option Text} {v : StoredValue} (hv : v ∈ m.values)
    {name : Forest} {parameters : List Forest} (hwritten : (name, parameters) ∈ v.operations)
    {asked : Text × Text} (h : Forest.reference? head name parameters = some asked) :
    m.Refers head v.owner asked := by
  refine List.mem_flatMap.2 ⟨v, hv, List.mem_filterMap.2 ⟨(name, parameters), hwritten, ?_⟩⟩
  rw [h]
  rfl

/-- No references lead from a property back to itself. -/
def Acyclic (m : Model) (head : Option Text) : Prop :=
  ∀ property, ¬ Relation.TransGen (m.Refers head) property property

/-- References along which a number gets smaller form no cycle. -/
theorem acyclic_of_rank {m : Model} {head : Option Text} (rank : Text × Text → Nat)
    (h : ∀ reference ∈ m.references head, rank reference.2 < rank reference.1) : m.Acyclic head := by
  have hdescends (a b : Text × Text) (hab : Relation.TransGen (m.Refers head) a b) :
      rank b < rank a := by
    induction hab with
    | single hstep => exact h _ hstep
    | tail _ hstep ih => exact (h _ hstep).trans ih
  exact fun property hcycle => Nat.lt_irrefl _ (hdescends property property hcycle)

end Model

/-- References lead from every property on a chain to a property. -/
def Chain.LeadsTo (chain : Chain) (m : Model) (head : Option Text) (owner : Text × Text) : Prop :=
  ∀ frame ∈ chain, Relation.ReflTransGen (m.Refers head) (frame.target, frame.property) owner

section

variable {m : Model} {head : Option Text} {chain : Chain} {owner : Text × Text} {lookup : Lookup}
  (h : chain.LeadsTo m head owner) (hrefers : m.Refers head owner (lookup.target, lookup.property))

include h hrefers

/-- If a reference leads on to a property, the chain may grow by it. -/
theorem Chain.LeadsTo.cons :
    Chain.LeadsTo (lookup :: chain) m head (lookup.target, lookup.property) := by
  intro frame hframe
  rcases List.mem_cons.1 hframe with rfl | hrest
  · exact .refl
  · exact (h frame hrest).tail hrefers

/-- Without a cycle of references the look-up is let through. -/
theorem Chain.LeadsTo.refusal?_eq_none (hacyclic : m.Acyclic head) :
    Chain.refusal? lookup chain = none := by
  refine Chain.refusal?_eq_none_iff.2 fun frame hframe => ?_
  cases hsame : lookup.sameProperty frame with
  | false => rfl
  | true =>
    unfold Lookup.sameProperty at hsame
    rw [Bool.and_eq_true, beq_iff_eq, beq_iff_eq] at hsame
    have hcycle : Relation.TransGen (m.Refers head) (frame.target, frame.property)
        (frame.target, frame.property) := by
      rw [hsame.1, hsame.2] at hrefers
      exact .tail' (h frame hframe) hrefers
    exact absurd hcycle (hacyclic _)

end

/-! ## Evaluation -/

/-- The values of parameters that are plain text are these texts. -/
theorem Operation.evaluateRest_literal (op : Operation) (hjoins : op.joinsExtra = false)
    (hwants : ∀ values, op.wantsNext values = true) {evaluate : Forest → Eval Text}
    (hevaluate : ∀ parameter text, parameter.literal? = some text → evaluate parameter = pure text)
    {parameters : List Forest} {texts : List Text}
    (h : parameters.mapM Forest.literal? = some texts) (joinedFrom index : Nat)
    (values : List Text) :
    op.evaluateRest evaluate joinedFrom index values parameters = pure (values ++ texts) := by
  induction parameters generalizing texts index values with
  | nil =>
    rw [List.mapM_nil, Option.pure_def, Option.some.injEq] at h
    rw [evaluateRest, ← h, List.append_nil]
  | cons parameter rest ih =>
    rw [List.mapM_cons, Option.bind_eq_bind, Option.bind_eq_some_iff] at h
    obtain ⟨text, htext, h⟩ := h
    rw [Option.bind_eq_bind, Option.bind_eq_some_iff] at h
    obtain ⟨others, hothers, h⟩ := h
    cases h
    rw [evaluateRest, hwants, Bool.not_true, Bool.and_false, if_neg Bool.false_ne_true,
      hevaluate parameter text htext, pure_bind, addValue_of_not_joins hjoins, ih hothers, List.append_assoc]
    rfl

open Eval (Ensures FailsOnly)

/-- A text fails as the forest it says, or because it nests too deep. -/
theorem Tree.evaluateWith_parse_failsOnly {cause : Cause → Prop} {limit : Nat} {source : Text}
    {forest : Text → Forest → Eval Text} (hdeep : ∀ depth, cause (.nestingTooDeep depth limit))
    (h : FailsOnly cause (forest source (Forest.ofTokens (Token.scan source)))) :
    FailsOnly cause ((Tree.parse limit source).evaluateWith forest) := by
  unfold Tree.parse
  dsimp only
  split
  · split
    · exact Ensures.inExpression _ (Ensures.fail (hdeep _))
    · exact h
  · exact Ensures.pure trivial

/-- A cause other than a property that depends on itself. -/
def Cause.NoCycle (c : Cause) : Prop := c.isCycle = false

/-- A refusal is no cycle. -/
theorem Cause.noCycle_of_isRefusal (c : Cause) (h : c.isRefusal = true) : c.NoCycle := by
  cases c with
  | selfReference | dependencyLoop => cases h
  | _ => rfl

namespace Engine

variable {engine : Engine} (hbuiltin : engine.registry.added = []) {m : Model}
  {head : Option Text} (hliteral : m.Literal) (hacyclic : m.Acyclic head)

/-- With no more operations to open, the first one fails for that cause. -/
theorem evaluateForest_zero_noCycle (engine : Engine) (m : Model) (scope : Scope) (chain : Chain)
    (source : Text) (nodes : Forest) :
    FailsOnly Cause.NoCycle (engine.evaluateForest m 0 scope chain source nodes) :=
  Forest.evaluateWith_failsOnly fun _ _ _ _ =>
    Ensures.inExpression _ fun _ htrees => .error htrees rfl

include hbuiltin hliteral hacyclic

/-- What is written in a stored value is evaluated without a cycle being found, if references lead
from the look-ups under way to the property that has the value. -/
theorem evaluateForest_stored (remaining : Nat) (scope : Scope) (hhead : scope.head = head)
    (chain : Chain) (source : Text) (nodes : Forest) {v : StoredValue} (hv : v ∈ m.values)
    (hchain : chain.LeadsTo m head v.owner) (hnodes : nodes.written ⊆ v.operations) :
    FailsOnly Cause.NoCycle (engine.evaluateForest m remaining scope chain source nodes) := by
  induction remaining generalizing scope chain source nodes v with
  | zero => exact engine.evaluateForest_zero_noCycle m scope chain source nodes
  | succ remaining ih =>
    refine Forest.evaluateWith_failsOnly fun name parameters span hmem => ?_
    have hinner : (name, parameters) :: (name.written ++ Forest.partsWritten parameters) ⊆
        v.operations := by
      have hnode := Forest.nodeWritten_subset hmem
      rw [Forest.nodeWritten] at hnode
      exact List.Subset.trans hnode hnodes
    have hwritten : (name, parameters) ∈ v.operations := hinner List.mem_cons_self
    have hparts : name.written ++ Forest.partsWritten parameters ⊆ v.operations :=
      fun _ hpart => hinner (List.mem_cons_of_mem _ hpart)
    obtain ⟨hname, hparameters⟩ := hliteral v hv _ hwritten
    obtain ⟨called, hcalled⟩ := Option.isSome_iff_exists.1 hname
    have hevaluate (parameter : Forest) (text : Text) (h : parameter.literal? = some text) :
        engine.evaluateForest m remaining scope chain source parameter = pure text :=
      engine.evaluateForest_literal m remaining scope chain source h
    -- The operation asks for no property but the one it refers to.
    have hasked (hproperty : called = Operation.targetProperty.name) :
        Ensures (fun values => ∀ address,
          Operation.addressed? scope.head values = some address → m.Refers head v.owner address)
          Cause.NoCycle (Operation.targetProperty.evaluateParameters
            (engine.evaluateForest m remaining scope chain source) parameters) := by
      have hnamed : name.literal? = some Operation.targetProperty.name := by rw [hcalled, hproperty]
      obtain ⟨texts, htexts⟩ := Forest.exists_mapM_literal? (hparameters hnamed)
      have hvalues := Operation.evaluateRest_literal .targetProperty rfl (fun _ => rfl)
        hevaluate htexts (Operation.targetProperty.effectiveCount parameters.length - 1) 0 []
      unfold Operation.evaluateParameters
      rw [hvalues, List.nil_append]
      refine Ensures.pure fun address haddress => ?_
      refine Model.refers_of_reference? hv hwritten ?_
      rw [Forest.reference?, if_pos hnamed, htexts, Option.bind_some, ← hhead, haddress]
    refine evaluateOperation_asking Cause.noCycle_of_isRefusal hbuiltin span ?_ ?_ hasked ?_ ?_
    · rw [hevaluate name called hcalled]
      exact Ensures.pure rfl
    · intro parameter hparameter
      have hpart := Forest.written_subset hparameter
      exact ih scope hhead chain source parameter hv hchain
        (List.Subset.trans hpart fun _ hmem => hparts (List.mem_append_right _ hmem))
    · intro target property c hrefers hrefused
      rw [hchain.refusal?_eq_none hrefers hacyclic] at hrefused
      cases hrefused
    · intro lookup stored hrefers _ hvalue
      refine (engine.valueTree_ensures stored _).bind fun tree htree => ?_
      rw [htree]
      refine Tree.evaluateWith_parse_failsOnly (fun _ => rfl) ?_
      exact ih (scope.derive lookup.target) hhead (lookup :: chain) stored _
        (Model.mem_values hvalue) (hchain.cons hrefers) (List.Subset.refl _)

/-- Whatever a text asks for, no cycle is found if no look-up is under way. -/
theorem evaluateForest_unchained (remaining : Nat) (scope : Scope) (hhead : scope.head = head)
    (source : Text) (nodes : Forest) :
    FailsOnly Cause.NoCycle (engine.evaluateForest m remaining scope [] source nodes) := by
  induction remaining generalizing source nodes with
  | zero => exact engine.evaluateForest_zero_noCycle m scope [] source nodes
  | succ remaining ih =>
    refine Forest.evaluateWith_failsOnly fun name parameters span hmem => ?_
    have hasked : Ensures (fun values => ∀ address,
        Operation.addressed? scope.head values = some address → True) Cause.NoCycle
        (Operation.targetProperty.evaluateParameters
          (engine.evaluateForest m remaining scope [] source) parameters) :=
      (Operation.targetProperty.evaluateRest_failsOnly _ _ _ fun parameter _ =>
        ih source parameter).mono (fun _ _ _ _ => trivial) fun _ h => h
    refine evaluateOperation_asking Cause.noCycle_of_isRefusal hbuiltin span (ih source name)
      (fun parameter _ => ih source parameter) (fun _ => hasked) (fun _ _ _ _ => nofun) ?_
    -- The look-up is the only one under way while the value of its property is evaluated.
    intro lookup stored _ _ hvalue
    refine (engine.valueTree_ensures stored _).bind fun tree htree => ?_
    rw [htree]
    refine Tree.evaluateWith_parse_failsOnly (fun _ => rfl) ?_
    refine evaluateForest_stored hbuiltin hliteral hacyclic remaining (scope.derive lookup.target)
      hhead [lookup] stored _ (Model.mem_values hvalue) (fun frame hframe => ?_)
      (List.Subset.refl _)
    rw [List.mem_singleton.1 hframe]
    exact .refl

end Engine

/-- In a model whose values write out their operations and the properties that they look up, no cycle
is found where there is none. If no references lead from a property back to itself, then at any point
of a session no text fails because a property depends on itself, provided that the caller has no
look-up under way: with built-in operations, and whatever the text asks for. -/
theorem session_without_cycle (steps : List Step) (engine : Engine)
    (hbuiltin : engine.registry.added = []) (inputs : Inputs)
    (hliteral : (session steps).store.model.Literal)
    (hacyclic : (session steps).store.model.Acyclic inputs.head) (source : Text) :
    (∀ failure, (engine.evaluateText source inputs [] (session steps)).1 = .error failure →
      failure.cause.isCycle = false) ∧
    ∀ failure,
      ((engine.compile source).evaluate engine inputs [] (session steps)).1.failure = some failure →
        failure.cause.isCycle = false := by
  have hcompiled (failure : Failure)
      (hfailure : ((engine.compile source).evaluate engine inputs [] (session steps)).1.failure =
        some failure) : failure.cause.NoCycle := by
    refine Compiled.failure_of_evaluate rfl (session_sameButTrees steps).faithful ?_ hfailure
    refine Tree.evaluateWith_parse_failsOnly (fun _ => rfl) ?_
    exact Engine.evaluateForest_unchained hbuiltin hliteral hacyclic engine.limit _ rfl source _
  exact ⟨fun failure herror => hcompiled failure (Engine.failure_of_evaluateText herror), hcompiled⟩

/-- The same property is looked up on two branches, by a computed name on one of them, and its value
asks twice for a further one. None of this is a cycle. -/
theorem session_without_cycle_on_branches :
    let steps : List Step :=
      [.write (.value (.base "app" "A") "$<TARGET_PROPERTY:lib,B>,$<TARGET_PROPERTY:B>"),
        .write (.value (.base "lib" "B") "$<TARGET_PROPERTY:C>"),
        .write (.value (.config "app" "Debug" "B") "$<TARGET_PROPERTY:app,C>"),
        .write (.value (.base "app" "C") "$<CONFIG>")]
    let engine : Engine := {}
    let inputs : Inputs := { config := "Debug", head := some "app" }
    let source : Text := "$<TARGET_PROPERTY:$<IF:1,A,B>>;$<TARGET_PROPERTY:A>"
    (session steps).store.model.Literal ∧
      (engine.evaluateText source inputs [] (session steps)).1.toOption =
        some "Debug,Debug;Debug,Debug" ∧
      ∀ failure,
        ((engine.compile source).evaluate engine inputs [] (session steps)).1.failure =
            some failure →
          failure.cause.isCycle = false := by
  intro steps engine inputs source
  have hliteral : (session steps).store.model.Literal := by decide +kernel
  -- The properties are numbered by how far they are from the end of the references.
  let rank (property : Text × Text) : Nat :=
    if property.2 = "A".toList then 2 else if property.2 = "B".toList then 1 else 0
  have hacyclic : (session steps).store.model.Acyclic inputs.head :=
    Model.acyclic_of_rank rank (by decide +kernel)
  obtain ⟨-, hcompiled⟩ := session_without_cycle steps engine rfl inputs hliteral hacyclic source
  exact ⟨hliteral, by decide +kernel, hcompiled⟩

end BuildExpr
