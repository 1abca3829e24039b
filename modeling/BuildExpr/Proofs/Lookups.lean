import BuildExpr.Proofs.Causes

/-!
# What seeking a property comes to

Seeking the property that a call asks for is the same for all chains that do not refuse it, and what
it comes to is decided by the value that the model has for the property. Everything else about it, such
as what is noted on the way, is not a matter of the chain.
-/

namespace BuildExpr.Operation

/-- What a look-up that is not refused comes to, given the value its property has. -/
def Sought.ofValue (lookup : Lookup) : Option Text → Sought
  | none => .text []
  | some stored => if stored.firstExpression.isNone then .text stored else .value lookup stored

/-- A stored value is to be evaluated only if it is the value the property has. -/
theorem Sought.eq_of_ofValue {lookup lookup' : Lookup} {found : Option Text} {stored : Text}
    (h : Sought.ofValue lookup found = .value lookup' stored) :
    lookup' = lookup ∧ found = some stored := by
  cases found with
  | none => cases h
  | some value =>
    dsimp only [ofValue] at h
    by_cases hshort : value.firstExpression.isNone = true
    · rw [if_pos hshort] at h
      cases h
    · rw [if_neg hshort] at h
      cases h
      exact ⟨rfl, rfl⟩

variable {call : Call} {run after : Run}

/-- An address that is found is the one that the parameters and the head target give. -/
theorem propertyAddress_eq_ok {address : Text × Text}
    (h : propertyAddress call run = .ok address after) :
    addressed? call.scope.head call.parameters = some address := by
  unfold propertyAddress at h
  cases hparameters : call.parameters with
  | nil =>
    rw [hparameters] at h
    cases h
  | cons first rest =>
    rw [hparameters] at h
    cases rest with
    | nil =>
      cases hhead : call.scope.head with
      | none =>
        rw [hhead] at h
        cases h
      | some head =>
        rw [hhead] at h
        cases h
        rfl
    | cons second more =>
      cases more with
      | nil =>
        -- With two parameters there are three ways to be refused, and one to be addressed.
        dsimp only at h
        split at h
        · cases h
        · split at h
          · cases h
          · split at h
            · cases h
            · cases h
              rfl
      | cons third more => cases h

/-- If seeking a property comes to anything, a property is named whose look-up is not refused, and the
value of that property decides what it comes to. -/
theorem seek_eq_ok {sought : Sought} (h : seek call run = .ok sought after) :
    ∃ target property, addressed? call.scope.head call.parameters = some (target, property) ∧
      Chain.refusal? ⟨target, property, call.expression⟩ call.chain = none ∧
      sought = .ofValue ⟨target, property, call.expression⟩
        (call.host.model.property? target property call.scope.config) := by
  unfold seek at h
  obtain ⟨⟨target, property⟩, between, haddress, hrest⟩ := Eval.bind_eq_ok h
  refine ⟨target, property, propertyAddress_eq_ok haddress, ?_⟩
  dsimp only at hrest
  split at hrest
  · cases hrest
  · split at hrest
    · cases hrest
    · -- The property has been noted before the chain is asked, and the model after that.
      obtain ⟨_, noted, _, hfound⟩ := Eval.bind_eq_ok hrest
      cases hrefusal : Chain.refusal? ⟨target, property, call.expression⟩ call.chain with
      | some cause =>
        rw [hrefusal] at hfound
        cases hfound
      | none =>
        rw [hrefusal] at hfound
        refine ⟨rfl, ?_⟩
        cases hvalue : call.host.model.property? target property call.scope.config with
        | none =>
          rw [hvalue] at hfound
          cases hfound
          rfl
        | some value =>
          rw [hvalue] at hfound
          cases hfound
          rfl

/-- Seeking a property is the same in another chain that does not refuse it either. -/
theorem seek_eq_of_allowed {call' : Call} (hparameters : call'.parameters = call.parameters)
    (hexpression : call'.expression = call.expression) (hscope : call'.scope = call.scope)
    (hmodel : call'.host.model = call.host.model) {sought : Sought}
    (h : seek call run = .ok sought after)
    (hallowed : ∀ target property,
      addressed? call.scope.head call.parameters = some (target, property) →
        Chain.refusal? ⟨target, property, call.expression⟩ call'.chain = none) :
    seek call' = seek call := by
  obtain ⟨target, property, haddressed, hfree, -⟩ := seek_eq_ok h
  have hfree' := hallowed target property haddressed
  have hsame : propertyAddress call' = propertyAddress call := by
    unfold propertyAddress
    rw [hparameters, hscope, hmodel]
  unfold seek
  rw [hsame]
  refine Eval.bind_congr fun run address after haddress => ?_
  have heq := (propertyAddress_eq_ok haddress).symm.trans haddressed
  cases Option.some.inj heq
  rw [hexpression, hscope, hmodel]
  dsimp only
  rw [hfree, hfree']

/-- Seeking a property of the head target by its name fails for the cause that the chain has to refuse it,
and otherwise finds the property. -/
theorem seek_of_asked {head property : Text} (hparameters : call.parameters = [property])
    (hhead : call.scope.head = some head) (hname : property ≠ [])
    (hword : property.isWord = true) (run : Run) :
    ∃ footprint, seek call run =
      match Chain.refusal? ⟨head, property, call.expression⟩ call.chain with
      | some cause => .error ⟨cause, none⟩ { run with footprint }
      | none =>
        .ok (.ofValue ⟨head, property, call.expression⟩
          (call.host.model.property? head property call.scope.config)) { run with footprint } := by
  have hempty : property.isEmpty = false := by
    cases property with
    | nil => exact absurd rfl hname
    | cons c rest => rfl
  -- The head is noted before the property is looked at.
  let noted : Run := { run with footprint := { run.footprint with headSensitive := true } }
  have haddress : propertyAddress call run = .ok (head, property) noted := by
    unfold propertyAddress
    rw [hparameters, hhead]
    rfl
  refine ⟨noted.footprint.see head property, ?_⟩
  unfold seek
  rw [Eval.bind_apply, haddress]
  dsimp only
  rw [hempty, hword, if_neg Bool.false_ne_true, if_neg (by decide)]
  cases Chain.refusal? ⟨head, property, call.expression⟩ call.chain with
  | some cause => rfl
  | none =>
    cases call.host.model.property? head property call.scope.config with
    | none => rfl
    | some value => rfl

end BuildExpr.Operation
