import BuildExpr.Proofs.Congruence
import BuildExpr.Proofs.Lookups
import BuildExpr.Proofs.References

/-!
# Other look-ups under way

A look-up under way can only make a difference by being refused, so an evaluation that succeeds does so
with fewer of them as well, and has the same value (`Engine.evaluateForest_upheld`).

A stored value is evaluated with its own property under way when an expression asks for it, and with
others when it is read. So the second chain may have a property that the first one lacks. If the first
evaluation comes to that property, it evaluates its value with the property on the chain, and that
evaluation may stand in for the whole (`Engine.evaluateTree_own`).
-/

namespace BuildExpr

/-! ## Evaluations with the same value -/

/-- An evaluation whose values another one gives as well, from faithful trees on, unless `Q` holds. -/
def Upheld (Q : Prop) (α : Type) (x y : Eval α) : Prop :=
  ∀ ⦃r s : Run⦄, r.trees.Faithful → s.trees.Faithful → ∀ a r', x r = .ok a r' →
    Q ∨ r'.trees.Faithful ∧ ∃ s', y s = .ok a s' ∧ s'.trees.Faithful

namespace Upheld

variable {Q : Prop} {α β : Type} {x y : Eval α}

/-- A value is upheld by itself. -/
theorem pure (a : α) : Upheld Q α (Pure.pure a) (Pure.pure a) := by
  rintro r s hr hs _ _ ⟨⟩
  exact .inr ⟨hr, s, rfl, hs⟩

/-- An evaluation that never gives a value is upheld by any other. -/
theorem of_error (h : ∀ r, ∃ failure r', x r = .error failure r') : Upheld Q α x y := by
  intro r s hr hs a r' hok
  obtain ⟨failure, r'', herror⟩ := h r
  rw [herror] at hok
  cases hok

/-- Two steps in a row are upheld if each of them is. -/
theorem bind {f g : α → Eval β} (hx : Upheld Q α x y) (hf : ∀ a, Upheld Q β (f a) (g a)) :
    Upheld Q β (x >>= f) (y >>= g) := by
  intro r s hr hs b r' hok
  obtain ⟨a, r₁, hr₁, hrest⟩ := Eval.bind_eq_ok hok
  rcases hx hr hs a r₁ hr₁ with hQ | ⟨hfaithful, s₁, hs₁, hfaithful'⟩
  · exact .inl hQ
  · rw [Eval.bind_apply, hs₁]
    exact hf a hfaithful hfaithful' b r' hrest

/-- Placing failures in an expression keeps the values there are. -/
theorem inExpression (expression : Text) (hx : Upheld Q α x y) :
    Upheld Q α (Eval.inExpression expression x) (Eval.inExpression expression y) := by
  intro r s hr hs a r' hok
  rcases hx hr hs a r' (Eval.inExpression_eq_ok.1 hok) with hQ | ⟨hfaithful, s', hs', hfaithful'⟩
  · exact .inl hQ
  · exact .inr ⟨hfaithful, s', Eval.inExpression_eq_ok.2 hs', hfaithful'⟩

/-- So does opening an operation around both evaluations. -/
theorem within (hx : Upheld Q α x y) : Upheld Q α (Eval.within x) (Eval.within y) := by
  intro r s hr hs a r' hok
  obtain ⟨r₁, hr₁, rfl⟩ := Eval.within_eq_ok.1 hok
  rcases hx (r := { r with depth := r.depth + 1 }) (s := { s with depth := s.depth + 1 }) hr hs a r₁
    hr₁ with hQ | ⟨hfaithful, s₁, hs₁, hfaithful'⟩
  · exact .inl hQ
  · exact .inr ⟨hfaithful, _, Eval.within_eq_ok.2 ⟨s₁, hs₁, rfl⟩, hfaithful'⟩

/-- So do footprints of their own. -/
theorem apart (hx : Upheld Q α x y) : Upheld Q α (Eval.apart x) (Eval.apart y) := by
  intro r s hr hs a r' hok
  obtain ⟨r₁, hr₁, rfl⟩ := Eval.apart_eq_ok.1 hok
  rcases hx (r := { r with footprint := {} }) (s := { s with footprint := {} }) hr hs a r₁ hr₁ with
    hQ | ⟨hfaithful, s₁, hs₁, hfaithful'⟩
  · exact .inl hQ
  · exact .inr ⟨hfaithful, _, Eval.apart_eq_ok.2 ⟨s₁, hs₁, rfl⟩, hfaithful'⟩

/-- A change to the footprint is upheld by itself. -/
theorem touch (change : Footprint → Footprint) :
    Upheld Q Unit (Eval.touch change) (Eval.touch change) := by
  rintro r s hr hs _ _ ⟨⟩
  exact .inr ⟨hr, _, rfl, hs⟩

/-- Being upheld is kept when evaluations are put together. -/
theorem congruence : Congruence (Upheld Q) where
  pure := pure
  fail _ := of_error fun r => ⟨_, r, rfl⟩
  bind := bind
  inExpression := inExpression
  within := within

end Upheld

/-! ## Chains -/

/-- Every look-up of the second chain is for a property in `E` or for one that the first chain has. -/
def Chain.Covers (E : Text → Text → Prop) (chain chain' : Chain) : Prop :=
  ∀ frame ∈ chain', E frame.target frame.property ∨
    ∃ other ∈ chain, frame.target = other.target ∧ frame.property = other.property

namespace Chain.Covers

variable {E : Text → Text → Prop} {chain chain' : Chain}

/-- What is let through by the first chain is let through by the second one, or it is in `E`. -/
theorem allowed (h : Covers E chain chain') {lookup : Lookup} (hfree : refusal? lookup chain = none) :
    refusal? lookup chain' = none ∨ E lookup.target lookup.property := by
  rw [or_iff_not_imp_right]
  intro hE
  rw [refusal?_eq_none_iff] at hfree ⊢
  intro frame hframe
  rw [Bool.eq_false_iff, ne_eq, Lookup.sameProperty_iff]
  rintro ⟨htarget, hproperty⟩
  -- A frame of the second chain that refuses the look-up is in `E` or has its like in the first one.
  rcases h frame hframe with hin | ⟨other, hother, htarget', hproperty'⟩
  · rw [htarget, hproperty] at hE
    exact hE hin
  · have hrefused : lookup.sameProperty other = true :=
      Lookup.sameProperty_iff.2 ⟨htarget.trans htarget', hproperty.trans hproperty'⟩
    rw [hfree other hother] at hrefused
    cases hrefused

/-- A look-up that is started in both chains covers itself. -/
theorem cons (h : Covers E chain chain') (lookup : Lookup) :
    Covers E (lookup :: chain) (lookup :: chain') := by
  intro frame hframe
  rcases List.mem_cons.1 hframe with rfl | hmem
  · exact .inr ⟨frame, List.mem_cons_self, rfl, rfl⟩
  · exact (h frame hmem).imp id fun ⟨other, hother, heq⟩ =>
      ⟨other, List.mem_cons_of_mem _ hother, heq⟩

end Chain.Covers

/-- Properties `E` that the second chain may have and the first one may lack, for evaluations in which
at most `remaining` operations are opened: each has a value with an expression in it, and once such a
value has been evaluated with its property on the chain, `Q` holds. -/
structure Deciding (engine : Engine) (m : Model) (remaining : Nat) (T : Scope → Prop)
    (E : Text → Text → Prop) (Q : Prop) : Prop where
  /-- The scopes there can be are those for any current target. -/
  derive (scope : Scope) (target : Text) : T scope → T (scope.derive target)
  /-- The properties have values with expressions. -/
  stored (scope : Scope) (target property : Text) : T scope → E target property →
    ∃ value, m.property? target property scope.config = some value ∧
      value.firstExpression.isNone = false
  /-- `Q` holds once such a value has been evaluated. -/
  evaluated (inner : Nat) (scope : Scope) (lookup : Lookup) (chain : Chain) (value result : Text)
    (run after : Run) : inner < remaining → T scope → E lookup.target lookup.property →
      m.property? lookup.target lookup.property scope.config = some value →
      run.trees.Faithful →
      (engine.hostAt m inner).evaluateValue (scope.derive lookup.target) (lookup :: chain) value run =
        .ok result after → Q

section

variable {engine : Engine} {m : Model} {remaining : Nat} {T : Scope → Prop}
  {E : Text → Text → Prop} {Q : Prop} (hdeciding : Deciding engine m remaining T E Q)

/-- The same scope, and a chain that the first one covers. -/
def Chain.Fewer (T : Scope → Prop) (E : Text → Text → Prop) (scope : Scope) (chain : Chain)
    (scope' : Scope) (chain' : Chain) : Prop :=
  scope' = scope ∧ T scope ∧ chain.Covers E chain'

variable {inner extra : Nat} {call call' : Call}
  (h : Call.Parallel (Upheld Q) (Chain.Fewer T E) (fun _ => True) (engine.hostAt m inner)
    (engine.hostAt m (inner + extra)) call call')

/-- An operation other than `TARGET_PROPERTY` makes no use of the chain. -/
theorem Builtin.evaluate_chainless {b : Builtin} (hb : b ≠ .targetProperty) (parameters : List Text)
    (expression : Text) (chain chain' : Chain) (scope : Scope) (host : Host) :
    b.operation.evaluate ⟨parameters, expression, chain', scope, host⟩ =
      b.operation.evaluate ⟨parameters, expression, chain, scope, host⟩ := by
  cases b with
  | targetProperty => exact absurd rfl hb
  | _ => rfl

include hdeciding h

/-- If both chains let the same look-up through, the values it leads to are the same. -/
theorem Operation.targetProperty_upheld_of_seek (hseek : seek call' = seek call) :
    Upheld Q Text (targetProperty.evaluate call) (targetProperty.evaluate call') := by
  obtain ⟨hscope, hT, hcovers⟩ := h.scope
  unfold targetProperty
  dsimp only
  rw [hseek]
  refine Upheld.bind (seek_fixed Upheld.congruence (fun change _ => Upheld.touch change) call)
    fun sought => ?_
  cases sought with
  | text value => exact Upheld.pure value
  | value lookup stored =>
    dsimp only
    rw [h.left, h.right, hscope]
    exact Upheld.apart (h.value _ _ _ _ stored trivial
      ⟨rfl, hdeciding.derive _ _ hT, hcovers.cons lookup⟩)

/-- A property that is looked up in the first chain is looked up in the second one as well, or `Q`
holds. -/
theorem Operation.targetProperty_upheld (hinner : inner < remaining) :
    Upheld Q Text (targetProperty.evaluate call) (targetProperty.evaluate call') := by
  obtain ⟨hscope, hT, hcovers⟩ := h.scope
  intro r s hr hs a r' hok
  obtain ⟨sought, r₁, hsought, hrest⟩ := Eval.bind_eq_ok hok
  obtain ⟨target, property, haddressed, hfree, hfound⟩ := seek_eq_ok hsought
  rcases hcovers.allowed hfree with hallowed | hE
  · have hmodel : call'.host.model = call.host.model := by
      rw [h.left, h.right]
      rfl
    have hseek : seek call' = seek call := by
      refine seek_eq_of_allowed h.parameters h.expression hscope hmodel hsought ?_
      intro target' property' haddressed'
      cases haddressed.symm.trans haddressed'
      exact hallowed
    exact targetProperty_upheld_of_seek hdeciding h hseek hr hs a r' hok
  · -- The first chain lets the property through, so its value is evaluated there.
    obtain ⟨value, hvalue, hexpression⟩ := hdeciding.stored call.scope target property hT hE
    rw [h.left] at hfound hrest
    have hfound' : sought = .value ⟨target, property, call.expression⟩ value := by
      rw [hfound]
      change Sought.ofValue _ (m.property? target property call.scope.config) = _
      rw [hvalue, Sought.ofValue, hexpression, if_neg Bool.false_ne_true]
    subst hfound'
    have hfixed : Upheld Q Sought (seek call) (seek call) :=
      seek_fixed Upheld.congruence (fun change _ => Upheld.touch change) call
    rcases hfixed hr hs _ r₁ hsought with hQ | ⟨hfaithful, -⟩
    · exact .inl hQ
    · obtain ⟨between, hbetween, -⟩ := Eval.apart_eq_ok.1 hrest
      exact .inl (hdeciding.evaluated inner call.scope _ call.chain value a
        { r₁ with footprint := {} } between hinner hT hE hvalue hfaithful hbetween)

/-- A built-in operation is upheld by itself with the other look-ups under way, since only
`TARGET_PROPERTY` takes notice of them. -/
theorem Builtin.evaluate_upheld (b : Builtin) (hinner : inner < remaining) :
    Upheld Q Text (b.operation.evaluate call) (b.operation.evaluate call') := by
  by_cases hproperty : b = .targetProperty
  · subst hproperty
    exact Operation.targetProperty_upheld hdeciding h hinner
  · -- Neither the chain nor the number of operations left makes a difference to the others.
    have hsame : b.operation.evaluate call' = b.operation.evaluate call := by
      obtain ⟨parameters, expression, chain, scope, host⟩ := call
      obtain ⟨parameters', expression', chain', scope', host'⟩ := call'
      obtain ⟨hparameters, hexpression, ⟨hscope, -, -⟩, hleft, hright, -⟩ := h
      dsimp only at hparameters hexpression hscope hleft hright
      subst hparameters hexpression hscope hleft hright
      calc b.operation.evaluate ⟨_, _, chain', _, engine.hostAt m (inner + extra)⟩
        _ = b.operation.evaluate ⟨_, _, chain, _, engine.hostAt m (inner + extra)⟩ :=
          evaluate_chainless hproperty ..
        _ = b.operation.evaluate ⟨_, _, chain, _, engine.hostAt m inner⟩ :=
          evaluate_host hproperty _ _ _ _ _ _ rfl
    rw [hsame]
    by_cases hfeatures : b = .compileFeatures
    · subst hfeatures
      exact Operation.compileFeatures_fixed Upheld.congruence (fun change _ => Upheld.touch change)
        (fun _ _ => Upheld.touch _) call
    · exact evaluate_fixed Upheld.congruence (fun change _ => Upheld.touch change) hproperty hfeatures
        call

end

/-- Reading the tree of a value is upheld by itself. -/
theorem Engine.valueTree_upheld {Q : Prop} (engine : Engine) (value : Text) :
    Upheld Q Tree (engine.valueTree value) (engine.valueTree value) := by
  intro r s hr hs tree r' hok
  rw [engine.valueTree_apply value hr] at hok
  cases hok
  exact .inr ⟨engine.fetch_snd hr value, _, engine.valueTree_apply value hs, engine.fetch_snd hs value⟩

section

variable {engine : Engine} (hbuiltin : engine.registry.added = []) {m : Model} {remaining : Nat}
  {T : Scope → Prop} {E : Text → Text → Prop} {Q : Prop}

include hbuiltin

/-- An evaluation that succeeds does so with look-ups under way that the first chain covers as well, and
where more operations may be opened, and has the same value. -/
theorem Engine.evaluateForest_upheld (hdeciding : Deciding engine m remaining T E Q) (extra : Nat)
    {scope : Scope} (hT : T scope) {chain chain' : Chain} (hcovers : chain.Covers E chain')
    (source : Text) (nodes : Forest) :
    Upheld Q Text (engine.evaluateForest m remaining scope chain source nodes)
      (engine.evaluateForest m (remaining + extra) scope chain' source nodes) := by
  have hR : Congruence (Upheld Q) := Upheld.congruence
  refine Engine.evaluateForest_parallel (S := Chain.Fewer T E) (V := fun _ => True) hR rfl ?_ extra ?_
    remaining ?_ source nodes ⟨rfl, hT, hcovers⟩
  · intro forest forest' hforest value _
    exact hR.bind (engine.valueTree_upheld value) fun tree => hR.evaluateTree hforest tree
  · -- With no more operations to open, the first one that is opened fails.
    intro scope chain scope' chain' source nodes _
    obtain ⟨operation, heq⟩ := engine.evaluateForest_eq m extra scope' chain' source
    rw [heq]
    exact hR.evaluateWith (fun _ _ span => Upheld.of_error fun r => ⟨_, r, rfl⟩) nodes
  · intro name op hfind inner hinner call call' hcall
    obtain ⟨b, -, rfl⟩ := Registry.exists_builtin hbuiltin hfind
    exact b.evaluate_upheld hdeciding hcall hinner

/-- With fewer look-ups under way, and where more operations may be opened, a tree has the same
value. -/
theorem Engine.evaluateTree_fewer {inner : Nat} (hinner : inner ≤ remaining) {chain chain' : Chain}
    (hcovers : chain.Covers (fun _ _ => False) chain') (scope : Scope) (tree : Tree)
    {run after start : Run} {value : Text} (hrun : run.trees.Faithful)
    (hok : engine.evaluateTree m inner scope chain tree run = .ok value after)
    (hstart : start.trees.Faithful) :
    ∃ after', engine.evaluateTree m remaining scope chain' tree start = .ok value after' := by
  obtain ⟨extra, rfl⟩ := Nat.exists_eq_add_of_le hinner
  have hdeciding : Deciding engine m inner (fun _ => True) (fun _ _ => False) False :=
    ⟨fun _ _ h => h, fun _ _ _ _ h => h.elim, fun _ _ _ _ _ _ _ _ _ _ h => h.elim⟩
  have hforest (source : Text) (nodes : Forest) :
      Upheld False Text (engine.evaluateForest m inner scope chain source nodes)
        (engine.evaluateForest m (inner + extra) scope chain' source nodes) :=
    Engine.evaluateForest_upheld hbuiltin hdeciding extra trivial hcovers source nodes
  have htree := Upheld.congruence.evaluateTree hforest tree
  rcases htree hrun hstart value after hok with hfalse | ⟨-, after', hok', -⟩
  · exact hfalse.elim
  · exact ⟨after', hok'⟩

/-- Inside, where fewer operations may be opened, a stored value has been evaluated with its own look-up
under way. -/
def Engine.EvaluatedInside (engine : Engine) (m : Model) (remaining : Nat) (scope : Scope)
    (head property stored : Text) : Prop :=
  ∃ inner < remaining, ∃ content chain result, ∃ run after : Run, run.trees.Faithful ∧
    engine.evaluateTree m inner scope (⟨head, property, content⟩ :: chain) (engine.parse stored) run =
      .ok result after

omit hbuiltin in
/-- A chain may have the property itself where another one lacks it: if that decides anything, its value
has been evaluated inside. -/
theorem Engine.deciding_own {scope : Scope} {head property stored : Text}
    (hcurrent : scope.derive head = scope)
    (hstored : m.property? head property scope.config = some stored)
    (hexpression : stored.firstExpression.isNone = false) :
    Deciding engine m remaining (fun s => ∃ current, s = { scope with current })
      (fun target name => target = head ∧ name = property)
      (engine.EvaluatedInside m remaining scope head property stored) := by
  refine ⟨?_, ?_, ?_⟩
  · rintro _ target ⟨current, rfl⟩
    exact ⟨some target, rfl⟩
  · rintro _ target name ⟨current, rfl⟩ ⟨rfl, rfl⟩
    exact ⟨stored, hstored, hexpression⟩
  · rintro inner _ ⟨target, name, content⟩ chain stored' result run after hinner ⟨current, rfl⟩
      ⟨rfl, rfl⟩ hstored' hfaithful hok
    cases hstored.symm.trans hstored'
    have htree := Eval.bind_eq_ok hok
    rw [engine.valueTree_apply stored hfaithful] at htree
    obtain ⟨tree, between, htree, hvalue⟩ := htree
    cases htree
    rw [show ({ scope with current } : Scope).derive target = scope from hcurrent] at hvalue
    exact ⟨inner, hinner, content, chain, result, _, after, engine.fetch_snd hfaithful stored, hvalue⟩

/-- Whatever look-ups are under way, if a stored value is evaluated without failure for its target, it
has the same value with its own look-up under way and no other one. -/
theorem Engine.evaluateTree_own {scope : Scope} {head property stored : Text}
    (hcurrent : scope.derive head = scope)
    (hstored : m.property? head property scope.config = some stored)
    (hexpression : stored.firstExpression.isNone = false) (chain : Chain) (content : Text)
    {run after start : Run} {value : Text} (hrun : run.trees.Faithful)
    (hok : engine.evaluateTree m remaining scope chain (engine.parse stored) run = .ok value after)
    (hstart : start.trees.Faithful) :
    ∃ after', engine.evaluateTree m remaining scope [⟨head, property, content⟩] (engine.parse stored)
      start = .ok value after' := by
  have hcovers : chain.Covers (fun target name => target = head ∧ name = property)
      [⟨head, property, content⟩] := by
    intro frame hframe
    rw [List.mem_singleton.1 hframe]
    exact .inl ⟨rfl, rfl⟩
  have hdeciding :
      Deciding engine m remaining (fun s => ∃ current, s = { scope with current }) _ _ :=
    engine.deciding_own hcurrent hstored hexpression
  have hforest (source : Text) (nodes : Forest) :
      Upheld (engine.EvaluatedInside m remaining scope head property stored) Text
        (engine.evaluateForest m remaining scope chain source nodes)
        (engine.evaluateForest m (remaining + 0) scope [⟨head, property, content⟩] source nodes) :=
    Engine.evaluateForest_upheld hbuiltin hdeciding 0 ⟨scope.current, rfl⟩ hcovers source nodes
  have htree := Upheld.congruence.evaluateTree hforest (engine.parse stored)
  rcases htree hrun hstart value after hok with
    ⟨inner, hinner, content', chain', result, run', after', hrun', hok'⟩ | ⟨-, after', hok', -⟩
  · -- Without any look-up under way the evaluation inside gives what the whole one does.
    have hempty (chain : Chain) : chain.Covers (fun _ _ => False) [] := fun _ hframe => nomatch hframe
    obtain ⟨_, hinside⟩ := Engine.evaluateTree_fewer hbuiltin (Nat.le_of_lt hinner) (hempty _) scope
      (engine.parse stored) hrun' hok' hstart
    obtain ⟨_, houtside⟩ := Engine.evaluateTree_fewer hbuiltin (Nat.le_refl remaining) (hempty _) scope
      (engine.parse stored) hrun hok hstart
    cases hinside.symm.trans houtside
    refine Engine.evaluateTree_fewer hbuiltin (Nat.le_of_lt hinner) ?_ scope (engine.parse stored) hrun'
      hok' hstart
    intro frame hframe
    rw [List.mem_singleton.1 hframe]
    exact .inr ⟨_, List.mem_cons_self, rfl, rfl⟩
  · exact ⟨after', hok'⟩

end

end BuildExpr
