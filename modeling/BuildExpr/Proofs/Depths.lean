import BuildExpr.Proofs.Limits
import BuildExpr.Proofs.Spelling

/-!
# How many operations are open around an evaluation

The number of operations that are open around an evaluation decides how many more may be opened in
it, and nothing else. So an evaluation that does not fail at the nesting limit ends in the same way
with fewer operations open around it (`Engine.evaluateForest_shallower`). And since whatever fails in
a forest fails inside one of its operations, an expression around the forest does not become the place
of the failure (`Engine.evaluateForest_placed`). Taken together: an operation that only passes on the
value of a forest may as well not be there.
-/

namespace BuildExpr

/-- Runs that have noted and sent the same, with faithful trees. The number of operations open need not
be the same. -/
structure Run.SameButDepth (r s : Run) : Prop where
  /-- They have noted the same. -/
  footprint : r.footprint = s.footprint
  /-- They have sent the same messages. -/
  messages : r.messages = s.messages
  /-- The first trees are faithful. -/
  left : r.trees.Faithful
  /-- So are the second ones. -/
  right : s.trees.Faithful

/-- Opening and closing operations on either side is allowed. -/
theorem Run.SameButDepth.withDepths {r s : Run} (h : SameButDepth r s) (depth depth' : Nat) :
    SameButDepth { r with depth } { s with depth := depth' } :=
  ⟨h.footprint, h.messages, h.left, h.right⟩

/-- An evaluation, and one that ends like it with another number of operations open, unless the first
one fails at the nesting limit. -/
def Shallower (α : Type) (x y : Eval α) : Prop :=
  ∀ ⦃r s : Run⦄, Run.SameButDepth r s →
    PastLimit (x r) ∨ EndsAlike Run.SameButDepth (x r) (y s)

namespace Shallower

variable {α β : Type} {x y : Eval α}

/-- Two steps in a row end alike with fewer operations open if each of them does. -/
theorem bind {f g : α → Eval β} (hx : Shallower α x y) (hf : ∀ a, Shallower β (f a) (g a)) :
    Shallower β (x >>= f) (y >>= g) :=
  fun _ _ h => PastLimit.or_bind (hx h) fun a _ _ h' => hf a h'

/-- Ending alike whatever number of operations is open is kept when evaluations are put together. -/
theorem congruence : Congruence Shallower where
  pure a _ _ h := .inr (.ok a h)
  fail _ _ _ h := .inr (.error _ h)
  bind := bind
  inExpression expression hx _ _ h :=
    (hx h).imp (·.inExpression expression) (·.inExpression expression)
  within hx _ _ h :=
    (hx (h.withDepths _ _)).imp (·.within) (·.within fun h => h.withDepths _ _)

/-- So does an evaluation with a footprint of its own. -/
theorem apart (hx : Shallower α x y) : Shallower α (Eval.apart x) (Eval.apart y) := by
  intro r s h
  have hbegun : Run.SameButDepth { r with footprint := {} } { s with footprint := {} } :=
    ⟨rfl, h.messages, h.left, h.right⟩
  refine (hx hbegun).imp (·.apart) (·.apart (fun h h' => ?_) h)
  exact ⟨by rw [h.footprint, h'.footprint], h'.messages, h'.left, h'.right⟩

/-- So does a change to the footprint. -/
theorem touch (change : Footprint → Footprint) :
    Shallower Unit (Eval.touch change) (Eval.touch change) := fun _ _ h =>
  .inr (.ok () ⟨congrArg change h.footprint, h.messages, h.left, h.right⟩)

/-- One more operation open around the first evaluation makes no difference. -/
theorem within_left (hx : Shallower α x y) : Shallower α (Eval.within x) y := by
  intro r s h
  rcases hx (h.withDepths (r.depth + 1) s.depth) with hpast | halike
  · exact .inl hpast.within
  · rw [Eval.within_apply]
    rcases halike.ends with ⟨a, r', s', hr, hs, h'⟩ | ⟨failure, r', s', hr, hs, h'⟩
    · rw [hr, hs]
      exact .inr (.ok a (h'.withDepths _ _))
    · rw [hr, hs]
      exact .inr (.error failure (h'.withDepths _ _))

end Shallower

/-! ## The place of a failure -/

/-- An evaluation whose failures all have a place. -/
def Eval.Placed {α : Type} (x : Eval α) : Prop :=
  ∀ run failure after, x run = .error failure after → failure.expression.isSome = true

namespace Eval.Placed

variable {α β : Type} {x : Eval α}

/-- A value is no failure without a place. -/
theorem pure (a : α) : Placed (Pure.pure a : Eval α) := by
  intro run failure after h
  cases h

/-- The failures of two steps in a row are those of the one and the other. -/
theorem bind {f : α → Eval β} (hx : Placed x) (hf : ∀ a, Placed (f a)) : Placed (x >>= f) := by
  intro run failure after h
  rw [bind_apply] at h
  cases hr : x run with
  | ok a between =>
    rw [hr] at h
    exact hf a between failure after h
  | error inner between =>
    rw [hr] at h
    cases h
    exact hx run failure after hr

/-- In an expression, every failure is given a place. -/
theorem inExpression (expression : Text) (x : Eval α) :
    Placed (Eval.inExpression expression x) := by
  intro run failure after h
  unfold Eval.inExpression at h
  cases hr : x run with
  | ok a between =>
    rw [hr] at h
    cases h
  | error inner between =>
    rw [hr] at h
    cases h
    cases hplace : inner.expression with
    | none => simp [Failure.inExpression, hplace]
    | some place => simp [Failure.inExpression, hplace]

/-- Opening an operation around an evaluation leaves the places of its failures. -/
theorem within (hx : Placed x) : Placed (Eval.within x) := by
  intro run failure after h
  rw [within_apply] at h
  cases hr : x { run with depth := run.depth + 1 } with
  | ok a between =>
    rw [hr] at h
    cases h
  | error inner between =>
    rw [hr] at h
    cases h
    exact hx _ failure between hr

/-- An expression around it is not the place of any failure. -/
theorem inExpression_eq (hx : Placed x) (expression : Text) :
    Eval.inExpression expression x = x := by
  funext run
  unfold Eval.inExpression
  cases hr : x run with
  | ok a after => rfl
  | error failure after =>
    obtain ⟨place, hplace⟩ := Option.isSome_iff_exists.1 (hx run failure after hr)
    dsimp only
    rw [Failure.inExpression, hplace]
    obtain ⟨cause, expression'⟩ := failure
    dsimp only at hplace
    rw [hplace]
    rfl

end Eval.Placed

open Eval (Placed)

/-- The failures of a forest have a place if those of its operations do. -/
theorem Forest.evaluateWith_placed {operation : Forest → List Forest → Span → Eval Text}
    (h : ∀ name parameters span, Placed (operation name parameters span)) (nodes : Forest) :
    Placed (nodes.evaluateWith operation) := by
  induction nodes with
  | nil => exact .pure []
  | cons node rest ih =>
    cases node with
    | text value => exact ih.bind fun _ => .pure _
    | operation name parameters span =>
      exact (h name parameters span).bind fun _ => ih.bind fun _ => .pure _

namespace Engine

/-- Whatever fails in a forest fails inside one of its operations. -/
theorem evaluateForest_placed (engine : Engine) (m : Model) (remaining : Nat) (scope : Scope)
    (chain : Chain) (source : Text) (nodes : Forest) :
    Placed (engine.evaluateForest m remaining scope chain source nodes) := by
  cases remaining with
  | zero => exact Forest.evaluateWith_placed (fun _ _ _ => .inExpression _ _) nodes
  | succ remaining =>
    exact Forest.evaluateWith_placed (fun _ _ _ => .within (.inExpression _ _)) nodes

/-! ## Forests under fewer operations -/

/-- The tree of a property value is the same however many operations are open. -/
theorem valueTree_shallower (engine : Engine) (value : Text) :
    Shallower Tree (engine.valueTree value) (engine.valueTree value) := by
  intro r s h
  rw [engine.valueTree_apply value h.left, engine.valueTree_apply value h.right]
  exact .inr (.ok _ ⟨h.footprint, h.messages, engine.fetch_snd h.left value,
    engine.fetch_snd h.right value⟩)

/-- Where more operations may be opened, a forest that does not need them ends in the same way. -/
theorem evaluateForest_shallower {engine : Engine} (hbuiltin : engine.registry.added = [])
    (m : Model) (remaining extra : Nat) (scope : Scope) (chain : Chain) (source : Text)
    (nodes : Forest) :
    Shallower Text (engine.evaluateForest m remaining scope chain source nodes)
      (engine.evaluateForest m (remaining + extra) scope chain source nodes) := by
  have hR : Congruence Shallower := Shallower.congruence
  refine Engine.evaluateForest_deeper hR (fun _ _ hpast r _ _ => .inl (hpast r)) Shallower.touch
    (fun _ _ hx => hx.apart) rfl hbuiltin ?_ m remaining extra scope chain source nodes
  intro forest forest' hforest value
  exact hR.bind (engine.valueTree_shallower value) fun tree => hR.evaluateTree hforest tree

end Engine

end BuildExpr
