import BuildExpr.Proofs.Concatenation
import BuildExpr.Proofs.Excerpts
import BuildExpr.Proofs.Failing

/-!
# Where failures come from

A failure arises in one operation: in opening it, in finding it by its name, in its being given a number of
parameters that it does not take, or in carrying it out on their values. All operations that are open around
that one pass it on. The text of the innermost operation is the one that is reported
(`Walk.failsWith_iff`), although every operation on the way out, in one text after another, offers its own.

Which operation that is says `Walk.FailsAt`, by following the evaluator to the failure: to an operation of the
tree (`Walk.Reaches`), and from there to what is evaluated inside it, its name, a parameter, or a stored value
that it looks up (`Occurrence.Enters`), until an operation fails by itself (`Occurrence.FailsItself`).
-/

namespace BuildExpr

open Eval (FailsWith)

/-! ## Following an evaluation -/

/-- The evaluation of a tree: what it is carried out for, the look-ups under way, the tree, and the run it
starts from. -/
structure Walk where
  /-- What it is carried out for. -/
  scope : Scope
  /-- The look-ups under way. -/
  chain : Chain
  /-- The tree. -/
  tree : Tree
  /-- The run it starts from. -/
  run : Run

/-- An operation that an evaluation comes to. -/
structure Occurrence where
  /-- What the evaluation is carried out for. -/
  scope : Scope
  /-- The look-ups under way. -/
  chain : Chain
  /-- The text that the operation is written in. -/
  source : Text
  /-- Its name. -/
  name : Forest
  /-- Its parameters. -/
  parameters : List Forest
  /-- Where it is written. -/
  span : Span
  /-- The run in which it is opened. -/
  run : Run

namespace Occurrence

/-- The operation as it is written. -/
def text (o : Occurrence) : Text := o.source.cut o.span

/-- The run inside the operation. -/
def entered (o : Occurrence) : Run := { o.run with depth := o.run.depth + 1 }

end Occurrence

section

variable (engine : Engine) (m : Model) (remaining : Nat)

/-- An evaluation comes to an operation of its tree when it has evaluated all in front of it. -/
inductive Walk.Reaches : Walk → Occurrence → Prop
  | intro {scope : Scope} {chain : Chain} {source : Text} {before name rest : Forest}
    {parameters : List Forest} {span : Span} {run after : Run} {value : Text}
    (hbefore : engine.evaluateForest m remaining scope chain source before run = .ok value after) :
    Reaches ⟨scope, chain, .forest source (before ++ .operation name parameters span :: rest), run⟩
      ⟨scope, chain, source, name, parameters, span, after⟩

namespace Occurrence

variable (o : Occurrence)

/-- The evaluation of a forest inside an operation. -/
def inner : Forest → Eval Text := engine.evaluateForest m remaining o.scope o.chain o.source

/-- The name of an operation has been evaluated, and there is an operation of that name. -/
def Found (op : Operation) (after : Run) : Prop :=
  ∃ called, o.inner engine m remaining o.name o.entered = .ok called after ∧
    engine.registry.find? called = some op

/-- An operation has been found and is given as many parameters as it takes, with these values. -/
inductive Calls : Operation → Call → Run → Prop
  | intro {op : Operation} {values : List Text} {found after : Run}
    (hfound : o.Found engine m remaining op found)
    (hcount : op.countRefusal? o.parameters.length = none) (hgenerates : op.generates = true)
    (hvalues : op.evaluateParameters (o.inner engine m remaining) o.parameters found =
      .ok values after) :
    Calls op ⟨values, o.text, o.chain, o.scope, engine.hostAt m remaining⟩ after

/-- An operation that has been opened fails by itself. -/
inductive FailsItself : Cause → Prop
  /-- There is no operation of its name. -/
  | unknown {called : Text} {after : Run}
    (hname : o.inner engine m remaining o.name o.entered = .ok called after)
    (hfind : engine.registry.find? called = none) : FailsItself (.unknownOperation called)
  /-- It does not take so many parameters. -/
  | count {op : Operation} {after : Run} {cause : Cause} (hfound : o.Found engine m remaining op after)
    (hcount : op.countRefusal? o.parameters.length = some cause) : FailsItself cause
  /-- It looks no property up and fails for the values of its parameters. -/
  | evaluation {b : Builtin} {call : Call} {after : Run} {failure : Failure}
    (hcalls : o.Calls engine m remaining b.operation call after) (hproperty : b ≠ .targetProperty)
    (h : (b.operation.evaluate call).FailsWith after failure) : FailsItself failure.cause
  /-- It looks a property up that it may not or cannot look up. -/
  | address {call : Call} {after : Run} {failure : Failure}
    (hcalls : o.Calls engine m remaining .targetProperty call after)
    (h : (Operation.seek call).FailsWith after failure) : FailsItself failure.cause

/-- What an operation that has been opened comes to evaluate. -/
inductive Enters : Walk → Prop
  /-- Its name. -/
  | name : Enters ⟨o.scope, o.chain, .forest o.source o.name, o.entered⟩
  /-- A parameter that it needs, after those in front. -/
  | parameter {op : Operation} {before rest : List Forest} {parameter : Forest} {values : List Text}
    {found after : Run} (hfound : o.Found engine m remaining op found)
    (hcount : op.countRefusal? o.parameters.length = none) (hgenerates : op.generates = true)
    (hsplit : o.parameters = before ++ parameter :: rest)
    (hvalues : op.evaluateRest (o.inner engine m remaining)
      (op.effectiveCount o.parameters.length - 1) 0 [] before found = .ok values after)
    (hneeded : 0 < before.length → op.wantsNext values = true) :
    Enters ⟨o.scope, o.chain, .forest o.source parameter, after⟩
  /-- The stored value of a property that it looks up. -/
  | value {call : Call} {found after : Run} {lookup : Lookup} {stored : Text}
    (hcalls : o.Calls engine m remaining .targetProperty call found)
    (hseek : Operation.seek call found = .ok (.value lookup stored) after) :
    Enters ⟨o.scope.derive lookup.target, lookup :: o.chain, (engine.fetch after.trees stored).1,
      { after with footprint := {}, trees := (engine.fetch after.trees stored).2 }⟩

end Occurrence

end

/-- An evaluation in which so many operations may be opened fails for a cause in an expression, inside other
ones that are open around that, from the inside to the outside. -/
inductive Walk.FailsAt (engine : Engine) (m : Model) : Nat → Walk → Cause → Text → List Text → Prop
  /-- A tree that nests too deep fails as a whole. -/
  | overflow {remaining : Nat} {scope : Scope} {chain : Chain} {source : Text} {depth limit : Nat}
    {run : Run} :
    FailsAt engine m remaining ⟨scope, chain, .tooDeep source depth limit, run⟩
      (.nestingTooDeep depth limit) source []
  /-- No more operations may be opened. -/
  | entry {w : Walk} {o : Occurrence} (hreaches : w.Reaches engine m 0 o) :
    FailsAt engine m 0 w (.nestingTooDeep (o.run.depth + 1) engine.limit) o.text []
  /-- An operation fails by itself. -/
  | itself {remaining : Nat} {w : Walk} {o : Occurrence} {cause : Cause}
    (hreaches : w.Reaches engine m (remaining + 1) o)
    (h : o.FailsItself engine m remaining cause) :
    FailsAt engine m (remaining + 1) w cause o.text []
  /-- What is evaluated inside an operation fails. -/
  | inside {remaining : Nat} {w inner : Walk} {o : Occurrence} {cause : Cause} {text : Text}
    {around : List Text} (hreaches : w.Reaches engine m (remaining + 1) o)
    (henters : o.Enters engine m remaining inner)
    (h : FailsAt engine m remaining inner cause text around) :
    FailsAt engine m (remaining + 1) w cause text (around ++ [o.text])

/-! ## The expression of a failure -/

/-- The value of an operation written in a text when `remaining` more operations may be opened. -/
def Engine.operationAt (engine : Engine) (m : Model) :
    Nat → Scope → Chain → Text → Forest → List Forest → Span → Eval Text
  | 0, _, _, source, _, _, span =>
    Eval.inExpression (source.cut span) do
      let run ← get
      Eval.fail (.nestingTooDeep (run.depth + 1) engine.limit)
  | remaining + 1, scope, chain, source, name, parameters, span =>
    engine.evaluateOperation m (engine.evaluateForest m remaining) scope chain source name parameters span

/-- A forest is evaluated operation by operation, whether or not any may still be opened. -/
theorem Engine.evaluateForest_operationAt (engine : Engine) (m : Model) (remaining : Nat) (scope : Scope)
    (chain : Chain) (source : Text) (nodes : Forest) :
    engine.evaluateForest m remaining scope chain source nodes =
      nodes.evaluateWith (engine.operationAt m remaining scope chain source) := by
  cases remaining with
  | zero => rfl
  | succ remaining => rfl

/-- The evaluation of an operation that an evaluation comes to. -/
def Occurrence.evaluate (engine : Engine) (m : Model) (remaining : Nat) (o : Occurrence) : Eval Text :=
  engine.operationAt m remaining o.scope o.chain o.source o.name o.parameters o.span

variable {engine : Engine} {m : Model} {failure : Failure}

/-- An evaluation fails because its tree nests too deep or as an operation does that it comes to. -/
theorem Walk.failsWith_evaluateTree {remaining : Nat} {w : Walk} :
    (engine.evaluateTree m remaining w.scope w.chain w.tree).FailsWith w.run failure ↔
      (∃ source depth limit, w.tree = .tooDeep source depth limit ∧
        failure = ⟨.nestingTooDeep depth limit, some source⟩) ∨
      ∃ o, w.Reaches engine m remaining o ∧ (o.evaluate engine m remaining).FailsWith o.run failure := by
  obtain ⟨scope, chain, tree, run⟩ := w
  cases tree with
  | plain source =>
    -- Nothing is evaluated in plain text, and nothing fails.
    refine iff_of_false (Eval.not_failsWith_pure source) ?_
    rintro (⟨_, _, _, h, -⟩ | ⟨o, h, -⟩)
    · cases h
    · cases h
  | tooDeep source depth limit =>
    have hfails := Eval.failsWith_error (x := engine.evaluateTree m remaining scope chain
      (.tooDeep source depth limit)) ⟨.nestingTooDeep depth limit, some source⟩ run rfl failure
    constructor
    · intro h
      exact .inl ⟨source, depth, limit, rfl, hfails.1 h⟩
    · rintro (⟨_, _, _, h, heq⟩ | ⟨o, h, -⟩)
      · cases h
        exact hfails.2 heq
      · cases h
  | forest source nodes =>
    -- The first operation in the forest that fails is where its evaluation ends.
    change (engine.evaluateForest m remaining scope chain source nodes).FailsWith run failure ↔ _
    rw [engine.evaluateForest_operationAt, Forest.failsWith_evaluateWith]
    constructor
    · rintro ⟨before, name, parameters, span, rest, value, after, rfl, hbefore, h⟩
      rw [← engine.evaluateForest_operationAt] at hbefore
      exact .inr ⟨_, .intro hbefore, h⟩
    · rintro (⟨_, _, _, h, -⟩ | ⟨o, hreaches, h⟩)
      · cases h
      · cases hreaches with
        | intro hbefore =>
          rw [engine.evaluateForest_operationAt] at hbefore
          exact ⟨_, _, _, _, _, _, _, rfl, hbefore, h⟩

/-- Where no more operations may be opened, one fails with the limit, in its own text. -/
theorem Occurrence.failsWith_zero {o : Occurrence} :
    (o.evaluate engine m 0).FailsWith o.run failure ↔
      failure = ⟨.nestingTooDeep (o.run.depth + 1) engine.limit, some o.text⟩ :=
  Eval.failsWith_error _ o.run rfl failure

namespace Occurrence

variable {remaining : Nat} {o : Occurrence}

/-- An operation fails as its name does, because there is no operation of that name, or as the one does that
there is. -/
theorem failsWith_opened :
    (o.evaluate engine m (remaining + 1)).FailsWith o.run failure ↔
      ∃ inside, failure = inside.inExpression o.text ∧
        ((o.inner engine m remaining o.name).FailsWith o.entered inside ∨
          (∃ called found, o.inner engine m remaining o.name o.entered = .ok called found ∧
            engine.registry.find? called = none ∧ inside = ⟨.unknownOperation called, none⟩) ∨
          ∃ op found, o.Found engine m remaining op found ∧
            (op.carryOut (o.inner engine m remaining) o.parameters fun values =>
              ⟨values, o.text, o.chain, o.scope, engine.hostAt m remaining⟩).FailsWith found inside) := by
  change (Eval.within (Eval.inExpression o.text _)).FailsWith o.run failure ↔ _
  rw [Eval.failsWith_within, Eval.failsWith_inExpression]
  refine exists_congr fun inside => ?_
  rw [and_comm, and_congr_right_iff]
  -- The name is evaluated first, then looked up, and then the operation is carried out.
  intro _
  rw [Eval.failsWith_bind]
  refine or_congr_right ?_
  constructor
  · rintro ⟨called, found, hname, h⟩
    cases hfind : engine.registry.find? called with
    | none =>
      rw [hfind] at h
      exact .inl ⟨called, found, hname, hfind, (Eval.failsWith_fail _).1 h⟩
    | some op =>
      rw [hfind] at h
      exact .inr ⟨op, found, ⟨called, hname, hfind⟩, h⟩
  · rintro (⟨called, found, hname, hfind, heq⟩ | ⟨op, found, ⟨called, hname, hfind⟩, h⟩)
    · refine ⟨called, found, hname, ?_⟩
      rw [hfind]
      exact (Eval.failsWith_fail _).2 heq
    · refine ⟨called, found, hname, ?_⟩
      rw [hfind]
      exact h

/-- An operation that has been called fails as its call does. -/
theorem Calls.failsWith {op : Operation} {call : Call} {after : Run}
    (hcalls : o.Calls engine m remaining op call after) (h : (op.evaluate call).FailsWith after failure) :
    (o.evaluate engine m (remaining + 1)).FailsWith o.run (failure.inExpression o.text) := by
  cases hcalls with
  | intro hfound hcount hgenerates hvalues =>
    refine failsWith_opened.2 ⟨failure, rfl, .inr (.inr ⟨op, _, hfound, ?_⟩)⟩
    exact Operation.failsWith_carryOut.2 (.inr ⟨hcount, hgenerates, .inr ⟨_, after, hvalues, h⟩⟩)

/-- An operation that fails by itself is the place of the failure. -/
theorem FailsItself.failsWith {cause : Cause} (h : o.FailsItself engine m remaining cause) :
    (o.evaluate engine m (remaining + 1)).FailsWith o.run ⟨cause, some o.text⟩ := by
  cases h with
  | unknown hname hfind =>
    exact failsWith_opened.2 ⟨_, rfl, .inr (.inl ⟨_, _, hname, hfind, rfl⟩)⟩
  | count hfound hcount =>
    refine failsWith_opened.2 ⟨⟨cause, none⟩, rfl, .inr (.inr ⟨_, _, hfound, ?_⟩)⟩
    exact Operation.failsWith_carryOut.2 (.inl ⟨cause, hcount, rfl⟩)
  | evaluation hcalls hproperty h =>
    have hplace := Builtin.evaluate_unplaced hproperty _ _ _ h
    have hfails := hcalls.failsWith h
    rwa [Failure.inExpression, hplace] at hfails
  | address hcalls h =>
    have hplace := Operation.seek_unplaced _ _ _ h
    have hfails := hcalls.failsWith (Operation.failsWith_targetProperty.2 (.inl h))
    rwa [Failure.inExpression, hplace] at hfails

/-- An operation passes on the failure of what it evaluates. -/
theorem Enters.failsWith {w : Walk} (henters : o.Enters engine m remaining w)
    (h : (engine.evaluateTree m remaining w.scope w.chain w.tree).FailsWith w.run failure) :
    (o.evaluate engine m (remaining + 1)).FailsWith o.run (failure.inExpression o.text) := by
  cases henters with
  | name => exact failsWith_opened.2 ⟨failure, rfl, .inl h⟩
  | parameter hfound hcount hgenerates hsplit hvalues hneeded =>
    refine failsWith_opened.2 ⟨failure, rfl, .inr (.inr ⟨_, _, hfound, ?_⟩)⟩
    refine Operation.failsWith_carryOut.2 (.inr ⟨hcount, hgenerates, .inl ?_⟩)
    refine Operation.failsWith_evaluateRest.2 ⟨_, _, _, _, _, hsplit, hvalues, ?_, h⟩
    rwa [Nat.zero_add]
  | value hcalls hseek =>
    cases hcalls with
    | intro hfound hcount hgenerates hvalues =>
      refine (Calls.intro hfound hcount hgenerates hvalues).failsWith
        (Operation.failsWith_targetProperty.2 (.inr ⟨_, _, _, hseek, ?_⟩))
      exact Engine.failsWith_evaluateValue.2 h

end Occurrence

variable (hbuiltin : engine.registry.added = [])

include hbuiltin

/-- An operation fails by itself, and is the place of the failure, or it passes on the failure of something
inside it. -/
theorem Occurrence.failsWith_succ {remaining : Nat} {o : Occurrence} :
    (o.evaluate engine m (remaining + 1)).FailsWith o.run failure ↔
      (∃ cause, o.FailsItself engine m remaining cause ∧ failure = ⟨cause, some o.text⟩) ∨
      ∃ w, o.Enters engine m remaining w ∧ ∃ inside,
        (engine.evaluateTree m remaining w.scope w.chain w.tree).FailsWith w.run inside ∧
          failure = inside.inExpression o.text := by
  constructor
  · intro h
    obtain ⟨inside, rfl, h | ⟨called, found, hname, hfind, rfl⟩ | ⟨op, found, hfound, h⟩⟩ :=
      failsWith_opened.1 h
    · exact .inr ⟨_, .name, inside, h, rfl⟩
    · exact .inl ⟨_, .unknown hname hfind, rfl⟩
    · rcases Operation.failsWith_carryOut.1 h with
        ⟨cause, hcount, rfl⟩ | ⟨hcount, hgenerates, h | ⟨values, after, hvalues, h⟩⟩
      · exact .inl ⟨cause, .count hfound hcount, rfl⟩
      · obtain ⟨before, parameter, rest, values, after, hsplit, hvalues, hneeded, h⟩ :=
          Operation.failsWith_evaluateRest.1 h
        rw [Nat.zero_add] at hneeded
        exact .inr ⟨_, .parameter hfound hcount hgenerates hsplit hvalues hneeded, inside, h, rfl⟩
      · have hcalls := Calls.intro hfound hcount hgenerates hvalues
        -- Of the built-in operations, only the one that looks properties up evaluates anything more.
        obtain ⟨called, -, hfind⟩ := hfound
        obtain ⟨b, -, rfl⟩ := Registry.exists_builtin hbuiltin hfind
        by_cases hproperty : b = .targetProperty
        · subst hproperty
          rcases Operation.failsWith_targetProperty.1 h with h | ⟨lookup, stored, after', hseek, h⟩
          · have hplace := Operation.seek_unplaced _ _ _ h
            exact .inl ⟨_, .address hcalls h, by rw [Failure.inExpression, hplace]; rfl⟩
          · exact .inr ⟨_, .value hcalls hseek, inside, Engine.failsWith_evaluateValue.1 h, rfl⟩
        · have hplace := Builtin.evaluate_unplaced hproperty _ _ _ h
          exact .inl ⟨_, .evaluation hcalls hproperty h, by rw [Failure.inExpression, hplace]; rfl⟩
  · rintro (⟨cause, h, rfl⟩ | ⟨w, henters, inside, h, rfl⟩)
    · exact h.failsWith
    · exact henters.failsWith h

/-- An evaluation fails exactly for the cause and with the text of the innermost expression in which it does,
whatever expressions are open around that. -/
theorem Walk.failsWith_iff {remaining : Nat} {w : Walk} :
    (engine.evaluateTree m remaining w.scope w.chain w.tree).FailsWith w.run failure ↔
      ∃ cause text around, w.FailsAt engine m remaining cause text around ∧
        failure = ⟨cause, some text⟩ := by
  -- What is evaluated inside an operation has one fewer to open, in a name, a parameter and a stored value
  -- alike, so the induction is on that number and not on the tree.
  induction remaining generalizing w failure with
  | zero =>
    rw [Walk.failsWith_evaluateTree]
    constructor
    · rintro (⟨source, depth, limit, htree, rfl⟩ | ⟨o, hreaches, h⟩)
      · obtain ⟨scope, chain, tree, run⟩ := w
        cases htree
        exact ⟨_, _, _, .overflow, rfl⟩
      · exact ⟨_, _, _, .entry hreaches, Occurrence.failsWith_zero.1 h⟩
    · rintro ⟨cause, text, around, h, rfl⟩
      cases h with
      | overflow => exact .inl ⟨_, _, _, rfl, rfl⟩
      | entry hreaches => exact .inr ⟨_, hreaches, Occurrence.failsWith_zero.2 rfl⟩
  | succ remaining ih =>
    rw [Walk.failsWith_evaluateTree]
    constructor
    · rintro (⟨source, depth, limit, htree, rfl⟩ | ⟨o, hreaches, h⟩)
      · obtain ⟨scope, chain, tree, run⟩ := w
        cases htree
        exact ⟨_, _, _, .overflow, rfl⟩
      · rcases (Occurrence.failsWith_succ hbuiltin).1 h with
          ⟨cause, hitself, rfl⟩ | ⟨w', henters, inner, hinner, rfl⟩
        · exact ⟨_, _, _, .itself hreaches hitself, rfl⟩
        · -- The failure has a place from further inside, which this operation does not replace.
          obtain ⟨cause, text, around, hat, rfl⟩ := ih.1 hinner
          exact ⟨_, _, _, .inside hreaches henters hat, rfl⟩
    · rintro ⟨cause, text, around, h, rfl⟩
      cases h with
      | overflow => exact .inl ⟨_, _, _, rfl, rfl⟩
      | itself hreaches hitself =>
        exact .inr ⟨_, hreaches, (Occurrence.failsWith_succ hbuiltin).2 (.inl ⟨_, hitself, rfl⟩)⟩
      | inside hreaches henters hat =>
        refine .inr ⟨_, hreaches, (Occurrence.failsWith_succ hbuiltin).2 (.inr ⟨_, henters, ?_⟩)⟩
        exact ⟨_, ih.2 ⟨_, _, _, hat, rfl⟩, rfl⟩

/-! ## The tree that it is written in -/

section

omit hbuiltin

/-- The texts that a tree has for its operations, and for itself if it nests too deep. -/
inductive Tree.Writes (tree : Tree) : Text → Prop
  /-- What is written where one of its operations stands. -/
  | operation {name : Forest} {parameters : List Forest} {span : Span}
    (h : Forest.Inside (.operation name parameters span) tree.nodes) : Writes tree (tree.source.cut span)
  /-- All of it. -/
  | whole (h : tree.overflow?.isSome = true) : Writes tree tree.source

variable {remaining : Nat} {w : Walk} {o : Occurrence} {text : Text}

/-- The operation that an evaluation comes to is written in its tree. -/
theorem Walk.Reaches.writes (h : w.Reaches engine m remaining o) : w.tree.Writes o.text := by
  cases h with
  | intro hbefore => exact .operation (.here (List.mem_append_right _ List.mem_cons_self))

/-- An operation that an evaluation comes to has its scope. -/
theorem Walk.Reaches.scope_eq (h : w.Reaches engine m remaining o) : o.scope = w.scope := by
  cases h
  rfl

/-- So is what is written in its name and its parameters. -/
theorem Walk.Reaches.writes_inside (h : w.Reaches engine m remaining o) {forest : Forest}
    (hforest : forest = o.name ∨ forest ∈ o.parameters)
    (hwrites : (Tree.forest o.source forest).Writes text) : w.tree.Writes text := by
  cases h with
  | intro hbefore =>
    cases hwrites with
    | operation hinside =>
      rcases hforest with rfl | hmem
      · exact .operation (.name (List.mem_append_right _ List.mem_cons_self) hinside)
      · exact .operation (.parameter (List.mem_append_right _ List.mem_cons_self) hmem hinside)
    | whole hoverflow => cases hoverflow

end

omit hbuiltin in
/-- What an evaluation ensures of its values holds of one that it gives. -/
theorem Eval.Ensures.of_ok {α : Type} {value : α → Prop} {cause : Cause → Prop} {x : Eval α}
    {run after : Run} {a : α} (hx : Eval.Ensures value cause x) (htrees : run.trees.Faithful)
    (hok : x run = .ok a after) : after.trees.Faithful ∧ value a := by
  have hends := hx htrees
  rw [hok] at hends
  cases hends with
  | ok htrees h => exact ⟨htrees, h⟩

/-- The trees that are kept for values stay those of the values. -/
theorem Engine.evaluateForest_ensures (m : Model) (remaining : Nat) (scope : Scope) (chain : Chain)
    (source : Text) (nodes : Forest) :
    Eval.FailsOnly (fun _ => True) (engine.evaluateForest m remaining scope chain source nodes) := by
  intro run htrees
  change EndsWith _ _ (engine.evaluateTree m remaining scope chain (.forest source nodes) run)
  have hlevel := Engine.evaluateTree_level hbuiltin m remaining scope chain (.forest source nodes)
    ⟨Eq.refl run.depth, htrees, htrees⟩
  rcases hlevel.ends with ⟨value, r, s, hr, -, h⟩ | ⟨failure, r, s, hr, -, h⟩
  · rw [hr]
    exact .ok h.left trivial
  · rw [hr]
    exact .error h.left trivial

/-- The trees are still faithful when it comes to the operation. -/
theorem Walk.Reaches.faithful {remaining : Nat} {w : Walk} {o : Occurrence}
    (h : w.Reaches engine m remaining o) (htrees : w.run.trees.Faithful) : o.run.trees.Faithful := by
  cases h with
  | intro hbefore => exact ((Engine.evaluateForest_ensures hbuiltin ..).of_ok htrees hbefore).1

namespace Occurrence

variable {remaining : Nat} {o : Occurrence} (htrees : o.run.trees.Faithful)

include htrees

/-- They are so when the operation has been found. -/
theorem Found.faithful {op : Operation} {after : Run} (h : o.Found engine m remaining op after) :
    after.trees.Faithful := by
  obtain ⟨called, hname, -⟩ := h
  have hentered : o.entered.trees.Faithful := htrees
  have hforest := Engine.evaluateForest_ensures hbuiltin m remaining o.scope o.chain o.source o.name
  exact (hforest.of_ok hentered hname).1

/-- And they are so when its parameters have been evaluated. -/
theorem parameters_faithful {op : Operation} {found after : Run}
    (hfound : o.Found engine m remaining op found) {joinedFrom : Nat} {parameters : List Forest}
    {values : List Text} (hvalues : op.evaluateRest (o.inner engine m remaining) joinedFrom 0 [] parameters
      found = .ok values after) : after.trees.Faithful := by
  have hparameters : Eval.FailsOnly (fun _ => True)
      (op.evaluateRest (o.inner engine m remaining) joinedFrom 0 [] parameters) :=
    op.evaluateRest_failsOnly _ _ _ fun parameter _ =>
      Engine.evaluateForest_ensures hbuiltin m remaining o.scope o.chain o.source parameter
  exact (hparameters.of_ok (hfound.faithful hbuiltin htrees) hvalues).1

/-- What an operation evaluates is its name, one of its parameters, or a value that the model has for a
property. -/
theorem Enters.elim {w : Walk} (h : o.Enters engine m remaining w) :
    w.run.trees.Faithful ∧ w.scope.config = o.scope.config ∧
      ((∃ forest, w.tree = .forest o.source forest ∧ (forest = o.name ∨ forest ∈ o.parameters)) ∨
        ∃ target property stored, m.property? target property o.scope.config = some stored ∧
          w.tree = engine.parse stored) := by
  cases h with
  | name => exact ⟨htrees, rfl, .inl ⟨_, rfl, .inl rfl⟩⟩
  | parameter hfound hcount hgenerates hsplit hvalues hneeded =>
    refine ⟨parameters_faithful hbuiltin htrees hfound hvalues, rfl, .inl ⟨_, rfl, .inr ?_⟩⟩
    rw [hsplit]
    exact List.mem_append_right _ List.mem_cons_self
  | value hcalls hseek =>
    cases hcalls with
    | intro hfound hcount hgenerates hvalues =>
      have hsought (call : Call) : Eval.Ensures (Operation.Sought.Admitted call) (fun _ => True)
          (Operation.seek call) :=
        Operation.seek_ensures (fun _ _ => trivial) fun _ _ _ _ _ => trivial
      obtain ⟨hafter, -, -, hstored⟩ :=
        (hsought _).of_ok (parameters_faithful hbuiltin htrees hfound hvalues) hseek
      exact ⟨engine.fetch_snd hafter _, rfl, .inr ⟨_, _, _, hstored, engine.fetch_fst hafter _⟩⟩

end Occurrence

/-- The text of a failure is written in the tree that is evaluated or in a value that the model has. -/
theorem Walk.FailsAt.written {remaining : Nat} {w : Walk} {cause : Cause} {text : Text}
    {around : List Text} (h : w.FailsAt engine m remaining cause text around)
    (htrees : w.run.trees.Faithful) :
    w.tree.Writes text ∨ ∃ target property stored,
      m.property? target property w.scope.config = some stored ∧ (engine.parse stored).Writes text := by
  induction h with
  | overflow => exact .inl (.whole rfl)
  | entry hreaches => exact .inl hreaches.writes
  | itself hreaches _ => exact .inl hreaches.writes
  | inside hreaches henters _ ih =>
    have hreached := hreaches.faithful hbuiltin htrees
    obtain ⟨hinner, hconfig, ⟨forest, htree, hforest⟩ | ⟨target, property, stored, hstored, htree⟩⟩ :=
      henters.elim hbuiltin hreached
    · -- A name or a parameter is part of the same tree.
      rcases ih hinner with hwrites | hwritten
      · rw [htree] at hwrites
        exact .inl (hreaches.writes_inside hforest hwrites)
      · rw [hconfig, hreaches.scope_eq] at hwritten
        exact .inr hwritten
    · -- A stored value is a tree of its own.
      rcases ih hinner with hwrites | hwritten
      · rw [htree] at hwrites
        rw [hreaches.scope_eq] at hstored
        exact .inr ⟨target, property, stored, hstored, hwrites⟩
      · rw [hconfig, hreaches.scope_eq] at hwritten
        exact .inr hwritten

omit hbuiltin in
/-- At any point of a session and with built-in operations, whatever an evaluation is carried out for, every
failure of a tree says in which expression it arose. It is the innermost one that is open then, and it is
shown as it is written in the tree, or in the stored value in which the failure arose; those around it add
nothing and change nothing. -/
theorem session_failure_origin (steps : List Step) (engine : Engine)
    (hbuiltin : engine.registry.added = []) (context : Context) (chain : Chain) (tree : Tree) :
    let m := (session steps).store.model
    let remaining := engine.limit - context.depth
    let w : Walk := ⟨context.scope, chain, tree, context.toRun (session steps)⟩
    (∀ failure, (engine.evaluateTree m remaining context.scope chain tree).FailsWith w.run failure ↔
      ∃ cause text around, w.FailsAt engine m remaining cause text around ∧
        failure = ⟨cause, some text⟩) ∧
    ∀ cause text around, w.FailsAt engine m remaining cause text around →
      tree.Writes text ∨ ∃ target property stored,
        m.property? target property context.scope.config = some stored ∧
          (engine.parse stored).Writes text := by
  intro m remaining w
  refine ⟨fun failure => Walk.failsWith_iff (w := w) hbuiltin, fun cause text around h => ?_⟩
  have htrees : w.run.trees.Faithful := (session_sameButTrees steps).faithful
  exact h.written hbuiltin htrees

omit hbuiltin in
/-- A number that cannot be read, in a parameter of an operation in the value of a property that is asked for
in a parameter. -/
theorem session_failure_origin_value :
    let steps : List Step := [.write (.value (.base "app" "P") "-$<JOIN:$<EQUAL:x,1>,->")]
    let engine : Engine := {}
    let context := Context.fresh engine { config := "Debug", head := some "app" }
    let m := (session steps).store.model
    let tree := engine.parse "$<UPPER_CASE:$<TARGET_PROPERTY:P>>"
    let w : Walk := ⟨context.scope, [], tree, context.toRun (session steps)⟩
    let text : Text := "$<EQUAL:x,1>"
    (∃ around, w.FailsAt engine m 256
      (.invalidParameter "EQUAL" "$<EQUAL> parameter x is not a valid integer.") text around) ∧
    (tree.Writes text ∨ ∃ target property stored,
      m.property? target property "Debug" = some stored ∧ (engine.parse stored).Writes text) := by
  intro steps engine context m tree w text
  obtain ⟨hfails, hwritten⟩ := session_failure_origin steps engine rfl context [] tree
  obtain ⟨cause, text', around, hat, heq⟩ :=
    (hfails ⟨.invalidParameter "EQUAL" "$<EQUAL> parameter x is not a valid integer.", some text⟩).1
      (by decide +kernel)
  cases heq
  exact ⟨⟨around, hat⟩, hwritten _ _ _ hat⟩

end BuildExpr
