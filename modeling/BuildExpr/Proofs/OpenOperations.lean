import BuildExpr.Proofs.Congruence
import BuildExpr.Proofs.Moments
import BuildExpr.Proofs.Sessions

/-!
# The number of open operations

An evaluator that keeps count of the operations it has open could get it wrong wherever it returns
early, and wherever it goes on in a context derived from another one. With built-in operations the count
is right at every moment of every evaluation: it is the number at the start plus the operations opened
since and not yet closed, it never exceeds the limit, and at the end, whether or not the evaluation
failed, it is what it was (`evaluateIn_balanced`). The invariant of the recursion is that the operations
that are open and those that may still be opened make up the limit.
-/

namespace BuildExpr

namespace Moment

/-! ## Moments that balance -/

/-- At no moments, nothing is opened. -/
@[simp] theorem entered_nil : entered [] = 0 := rfl

/-- Nor is anything closed. -/
@[simp] theorem left_nil : left [] = 0 := rfl

/-- At some moments, as many operations are opened as at the first and at the others. -/
@[simp] theorem entered_cons (m : Moment) (moments : List Moment) :
    entered (m :: moments) = (if m.change = .enter then 1 else 0) + entered moments := by
  simp [entered, count, List.countP_cons, Nat.add_comm]

/-- So it is with those that are closed. -/
@[simp] theorem left_cons (m : Moment) (moments : List Moment) :
    left (m :: moments) = (if m.change = .leave then 1 else 0) + left moments := by
  simp [left, count, List.countP_cons, Nat.add_comm]

/-- At moments in a row, as many are opened as at the first ones and at the others. -/
@[simp] theorem entered_append (a b : List Moment) : entered (a ++ b) = entered a + entered b :=
  List.countP_append

/-- So it is with those that are closed. -/
@[simp] theorem left_append (a b : List Moment) : left (a ++ b) = left a + left b :=
  List.countP_append

/-- A moment behind some others, where `base` operations were open before all of them. -/
structure Sound (limit base : Nat) (before : List Moment) (m : Moment) : Prop where
  /-- No more operations have been closed than opened. -/
  left_le : left before ≤ entered before
  /-- Those that have been opened and not closed are open, and those that were open at the start. -/
  depth_eq : m.depth + left before = base + entered before
  /-- There are not too many of them. -/
  depth_le : m.depth ≤ limit
  /-- An operation is opened only if there are fewer. -/
  lt_of_enter : m.change = .enter → m.depth < limit
  /-- An operation is closed only if one has been opened before, so the number is not zero. -/
  pos_of_leave : m.change = .leave → left before < entered before ∧ 0 < m.depth
  /-- An operation is refused only at the limit. -/
  eq_of_refuse : m.change = .refuse → m.depth = limit

/-- Moments at each of which the number of open operations is right, and after which it is what it was
before them. -/
structure Balanced (limit base : Nat) (moments : List Moment) : Prop where
  /-- At each of them the number is right. -/
  sound : ∀ before m after, moments = before ++ m :: after → Sound limit base before m
  /-- All operations that have been opened have been closed. -/
  settled : left moments = entered moments

/-- No moments balance. -/
theorem balanced_nil (limit base : Nat) : Balanced limit base [] where
  sound before m after h := by simp at h
  settled := rfl

/-- A moment of some moments and others is one of the first or one of the second. -/
theorem split_append {a b before after : List Moment} {m : Moment}
    (h : a ++ b = before ++ m :: after) :
    (∃ after', a = before ++ m :: after') ∨ ∃ between, before = a ++ between ∧
      b = between ++ m :: after := by
  rcases List.append_eq_append_iff.1 h with ⟨between, hbefore, hb⟩ | ⟨rest, ha, hrest⟩
  · exact .inr ⟨between, hbefore, hb⟩
  · cases rest with
    | nil => exact .inr ⟨[], by simpa using ha.symm, hrest.symm⟩
    | cons first rest =>
      obtain ⟨rfl, -⟩ := List.cons.inj hrest
      exact .inl ⟨rest, ha⟩

/-- Behind other moments, a moment is as sound as where the operations they leave open are open at the
start. -/
theorem Sound.behind {limit base inside : Nat} {a before : List Moment} {m : Moment}
    (h : Sound limit inside before m) (hle : left a ≤ entered a)
    (hinside : inside + left a = base + entered a) : Sound limit base (a ++ before) m where
  left_le := by
    have hleft := h.left_le
    rw [left_append, entered_append]
    omega
  depth_eq := by
    have heq := h.depth_eq
    rw [left_append, entered_append]
    omega
  depth_le := h.depth_le
  lt_of_enter := h.lt_of_enter
  pos_of_leave hleave := by
    have hpos := h.pos_of_leave hleave
    rw [left_append, entered_append]
    omega
  eq_of_refuse := h.eq_of_refuse

/-- The first moment is sound if what happens at it may happen with `base` operations open and is no
closing. -/
theorem sound_first {limit base : Nat} {change : Change} (hle : base ≤ limit)
    (henter : change = .enter → base < limit) (hleave : change ≠ .leave)
    (hrefuse : change = .refuse → base = limit) : Sound limit base [] ⟨change, base⟩ where
  left_le := Nat.le_refl _
  depth_eq := rfl
  depth_le := hle
  lt_of_enter := henter
  pos_of_leave h := absurd h hleave
  eq_of_refuse := hrefuse

namespace Balanced

variable {limit base : Nat} {a b : List Moment}

/-- Moments that balance do so in a row, as the second start where the first end. -/
theorem append (ha : Balanced limit base a) (hb : Balanced limit base b) :
    Balanced limit base (a ++ b) where
  sound before m after h := by
    rcases split_append h with ⟨after', hfirst⟩ | ⟨between, rfl, hsecond⟩
    · exact ha.sound before m after' hfirst
    · have hsettled := ha.settled
      exact (hb.sound between m after hsecond).behind (by omega) (by omega)
  settled := by rw [left_append, entered_append, ha.settled, hb.settled]

/-- One moment by itself, if nothing is opened or closed at it. -/
theorem singleton {change : Change} (hle : base ≤ limit) (henter : change ≠ .enter)
    (hleave : change ≠ .leave) (hrefuse : change = .refuse → base = limit) :
    Balanced limit base [⟨change, base⟩] where
  sound before m after hsplit := by
    cases before with
    | nil =>
      obtain ⟨rfl, -⟩ := List.cons.inj hsplit
      exact sound_first hle (fun h => absurd h henter) hleave hrefuse
    | cons first before => simp at hsplit
  settled := by
    rw [left_cons, entered_cons, if_neg henter, if_neg hleave]
    rfl

/-- An operation that is opened before balanced moments and closed after them. -/
theorem enclose (hlimit : base < limit) (ha : Balanced limit (base + 1) a) :
    Balanced limit base (⟨.enter, base⟩ :: (a ++ [⟨.leave, base + 1⟩])) where
  sound before m after h := by
    cases before with
    | nil =>
      obtain ⟨rfl, -⟩ := List.cons.inj h
      exact sound_first (Nat.le_of_lt hlimit) (fun _ => hlimit) (by simp) (by simp)
    | cons first before =>
      obtain ⟨rfl, hrest⟩ := List.cons.inj h
      rcases split_append hrest with ⟨after', hbody⟩ | ⟨between, rfl, hlast⟩
      · have hone : left [⟨.enter, base⟩] = 0 ∧ entered [⟨.enter, base⟩] = 1 := by simp
        exact (ha.sound before m after' hbody).behind (a := [⟨.enter, base⟩]) (by omega) (by omega)
      · cases between with
        | cons next between => simp at hlast
        | nil =>
          obtain ⟨rfl, -⟩ := List.cons.inj hlast
          have hsettled := ha.settled
          -- Of all operations opened, only the one around the others is still open.
          have hleft : left (⟨.enter, base⟩ :: (a ++ [])) = left a := by simp
          have hentered : entered (⟨.enter, base⟩ :: (a ++ [])) = 1 + entered a := by simp
          constructor
          · omega
          · rw [hleft, hentered]
            dsimp only
            omega
          · exact hlimit
          · simp
          · exact fun _ => ⟨by omega, Nat.succ_pos base⟩
          · simp
  settled := by
    have hsettled := ha.settled
    simp only [left_cons, entered_cons, left_append, entered_append, left_nil, entered_nil]
    simp [hsettled, Nat.add_comm]

end Balanced

end Moment

/-! ## Evaluations -/

open Compiled (finalRun)
open Moment (Balanced balanced_nil)

/-- An evaluation after which, whether or not it fails, as many operations are open as before. -/
def Eval.KeepsDepth {α : Type} (x : Eval α) : Prop :=
  ∀ run, (finalRun (x run)).depth = run.depth

/-- Ending with as many operations open is kept when evaluations are put together. -/
theorem keepsDepth_congruence : Congruence fun _ x _ => Eval.KeepsDepth x :=
  Run.Progress.congruence (R := fun r s => s.depth = r.depth)
    { refl := fun _ => rfl
      trans := fun h h' => h'.trans h
      within := fun h => congrArg (· - 1) h }

/-- A change to the footprint opens and closes nothing. -/
theorem Eval.KeepsDepth.touch (change : Footprint → Footprint) : KeepsDepth (Eval.touch change) :=
  fun _ => rfl

/-- Nor does reading the tree of a value. -/
theorem Engine.valueTree_keepsDepth (engine : Engine) (value : Text) :
    Eval.KeepsDepth (engine.valueTree value) := fun _ => rfl

/-- Where `remaining` more operations may be opened, an evaluation ends with as many open as before, and
its moments balance. -/
def Course.Steady (limit remaining : Nat) {α : Type} (x : Eval α) (course : Course) : Prop :=
  ∀ run : Run, run.depth + remaining = limit →
    (finalRun (x run)).depth = run.depth ∧ Balanced limit run.depth (course run)

namespace Course.Steady

variable {limit remaining : Nat} {α β : Type} {x : Eval α} {course : Course}

/-- An evaluation that opens nothing has no moments to speak of. -/
theorem of_keepsDepth (h : x.KeepsDepth) : Steady limit remaining x none :=
  fun run _ => ⟨h run, balanced_nil limit run.depth⟩

/-- Going on from the value starts with as many operations open. -/
theorem bind (hx : Steady limit remaining x course) {f : α → Eval β} {next : α → Course}
    (hf : ∀ a, Steady limit remaining (f a) (next a)) :
    Steady limit remaining (x >>= f) (.bind x course next) := by
  intro run hrun
  obtain ⟨hdepth, hfirst⟩ := hx run hrun
  have hpause : Balanced limit run.depth [⟨.pause, run.depth⟩] :=
    .singleton (by omega) (by simp) (by simp) (by simp)
  rw [Eval.bind_apply]
  unfold Course.bind
  rw [hdepth]
  cases hresult : x run with
  | ok a after =>
    rw [hresult] at hdepth
    obtain ⟨hlast, hrest⟩ := hf a after (by rw [show after.depth = run.depth from hdepth, hrun])
    rw [show after.depth = run.depth from hdepth] at hlast hrest
    exact ⟨hlast, hfirst.append (hpause.append hrest)⟩
  | error failure after =>
    rw [hresult] at hdepth
    exact ⟨hdepth, hfirst.append hpause⟩

/-- Working on with the value opens and closes nothing. -/
theorem map (hx : Steady limit remaining x course) (f : α → β) :
    Steady limit remaining (x >>= fun a => pure (f a)) course := by
  intro run hrun
  obtain ⟨hdepth, hcourse⟩ := hx run hrun
  refine ⟨?_, hcourse⟩
  rw [Eval.bind_apply]
  cases hresult : x run with
  | ok a after =>
    rw [hresult] at hdepth
    exact hdepth
  | error failure after =>
    rw [hresult] at hdepth
    exact hdepth

/-- Placing failures in an expression opens and closes nothing. -/
theorem inExpression (hx : Steady limit remaining x course) (expression : Text) :
    Steady limit remaining (Eval.inExpression expression x) course := by
  intro run hrun
  rw [Eval.finalRun_inExpression]
  exact hx run hrun

/-- The operation that is opened takes one of those that may be. -/
theorem within (hx : Steady limit remaining x course) :
    Steady limit (remaining + 1) (Eval.within x) (.within x course) := by
  intro run hrun
  obtain ⟨hdepth, hbody⟩ := hx { run with depth := run.depth + 1 } (by dsimp only; omega)
  unfold Course.within
  rw [Eval.finalRun_within]
  dsimp only at hdepth hbody ⊢
  rw [hdepth]
  exact ⟨rfl, hbody.enclose (by omega)⟩

/-- The derived context starts with as many operations open; how many it ends with is forgotten. -/
theorem apart (hx : Steady limit remaining x course) :
    Steady limit remaining (Eval.apart x) (.apart course) := by
  intro run hrun
  rw [Eval.finalRun_apart]
  exact ⟨rfl, (hx { run with footprint := {} } hrun).2⟩

/-- Where no more operation may be opened, one is refused. -/
theorem refused (h : x.KeepsDepth) : Steady limit 0 x .refused := by
  intro run hrun
  rw [Nat.add_zero] at hrun
  exact ⟨h run, .singleton (Nat.le_of_eq hrun) (by simp) (by simp) fun _ => hrun⟩

end Course.Steady

open Course (Steady)

variable {limit remaining : Nat}

/-- The moments of a forest balance if those of its operations do. -/
theorem Forest.evaluateWith_steady {operation : Forest → List Forest → Span → Eval Text}
    {course : Forest → List Forest → Span → Course}
    (h : ∀ name parameters span,
      Steady limit remaining (operation name parameters span) (course name parameters span))
    (nodes : Forest) :
    Steady limit remaining (nodes.evaluateWith operation) (nodes.courseWith operation course) := by
  induction nodes with
  | nil => exact .of_keepsDepth fun _ => rfl
  | cons node rest ih =>
    cases node with
    | text value => exact ih.map fun others => value ++ others
    | operation name parameters span =>
      exact (h name parameters span).bind fun value => ih.map fun others => value ++ others

/-- So do those of a tree. -/
theorem Tree.evaluateWith_steady {forest : Text → Forest → Eval Text} {course : Text → Forest → Course}
    (h : ∀ source nodes, Steady limit remaining (forest source nodes) (course source nodes))
    (tree : Tree) :
    Steady limit remaining (tree.evaluateWith forest) (tree.courseWith course) := by
  cases tree with
  | plain source => exact .of_keepsDepth fun _ => rfl
  | forest source nodes => exact h source nodes
  | tooDeep source depth limit => exact .of_keepsDepth fun _ => rfl

section

variable (op : Operation) {evaluate : Forest → Eval Text} {course : Forest → Course}
  (h : ∀ parameter, Steady limit remaining (evaluate parameter) (course parameter))

include h

/-- So do those of parameters, from some index on. -/
theorem Operation.evaluateRest_steady (joinedFrom index : Nat) (values : List Text)
    (parameters : List Forest) :
    Steady limit remaining (op.evaluateRest evaluate joinedFrom index values parameters)
      (op.courseRest evaluate course joinedFrom index values parameters) := by
  induction parameters generalizing index values with
  | nil => exact .of_keepsDepth fun _ => rfl
  | cons parameter rest ih =>
    unfold evaluateRest courseRest
    split
    · exact ih _ _
    · exact (h parameter).bind fun value => ih _ _

/-- So do those of an operation that is carried out, from its parameters to its result. -/
theorem Operation.carryOut_steady {call : List Text → Call} {courseCall : List Text → Course}
    (hcall : ∀ values, Steady limit remaining (op.evaluate (call values)) (courseCall values))
    (parameters : List Forest) :
    Steady limit remaining (op.carryOut evaluate parameters call)
      (op.courseCarryOut evaluate course parameters courseCall) := by
  unfold carryOut courseCarryOut
  dsimp only
  cases op.generates with
  | false =>
    refine .of_keepsDepth ?_
    rw [if_pos (show (!false) = true from rfl)]
    split
    · exact fun _ => rfl
    · exact fun _ => rfl
  | true =>
    cases op.arity.accepts (op.effectiveCount parameters.length) with
    | false => exact .of_keepsDepth fun _ => rfl
    | true => exact (Operation.evaluateRest_steady op h _ _ _ _).bind hcall

end

/-- A built-in operation opens and closes nothing itself. -/
theorem Builtin.evaluate_steady (b : Builtin) {call : Call}
    {courseValue : Scope → Chain → Text → Course}
    (hvalue : ∀ scope chain value,
      Steady limit remaining (call.host.evaluateValue scope chain value)
        (courseValue scope chain value)) :
    Steady limit remaining (b.operation.evaluate call) (b.course courseValue call) := by
  by_cases hproperty : b = .targetProperty
  · -- A value has moments of its own, and the footprint apart changes none of them.
    subst hproperty
    have hseek : Steady limit remaining (Operation.seek call) .none :=
      .of_keepsDepth (Operation.seek_fixed keepsDepth_congruence (fun change _ => .touch change) call)
    refine hseek.bind fun sought => ?_
    cases sought with
    | text value => exact .of_keepsDepth fun _ => rfl
    | value lookup stored =>
      exact (hvalue (call.scope.derive lookup.target) (lookup :: call.chain) stored).apart
  · -- No other operation evaluates anything by itself.
    have hnone : b.course courseValue call = .none := by
      cases b with
      | targetProperty => exact absurd rfl hproperty
      | _ => rfl
    have hkeeps : Eval.KeepsDepth (b.operation.evaluate call) := by
      by_cases hfeatures : b = .compileFeatures
      · subst hfeatures
        exact Operation.compileFeatures_fixed keepsDepth_congruence (fun change _ => .touch change)
          (fun _ _ => .touch _) call
      · exact Builtin.evaluate_fixed keepsDepth_congruence (fun change _ => .touch change) hproperty
          hfeatures call
    rw [hnone]
    exact .of_keepsDepth hkeeps

section

variable {engine : Engine} (hbuiltin : engine.registry.added = []) (model : Model)

include hbuiltin

/-- An operation written in a text is opened and closed around what is inside. -/
theorem Engine.evaluateOperation_steady {inner : Scope → Chain → Text → Forest → Eval Text}
    {course : Scope → Chain → Text → Forest → Course}
    (h : ∀ scope chain source nodes,
      Steady limit remaining (inner scope chain source nodes) (course scope chain source nodes))
    (scope : Scope) (chain : Chain) (source : Text) (name : Forest) (parameters : List Forest)
    (span : Span) :
    Steady limit (remaining + 1)
      (engine.evaluateOperation model inner scope chain source name parameters span)
      (engine.courseOperation model inner course scope chain source name parameters span) := by
  rw [engine.evaluateOperation_eq]
  refine Course.Steady.within (Course.Steady.inExpression ?_ _)
  refine (h scope chain source name).bind fun called => ?_
  rw [Registry.find?_eq hbuiltin]
  cases Builtin.ofName? called with
  | none => exact .of_keepsDepth fun _ => rfl
  | some b =>
    refine Operation.carryOut_steady _ (fun parameter => h scope chain source parameter)
      (fun values => ?_) parameters
    refine b.evaluate_steady fun scope chain value => ?_
    have htree : Steady limit remaining (engine.valueTree value) .none :=
      .of_keepsDepth (engine.valueTree_keepsDepth value)
    exact htree.bind fun tree =>
      Tree.evaluateWith_steady (fun source nodes => h scope chain source nodes) tree

/-- Every forest is steady, however many operations may be opened. -/
theorem Engine.evaluateForest_steady (limit remaining : Nat) (scope : Scope) (chain : Chain)
    (source : Text) (nodes : Forest) :
    Steady limit remaining (engine.evaluateForest model remaining scope chain source nodes)
      (engine.courseForest model remaining scope chain source nodes) := by
  induction remaining generalizing scope chain source nodes with
  | zero =>
    have hsingle (name : Forest) (parameters : List Forest) (span : Span) :
        engine.evaluateForest model 0 scope chain source [.operation name parameters span] =
          Eval.inExpression (source.cut span) (do
            let run ← get
            Eval.fail (.nestingTooDeep (run.depth + 1) engine.limit)) := by
      rw [evaluateForest, Forest.evaluateWith_single]
    unfold courseForest
    simp only [hsingle]
    exact Forest.evaluateWith_steady (fun _ _ _ => .refused fun _ => rfl) nodes
  | succ remaining ih =>
    exact Forest.evaluateWith_steady
      (Engine.evaluateOperation_steady hbuiltin model ih scope chain source) nodes

/-- However a tree evaluates, as many operations are open afterwards as before. -/
theorem Engine.evaluateTree_keepsDepth (remaining : Nat) (scope : Scope) (chain : Chain) (tree : Tree) :
    Eval.KeepsDepth (engine.evaluateTree model remaining scope chain tree) := fun run =>
  (Tree.evaluateWith_steady (Engine.evaluateForest_steady hbuiltin model (run.depth + remaining)
    remaining scope chain) tree run rfl).1

end

/-- With built-in operations, evaluating a tree in a context that has no more operations open than the
limit allows leaves the number of open operations as it was, whether or not it fails. At every moment,
also inside property values, the number is the one at the start and one for each operation that has been
opened since and not closed, it does not exceed the limit, and it is not zero where one is closed. -/
theorem evaluateIn_balanced (engine : Engine) (hbuiltin : engine.registry.added = []) (c : Compiled)
    (context : Context) (hdepth : context.depth ≤ engine.limit) (chain : Chain) (w : Workspace) :
    (c.evaluateIn engine context chain w).2.1.depth = context.depth ∧
      Moment.Balanced engine.limit context.depth (Compiled.course engine c.tree context chain w) := by
  have hstart : (context.toRun w).depth + (engine.limit - context.depth) = engine.limit :=
    Nat.add_sub_of_le hdepth
  obtain ⟨hend, hcourse⟩ := Tree.evaluateWith_steady
    (Engine.evaluateForest_steady hbuiltin w.store.model engine.limit (engine.limit - context.depth)
      context.scope chain) c.tree (context.toRun w) hstart
  refine ⟨?_, hcourse⟩
  unfold Compiled.evaluateIn
  split
  · change (finalRun (Compiled.outcome engine c.tree context chain w)).depth = context.depth
    rw [Compiled.outcome_eq]
    unfold Engine.evaluateTree
    -- Reporting a failure opens and closes nothing.
    revert hend
    cases c.tree.evaluateWith _ (context.toRun w) with
    | ok value run => exact fun hend => hend
    | error failure run => exact fun hend => hend
  · rfl

/-- Inside an operation, the value of a property opens an operation whose parameter cannot open another
one. The evaluation fails there, and two operations are closed again on the way out. -/
theorem evaluateIn_balanced_on_failure :
    let steps : List Step := [.write (.value (.base "app" "P") "$<UPPER_CASE:$<CONFIG>>")]
    let engine : Engine := { limit := 3 }
    let inputs : Inputs := { config := "Debug", head := some "app" }
    let context : Context := { Context.fresh engine inputs with depth := 1 }
    let c := engine.compile "$<TARGET_PROPERTY:P>"
    let moments := Compiled.course engine c.tree context [] (session steps)
    let evaluated := c.evaluateIn engine context [] (session steps)
    (moments.filter fun m => m.change != .pause) =
        [⟨.enter, 1⟩, ⟨.enter, 2⟩, ⟨.refuse, 3⟩, ⟨.leave, 3⟩, ⟨.leave, 2⟩] ∧
      evaluated.1.failure = some ⟨.nestingTooDeep 4 3, some "$<CONFIG>"⟩ ∧
      evaluated.2.1.depth = 1 ∧ Moment.Balanced 3 1 moments := by
  intro steps engine inputs context c moments evaluated
  obtain ⟨hdepth, hbalanced⟩ :=
    evaluateIn_balanced engine rfl c context (by decide) [] (session steps)
  exact ⟨by decide +kernel, by decide +kernel, hdepth, hbalanced⟩

end BuildExpr
