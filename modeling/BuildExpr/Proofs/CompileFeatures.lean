import BuildExpr.Proofs.Newest
import BuildExpr.Proofs.Runs

/-!
# What `COMPILE_FEATURES` makes of a list of features

The operation goes through its features one after the other: it may replace the standard that is recorded
for the language of a feature, and it tells whether the head target is configured for a standard as new as
all of them. What it tells is a conjunction, and what is recorded is the newest standard: so it is after one
feature (`Footprint.raised_require`) and therefore after all of them (`Footprint.raised_requireEach`). As
there is only one newest standard, what is recorded does not depend on the order of the features or on how
often each is listed (`compileFeatures_conjunction`).
-/

namespace BuildExpr

open Standard (Raised)

namespace Footprint

/-- The footprint after some features have been asked for on behalf of a target, in order. -/
def requireEach (f : Footprint) (head : Text) (features : List Feature) : Footprint :=
  features.foldl (fun f feature => f.require head feature) f

/-- Features asked for in order record the newest standard of each language. -/
theorem raised_requireEach (f : Footprint) (head : Text) (features : List Feature) (language : Text) :
    Raised language (f.standard? head language) (Feature.standardsIn language features)
      ((f.requireEach head features).standard? head language) := by
  induction features generalizing f with
  | nil => exact .unchanged
  | cons feature rest ih =>
    have hasked : Feature.standardsIn language (feature :: rest) =
        Feature.standardsIn language [feature] ++ Feature.standardsIn language rest := by
      rw [Feature.standardsIn, ← List.singleton_append, List.filter_append, List.map_append]
      rfl
    rw [hasked]
    exact (f.raised_require head feature language).trans (ih (f.require head feature))

/-- Nothing is recorded for another target. -/
theorem standard?_requireEach_of_ne (f : Footprint) {head : Text} (features : List Feature)
    {target : Text} (h : target ≠ head) (language : Text) :
    (f.requireEach head features).standard? target language = f.standard? target language := by
  induction features generalizing f with
  | nil => rfl
  | cons feature rest ih =>
    have hne : (head, feature.language) ≠ (target, language) := fun heq => h (Prod.mk.inj heq).1.symm
    exact (ih (f.require head feature)).trans (f.standard?_require_of_ne hne)

/-- What is recorded in the end depends neither on the order of the features nor on how often each is listed. -/
theorem standard?_requireEach_congr (f : Footprint) (head : Text) {features others : List Feature}
    (h : ∀ feature, feature ∈ features ↔ feature ∈ others) (target language : Text) :
    (f.requireEach head features).standard? target language =
      (f.requireEach head others).standard? target language := by
  by_cases htarget : target = head
  · -- Both lists ask for the same standards of the language, and all of these are known.
    subst htarget
    have hasked (standard : Text) : standard ∈ Feature.standardsIn language features ↔
        standard ∈ Feature.standardsIn language others := by
      simp only [Feature.mem_standardsIn, h]
    exact Raised.unique (f.raised_requireEach target features language)
      (f.raised_requireEach target others language) hasked fun _ => Feature.recency_pos
  · rw [f.standard?_requireEach_of_ne _ htarget, f.standard?_requireEach_of_ne _ htarget]

/-- Nothing but standards is recorded. -/
theorem requireEach_eq (f : Footprint) (head : Text) (features : List Feature) :
    { f.requireEach head features with standards := f.standards } = f := by
  induction features generalizing f with
  | nil => rfl
  | cons feature rest ih =>
    have hstep : { f.require head feature with standards := f.standards } = f := by
      rcases f.require_cases head feature with hrequire | hrequire
      · rw [hrequire]
        rfl
      · rw [hrequire]
    calc { f.requireEach head (feature :: rest) with standards := f.standards }
        = { { (f.require head feature).requireEach head rest with
              standards := (f.require head feature).standards } with standards := f.standards } := rfl
      _ = { f.require head feature with standards := f.standards } := by rw [ih]
      _ = f := hstep

end Footprint

namespace Operation

open Footprint (requireEach)

/-- Known features are all noted, in order, and what is told of them is a conjunction. -/
theorem requireAll_apply {names : List Text}
    (hknown : ∀ name ∈ names, (Feature.ofText? name).isSome = true) (model : Model)
    (head config : Text) (run : Run) :
    requireAll model head config names run =
      .ok ((names.filterMap Feature.ofText?).all (satisfies model head config))
        { run with
          footprint := run.footprint.requireEach head (names.filterMap Feature.ofText?) } := by
  induction names generalizing run with
  | nil => rfl
  | cons name rest ih =>
    rw [List.forall_mem_cons] at hknown
    obtain ⟨feature, hfeature⟩ := Option.isSome_iff_exists.1 hknown.1
    have hrest := ih hknown.2 { run with footprint := run.footprint.require head feature }
    rw [List.filterMap_cons_some hfeature]
    unfold requireAll
    rw [hfeature]
    change (do
      let others ← requireAll model head config rest
      pure (satisfies model head config feature && others) : Eval Bool)
        { run with footprint := run.footprint.require head feature } = _
    rw [Eval.bind_of_ok hrest]
    rfl

/-- Given some features, `COMPILE_FEATURES` tells whether they are satisfied and leaves a footprint; of the
run it changes nothing else. -/
def Tells (call : Call) (run : Run) (names : List Text) (satisfied : Bool) (after : Footprint) : Prop :=
  compileFeatures.evaluate { call with parameters := names } run =
    .ok (.ofBool satisfied) { run with footprint := after }

/-- What `COMPILE_FEATURES` tells of known features: whether the head target satisfies all of them,
which are then required in order. -/
theorem compileFeatures_tells {call : Call} {head : Text} (hhead : call.scope.head = some head)
    {names : List Text} (hknown : ∀ name ∈ names, (Feature.ofText? name).isSome = true) (run : Run) :
    Tells call run names
      ((names.filterMap Feature.ofText?).all (satisfies call.host.model head call.scope.config))
      (requireEach { run.footprint with headSensitive := true } head
        (names.filterMap Feature.ofText?)) := by
  have hall := requireAll_apply hknown call.host.model head call.scope.config
    { run with footprint := { run.footprint with headSensitive := true } }
  unfold Tells compileFeatures
  dsimp only
  rw [hhead]
  change (do
    let satisfied ← requireAll call.host.model head call.scope.config names
    pure (Text.ofBool satisfied) : Eval Text)
      { run with footprint := { run.footprint with headSensitive := true } } = _
  rw [Eval.bind_of_ok hall]
  rfl

/-- Given the same features, the operation tells one thing and leaves one footprint. -/
theorem Tells.unique {call : Call} {run : Run} {names : List Text} {satisfied satisfied' : Bool}
    {after after' : Footprint} (h : Tells call run names satisfied after)
    (h' : Tells call run names satisfied' after') : satisfied = satisfied' ∧ after = after' := by
  have hsame := h.symm.trans h'
  simp only [EStateM.Result.ok.injEq, Run.mk.injEq, and_true] at hsame
  refine ⟨?_, hsame.2⟩
  have htext := hsame.1
  revert htext
  cases satisfied <;> cases satisfied' <;> decide

/-- Features are told to be satisfied exactly if each of them is. -/
theorem exists_tells_iff {call : Call} {head : Text} (hhead : call.scope.head = some head)
    {names : List Text} (hknown : ∀ name ∈ names, (Feature.ofText? name).isSome = true) (run : Run) :
    (∃ after, Tells call run names true after) ↔
      ∀ name ∈ names, ∀ feature, Feature.ofText? name = some feature →
        satisfies call.host.model head call.scope.config feature = true := by
  have htells := compileFeatures_tells hhead hknown run
  constructor
  · rintro ⟨after, h⟩ name hmem feature hfeature
    have hall := List.all_eq_true.1 (htells.unique h).1
    exact hall feature (List.mem_filterMap.2 ⟨name, hmem, hfeature⟩)
  · intro h
    have hall : (names.filterMap Feature.ofText?).all
        (satisfies call.host.model head call.scope.config) = true := by
      refine List.all_eq_true.2 fun feature hmem => ?_
      obtain ⟨name, hname, hfeature⟩ := List.mem_filterMap.1 hmem
      exact h name hname feature hfeature
    rw [hall] at htells
    exact ⟨_, htells⟩

/-- Features are told to be satisfied together exactly if each of them alone is. -/
theorem exists_tells_iff_alone {call : Call} {head : Text} (hhead : call.scope.head = some head)
    {names : List Text} (hknown : ∀ name ∈ names, (Feature.ofText? name).isSome = true) (run : Run) :
    (∃ after, Tells call run names true after) ↔
      ∀ name ∈ names, ∃ after, Tells call run [name] true after := by
  rw [exists_tells_iff hhead hknown]
  refine forall₂_congr fun name hmem => ?_
  have hname : ∀ other ∈ [name], (Feature.ofText? other).isSome = true := by
    simpa using hknown name hmem
  rw [exists_tells_iff hhead hname, List.forall_mem_singleton]

/-- The same features in another order, each however often, are told the same of, and the same is recorded. -/
theorem Tells.exists_congr {call : Call} {head : Text} (hhead : call.scope.head = some head) {run : Run}
    {names others : List Text} {satisfied : Bool} {after : Footprint}
    (h : Tells call run names satisfied after)
    (hknown : ∀ name ∈ names, (Feature.ofText? name).isSome = true)
    (hsame : ∀ name, name ∈ others ↔ name ∈ names) :
    ∃ after', Tells call run others satisfied after' ∧
      ∀ target language, after'.standard? target language = after.standard? target language := by
  have hknown' : ∀ name ∈ others, (Feature.ofText? name).isSome = true :=
    fun name hmem => hknown name ((hsame name).1 hmem)
  have hfeatures (feature : Feature) :
      feature ∈ others.filterMap Feature.ofText? ↔ feature ∈ names.filterMap Feature.ofText? := by
    simp only [List.mem_filterMap, hsame]
  -- What is told and recorded only depends on which features are listed.
  have htells := compileFeatures_tells hhead hknown' run
  obtain ⟨hsatisfied, hafter⟩ := h.unique (compileFeatures_tells hhead hknown run)
  have hall : (others.filterMap Feature.ofText?).all
      (satisfies call.host.model head call.scope.config) = satisfied := by
    rw [hsatisfied, Bool.eq_iff_iff, List.all_eq_true, List.all_eq_true]
    simp only [hfeatures]
  rw [hall] at htells
  rw [hafter]
  exact ⟨_, htells, Footprint.standard?_requireEach_congr _ head hfeatures⟩

/-- Whatever is recorded at the start, `COMPILE_FEATURES` tells of some known features that they are satisfied
exactly if it tells so of each of them alone. Afterwards, of each language that is named among them the newest
standard is recorded for the head target, be it one of theirs or the one recorded before; nothing else that is
recorded has changed, and of the rest of the footprint only that it depends on the head target. So neither the
order of the features nor how often each is listed makes a difference to what is told and recorded. -/
theorem compileFeatures_conjunction {call : Call} {head : Text} (hhead : call.scope.head = some head)
    (hknown : ∀ name ∈ call.parameters, (Feature.ofText? name).isSome = true) (run : Run) :
    ∃ (satisfied : Bool) (after : Footprint), Tells call run call.parameters satisfied after ∧
      (satisfied = true ↔ ∀ name ∈ call.parameters, ∃ alone, Tells call run [name] true alone) ∧
      (∀ language, Raised language (run.footprint.standard? head language)
        (Feature.standardsIn language (call.parameters.filterMap Feature.ofText?))
        (after.standard? head language)) ∧
      (∀ target language, target ≠ head →
        after.standard? target language = run.footprint.standard? target language) ∧
      { after with standards := run.footprint.standards } =
        { run.footprint with headSensitive := true } ∧
      ∀ names, (∀ name, name ∈ names ↔ name ∈ call.parameters) →
        ∃ after', Tells call run names satisfied after' ∧
          ∀ target language, after'.standard? target language = after.standard? target language := by
  let start : Footprint := { run.footprint with headSensitive := true }
  have htells := compileFeatures_tells hhead hknown run
  refine ⟨_, _, htells, ?_, fun language => start.raised_requireEach head _ language,
    fun target language hne => start.standard?_requireEach_of_ne _ hne language,
    start.requireEach_eq head _, fun names hsame => htells.exists_congr hhead hknown hsame⟩
  rw [← exists_tells_iff_alone hhead hknown]
  constructor
  · -- All are satisfied together exactly if each is by itself.
    intro h
    rw [h] at htells
    exact ⟨_, htells⟩
  · exact fun ⟨after, h⟩ => (htells.unique h).1

/-- The target is configured for less than one of the features, and what is recorded is no standard. -/
theorem compileFeatures_conjunction_unknown :
    let call : Call :=
      { parameters := ["cxx_std_98", "CXX_std_11", "c_std_90", "cxx_std_98"], expression := []
        chain := [], scope := { config := "Debug", head := some "app" }
        host := ⟨Model.empty.store (.base "app" "CXX_STANDARD") "98", fun _ _ _ => pure [],
          fun _ _ _ => pure []⟩ }
    let run : Run := { footprint := Footprint.setStandard {} "app" "CXX" "latest" }
    call.scope.head = some "app" ∧
      (∀ name ∈ call.parameters, (Feature.ofText? name).isSome = true) ∧
      ∃ after, Tells call run call.parameters false after ∧
        after.standard? "app" "CXX" = some "11" ∧ after.standard? "app" "C" = some "90" ∧
        ∃ after', Tells call run ["c_std_90", "CXX_std_11", "cxx_std_98"] false after' ∧
          ∀ target language, after'.standard? target language = after.standard? target language := by
  intro call run
  have hhead : call.scope.head = some "app".toList := rfl
  have hknown : ∀ name ∈ call.parameters, (Feature.ofText? name).isSome = true := by decide
  obtain ⟨satisfied, after, htells, -, -, -, -, hsame⟩ := compileFeatures_conjunction hhead hknown run
  obtain ⟨hsatisfied, hafter⟩ := htells.unique (compileFeatures_tells hhead hknown run)
  have hfalse : satisfied = false := hsatisfied.trans (by decide)
  subst hfalse
  refine ⟨hhead, hknown, after, htells, ?_, ?_, hsame _ fun name => ?_⟩
  · rw [hafter]
    decide
  · rw [hafter]
    decide
  · simp only [call, List.mem_cons, List.not_mem_nil, or_false]
    grind

end Operation

end BuildExpr
