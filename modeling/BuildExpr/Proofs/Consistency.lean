import Mathlib.Tactic.ByContra
import BuildExpr.Proofs.Growth
import BuildExpr.Proofs.Lookups

/-!
# What is noted fits together

The facts in a footprint are noted by several operations, some before and some after the checks that
may still fail, and they travel through the footprints of property values. Still they fit together
wherever an evaluation ends: targets are noted only if the model has them, a property only for the head
target or for a target that has been named, and standards only for the head target, after it has been
noted that the result depends on it (`Footprint.Consistent`). What is noted at the start is still noted
at the end (`evaluateIn_noted`).

The invariant is about single footprints. It is kept by every change an operation makes, provided that
the operation has found out what it needs to know before it makes the change, and by merging.
-/

namespace BuildExpr

open Compiled (finalRun)

/-- Facts that fit together in an evaluation over a model for a head target. -/
structure Footprint.Consistent (m : Model) (head : Option Text) (f : Footprint) : Prop where
  /-- Every target that the result depends on has been named. -/
  depend : f.depend ⊆ f.all
  /-- Every target that has been named is one of the model. -/
  all : ∀ target ∈ f.all, m.hasTarget target = true
  /-- Every property read is one of the head target or of a target that has been named, -/
  seen : ∀ target property, (target, property) ∈ f.seen → head = some target ∨ target ∈ f.all
  /-- and it has a name of ASCII letters, digits and underscores. -/
  names : ∀ target property, (target, property) ∈ f.seen →
    property ≠ [] ∧ property.isWord = true
  /-- Every standard has been asked of the head target. -/
  owners : ∀ target language standard, ((target, language), standard) ∈ f.standards.entries →
    head = some target
  /-- It is one of the standards that its language has. -/
  standards : ∀ target language standard, ((target, language), standard) ∈ f.standards.entries →
    standard ∈ Standard.ofLanguage language
  /-- If there is any, the result depends on the head target. -/
  headSensitive : f.standards.entries ≠ [] → f.headSensitive = true

/-! ## Changes to a footprint -/

namespace Table

variable {κ α : Type} [DecidableEq κ] {entry : κ × α}

/-- An entry after a value has been put in is that one or was there before. -/
theorem mem_entries_put {k : κ} {v : α} {entries : List (κ × α)} (h : entry ∈ put k v entries) :
    entry = (k, v) ∨ entry ∈ entries := by
  induction entries with
  | nil => exact .inl (List.mem_singleton.1 h)
  | cons first rest ih =>
    obtain ⟨key, value⟩ := first
    unfold put at h
    by_cases hkey : key = k
    · rw [if_pos hkey] at h
      exact (List.mem_cons.1 h).imp id (List.mem_cons_of_mem _)
    · rw [if_neg hkey] at h
      rcases List.mem_cons.1 h with rfl | hrest
      · exact .inr List.mem_cons_self
      · exact (ih hrest).imp id (List.mem_cons_of_mem _)

/-- What is in a table after an insertion has been put in or was there. -/
theorem mem_entries_insert {t : Table κ α} {k : κ} {v : α} (h : entry ∈ (t.insert k v).entries) :
    entry = (k, v) ∨ entry ∈ t.entries := mem_entries_put h

/-- What is in a merged table was in one of the two. -/
theorem mem_entries_merge {t u : Table κ α} (h : entry ∈ (t.merge u).entries) :
    entry ∈ t.entries ∨ entry ∈ u.entries := by
  obtain ⟨entries⟩ := u
  induction entries generalizing t with
  | nil => exact .inl h
  | cons first rest ih =>
    rcases ih (t := t.insert first.1 first.2) h with hinsert | hrest
    · rcases mem_entries_insert hinsert with rfl | hmem
      · exact .inr List.mem_cons_self
      · exact .inl hmem
    · exact .inr (List.mem_cons_of_mem _ hrest)

end Table

/-- The standard of a feature is one of its language. -/
theorem Feature.standard_mem (feature : Feature) :
    feature.standard ∈ Standard.ofLanguage feature.language := by
  by_contra hnone
  have hrank := feature.rank_eq
  rw [Standard.rank?, List.idxOf?_eq_none_iff.2 hnone] at hrank
  cases hrank

namespace Footprint.Consistent

variable {m : Model} {head : Option Text} {f g : Footprint}

/-- Where nothing is noted, all fits together. -/
theorem nil : Consistent m head {} :=
  ⟨List.Subset.refl _, nofun, nofun, nofun, nofun, nofun, fun h => absurd rfl h⟩

/-- A named target that is one of the model may be noted. -/
theorem named (h : Consistent m head f) {target : Text} (htarget : m.hasTarget target = true) :
    Consistent m head ((f.addNamed target).addDepend target) where
  depend := fun t ht =>
    Members.mem_insert.2 ((Members.mem_insert.1 ht).imp id fun hdepend => h.depend hdepend)
  all := fun t ht => by
    rcases Members.mem_insert.1 ht with rfl | hall
    · exact htarget
    · exact h.all t hall
  seen := fun t p hp => (h.seen t p hp).imp id fun hall => Members.mem_insert.2 (.inr hall)
  names := h.names
  owners := h.owners
  standards := h.standards
  headSensitive := h.headSensitive

/-- A property with a proper name may be noted for the head target and for a named target. -/
theorem see (h : Consistent m head f) {target property : Text}
    (htarget : head = some target ∨ target ∈ f.all) (hname : property ≠ [])
    (hword : property.isWord = true) : Consistent m head (f.see target property) where
  depend := h.depend
  all := h.all
  seen := fun t p hp => by
    rcases Members.mem_insert.1 hp with heq | hseen
    · cases heq
      exact htarget
    · exact h.seen t p hseen
  names := fun t p hp => by
    rcases Members.mem_insert.1 hp with heq | hseen
    · cases heq
      exact ⟨hname, hword⟩
    · exact h.names t p hseen
  owners := h.owners
  standards := h.standards
  headSensitive := h.headSensitive

/-- A standard may be noted for the head target if the result is known to depend on it. -/
theorem setStandard (h : Consistent m head f) {target : Text} (htarget : head = some target)
    (hsensitive : f.headSensitive = true) {language standard : Text}
    (hstandard : standard ∈ Standard.ofLanguage language) :
    Consistent m head (f.setStandard target language standard) where
  depend := h.depend
  all := h.all
  seen := h.seen
  names := h.names
  owners := fun t l s hs => by
    rcases Table.mem_entries_insert hs with heq | hentry
    · cases heq
      exact htarget
    · exact h.owners t l s hentry
  standards := fun t l s hs => by
    rcases Table.mem_entries_insert hs with heq | hentry
    · cases heq
      exact hstandard
    · exact h.standards t l s hentry
  headSensitive := fun _ => hsensitive

/-- A feature may be required of the head target if the result is known to depend on it. -/
theorem require (h : Consistent m head f) {target : Text} (htarget : head = some target)
    (hsensitive : f.headSensitive = true) (feature : Feature) :
    Consistent m head (f.require target feature) := by
  rcases f.require_cases target feature with hset | hsame
  · rw [hset]
    exact h.setStandard htarget hsensitive feature.standard_mem
  · rw [hsame]
    exact h

/-- Two footprints that fit together do so when merged. -/
theorem merge (hf : Consistent m head f) (hg : Consistent m head g) :
    Consistent m head (f.merge g) where
  depend := fun t ht =>
    Members.mem_union.2 ((Members.mem_union.1 ht).imp (fun h => hf.depend h) fun h => hg.depend h)
  all := fun t ht => (Members.mem_union.1 ht).elim (hf.all t) (hg.all t)
  seen := fun t p hp => by
    rcases Members.mem_union.1 hp with hseen | hseen
    · exact (hf.seen t p hseen).imp id fun hall => Members.mem_union.2 (.inl hall)
    · exact (hg.seen t p hseen).imp id fun hall => Members.mem_union.2 (.inr hall)
  names := fun t p hp => (Members.mem_union.1 hp).elim (hf.names t p) (hg.names t p)
  owners := fun t l s hs => (Table.mem_entries_merge hs).elim (hf.owners t l s) (hg.owners t l s)
  standards := fun t l s hs =>
    (Table.mem_entries_merge hs).elim (hf.standards t l s) (hg.standards t l s)
  headSensitive := fun hne => by
    obtain ⟨entry, rest, hentries⟩ := List.exists_cons_of_ne_nil hne
    have hentry : entry ∈ (f.merge g).standards.entries := hentries ▸ List.mem_cons_self
    rw [Footprint.merge, Bool.or_eq_true]
    rcases Table.mem_entries_merge hentry with hmem | hmem
    · exact .inl (hf.headSensitive (List.ne_nil_of_mem hmem))
    · exact .inr (hg.headSensitive (List.ne_nil_of_mem hmem))

end Footprint.Consistent

/-! ## Evaluations -/

/-- An evaluation that keeps a property of what has been noted. -/
abbrev Eval.KeepsNoted (P : Footprint → Prop) {α : Type} (x : Eval α) : Prop :=
  Eval.Advances (fun r s => P r.footprint → P s.footprint) x

/-- A property of footprints that is kept from one run to the next is a kind of progress. -/
theorem Run.progress_noted (P : Footprint → Prop) :
    Run.Progress fun r s => P r.footprint → P s.footprint where
  refl _ h := h
  trans h h' hr := h' (h hr)
  within h := h

/-- A change that keeps a property of footprints may be made. -/
theorem Eval.KeepsNoted.touch {P : Footprint → Prop} {change : Footprint → Footprint}
    (h : ∀ f, P f → P (change f)) : Eval.KeepsNoted P (Eval.touch change) :=
  fun run hrun => h run.footprint hrun

open Eval (KeepsNoted)

section

variable {m : Model} {head : Option Text} {call : Call} (hhead : call.scope.head = head)
  (hmodel : call.host.model = m)

namespace Operation

/-- What `CONFIG` notes fits together. -/
theorem config_consistent (call : Call) :
    KeepsNoted (Footprint.Consistent m head) (config.evaluate call) := by
  have hR := (Run.progress_noted (Footprint.Consistent m head)).congruence
  unfold config
  refine hR.fixed_bind (KeepsNoted.touch fun f h => { h with }) fun _ => ?_
  split
  · exact hR.fixed_pure _
  · cases call.parameters.find? fun parameter => !parameter.isWord with
    | none => exact hR.fixed_pure _
    | some bad => exact hR.fixed_fail _

/-- The property that is asked for is one of the head target or of a target that has been named. -/
theorem propertyAddress_noted {run after : Run} {target property : Text}
    (h : propertyAddress call run = .ok (target, property) after) :
    call.scope.head = some target ∨ target ∈ after.footprint.all := by
  have haddressed := propertyAddress_eq_ok h
  unfold propertyAddress at h
  -- Only two parameters name a target, and then it is noted.
  rcases hparameters : call.parameters with _ | ⟨first, _ | ⟨second, _ | ⟨third, more⟩⟩⟩
  · rw [hparameters] at h
    cases h
  · rw [hparameters] at haddressed
    obtain ⟨head, hhead, heq⟩ := Option.map_eq_some_iff.1 haddressed
    cases heq
    exact .inl hhead
  · rw [hparameters] at h
    dsimp only at h
    split at h
    · cases h
    · split at h
      · cases h
      · split at h
        · cases h
        · cases h
          exact .inr (Members.mem_insert.2 (.inl rfl))
  · rw [hparameters] at h
    cases h

/-- What is found is one of the targets of the model. -/
theorem hasTarget_of_targetExistsFor {operation : Text}
    (h : targetExistsFor operation call = .ok true) :
    call.host.model.hasTarget (firstParameter call.parameters) = true := by
  unfold targetExistsFor at h
  dsimp only at h
  split at h
  · exact Except.ok.inj h
  · cases h

include hmodel

/-- So does what finding out the target of a property notes. -/
theorem propertyAddress_consistent :
    KeepsNoted (Footprint.Consistent m head) (propertyAddress call) := by
  have hR := (Run.progress_noted (Footprint.Consistent m head)).congruence
  unfold propertyAddress
  split
  · split
    · exact refuseProperty_fixed hR _
    · exact hR.fixed_bind (KeepsNoted.touch fun f h => { h with headSensitive := fun _ => rfl })
        fun _ => hR.fixed_pure _
  · split
    · exact refuseProperty_fixed hR _
    · split
      · exact refuseProperty_fixed hR _
      · split
        · exact hR.fixed_fail _
        · rename_i htarget
          rw [Bool.not_eq_true', Bool.not_eq_false, hmodel] at htarget
          exact hR.fixed_bind (KeepsNoted.touch fun f h => h.named htarget) fun _ => hR.fixed_pure _
  · exact hR.fixed_fail _

/-- So does what `TARGET_OBJECTS` notes, as it looks for the target first. -/
theorem targetObjects_consistent :
    KeepsNoted (Footprint.Consistent m head) (targetObjects.evaluate call) := by
  have hR := (Run.progress_noted (Footprint.Consistent m head)).congruence
  unfold targetObjects
  dsimp only
  refine hR.fixed_unless (hR.fixed_fail _) ?_
  cases hresult : targetExistsFor "TARGET_OBJECTS" call with
  | error cause => exact fun run hrun => hrun
  | ok found =>
    cases found with
    | false => exact fun run hrun => hrun
    | true =>
      have htarget := hasTarget_of_targetExistsFor hresult
      rw [hmodel] at htarget
      exact fun run hrun => hrun.named htarget

include hhead

/-- A property is noted after its target has been found and its name has been checked. -/
theorem seek_consistent : KeepsNoted (Footprint.Consistent m head) (seek call) := by
  have hprogress := Run.progress_noted (Footprint.Consistent m head)
  unfold seek
  refine hprogress.bind (propertyAddress_consistent hmodel) fun run address after haddress _ => ?_
  obtain ⟨target, property⟩ := address
  have htarget := propertyAddress_noted haddress
  rw [hhead] at htarget
  dsimp only
  split
  · exact fun hafter => hafter
  · split
    · exact fun hafter => hafter
    · rename_i hempty hword
      have hname : property ≠ [] := fun hnil => hempty (hnil ▸ rfl)
      rw [Bool.not_eq_true', Bool.not_eq_false] at hword
      -- The property is noted as seen before anything is found of it.
      have hfound := found_fixed hprogress.congruence
        (Chain.refusal? ⟨target, property, call.expression⟩ call.chain)
        ⟨target, property, call.expression⟩
        (call.host.model.property? target property call.scope.config)
      exact fun hafter => hfound { after with footprint := after.footprint.see target property }
        (hafter.see htarget hname hword)

omit hmodel in
/-- Standards are noted after the result has been noted to depend on the head target. -/
theorem compileFeatures_consistent :
    KeepsNoted (Footprint.Consistent m head) (compileFeatures.evaluate call) := by
  unfold compileFeatures
  dsimp only
  cases htarget : call.scope.head with
  | none => exact fun run hrun => hrun
  | some target =>
    rw [htarget] at hhead
    -- Standards are recorded for the head target only, so the flag has to be raised before any of them.
    let sensitive (f : Footprint) : Prop := f.Consistent m head ∧ f.headSensitive = true
    have hR := (Run.progress_noted sensitive).congruence
    have hrequire (feature : Feature) :
        KeepsNoted sensitive (Eval.touch fun f => f.require target feature) :=
      .touch fun f h => ⟨h.1.require hhead.symm h.2 feature, by
        rcases f.require_cases target feature with hset | hsame
        · rw [hset]
          exact h.2
        · rw [hsame]
          exact h.2⟩
    have hrest : KeepsNoted sensitive (do
        let satisfied ← requireAll call.host.model target call.scope.config call.parameters
        return Text.ofBool satisfied) :=
      hR.fixed_bind (requireAll_fixed hR _ target _ hrequire _) fun _ => hR.fixed_pure _
    exact fun run hrun => (hrest { run with footprint := { run.footprint with headSensitive := true } }
      ⟨{ hrun with headSensitive := fun _ => rfl }, rfl⟩).1

end Operation

variable (hvalue : ∀ scope chain value, scope.head = head →
  KeepsNoted (Footprint.Consistent m head) (call.host.evaluateValue scope chain value))

include hhead hmodel hvalue

/-- What the evaluation of a property value notes is consistent by itself. -/
theorem Operation.targetProperty_consistent :
    KeepsNoted (Footprint.Consistent m head) (targetProperty.evaluate call) := by
  have hR := (Run.progress_noted (Footprint.Consistent m head)).congruence
  refine hR.fixed_bind (Operation.seek_consistent hhead hmodel) fun sought => ?_
  cases sought with
  | text value => exact hR.fixed_pure value
  | value lookup stored =>
    intro run hrun
    rw [Eval.finalRun_apart]
    exact hrun.merge (hvalue (call.scope.derive lookup.target) (lookup :: call.chain) stored hhead
      { run with footprint := {} } .nil)

/-- What a built-in operation notes fits together. -/
theorem Builtin.evaluate_consistent (b : Builtin) :
    KeepsNoted (Footprint.Consistent m head) (b.operation.evaluate call) := by
  have hR := (Run.progress_noted (Footprint.Consistent m head)).congruence
  cases b with
  | zero | one | buildInterface | installInterface => exact hR.fixed_pure _
  | bool | angle | comma | semicolon | lowerCase | upperCase | removeDuplicates =>
    exact hR.fixed_pure _
  | and | or | not | choice | stringEqual | integerEqual | inList | join => exact hR.ofExcept _
  | config => exact Operation.config_consistent call
  | compileLanguage => exact Operation.compileLanguage_fixed hR call
  | targetExists | targetNameIfExists =>
    exact hR.fixed_bind (hR.ofExcept _) fun found => hR.fixed_pure _
  | targetProperty => exact Operation.targetProperty_consistent hhead hmodel hvalue
  | targetObjects => exact Operation.targetObjects_consistent hmodel
  | compileFeatures => exact Operation.compileFeatures_consistent hhead

end

section

variable {engine : Engine} (hbuiltin : engine.registry.added = [])

include hbuiltin

/-- Evaluating a forest leaves consistent facts if there were such before. -/
theorem Engine.evaluateForest_consistent (m : Model) (remaining : Nat) (scope : Scope)
    (chain : Chain) (source : Text) (nodes : Forest) :
    KeepsNoted (Footprint.Consistent m scope.head)
      (engine.evaluateForest m remaining scope chain source nodes) := by
  let sameHead (s s' : Scope) : Prop := s.head = scope.head ∧ s' = s
  have hR := (Run.progress_noted (Footprint.Consistent m scope.head)).congruence
  change Eval.advancing _ Text (engine.evaluateForest m remaining scope chain source nodes)
    (engine.evaluateForest m remaining scope chain source nodes)
  refine Engine.evaluateForest_related (S := sameHead) hR rfl ?_ ?_ 0 ?_ remaining chain source nodes
    ⟨rfl, rfl⟩
  · intro forest forest' hforest value
    exact hR.bind (fun run hrun => hrun) fun tree => hR.evaluateTree hforest tree
  · intro name op hfind call call' hcall
    obtain ⟨b, -, rfl⟩ := Registry.exists_builtin hbuiltin hfind
    exact b.evaluate_consistent hcall.scope.1 hcall.left fun scope chain value hscope =>
      hcall.value scope scope chain value ⟨hscope, rfl⟩
  · intro s s' chain source nodes _
    -- No operation may be opened any more: what is written fails and notes nothing.
    refine hR.fixed_evaluateWith (fun _ _ span run hrun => ?_) nodes
    rw [Eval.finalRun_inExpression]
    exact hrun

/-- What an evaluation notes fits together if it did so at the start. -/
theorem Compiled.evaluateIn_consistent (c : Compiled) (context : Context) (chain : Chain)
    (w : Workspace) (h : context.footprint.Consistent w.store.model context.scope.head) :
    (c.evaluateIn engine context chain w).2.1.footprint.Consistent w.store.model
      context.scope.head := by
  have hR := (Run.progress_noted
    (Footprint.Consistent w.store.model context.scope.head)).congruence
  have htree := hR.fixed_evaluateTree (fun source nodes =>
    Engine.evaluateForest_consistent hbuiltin w.store.model (engine.limit - context.depth)
      context.scope chain source nodes) c.tree (context.toRun w) h
  unfold evaluateIn
  split
  · change (finalRun (outcome engine c.tree context chain w)).footprint.Consistent _ _
    rw [outcome_eq]
    unfold Engine.evaluateTree
    -- That the evaluation has failed is noted as well.
    revert htree
    cases c.tree.evaluateWith _ (context.toRun w) with
    | ok value run => exact fun htree => htree
    | error failure run => exact fun htree => { htree with }
  · exact h

end

/-- With built-in operations, evaluating a tree in a context, whether or not it succeeds, takes back
nothing that has been noted in it. If nothing has, then what is noted at the end fits together: the
targets depended on are among those named, these are targets of the model, every property read has a
proper name and is one of the head target or of a target named, and standards of languages are asked of
the head target only and only if the result is noted to depend on it. -/
theorem evaluateIn_noted (engine : Engine) (hbuiltin : engine.registry.added = []) (c : Compiled)
    (context : Context) (chain : Chain) (w : Workspace) :
    let noted := (c.evaluateIn engine context chain w).2.1.footprint
    context.footprint.Within noted ∧
      (context.footprint = {} → noted.Consistent w.store.model context.scope.head) := by
  intro noted
  refine ⟨Compiled.evaluateIn_grows hbuiltin c context chain w, fun hfresh => ?_⟩
  refine Compiled.evaluateIn_consistent hbuiltin c context chain w ?_
  rw [hfresh]
  exact .nil

/-- The value of a property asks for a standard, for the objects of a target and for a property of it
before an operation in it fails for the want of a target. All of this is noted, and so is the failure. -/
theorem evaluateIn_noted_on_failure :
    let w : Workspace :=
      { store := .ofWrites [.target "lib",
          .value (.base "app" "P")
            "$<COMPILE_FEATURES:c_std_11>$<TARGET_OBJECTS:lib>$<TARGET_PROPERTY:none,Q>"] }
    let engine : Engine := { forBuildsystem := true }
    let inputs : Inputs := { config := "Debug", head := some "app" }
    let c := engine.compile "$<CONFIG>$<TARGET_PROPERTY:lib,$<TARGET_PROPERTY:P>>"
    let context := c.context engine inputs
    let evaluated := c.evaluateIn engine context [] w
    let noted := evaluated.2.1.footprint
    evaluated.1.failure = some ⟨.targetNotFound "none", some "$<TARGET_PROPERTY:none,Q>"⟩ ∧
      noted =
        { failed := true, contextSensitive := true, headSensitive := true
          seen := [("app", "P")], depend := ["lib"], all := ["lib"]
          standards := ⟨[(("app", "C"), "11")]⟩ } ∧
      context.footprint.Within noted ∧ noted.Consistent w.store.model (some "app") := by
  intro w engine inputs c context evaluated noted
  obtain ⟨hwithin, hconsistent⟩ := evaluateIn_noted engine rfl c context [] w
  exact ⟨by decide +kernel, by decide +kernel, hwithin, hconsistent rfl⟩

end BuildExpr
