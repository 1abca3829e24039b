import BuildExpr.Proofs.Logs
import BuildExpr.Proofs.Newest

/-!
# Which features last

`COMPILE_FEATURES` replaces a recorded standard only by a newer one. A property value, however, leaves
a footprint of its own, and when that is merged into the one before, its standards replace the
recorded ones, newer or not. So what lasts of the features handled so far is forgotten as soon as a
property value ends that has handled any of the same language, and only what lasts in that value goes
on to count.
-/

namespace BuildExpr

open Standard (Newest newest_nil newest_some_iff recency)

namespace Log

/-- The features of a language that last at the end of a log, after some that last before it. -/
def lastingAfter (language : Text) : Log → List Feature → List Feature
  | nil, before => before
  | feature f rest, before =>
    rest.lastingAfter language (if f.language = language then before ++ [f] else before)
  | value inner rest, before =>
    rest.lastingAfter language
      (if inner.lastingAfter language [] = [] then before else inner.lastingAfter language [])

/-- The features of a language that last. -/
def lasting (language : Text) (log : Log) : List Feature := log.lastingAfter language []

/-- Two logs one after the other: the second starts from what lasts of the first. -/
theorem lastingAfter_append (language : Text) (log more : Log) (before : List Feature) :
    (log ++ more).lastingAfter language before =
      more.lastingAfter language (log.lastingAfter language before) := by
  induction log generalizing before with
  | nil => rfl
  | feature f rest ih =>
    rw [feature_append]
    exact ih _
  | value inner rest _ ih =>
    rw [value_append]
    exact ih _

/-- What lasts was there before or has been handled. -/
theorem mem_of_mem_lastingAfter {language : Text} {log : Log} {before : List Feature} {f : Feature}
    (h : f ∈ log.lastingAfter language before) : f ∈ before ∨ f ∈ log.features language := by
  induction log generalizing before with
  | nil => exact .inl h
  | feature g rest ih =>
    unfold lastingAfter at h
    unfold features
    by_cases hg : g.language = language
    · rw [if_pos hg] at h ⊢
      -- The feature lasts with those before it, or it came from further on.
      rcases ih h with hmem | hmem
      · rcases List.mem_append.1 hmem with hmem | hmem
        · exact .inl hmem
        · exact .inr (List.mem_singleton.1 hmem ▸ List.mem_cons_self)
      · exact .inr (List.mem_cons_of_mem g hmem)
    · rw [if_neg hg] at h ⊢
      exact ih h
  | value inner rest ihinner ih =>
    unfold lastingAfter at h
    unfold features
    rw [List.mem_append]
    rcases ih h with hmem | hmem
    · -- A value that handles no feature of the language forgets none.
      by_cases hinner : inner.lastingAfter language [] = []
      · rw [if_pos hinner] at hmem
        exact .inl hmem
      · rw [if_neg hinner] at hmem
        rcases ihinner hmem with hnil | hmem
        · exact absurd hnil List.not_mem_nil
        · exact .inr (.inl hmem)
    · exact .inr (.inr hmem)

/-- Nothing lasts only if nothing has been handled. -/
theorem lastingAfter_eq_nil {language : Text} {log : Log} {before : List Feature} :
    log.lastingAfter language before = [] ↔ before = [] ∧ log.features language = [] := by
  induction log generalizing before with
  | nil => simp [lastingAfter, features]
  | feature f rest ih =>
    unfold lastingAfter features
    rw [ih]
    by_cases hf : f.language = language
    · simp [hf]
    · simp [hf]
  | value inner rest ihinner ih =>
    unfold lastingAfter features
    rw [ih, List.append_eq_nil_iff]
    -- Only a value in which something lasts makes what was there before be forgotten.
    by_cases hinner : inner.lastingAfter language [] = []
    · rw [if_pos hinner]
      have hfeatures : inner.features language = [] := (ihinner.1 hinner).2
      simp [hfeatures]
    · rw [if_neg hinner]
      constructor
      · exact fun h => absurd h.1 hinner
      · exact fun h => absurd (ihinner.2 ⟨rfl, h.2.1⟩) hinner

end Log

/-- The features of a language that are handled are features of it. -/
theorem Log.language_of_mem_features {language : Text} {log : Log} {f : Feature}
    (h : f ∈ log.features language) : f.language = language := by
  induction log with
  | nil => exact absurd h List.not_mem_nil
  | feature g rest ih =>
    unfold features at h
    by_cases hg : g.language = language
    · rw [if_pos hg] at h
      rcases List.mem_cons.1 h with heq | hmem
      · rw [heq]
        exact hg
      · exact ih hmem
    · rw [if_neg hg] at h
      exact ih h
  | value inner rest ihinner ih =>
    unfold features at h
    rcases List.mem_append.1 h with hmem | hmem
    · exact ihinner hmem
    · exact ih hmem

/-- What lasts has been handled. -/
theorem Log.mem_features_of_mem_lasting {language : Text} {log : Log} {f : Feature}
    (h : f ∈ log.lasting language) : f ∈ log.features language :=
  (Log.mem_of_mem_lastingAfter h).resolve_left List.not_mem_nil

/-- The features of a language that are handled are as new as their ranks say. -/
theorem Log.recency_of_mem_features {language : Text} {log : Log} {f : Feature}
    (h : f ∈ log.features language) : recency language f.standard = f.rank + 1 := by
  rw [← f.recency_eq, Log.language_of_mem_features h]

/-- The newest standard that lasts is the newest one handled exactly if nothing newer has been
forgotten. -/
theorem Log.newest_features_iff {language : Text} {log : Log} {recorded : Option Text}
    (h : Newest language ((log.lasting language).map Feature.standard) recorded) :
    Newest language ((log.features language).map Feature.standard) recorded ↔
      ∀ f ∈ log.features language, ∃ g ∈ log.lasting language, f.rank ≤ g.rank := by
  cases h with
  | empty hlasting =>
    have hfeatures : log.features language = [] :=
      (Log.lastingAfter_eq_nil.1 (List.map_eq_nil_iff.1 hlasting)).2
    simp [hfeatures, newest_nil]
  | of_mem hmem hmax =>
    -- The recorded standard is that of a feature that lasts, so it can be compared by ranks.
    obtain ⟨g, hg, rfl⟩ := List.mem_map.1 hmem
    have hgrank := Log.recency_of_mem_features (Log.mem_features_of_mem_lasting hg)
    rw [newest_some_iff]
    constructor
    · rintro ⟨-, hfmax⟩ f hf
      have hle := hfmax f.standard (List.mem_map_of_mem hf)
      rw [Log.recency_of_mem_features hf, hgrank] at hle
      exact ⟨g, hg, Nat.le_of_succ_le_succ hle⟩
    · intro hnewer
      refine ⟨List.mem_map_of_mem (Log.mem_features_of_mem_lasting hg), fun other hother => ?_⟩
      obtain ⟨f, hf, rfl⟩ := List.mem_map.1 hother
      obtain ⟨g', hg', hle⟩ := hnewer f hf
      calc recency language f.standard = f.rank + 1 := Log.recency_of_mem_features hf
        _ ≤ g'.rank + 1 := Nat.succ_le_succ hle
        _ = recency language g'.standard :=
          (Log.recency_of_mem_features (Log.mem_features_of_mem_lasting hg')).symm
        _ ≤ recency language g.standard := hmax g'.standard (List.mem_map_of_mem hg')

/-- A run in which the standard recorded for a language of the head target is the newest of those of
some features. -/
structure Run.Records (head language : Text) (features : List Feature) (run : Run) : Prop where
  /-- No standard is recorded twice. -/
  distinct : run.footprint.standards.Distinct
  /-- The newest one is recorded. -/
  newest : Newest language (features.map Feature.standard) (run.footprint.standard? head language)

/-- A footprint without standards records nothing. -/
theorem Run.records_nil {head language : Text} {run : Run} (h : run.footprint.standards = {}) :
    Run.Records head language [] run where
  distinct := h ▸ Table.distinct_empty
  newest := by
    rw [List.map_nil, newest_nil]
    unfold Footprint.standard?
    rw [h]
    rfl

/-- What is recorded depends on the standards only. -/
theorem Run.Records.of_standards_eq {head language : Text} {features : List Feature} {run after : Run}
    (h : Run.Records head language features run)
    (hstandards : after.footprint.standards = run.footprint.standards) :
    Run.Records head language features after where
  distinct := hstandards ▸ h.distinct
  newest := by
    unfold Footprint.standard?
    rw [hstandards]
    exact h.newest

/-- Noting a feature keeps the newest one recorded. -/
theorem Run.Records.require {head language : Text} {features : List Feature} {run : Run}
    (h : Run.Records head language features run) (feature : Feature) :
    Run.Records head language
      (if feature.language = language then features ++ [feature] else features)
      { run with footprint := run.footprint.require head feature } where
  distinct := by
    rcases run.footprint.require_cases head feature with hrequire | hrequire
    · rw [hrequire]
      exact h.distinct.insert _ _
    · rw [hrequire]
      exact h.distinct
  newest := by
    have hraised := h.newest.raise (run.footprint.raised_require head feature language)
    rw [Feature.standardsIn_singleton] at hraised
    by_cases hlanguage : feature.language = language
    · rw [if_pos hlanguage] at hraised ⊢
      rwa [List.map_append, List.map_singleton]
    · rw [if_neg hlanguage, List.append_nil] at hraised
      rwa [if_neg hlanguage]

/-- Merging in a footprint that has recorded something makes that the newest one, older or not. -/
theorem Run.Records.merge {head language : Text} {before inner : List Feature} {run body after : Run}
    (h : Run.Records head language before run) (hbody : Run.Records head language inner body)
    (hafter : after.footprint.standards = run.footprint.standards.merge body.footprint.standards) :
    Run.Records head language (if inner = [] then before else inner) after where
  distinct := hafter ▸ h.distinct.merge _
  newest := by
    have hstandard : after.footprint.standard? head language =
        (body.footprint.standard? head language).or (run.footprint.standard? head language) := by
      unfold Footprint.standard?
      rw [hafter, Table.get?_merge _ hbody.distinct]
    -- The body has recorded a standard exactly if something lasts in it.
    have hnone := hbody.newest.eq_none_iff
    rw [List.map_eq_nil_iff] at hnone
    rw [hstandard]
    by_cases hinner : inner = []
    · rw [if_pos hinner, hnone.2 hinner, Option.none_or]
      exact h.newest
    · obtain ⟨standard, hrecorded⟩ := Option.ne_none_iff_exists'.1 fun heq => hinner (hnone.1 heq)
      rw [if_neg hinner, hrecorded, Option.some_or, ← hrecorded]
      exact hbody.newest

end BuildExpr
