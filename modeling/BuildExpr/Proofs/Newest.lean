import Mathlib.Data.List.Basic
import BuildExpr.Operation.Features

/-!
# The newest standard

Two standards of a language are compared by their places in its order (`Standard.recency`), and a text that
is no standard of the language is older than all that are. The newest of some standards is one of them that
none is newer than (`Standard.Newest`). Of two standards that are as new as each other, neither of them
unknown, both are the same text, so that there is only one newest standard (`Standard.Newest.unique`).

Asking for standards records the newest one of them and of what has been recorded (`Standard.Raised`): one
feature does so (`Footprint.raised_require`), and what is recorded after one step after the other is as if
all had been asked for at once (`Standard.Raised.trans`).
-/

namespace BuildExpr

namespace Standard

variable {language : Text}

/-- How new a standard of a language is. What is no standard of the language is older than all that are. -/
def recency (language standard : Text) : Nat :=
  match rank? language standard with
  | some rank => rank + 1
  | none => 0

/-- A standard of a language is found at its place in the order. -/
theorem getElem?_of_rank? {standard : Text} {rank : Nat} (h : rank? language standard = some rank) :
    (ofLanguage language)[rank]? = some standard := by
  have hfound := List.findIdx?_eq_some_iff_getElem.1 h
  obtain ⟨hlt, heq, -⟩ := hfound
  rw [List.getElem?_eq_getElem hlt, eq_of_beq heq]

/-- Standards that are as new as each other are the same. -/
theorem eq_of_recency_eq {standard other : Text} (hpos : 0 < recency language standard)
    (h : recency language standard = recency language other) : standard = other := by
  unfold recency at hpos h
  cases hrank : rank? language standard with
  | none =>
    rw [hrank] at hpos
    exact absurd hpos (Nat.lt_irrefl 0)
  | some rank =>
    cases hother : rank? language other with
    | none =>
      rw [hrank, hother] at h
      cases h
    | some rank' =>
      rw [hrank, hother] at h
      obtain rfl : rank = rank' := Nat.succ.inj h
      have hplaces := (getElem?_of_rank? hrank).symm.trans (getElem?_of_rank? hother)
      exact Option.some.inj hplaces

/-- A standard is the newest of some, if there are any. -/
inductive Newest (language : Text) (standards : List Text) : Option Text → Prop where
  /-- There are none. -/
  | empty (h : standards = []) : Newest language standards none
  /-- It is one of them, and none of them is newer. -/
  | of_mem {standard : Text} (hmem : standard ∈ standards)
    (hmax : ∀ other ∈ standards, recency language other ≤ recency language standard) :
    Newest language standards (some standard)

/-- There is no newest standard exactly if there are none. -/
theorem newest_none_iff {standards : List Text} : Newest language standards none ↔ standards = [] := by
  constructor
  · rintro ⟨h⟩
    exact h
  · exact .empty

/-- The newest standard is one of them that none is newer than. -/
theorem newest_some_iff {standards : List Text} {standard : Text} :
    Newest language standards (some standard) ↔
      standard ∈ standards ∧
        ∀ other ∈ standards, recency language other ≤ recency language standard := by
  constructor
  · rintro ⟨⟩
    exact ⟨‹_›, ‹_›⟩
  · rintro ⟨hmem, hmax⟩
    exact .of_mem hmem hmax

/-- Either there is none, or one of them is the newest. -/
theorem newest_iff {standards : List Text} {standard : Option Text} :
    Newest language standards standard ↔
      (standard = none ∧ standards = []) ∨
        ∃ newest ∈ standards, standard = some newest ∧
          ∀ other ∈ standards, recency language other ≤ recency language newest := by
  cases standard with
  | none => simp [newest_none_iff]
  | some standard => simp [newest_some_iff, eq_comm]

instance (standards : List Text) (standard : Option Text) :
    Decidable (Newest language standards standard) :=
  decidable_of_iff _ newest_iff.symm

/-- Of no standards there is no newest one. -/
theorem newest_nil {standard : Option Text} : Newest language [] standard ↔ standard = none := by
  cases standard with
  | none => simp [newest_none_iff]
  | some standard => simp [newest_some_iff]

/-- There is a newest standard exactly if there are any. -/
theorem Newest.eq_none_iff {standards : List Text} {standard : Option Text}
    (h : Newest language standards standard) : standard = none ↔ standards = [] := by
  cases h with
  | empty h => exact iff_of_true rfl h
  | of_mem hmem => exact iff_of_false nofun (List.ne_nil_of_mem hmem)

/-- There are no two newest ones unless none is a standard of the language. -/
theorem Newest.unique {standards others : List Text} {standard other : Option Text}
    (h : Newest language standards standard) (h' : Newest language others other)
    (hsame : ∀ s, s ∈ standards ↔ s ∈ others) (hknown : ∃ s ∈ standards, 0 < recency language s) :
    standard = other := by
  obtain ⟨known, hmem, hpos⟩ := hknown
  cases h with
  | empty h => exact absurd h (List.ne_nil_of_mem hmem)
  | @of_mem standard hstandard hmax =>
    cases h' with
    | empty h' => exact absurd h' (List.ne_nil_of_mem ((hsame known).1 hmem))
    | @of_mem other hother hmax' =>
      have hle : recency language standard ≤ recency language other :=
        hmax' standard ((hsame standard).1 hstandard)
      have hge : recency language other ≤ recency language standard :=
        hmax other ((hsame other).2 hother)
      have hpos' : 0 < recency language standard := Nat.lt_of_lt_of_le hpos (hmax known hmem)
      rw [eq_of_recency_eq hpos' (Nat.le_antisymm hle hge)]

/-! ## What comes to be recorded -/

/-- What is recorded for a language after some standards of it have been asked for: the newest of them and
of what was recorded before, or just that if none has been asked for. -/
inductive Raised (language : Text) (before : Option Text) : List Text → Option Text → Prop where
  /-- Nothing has been asked for. -/
  | unchanged : Raised language before [] before
  /-- The newest one has been recorded. -/
  | newest {asked : List Text} {after : Option Text} (hasked : asked ≠ [])
    (h : Newest language (before.toList ++ asked) after) : Raised language before asked after

/-- If the newest of some standards has been recorded and more are asked for, the newest of all is recorded. -/
theorem Newest.raise {standards asked : List Text} {before after : Option Text}
    (h : Newest language standards before) (hraised : Raised language before asked after) :
    Newest language (standards ++ asked) after := by
  cases hraised with
  | unchanged => rwa [List.append_nil]
  | newest hasked hnewest =>
    cases hnewest with
    | empty hnil => exact absurd (List.append_eq_nil_iff.1 hnil).2 hasked
    | @of_mem last hlast hlastmax =>
      cases h with
      | empty hnil =>
        subst hnil
        exact .of_mem hlast hlastmax
      | @of_mem first hfirst hfirstmax =>
        refine .of_mem ?_ fun other hother => ?_
        · rcases List.mem_append.1 hlast with hmem | hmem
          · -- The one that was recorded is still the newest.
            rw [List.mem_singleton.1 hmem]
            exact List.mem_append_left asked hfirst
          · exact List.mem_append_right standards hmem
        · rcases List.mem_append.1 hother with hmem | hmem
          · calc recency language other ≤ recency language first := hfirstmax other hmem
              _ ≤ recency language last := hlastmax first (List.mem_append_left asked (by simp))
          · exact hlastmax other (List.mem_append_right _ hmem)

namespace Raised

variable {before between after : Option Text} {asked more : List Text}

/-- If some more standards are asked for later, it is as if all had been asked for at once. -/
theorem trans (h : Raised language before asked between)
    (h' : Raised language between more after) :
    Raised language before (asked ++ more) after := by
  cases h with
  | unchanged => exact h'
  | newest hasked hfirst =>
    refine .newest (fun hnil => hasked (List.append_eq_nil_iff.1 hnil).1) ?_
    rw [← List.append_assoc]
    exact hfirst.raise h'

/-- Neither the order of what is asked for nor how often makes a difference, as far as all of it is standards
of the language. -/
theorem unique {others : List Text} {after' : Option Text} (h : Raised language before asked after)
    (h' : Raised language before others after') (hsame : ∀ s, s ∈ asked ↔ s ∈ others)
    (hknown : ∀ s ∈ asked, 0 < recency language s) : after = after' := by
  cases h with
  | unchanged =>
    have hnone : others = [] := by
      refine List.eq_nil_iff_forall_not_mem.2 fun s hmem => ?_
      exact List.not_mem_nil ((hsame s).2 hmem)
    subst hnone
    cases h' with
    | unchanged => rfl
    | newest hasked => exact absurd rfl hasked
  | newest hasked hnewest =>
    obtain ⟨first, hfirst⟩ := List.exists_mem_of_ne_nil asked hasked
    cases h' with
    | unchanged => exact absurd ((hsame first).1 hfirst) List.not_mem_nil
    | newest _ hnewest' =>
      have hall (s : Text) : s ∈ before.toList ++ asked ↔ s ∈ before.toList ++ others := by
        rw [List.mem_append, List.mem_append, hsame]
      exact hnewest.unique hnewest' hall
        ⟨first, List.mem_append_right _ hfirst, hknown first hfirst⟩

end Raised

end Standard

open Standard (Raised recency)

namespace Feature

/-- A feature is as new as its rank says. -/
theorem recency_eq (f : Feature) : recency f.language f.standard = f.rank + 1 := by
  rw [recency, f.rank_eq]

/-- The standards of a language that some features ask for. -/
def standardsIn (language : Text) (features : List Feature) : List Text :=
  (features.filter fun feature => feature.language = language).map Feature.standard

/-- A standard is asked for exactly if it is that of a feature of the language. -/
theorem mem_standardsIn {language standard : Text} {features : List Feature} :
    standard ∈ standardsIn language features ↔
      ∃ feature ∈ features, feature.language = language ∧ feature.standard = standard := by
  simp [standardsIn, and_assoc]

/-- One feature asks for its standard in its own language only. -/
theorem standardsIn_singleton (language : Text) (feature : Feature) :
    standardsIn language [feature] =
      if feature.language = language then [feature.standard] else [] := by
  by_cases hlanguage : feature.language = language <;> simp [standardsIn, hlanguage]

/-- What features ask for is a standard of the language. -/
theorem recency_pos {language standard : Text} {features : List Feature}
    (h : standard ∈ standardsIn language features) : 0 < recency language standard := by
  obtain ⟨feature, -, rfl, rfl⟩ := mem_standardsIn.1 h
  rw [feature.recency_eq]
  exact Nat.succ_pos _

end Feature

namespace Footprint

/-- Requiring a feature either records its standard or changes nothing. -/
theorem require_cases (f : Footprint) (head : Text) (feature : Feature) :
    f.require head feature = f.setStandard head feature.language feature.standard ∨
      f.require head feature = f := by
  unfold require
  exact ite_eq_or_eq _ _ _

/-- What is recorded for another language or another target stays. -/
theorem standard?_require_of_ne (f : Footprint) {head : Text} {feature : Feature}
    {target language : Text} (h : (head, feature.language) ≠ (target, language)) :
    (f.require head feature).standard? target language = f.standard? target language := by
  rcases f.require_cases head feature with hrequire | hrequire
  · rw [hrequire]
    unfold setStandard standard?
    rw [Table.get?_insert, if_neg h]
  · rw [hrequire]

/-- A feature takes the place of what is recorded for its language if that is older. -/
theorem standard?_require_self (f : Footprint) (head : Text) (feature : Feature) :
    (f.require head feature).standard? head feature.language =
      match f.standard? head feature.language with
      | some recorded =>
        if recency feature.language recorded < recency feature.language feature.standard then
          some feature.standard
        else some recorded
      | none => some feature.standard := by
  have hset : (f.setStandard head feature.language feature.standard).standard? head
      feature.language = some feature.standard := by simp [setStandard, standard?]
  rw [feature.recency_eq]
  unfold require
  cases hrecorded : f.standard? head feature.language with
  | none => exact hset
  | some recorded =>
    dsimp only [Option.bind]
    unfold recency
    -- What is recorded may be no standard of the language. Then it is older than the feature.
    cases Standard.rank? feature.language recorded with
    | none =>
      dsimp only
      rw [if_pos rfl, if_pos (Nat.succ_pos _), hset]
    | some rank =>
      dsimp only
      by_cases hlt : rank < feature.rank
      · rw [if_pos (decide_eq_true hlt), if_pos (Nat.succ_lt_succ hlt), hset]
      · rw [if_neg (by simpa using hlt), if_neg (by omega), hrecorded]

/-- One feature records the newer one of its own standard and what is recorded for its language, and nothing
for any other language. -/
theorem raised_require (f : Footprint) (head : Text) (feature : Feature) (language : Text) :
    Raised language (f.standard? head language) (Feature.standardsIn language [feature])
      ((f.require head feature).standard? head language) := by
  rw [Feature.standardsIn_singleton]
  by_cases hlanguage : feature.language = language
  · subst hlanguage
    rw [if_pos rfl, f.standard?_require_self head feature]
    refine .newest (List.cons_ne_nil _ _) ?_
    cases f.standard? head feature.language with
    | none => exact .of_mem (by simp) (by simp)
    | some recorded =>
      dsimp only
      split
      · next hlt => exact .of_mem (by simp) (by simp [Nat.le_of_lt hlt])
      · next hge => exact .of_mem (by simp) (by simp [Nat.le_of_not_lt hge])
  · rw [if_neg hlanguage, f.standard?_require_of_ne fun heq => hlanguage (Prod.mk.inj heq).2]
    exact .unchanged

end Footprint

end BuildExpr
