import BuildExpr.Text

/-!
# Texts in order

Texts are compared by the code points at the first place where they differ. Any two are comparable
(`le_total`), and the order is transitive (`le_trans`). What is sorted by it is strictly in order if nothing
occurs twice, be it that the texts are all different (`before_sort`) or that repetitions are left out
(`before_eraseDups`).
-/

namespace BuildExpr

namespace Text

/-- Of two texts, one comes before the other or both are the same. -/
theorem le_total (a b : Text) : (a.le b || b.le a) = true := by
  induction a generalizing b with
  | nil => cases b <;> rfl
  | cons c a ih =>
    cases b with
    | nil => rfl
    | cons d b =>
      simp only [le]
      by_cases hcd : c = d
      · simpa only [hcd, if_true] using ih b
      · have hne : c.toNat ≠ d.toNat := fun h => hcd (Char.toNat_inj.1 h)
        simp only [hcd, Ne.symm hcd, if_false, Bool.or_eq_true, decide_eq_true_eq]
        omega

/-- What comes before a text comes before all that are behind it. -/
theorem le_trans (a b c : Text) (hab : a.le b = true) (hbc : b.le c = true) : a.le c = true := by
  induction a generalizing b c with
  | nil => rfl
  | cons x a ih =>
    cases b with
    | nil => cases hab
    | cons y b =>
      cases c with
      | nil => cases hbc
      | cons z c =>
        simp only [le] at *
        -- The first place where two of the texts differ decides, and it may be the same for both pairs.
        by_cases hxy : x = y
        · subst hxy
          by_cases hxz : x = z
          · simp only [hxz, if_true] at *
            exact ih b c hab hbc
          · simpa only [hxz, if_false] using hbc
        · by_cases hyz : y = z
          · subst hyz
            simpa only [hxy, if_false] using hab
          · simp only [hxy, hyz, if_false, decide_eq_true_eq] at hab hbc
            have hxz : x ≠ z := fun h => by rw [h] at hab; omega
            simp only [hxz, if_false, decide_eq_true_eq]
            omega

/-- Different texts do not come before each other. -/
theorem le_antisymm {a b : Text} (hab : a.le b = true) (hba : b.le a = true) : a = b := by
  induction a generalizing b with
  | nil =>
    cases b with
    | nil => rfl
    | cons d b => cases hba
  | cons c a ih =>
    cases b with
    | nil => cases hab
    | cons d b =>
      simp only [le] at hab hba
      by_cases hcd : c = d
      · subst hcd
        rw [if_pos rfl] at hab hba
        rw [ih hab hba]
      · simp only [hcd, Ne.symm hcd, if_false, decide_eq_true_eq] at hab hba
        omega

/-- A text that comes strictly before another one. -/
def Before (a b : Text) : Prop := a.le b = true ∧ a ≠ b

instance : Std.Irrefl Before := ⟨fun _ h => h.2 rfl⟩

instance : Std.Antisymm Before := ⟨fun _ _ hab hba => le_antisymm hab.1 hba.1⟩

/-- Sorted texts are in order. -/
theorem pairwise_sort (texts : List Text) :
    (sort texts).Pairwise fun a b => a.le b = true :=
  List.pairwise_mergeSort le_trans le_total texts

/-- Sorting texts that are all different puts each one strictly before the next. -/
theorem before_sort {texts : List Text} (h : texts.Nodup) : (sort texts).Pairwise Before :=
  (pairwise_sort texts).and ((List.mergeSort_perm texts le).nodup_iff.2 h)

/-- What is kept when repetitions are left out stands in the same order. -/
theorem before_eraseDups : ∀ {texts : List Text}, texts.Pairwise (fun a b => a.le b = true) →
    texts.eraseDups.Pairwise Before
  | [], _ => by rw [List.eraseDups_nil]; exact .nil
  | a :: texts, h => by
    rw [List.pairwise_cons] at h
    rw [List.eraseDups_cons]
    have hrest := before_eraseDups (h.2.filter fun b => !b == a)
    refine List.pairwise_cons.2 ⟨fun b hb => ?_, hrest⟩
    rw [List.mem_eraseDups, List.mem_filter] at hb
    refine ⟨h.1 b hb.1, ?_⟩
    rintro rfl
    simpa using hb.2
termination_by texts => texts.length
decreasing_by exact Nat.lt_succ_of_le (List.length_filter_le _ _)

end Text

end BuildExpr
