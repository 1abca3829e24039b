import BuildExpr.Proofs.Stripping
import BuildExpr.Proofs.Tidying

/-!
# Texts that meet around removed expressions

Removing the expressions of a text brings together texts that stood apart. Where one of them ends in `$` and
the next starts with `<`, there is an opening again that was in no expression before. The two may have
several expressions between them, all next to each other (`Text.MeetsAround`).

This is the only way in which an opening comes into an export without expressions: dropping empty elements
makes none (`Interface.opening_infix_exported_iff`). So where no texts meet like this, nothing changes when
the result is exported without expressions once more.
-/

namespace BuildExpr

namespace Text

/-! ## From expression to expression -/

/-- Induction along the outermost expressions of a closed text, each with the text in front of it. -/
@[elab_as_elim] theorem Closed.induction {motive : Text → Prop}
    (plain : ∀ t, ¬ opening <:+: t → motive t)
    (expression : ∀ before e rest, ¬ opening <:+: before → IsExpression e → Closed rest →
      motive rest → motive (before ++ e ++ rest))
    {t : Text} (h : Closed t) : motive t := by
  induction hn : t.length using Nat.strongRecOn generalizing t with
  | ind n ih =>
    subst hn
    rcases h.plain_or_expression with hplain | ⟨before, e, rest, rfl, hbefore, he, hrest⟩
    · exact plain t hplain
    · have hlength : 0 < e.length := List.length_pos_iff.2 he.ne_nil
      refine expression before e rest hbefore he hrest (ih _ ?_ hrest rfl)
      simp only [List.length_append]
      omega

/-- Of a text with an expression at a place, what is outside is what is outside around it. -/
theorem outsideFrom_expression {before e : Text} (hbefore : ¬ opening <:+: before)
    (he : IsExpression e) (rest : Text) :
    outsideFrom 0 (before ++ e ++ rest) = before ++ outsideFrom 0 rest := by
  obtain ⟨body, rfl, hbody⟩ := he
  have hclose := splitAtClosing_append hbody rest
  have hexpression : outsideFrom 0 (opening ++ body ++ ['>'] ++ rest) = outsideFrom 0 rest := by
    rw [List.append_assoc, List.append_assoc, ← List.append_assoc body]
    exact (outsideFrom_opening 0 _).trans (outsideFrom_of_splitAtClosing hclose)
  rw [List.append_assoc, outsideFrom_append hbefore (apart_of_head? (by simp [opening])), hexpression]

/-- An opening in two texts is in one of them, or the texts meet in it. -/
theorem opening_infix_append_iff (a b : Text) :
    opening <:+: a ++ b ↔
      opening <:+: a ∨ opening <:+: b ∨ a.getLast? = some '$' ∧ b.head? = some '<' := by
  constructor
  · intro h
    by_contra hnone
    simp only [not_or, not_and] at hnone
    obtain ⟨ha, hb, hmeet⟩ := hnone
    rw [← nesting_pos_iff, (closed_of_no_opening ha).nesting_append hmeet, nesting_of_no_opening ha,
      nesting_of_no_opening hb] at h
    exact Nat.lt_irrefl 0 h
  · rintro (h | h | ⟨hlast, hhead⟩)
    · exact h.trans (List.prefix_append a b).isInfix
    · exact h.trans (List.suffix_append a b).isInfix
    · obtain ⟨before, rfl⟩ := List.getLast?_eq_some_iff.1 hlast
      obtain ⟨after, rfl⟩ := List.head?_eq_some_iff.1 hhead
      exact ⟨before, after, by simp [opening]⟩

/-! ## Meeting around expressions -/

/-- Behind expressions next to each other, if there are any, a `<` follows. -/
def LeadsToAngle (t : Text) : Prop :=
  ∃ exprs after, t = List.flatten exprs ++ '<' :: after ∧ ∀ e ∈ exprs, IsExpression e

/-- Outside all expressions, a `$` stands right in front of expressions next to each other that a `<`
follows. -/
def MeetsAround (t : Text) : Prop :=
  ∃ before exprs after, t = before ++ '$' :: (List.flatten exprs ++ '<' :: after) ∧ Closed before ∧
    exprs ≠ [] ∧ ∀ e ∈ exprs, IsExpression e

/-- An expression in front of a text makes no difference to where the text leads. -/
theorem leadsToAngle_expression_append_iff {e : Text} (he : IsExpression e) (rest : Text) :
    LeadsToAngle (e ++ rest) ↔ LeadsToAngle rest := by
  constructor
  · rintro ⟨exprs, after, heq, hexprs⟩
    cases exprs with
    | nil =>
      have hhead := congrArg List.head? heq
      rw [List.head?_append, he.head?_eq] at hhead
      exact absurd hhead (by simp)
    | cons f exprs =>
      rw [List.flatten_cons, List.append_assoc] at heq
      obtain ⟨-, rfl⟩ := he.append_inj (hexprs f (List.mem_cons_self ..)) heq
      exact ⟨exprs, after, rfl, fun e he => hexprs e (List.mem_cons_of_mem f he)⟩
  · rintro ⟨exprs, after, rfl, hexprs⟩
    refine ⟨e :: exprs, after, by rw [List.flatten_cons, List.append_assoc], ?_⟩
    exact List.forall_mem_cons.2 ⟨he, hexprs⟩

/-- A text that starts with no opening leads to a `<` only if it starts with one. -/
theorem leadsToAngle_iff_head? {t : Text} (h : ¬ opening <+: t) :
    LeadsToAngle t ↔ t.head? = some '<' := by
  constructor
  · rintro ⟨exprs, after, rfl, hexprs⟩
    cases exprs with
    | nil => rfl
    | cons e exprs =>
      obtain ⟨body, rfl, -⟩ := hexprs e (List.mem_cons_self ..)
      exact absurd ⟨body ++ ['>'] ++ exprs.flatten ++ '<' :: after, by simp⟩ h
  · intro hhead
    obtain ⟨after, rfl⟩ := List.head?_eq_some_iff.1 hhead
    exact ⟨[], after, rfl, List.forall_mem_nil _⟩

/-- Text without an opening that stands in front of an expression starts with none. -/
theorem not_opening_at_start {c : Char} {before e : Text} (hbefore : ¬ opening <:+: c :: before)
    (he : IsExpression e) (rest : Text) : ¬ opening <+: c :: before ++ e ++ rest := by
  rintro ⟨tail, htail⟩
  have hhead : (e ++ rest).head? ≠ some '<' := by
    rw [List.head?_append, he.head?_eq]
    simp
  have hopen : ∀ tail, c = '$' → before = '<' :: tail → False := by
    rintro tail rfl rfl
    exact hbefore ⟨[], tail, rfl⟩
  rw [List.append_assoc, List.cons_append] at htail
  obtain ⟨hc, hrest⟩ := List.cons.inj htail
  exact (apart_of_head? hhead).not_opening hopen tail hc.symm hrest.symm

/-- What is outside all expressions starts with `<` exactly if expressions lead to one. -/
theorem head?_outsideFrom_iff {t : Text} (h : Closed t) :
    (outsideFrom 0 t).head? = some '<' ↔ LeadsToAngle t := by
  refine Closed.induction (fun t hplain => ?_) (fun before e rest hbefore he hrest ih => ?_) h
  · rw [outsideFrom_of_no_opening hplain, leadsToAngle_iff_head? fun hopen => hplain hopen.isInfix]
  · -- The first character comes from the text in front of the expression or, without any, from behind it.
    rw [outsideFrom_expression hbefore he]
    cases before with
    | nil =>
      rw [List.nil_append, List.nil_append, leadsToAngle_expression_append_iff he]
      exact ih
    | cons c before =>
      rw [leadsToAngle_iff_head? (not_opening_at_start hbefore he rest)]
      rfl

/-- Around an expression texts meet where the text in front of it ends in `$` and what follows it leads to a
`<`; otherwise they meet further on. -/
theorem meetsAround_expression_iff {before e : Text} (hbefore : ¬ opening <:+: before)
    (he : IsExpression e) (rest : Text) :
    MeetsAround (before ++ e ++ rest) ↔
      MeetsAround rest ∨ before.getLast? = some '$' ∧ LeadsToAngle rest := by
  have hclosed : Closed before := closed_of_no_opening hbefore
  constructor
  · rintro ⟨p, exprs, after, heq, hp, hne, hexprs⟩
    have hapart : Apart p ('$' :: (exprs.flatten ++ '<' :: after)) := apart_of_head? (by simp)
    rcases he.before_or_after hclosed hp hapart heq.symm with ⟨x, rfl, rfl⟩ | ⟨x, rfl, hrest⟩
    · exact .inl ⟨x, exprs, after, rfl, (he.closed_append_iff hclosed x).1 hp, hne, hexprs⟩
    · -- The `$` is the last character in front of the expression, or there would be an opening before it.
      obtain ⟨f, others, rfl⟩ := List.exists_cons_of_ne_nil hne
      obtain ⟨body, hf, -⟩ := hexprs f (List.mem_cons_self ..)
      have hleads : LeadsToAngle ((f :: others).flatten ++ '<' :: after) :=
        ⟨f :: others, after, rfl, hexprs⟩
      have hprefix : opening <+: (f :: others).flatten ++ '<' :: after :=
        ⟨body ++ ['>'] ++ others.flatten ++ '<' :: after, by simp [hf]⟩
      cases x with
      | nil =>
        obtain ⟨body', rfl, -⟩ := he
        obtain ⟨tail, htail⟩ := hprefix
        rw [← htail] at hrest
        exact absurd (List.cons.inj (List.cons.inj hrest).2).1 (by decide)
      | cons c x =>
        obtain ⟨rfl, hexpression⟩ := List.cons.inj hrest
        cases x with
        | nil =>
          rw [hexpression] at hleads
          refine .inr ⟨List.getLast?_concat .., ?_⟩
          exact (leadsToAngle_expression_append_iff he rest).1 hleads
        | cons d x =>
          rw [hexpression] at hprefix
          have hsuffix : d :: x <:+: p ++ '$' :: d :: x := ⟨p ++ ['$'], [], by simp⟩
          exact absurd hprefix (not_opening_at_start (fun hin => hbefore (hin.trans hsuffix)) he rest)
  · rintro (⟨p, exprs, after, rfl, hp, hne, hexprs⟩ | ⟨hlast, exprs, after, rfl, hexprs⟩)
    · refine ⟨before ++ e ++ p, exprs, after, by simp, ?_, hne, hexprs⟩
      exact (he.closed_append_iff hclosed p).2 hp
    · obtain ⟨p, rfl⟩ := List.getLast?_eq_some_iff.1 hlast
      refine ⟨p, e :: exprs, after, by simp, ?_, List.cons_ne_nil _ _, ?_⟩
      · exact closed_of_no_opening fun hin => hbefore (hin.trans (List.prefix_append _ _).isInfix)
      · exact List.forall_mem_cons.2 ⟨he, hexprs⟩

/-- There is an opening outside all expressions exactly where texts meet around some. -/
theorem opening_infix_outsideFrom_iff {t : Text} (h : Closed t) :
    opening <:+: outsideFrom 0 t ↔ MeetsAround t := by
  refine Closed.induction (fun t hplain => ?_) (fun before e rest hbefore he hrest ih => ?_) h
  · rw [outsideFrom_of_no_opening hplain]
    refine iff_of_false hplain ?_
    rintro ⟨before, exprs, after, rfl, -, hne, hexprs⟩
    obtain ⟨e, exprs, rfl⟩ := List.exists_cons_of_ne_nil hne
    obtain ⟨body, rfl, -⟩ := hexprs e (List.mem_cons_self ..)
    exact hplain ⟨before ++ ['$'], body ++ ['>'] ++ exprs.flatten ++ '<' :: after, by simp⟩
  · rw [outsideFrom_expression hbefore he, opening_infix_append_iff, or_iff_right hbefore, ih,
      head?_outsideFrom_iff hrest, meetsAround_expression_iff hbefore he]

end Text

namespace Interface

/-! ## Exports without expressions -/

/-- All expressions of a closed text are removed. -/
theorem removeExpressions_of_closed {t : Text} (h : t.Closed) :
    removeExpressions t = Text.outsideFrom 0 t := by
  obtain ⟨head, tail, hends, hremoved⟩ := exists_endsWith t
  have htail : tail = [] := by
    rcases hends.tail with hnil | ⟨after, hopening, hopen⟩
    · exact hnil
    · have hclose := h head after (by rw [hends.eq, hopening, List.append_assoc])
      rw [hopen] at hclose
      cases hclose
  rw [hremoved, hends.eq, htail, List.append_nil, List.append_nil]

/-- A closed list is exported without expressions as a text in which there is an opening exactly if texts
meet around the expressions that are removed. Where none do, the result is exported without expressions as
it is. -/
theorem opening_infix_exported_iff (root : Option Text) {t : Text} (h : t.Closed) :
    (opening <:+: exported .stripAll root t ↔ t.MeetsAround) ∧
      (¬ t.MeetsAround →
        exported .stripAll root (exported .stripAll root t) = exported .stripAll root t) := by
  have hexported : exported .stripAll root t = Elements.dropEmpty (Text.outsideFrom 0 t) := by
    rw [exported, removeExpressions_of_closed h]
  have hopening : opening <:+: exported .stripAll root t ↔ t.MeetsAround := by
    rw [hexported, (Text.thinned_dropEmpty _).opening_infix_iff, Text.opening_infix_outsideFrom_iff h]
  refine ⟨hopening, fun hapart => ?_⟩
  have hplain : ¬ opening <:+: exported .stripAll root t := fun hin => hapart (hopening.1 hin)
  have hagain : exported .stripAll root (exported .stripAll root t) =
      Elements.dropEmpty (exported .stripAll root t) := by
    rw [exported, removeExpressions_of_closed (Text.closed_of_no_opening hplain),
      Text.outsideFrom_of_no_opening hplain]
  rw [hagain, hexported, Elements.dropEmpty_dropEmpty]

/-- A separator that is dropped between `$` and `<` is not the last one. -/
theorem opening_infix_exported_apart :
    let t : Text := "$a;$<X:$<Y>>$;$<Z>;<"
    t.Closed ∧ exported .stripAll none t = "$a;$;<" ∧ ¬ t.MeetsAround ∧
      exported .stripAll none (exported .stripAll none t) = exported .stripAll none t := by
  intro t
  have hclosed : t.Closed := by decide
  have hexported : exported .stripAll none t = "$a;$;<" := by
    rw [exported, removeExpressions_of_closed hclosed]
    decide
  have hapart : ¬ t.MeetsAround := by
    rw [← (opening_infix_exported_iff none hclosed).1, hexported]
    decide
  exact ⟨hclosed, hexported, hapart, (opening_infix_exported_iff none hclosed).2 hapart⟩

/-- Two characters that one expression keeps apart make an opening when it is removed, and a further export
removes the expression that starts there. -/
theorem exported_stripAll_meeting :
    let t : Text := "$$<A><B>"
    t.Closed ∧ opening <:+: exported .stripAll none t ∧
      exported .stripAll none (exported .stripAll none t) ≠ exported .stripAll none t := by
  intro t
  have hclosed : t.Closed := by decide
  have hexported : exported .stripAll none t = "$<B>" := by
    rw [exported, removeExpressions_of_closed hclosed]
    decide
  have hagain : exported .stripAll none "$<B>" = [] := by
    rw [exported, removeExpressions_of_closed (by decide)]
    decide
  rw [hexported, hagain]
  exact ⟨hclosed, by decide, by decide⟩

end Interface

end BuildExpr
