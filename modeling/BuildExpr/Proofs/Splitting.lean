import Mathlib.Data.List.TakeWhile
import BuildExpr.Elements.Split
import BuildExpr.Proofs.Closed

/-!
# Where a split cuts an expression

An element of `split` starts with the text that touches an expression and runs on to the next
separator after it. That separator is looked for in the text as it stands, so it may lie inside a
further expression that is glued to the first one, with no separator between them. Then the element
ends in the middle of that expression. `closed_split_iff` says that this is the only way in which an
element of a closed text can be other than closed.
-/

namespace BuildExpr.Elements

open Text

/-! ## Elements without expressions -/

/-- A character goes into the first piece, and the others stay. -/
theorem consFirst_eq (c : Char) (list : List Text) :
    consFirst c list = (c :: list.headD []) :: list.tail := by
  cases list <;> rfl

/-- The first piece starts with `<` only if the text does. -/
theorem head?_of_pieces {depth : Nat} {t : Text}
    (h : ((pieces depth t).headD []).head? = some '<') : t.head? = some '<' := by
  fun_cases pieces depth t <;> simp_all [consFirst_eq, pieces]

/-- A character in front of the first piece makes no opening that it does not make in front of the
text. -/
theorem infix_of_mem_consFirst {c : Char} {depth : Nat} {t piece : Text}
    (hpieces : ∀ p ∈ pieces depth t, opening <:+: p → opening <:+: t)
    (hmem : piece ∈ consFirst c (pieces depth t)) (h : opening <:+: piece) :
    opening <:+: c :: t := by
  rw [consFirst_eq, List.mem_cons] at hmem
  rcases hmem with rfl | hmem
  · rcases List.infix_cons_iff.1 h with hpre | hin
    · obtain ⟨tail, htail⟩ := hpre
      obtain ⟨rfl, hhead⟩ := List.cons.inj htail
      have hfirst : ((pieces depth t).headD []).head? = some '<' := by rw [← hhead]; rfl
      have ht : t.head? = some '<' := head?_of_pieces hfirst
      obtain ⟨rest, rfl⟩ := List.head?_eq_some_iff.1 ht
      exact ⟨[], rest, rfl⟩
    · cases hp : pieces depth t with
      | nil => simp [hp, opening] at hin
      | cons p ps =>
        rw [hp] at hin hpieces
        exact List.infix_cons (hpieces p List.mem_cons_self hin)
  · exact List.infix_cons (hpieces piece (List.mem_of_mem_tail hmem) h)

/-- Cutting a text into pieces makes no opening that was not there. -/
theorem infix_of_mem_pieces {depth : Nat} {t : Text} :
    ∀ piece ∈ pieces depth t, opening <:+: piece → opening <:+: t := by
  fun_induction pieces depth t with
  | case1 => simp
  | case2 depth rest ih =>
    intro piece hmem h
    -- The separator that stays has lost the backslash before it.
    exact List.infix_cons (infix_of_mem_consFirst ih hmem h)
  | case3 depth rest ih | case4 depth rest ih | case6 depth c rest _ _ _ _ ih =>
    intro piece hmem h
    exact infix_of_mem_consFirst ih hmem h
  | case5 rest ih =>
    intro piece hmem h
    rcases List.mem_cons.1 hmem with rfl | hmem
    · simp [opening] at h
    · exact List.infix_cons (ih piece hmem h)

/-- An element of a list without openings has none. -/
theorem no_opening_of_mem_expand {t element : Text} (ht : ¬ opening <:+: t)
    (hmem : element ∈ expand t) : ¬ opening <:+: element :=
  fun h => ht (infix_of_mem_pieces element (List.mem_filter.1 hmem).1 h)

/-- The elements of a list without expressions are closed. -/
theorem closed_of_mem_expand {t element : Text} (ht : ¬ opening <:+: t)
    (hmem : element ∈ expand t) : Closed element :=
  closed_of_no_opening (no_opening_of_mem_expand ht hmem)

/-- Both sides of the text before an expression are parts of it. -/
theorem glue_infix (before : Text) : (glue before).1 <:+: before ∧ (glue before).2 <:+: before := by
  have htouching : (before.reverse.takeWhile (· ≠ ';')).reverse <:+: before := by
    have hsuffix : (before.reverse.takeWhile (· ≠ ';')).reverse <:+ before.reverse.reverse :=
      List.reverse_suffix.2 (List.takeWhile_prefix _)
    rw [List.reverse_reverse] at hsuffix
    exact hsuffix.isInfix
  unfold glue
  dsimp only
  split
  · exact ⟨List.nil_infix, List.infix_refl _⟩
  · split
    · exact ⟨List.infix_refl _, List.nil_infix⟩
    · exact ⟨(List.take_prefix _ _).isInfix, htouching⟩

/-! ## Separators inside glued expressions -/

/-- An expression with a separator inside is glued to an expression before it: no separator stands
between the two. Both are outside all other expressions. -/
def HasGluedSeparator (t : Text) : Prop :=
  ∃ before first between second after, t = before ++ first ++ between ++ second ++ after ∧
    Closed before ∧ IsExpression first ∧ Closed between ∧ separator ∉ between ∧
    IsExpression second ∧ separator ∈ second

/-- If the text up to a separator breaks off inside an expression, that expression has the separator
inside, and none stands before it. -/
theorem exists_expression_of_not_closed {trail rest : Text} (hopen : ¬ Closed trail)
    (hclosed : Closed (trail ++ rest)) (htrail : separator ∉ trail)
    (hrest : ∀ c, rest.head? = some c → c = separator) :
    ∃ between second after, trail ++ rest = between ++ second ++ after ∧ Closed between ∧
      separator ∉ between ∧ IsExpression second ∧ separator ∈ second := by
  cases hfirst : splitAtOpening trail with
  | none => exact absurd (closed_of_no_opening (splitAtOpening_eq_none_iff.1 hfirst)) hopen
  | some parts =>
    obtain ⟨before, after⟩ := parts
    have ht : trail = before ++ opening ++ after := append_of_splitAtOpening hfirst
    have hbefore : Closed before :=
      closed_of_no_opening (splitAtOpening_eq_none_iff.1 (splitAtOpening_before hfirst))
    cases hclose : splitAtClosing 0 after with
    | none =>
      -- The expression goes on past the separator.
      have hwhole : (splitAtClosing 0 (after ++ rest)).isSome :=
        hclosed before (after ++ rest) (by rw [ht]; simp)
      obtain ⟨⟨inside, extra⟩, hinside⟩ := Option.isSome_iff_exists.1 hwhole
      obtain ⟨between, rfl, hover⟩ := exists_append_of_splitAtClosing hclose hinside
      have hmem : separator ∈ between := by
        cases between with
        | nil => exact absurd (hrest '>' (by rw [hover]; rfl)) (by decide)
        | cons c between => simp [hrest c (by rw [hover]; rfl)]
      refine ⟨before, opening ++ (after ++ between) ++ ['>'], extra, ?_, hbefore, ?_,
        isExpression_of_splitAtClosing hinside, by simp [hmem]⟩
      · rw [ht, hover]; simp
      · exact fun h => htrail (by rw [ht]; simp [h])
    | some parts =>
      -- The expression ends before the separator, so a later one is broken off.
      obtain ⟨inside, extra⟩ := parts
      have hafter : after = inside ++ '>' :: extra := append_of_splitAtClosing hclose
      have htrail' : trail = before ++ (opening ++ inside ++ ['>']) ++ extra := by
        rw [ht, hafter]; simp
      have hexpr : IsExpression (opening ++ inside ++ ['>']) :=
        isExpression_of_splitAtClosing hclose
      have hover (x : Text) := hexpr.closed_append_iff hbefore x
      have hclosed' : Closed (extra ++ rest) := by
        rw [← hover, ← List.append_assoc, ← htrail']
        exact hclosed
      have hopen' : ¬ Closed extra := by
        rw [← hover, ← htrail']
        exact hopen
      rw [htrail', List.mem_append, not_or] at htrail
      obtain ⟨between, second, last, heq, hbetween, hfree, hsecond, hmem⟩ :=
        exists_expression_of_not_closed hopen' hclosed' htrail.2 hrest
      refine ⟨before ++ (opening ++ inside ++ ['>']) ++ between, second, last, ?_,
        (hover between).2 hbetween, ?_, hsecond, hmem⟩
      · rw [htrail', List.append_assoc, heq]
        simp
      · rw [List.mem_append, not_or]
        exact ⟨htrail.1, hfree⟩
termination_by trail.length
decreasing_by
  have hlt := length_lt_of_splitAtOpening hfirst
  have hlt' := length_lt_of_splitAtClosing hclose
  omega

/-- A glued separator stays one when a closed text is put in front. -/
theorem HasGluedSeparator.append {a t : Text} (h : HasGluedSeparator t) (ha : Closed a)
    (hat : Apart a t) : HasGluedSeparator (a ++ t) := by
  obtain ⟨before, first, between, second, after, rfl, hbefore, hfirst, hrest⟩ := h
  simp only [List.append_assoc] at hat
  exact ⟨a ++ before, first, between, second, after, by simp,
    (ha.append_iff hat.of_append).2 hbefore, hfirst, hrest⟩

/-- In the text up to a separator that follows the first expression, no expression with a separator
inside is glued to another one. -/
theorem not_glued_before_separator {before first trail a e between f after : Text}
    (hbefore : ¬ opening <:+: before) (hfirst : IsExpression first) (hfree : separator ∉ trail)
    (ha : Closed a) (he : IsExpression e) (hmem : separator ∈ f) :
    before ++ first ++ trail ≠ a ++ e ++ (between ++ f ++ after) := by
  intro h
  have hhead : first.head? ≠ some '<' := by rw [hfirst.head?_eq]; decide
  have hclosed : Closed (before ++ first) :=
    ((closed_of_no_opening hbefore).append_iff (apart_of_head? hhead)).2 hfirst.closed
  rcases he.before_or_after ha hclosed (hfirst.apart before trail) h with
    ⟨x, hx, htail⟩ | ⟨x, -, htrail⟩
  · rcases he.before_or_after ha (closed_of_no_opening hbefore) (apart_of_head? hhead) hx with
      ⟨y, hy, -⟩ | ⟨y, hy, hy'⟩
    · obtain ⟨body, rfl, -⟩ := he
      exact hbefore ⟨a, body ++ ['>'] ++ y, by rw [hy]; simp⟩
    · cases y with
      | nil =>
        obtain ⟨-, rfl⟩ := hfirst.append_inj he (a := []) (by simpa using hy')
        exact hfree (by rw [← List.nil_append trail, ← htail]; simp [hmem])
      | cons c y =>
        -- The other expression would start inside the first one.
        have hc : c = '$' := by
          have := hfirst.head?_eq
          rw [hy'] at this
          exact Option.some.inj this
        have hclosed' : Closed (c :: y) :=
          ((closed_of_no_opening hbefore).append_iff (apart_of_head? (by simp [hc]))).1 (hy ▸ ha)
        have hrest : (e ++ x).head? ≠ some '<' := by simp [he.head?_eq]
        have hne : e ++ x ≠ [] := by simp [he.ne_nil]
        rw [List.append_assoc] at hy'
        exact absurd hclosed' ((hy' ▸ hfirst).not_closed_of_append (by simp) hne
          (apart_of_head? hrest))
  · exact hfree (by rw [htrail]; simp [hmem])

/-- With the text up to a separator closed, what is glued comes after it. -/
theorem hasGluedSeparator_append_iff {before first trail rest : Text}
    (hbefore : ¬ opening <:+: before) (hfirst : IsExpression first) (htrail : Closed trail)
    (hfree : separator ∉ trail) (hrest : ∀ c, rest.head? = some c → c = separator) :
    HasGluedSeparator (before ++ first ++ trail ++ rest) ↔ HasGluedSeparator rest := by
  have hhead : rest.head? ≠ some '<' := fun h => absurd (hrest '<' h) (by decide)
  have hclosed : Closed (before ++ first ++ trail) :=
    (hfirst.closed_append_iff (closed_of_no_opening hbefore) trail).2 htrail
  constructor
  · rintro ⟨a, e, between, f, after, heq, ha, he, hbetween, hsep, hf, hmem⟩
    rw [List.append_assoc (a ++ e), List.append_assoc (a ++ e)] at heq
    rcases he.before_or_after ha hclosed (apart_of_head? hhead) heq with
      ⟨x, hx, htail⟩ | ⟨x, hx, hrest'⟩
    · have hxc : Closed x := (he.closed_append_iff ha x).1 (hx ▸ hclosed)
      rcases hf.before_or_after hbetween hxc (apart_of_head? hhead) htail.symm with
        ⟨y, hy, -⟩ | ⟨y, hy, hrest'⟩
      · rw [hy] at hx
        exact absurd hx (not_glued_before_separator hbefore hfirst hfree ha he hmem)
      · -- The second expression would be the first thing after the separator-free text.
        cases y with
        | nil => exact absurd (hrest '$' (by simp [hrest', hf.head?_eq])) (by decide)
        | cons c y =>
          have hc : c = separator := hrest c (by rw [hrest']; rfl)
          exact absurd (by rw [hy, hc]; simp) hsep
    · have hx' : Apart (before ++ first ++ trail) x :=
        (apart_of_head? (by rw [← List.append_assoc, ← hrest']; exact hhead)).of_append
      have hxc : Closed x := (hclosed.append_iff hx').1 (hx ▸ ha)
      exact ⟨x, e, between, f, after, by rw [hrest']; simp, hxc, he, hbetween, hsep, hf, hmem⟩
  · exact fun h => h.append hclosed (apart_of_head? hhead)

/-- A text without openings has no glued separator. -/
theorem not_hasGluedSeparator_of_no_opening {t : Text} (h : ¬ opening <:+: t) :
    ¬ HasGluedSeparator t := by
  rintro ⟨before, first, between, second, after, rfl, -, ⟨body, rfl, -⟩, -⟩
  exact h ⟨before, body ++ ['>'] ++ between ++ second ++ after, by simp⟩

/-- What an element runs on with after its expression has no separator in it. -/
theorem separator_not_mem_takeWhile (t : Text) : separator ∉ t.takeWhile (· ≠ ';') := by
  intro hmem
  simpa [separator] using List.mem_takeWhile_imp hmem

/-- What comes after that starts with a separator if with anything. -/
theorem eq_separator_of_head?_dropWhile {t : Text} {c : Char}
    (h : (t.dropWhile (· ≠ ';')).head? = some c) : c = separator := by
  have hnot := List.head?_dropWhile_not (· ≠ ';') t
  rw [h] at hnot
  simpa [separator] using hnot

/-- Splitting a closed text leaves every element closed exactly when no expression with a separator
inside is glued to one before it. -/
theorem closed_split_iff {t : Text} (h : Closed t) :
    (∀ element ∈ split t, Closed element) ↔ ¬ HasGluedSeparator t := by
  fun_induction split t with
  | case1 t hopen =>
    have hplain : ¬ opening <:+: t := splitAtOpening_eq_none_iff.1 hopen
    exact iff_of_true (fun element hmem => closed_of_mem_expand hplain hmem)
      (not_hasGluedSeparator_of_no_opening hplain)
  | case2 t before after hopen part touching hglue hclose =>
    have hclosed := h before after (append_of_splitAtOpening hopen)
    rw [hclose] at hclosed
    cases hclosed
  | case3 t before after hopen part touching hglue inside rest hclose ih =>
    have hbefore : ¬ opening <:+: before :=
      splitAtOpening_eq_none_iff.1 (splitAtOpening_before hopen)
    obtain ⟨hpart, htouching⟩ := glue_infix before
    rw [hglue] at hpart htouching
    have hexpr : IsExpression (opening ++ inside ++ ['>']) := isExpression_of_splitAtClosing hclose
    have hrest : Closed rest := (append_of_splitAtOpening hopen ▸ h).after hclose
    -- The element runs on to the separator that ends `trail`.
    generalize htrail : rest.takeWhile (· ≠ ';') = trail
    generalize hremaining : rest.dropWhile (· ≠ ';') = remaining at ih
    have hsplit : trail ++ remaining = rest := by
      rw [← htrail, ← hremaining, List.takeWhile_append_dropWhile]
    have hfree : separator ∉ trail := htrail ▸ separator_not_mem_takeWhile rest
    have hhead (c : Char) (hc : remaining.head? = some c) : c = separator :=
      eq_separator_of_head?_dropWhile (hremaining ▸ hc)
    have hexpand : ∀ element ∈ expand part, Closed element :=
      fun element hmem => closed_of_mem_expand (fun hin => hbefore (hin.trans hpart)) hmem
    have helement : Closed (touching ++ opening ++ inside ++ '>' :: trail) ↔ Closed trail := by
      have hplain : Closed touching :=
        closed_of_no_opening fun hin => hbefore (hin.trans htouching)
      have := hexpr.closed_append_iff hplain trail
      simpa using this
    have ht : t = before ++ (opening ++ inside ++ ['>']) ++ trail ++ remaining := by
      rw [append_of_splitAtOpening hopen, append_of_splitAtClosing hclose, ← hsplit]
      simp
    simp only [List.mem_append, List.mem_cons]
    by_cases hc : Closed trail
    · have hsep : remaining.head? ≠ some '<' := fun h => absurd (hhead '<' h) (by decide)
      have hremain : Closed remaining :=
        (hc.append_iff (apart_of_head? hsep)).1 (hsplit ▸ hrest)
      rw [ht, hasGluedSeparator_append_iff hbefore hexpr hc hfree hhead, ← ih hremain]
      constructor
      · exact fun hall element hmem => hall element (.inr (.inr hmem))
      · rintro hall element (hmem | rfl | hmem)
        · exact hexpand element hmem
        · exact helement.2 hc
        · exact hall element hmem
    · refine iff_of_false (fun hall => hc (helement.1 (hall _ (.inr (.inl rfl))))) ?_
      obtain ⟨between, second, last, heq, hbetween, hsep, hsecond, hmem⟩ :=
        exists_expression_of_not_closed hc (hsplit ▸ hrest) hfree hhead
      refine not_not_intro ⟨before, _, between, second, last, ?_, closed_of_no_opening hbefore, hexpr,
        hbetween, hsep, hsecond, hmem⟩
      rw [ht, List.append_assoc _ trail, heq]
      simp

/-- Separators inside the first expression of an element and around glued ones do no harm. -/
theorem closed_split_iff_nested :
    Closed "a;-I$<X:$<Y:b;c>>/d$<Z>;e" ∧
      ((∀ element ∈ split "a;-I$<X:$<Y:b;c>>/d$<Z>;e", Closed element) ↔
        ¬ HasGluedSeparator "a;-I$<X:$<Y:b;c>>/d$<Z>;e") :=
  ⟨by decide, closed_split_iff (by decide)⟩

/-- A closed text whose split is not closed: the separator inside the second expression ends the
element that starts with the first. -/
theorem split_cuts_glued_expression :
    Closed "$<A>$<B;C>" ∧ ∃ element ∈ split "$<A>$<B;C>", ¬ Closed element := by
  have hsplit : split "$<A>$<B;C>" = (["$<A>$<B", "C>"] : List Text) := by decide +kernel
  exact ⟨by decide, "$<A>$<B", by rw [hsplit]; simp, by decide⟩

end BuildExpr.Elements
