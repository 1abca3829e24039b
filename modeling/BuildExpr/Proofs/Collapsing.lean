import BuildExpr.Proofs.Joining
import BuildExpr.Proofs.Tidying

/-!
# Elements that lose separators

A list from which empty elements are dropped loses separators inside its elements as well: each run of them
is reduced to one (`dropRepeated`), and one at the end of an element, which an open bracket held, is not
told from the separator behind the element (`dropFinal`). The elements that are written next to each other
lose theirs one by one (`dropEmpty_join`).

An element on its own stays one when it loses separators, and it stays beside its neighbours
(`Sole.dropRepeated`, `Beside.dropRepeated`, `Sole.dropFinal`). So what is left of the elements is read from
their join (`split_join_dropFinal`), where a separator in front of an expression comes back: the one that
is written between the two elements is taken for it (`dropFinals`).
-/

namespace BuildExpr

namespace Text

/-! ## Expressions without some of their separators -/

/-- The `>` that closes an expression closes what is left of it. -/
theorem Thinned.exists_splitAtClosing {t u : Text} (h : Thinned t u) {depth : Nat} {before after : Text}
    (hclose : splitAtClosing depth t = some (before, after)) :
    ∃ before' after', splitAtClosing depth u = some (before', after') ∧ Thinned after after' := by
  induction h generalizing depth before with
  | nil => cases hclose
  | opening _ ih =>
    rw [splitAtClosing] at hclose
    obtain ⟨⟨b, a⟩, hsplit, heq⟩ := Option.map_eq_some_iff.1 hclose
    obtain ⟨-, rfl⟩ := Prod.mk.inj heq
    obtain ⟨b', a', hsplit', ha⟩ := ih hsplit
    exact ⟨_, a', by rw [splitAtClosing, hsplit']; rfl, ha⟩
  | separator _ ih =>
    rw [splitAtClosing_cons depth (by decide) fun _ hc => absurd hc (by decide)] at hclose
    obtain ⟨⟨b, a⟩, hsplit, heq⟩ := Option.map_eq_some_iff.1 hclose
    obtain ⟨-, rfl⟩ := Prod.mk.inj heq
    exact ih hsplit
  | @char c t u hopen hopen' ht ih =>
    -- A closing may close the expression or one inside it; anything else is passed over on both sides.
    by_cases hc : c = '>'
    · subst hc
      cases depth with
      | zero =>
        rw [splitAtClosing] at hclose
        obtain ⟨-, rfl⟩ := Prod.mk.inj (Option.some.inj hclose)
        exact ⟨[], u, by rw [splitAtClosing], ht⟩
      | succ depth =>
        rw [splitAtClosing] at hclose
        obtain ⟨⟨b, a⟩, hsplit, heq⟩ := Option.map_eq_some_iff.1 hclose
        obtain ⟨-, rfl⟩ := Prod.mk.inj heq
        obtain ⟨b', a', hsplit', ha⟩ := ih hsplit
        exact ⟨_, a', by rw [splitAtClosing, hsplit']; rfl, ha⟩
    · rw [splitAtClosing_cons depth hc hopen] at hclose
      obtain ⟨⟨b, a⟩, hsplit, heq⟩ := Option.map_eq_some_iff.1 hclose
      obtain ⟨-, rfl⟩ := Prod.mk.inj heq
      obtain ⟨b', a', hsplit', ha⟩ := ih hsplit
      exact ⟨_, a', by rw [splitAtClosing_cons depth hc hopen', hsplit']; rfl, ha⟩

/-- An expression is one without its repeated separators. -/
theorem IsExpression.dropRepeated {e : Text} (h : IsExpression e) :
    IsExpression (Elements.dropRepeated false e) := by
  obtain ⟨body, rfl, hbody⟩ := h
  obtain ⟨inside, rest, hclose, hrest⟩ :=
    (thinned_dropRepeated false (body ++ ['>'])).exists_splitAtClosing hbody
  cases hrest with
  | nil =>
    have hinside : Elements.dropRepeated false (body ++ ['>']) = inside ++ ['>'] :=
      append_of_splitAtClosing hclose
    rw [hinside] at hclose
    refine ⟨inside, ?_, hclose⟩
    have hopening : opening ++ body ++ ['>'] = '$' :: '<' :: (body ++ ['>']) := rfl
    rw [hopening, Elements.dropRepeated_cons (by decide), Elements.dropRepeated_cons (by decide), hinside]
    rfl

end Text

namespace Elements

/-! ## Elements without repeated separators -/

/-- In front of a separator, a text keeps what is left of it without final ones. -/
theorem dropRepeated_append_separator (t u : Text) :
    dropRepeated false (t ++ ';' :: u) = clean false t ++ ';' :: dropRepeated true u := by
  -- Behind a separator, the one in front of `u` is a repeated one if nothing is left of `t`.
  have hgeneral (after : Bool) : dropRepeated after (t ++ ';' :: u) =
      if after = true ∧ clean true t = [] then dropRepeated true u
      else clean after t ++ ';' :: dropRepeated true u := by
    induction t generalizing after with
    | nil => cases after <;> simp
    | cons c rest ih =>
      by_cases hc : c = ';'
      · subst hc
        cases after with
        | true => rw [List.cons_append, dropRepeated_repeated, ih true, clean_repeated]
        | false =>
          rw [List.cons_append, dropRepeated_separator, ih true, clean_separator]
          by_cases hrest : clean true rest = [] <;> simp [hrest]
      · rw [List.cons_append, dropRepeated_cons hc, ih false, clean_cons hc, clean_cons hc]
        simp
  simpa using hgeneral false

/-- A text keeps how it ends. -/
theorem getLast?_dropRepeated (t : Text) : (dropRepeated false t).getLast? = t.getLast? := by
  rcases List.eq_nil_or_concat t with rfl | ⟨init, c, rfl⟩
  · rw [dropRepeated_nil]
  · rw [List.concat_eq_append, List.getLast?_concat]
    by_cases hc : c = ';'
    · subst hc
      rw [dropRepeated_append_separator, dropRepeated_nil, List.getLast?_concat]
    · have hhead : [c].head? ≠ some ';' := fun h => hc (Option.some.inj h)
      rw [dropRepeated_append fun _ => hhead, dropRepeated_cons hc, dropRepeated_nil,
        List.getLast?_concat]

/-- A text without separators has none to drop. -/
theorem dropRepeated_of_not_mem {t : Text} (h : separator ∉ t) : dropRepeated false t = t :=
  dropRepeated_eq_self fun hin => h (hin.subset (List.mem_cons_self ..))

/-- Such a text in front of another one is left as it is. -/
theorem dropRepeated_append_of_not_mem {a : Text} (h : separator ∉ a) (b : Text) :
    dropRepeated false (a ++ b) = a ++ dropRepeated false b := by
  have hend : a.getLast? ≠ some ';' := fun hlast => h (List.mem_of_getLast? hlast)
  rw [dropRepeated_append fun hlast => absurd hlast hend, dropRepeated_of_not_mem h]

/-- Repeated separators open and close no brackets. -/
theorem bracketsAfter_dropRepeated (depth : Nat) (after : Bool) (t : Text) :
    bracketsAfter depth (dropRepeated after t) = bracketsAfter depth t := by
  induction t generalizing depth after with
  | nil => rw [dropRepeated_nil]
  | cons c rest ih =>
    by_cases hc : c = ';'
    · subst hc
      have hseparator (rest : Text) : bracketsAfter depth (';' :: rest) = bracketsAfter depth rest := rfl
      cases after with
      | true => rw [dropRepeated_repeated, ih, hseparator]
      | false => rw [dropRepeated_separator, hseparator, ih, hseparator]
    · rw [dropRepeated_cons hc]
      exact ih (bracketsBehind depth c) false

/-- A separator behind a text is held with and without the repeated ones. -/
theorem held_dropRepeated_iff (depth : Nat) (t : Text) :
    Held depth (dropRepeated false t) ↔ Held depth t := by
  rw [Held, Held, getLast?_dropRepeated, bracketsAfter_dropRepeated]

/-- A single piece stays a single piece. -/
theorem pieces_dropRepeated {depth : Nat} {t : Text} (h : pieces depth t = [t]) (after : Bool) :
    pieces depth (dropRepeated after t) = [dropRepeated after t] := by
  induction depth, t using pieces_induction generalizing after with
  | nil depth => rw [dropRepeated_nil, h]
  | escaped depth rest ih =>
    rw [pieces_escaped, consFirst_eq] at h
    exact absurd (List.cons.inj (List.cons.inj h).1).1 (by decide)
  | separator rest ih =>
    rw [pieces_separator] at h
    cases (List.cons.inj h).1
  | char depth c rest hsep hescape ih =>
    -- The rest is a single piece as well, since what stands in front of it has been put to its first one.
    have hrest : pieces (bracketsBehind depth c) rest = [rest] := by
      rw [pieces_cons hsep hescape] at h
      obtain ⟨first, hfirst, hpieces⟩ := eq_cons_of_consFirst (pieces_ne_nil _ rest) h
      rw [hpieces, (List.cons.inj hfirst).2]
    by_cases hc : c = ';'
    · subst hc
      cases after with
      | true =>
        -- A separator that is left out opens no piece, as one in brackets does not separate.
        rw [dropRepeated_repeated]
        exact ih hrest true
      | false =>
        rw [dropRepeated_separator, pieces_cons hsep fun h => absurd h (by decide), ih hrest true]
        rfl
    · have hescape' : c = '\\' → (dropRepeated false rest).head? ≠ some ';' := by
        rw [head?_dropRepeated_false]
        exact hescape
      rw [dropRepeated_cons hc, pieces_cons hsep hescape', ih hrest false]
      rfl

/-- Something is left of every text that is not empty. -/
theorem dropRepeated_ne_nil {t : Text} (h : t ≠ []) : dropRepeated false t ≠ [] := by
  intro hnil
  have hhead := head?_dropRepeated_false t
  rw [hnil] at hhead
  exact h (List.head?_eq_none_iff.1 hhead.symm)

/-- No opening comes about or is lost with the repeated separators. -/
theorem opening_infix_dropRepeated_iff (t : Text) :
    opening <:+: dropRepeated false t ↔ opening <:+: t :=
  (Text.thinned_dropRepeated false t).opening_infix_iff

/-- What stands around an expression has no separators to drop. -/
theorem Around.dropRepeated {element : Text} (h : Around element) :
    Around (dropRepeated false element) := by
  obtain ⟨touching, e, trail, rfl, htouching, hfree, he, htrail⟩ := h
  refine ⟨touching, Elements.dropRepeated false e, trail, ?_, htouching, hfree, he.dropRepeated, htrail⟩
  have hend : e.getLast? ≠ some ';' := by
    obtain ⟨body, rfl, -⟩ := he
    rw [List.getLast?_concat]
    decide
  rw [List.append_assoc, dropRepeated_append_of_not_mem hfree,
    dropRepeated_append fun hlast => absurd hlast hend, dropRepeated_of_not_mem htrail, List.append_assoc]

/-- An element on its own stays one without its repeated separators. -/
theorem Sole.dropRepeated {element : Text} (h : Sole element) : Sole (dropRepeated false element) := by
  cases h with
  | plain hplain hne hpieces =>
    exact .plain (mt (opening_infix_dropRepeated_iff element).1 hplain) (dropRepeated_ne_nil hne)
      (pieces_dropRepeated hpieces false)
  | around h => exact .around h.dropRepeated

/-- What stands before the first expression keeps touching it. -/
theorem Touching.dropRepeated {t : Text} (h : Touching t) : Touching (dropRepeated false t) := by
  obtain ⟨touching, after, rfl, htouching, hfree, hne⟩ := h
  refine ⟨touching, Elements.dropRepeated false after, ?_, htouching, hfree, hne⟩
  have hopening : opening ++ after = '$' :: '<' :: after := rfl
  rw [List.append_assoc, dropRepeated_append_of_not_mem hfree, hopening, dropRepeated_cons (by decide),
    dropRepeated_cons (by decide)]
  simp [opening]

/-- Elements that are kept apart by a separator are so without their repeated ones. -/
theorem Separated.dropRepeated {element next : Text} (h : Separated element next) :
    Separated (dropRepeated false element) (dropRepeated false next) :=
  h.imp (opening_infix_dropRepeated_iff element).2 fun hor =>
    hor.imp (mt (held_dropRepeated_iff 0 element).1) Touching.dropRepeated

/-- Whether a text starts with an opening does not depend on them either. -/
theorem opening_prefix_dropRepeated_iff (t : Text) :
    opening <+: dropRepeated false t ↔ opening <+: t := by
  cases t with
  | nil => rw [dropRepeated_nil]
  | cons c rest =>
    by_cases hc : c = ';'
    · subst hc
      rw [dropRepeated_separator]
      simp [opening, List.cons_prefix_cons]
    · rw [dropRepeated_cons hc]
      cases rest with
      | nil => rw [dropRepeated_nil]
      | cons d rest =>
        by_cases hd : d = ';'
        · subst hd
          rw [dropRepeated_separator]
          simp [opening, List.cons_prefix_cons]
        · rw [dropRepeated_cons hd]
          simp [opening, List.cons_prefix_cons]

/-- Elements stay beside each other without their repeated separators. -/
theorem Beside.dropRepeated {element next : Text} (h : Beside element next) :
    Beside (dropRepeated false element) (dropRepeated false next) := by
  refine h.imp Separated.dropRepeated fun hheld => ⟨?_, ?_⟩
  · rw [getLast?_dropRepeated]
    exact hheld.1
  · exact (opening_prefix_dropRepeated_iff next).2 hheld.2

/-- An element on its own starts with no separator. -/
theorem Sole.head?_ne {element : Text} (h : Sole element) : element.head? ≠ some separator := by
  intro hhead
  obtain ⟨rest, rfl⟩ := List.head?_eq_some_iff.1 hhead
  cases h with
  | plain hplain hne hpieces =>
    rw [separator, pieces_separator] at hpieces
    cases (List.cons.inj hpieces).1
  | around h =>
    obtain ⟨touching, e, trail, heq, htouching, hfree, he, htrail⟩ := h
    cases touching with
    | nil =>
      have hfirst := congrArg List.head? heq
      rw [List.nil_append, List.head?_append, he.head?_eq] at hfirst
      exact absurd (Option.some.inj hfirst) (by decide)
    | cons c touching =>
      obtain ⟨rfl, -⟩ := List.cons.inj heq
      exact hfree (List.mem_cons_self ..)

/-- An element on its own is not empty. -/
theorem Sole.ne_nil {element : Text} (h : Sole element) : element ≠ [] := by
  cases h with
  | plain hplain hne hpieces => exact hne
  | around h =>
    obtain ⟨touching, e, trail, rfl, htouching, hfree, he, htrail⟩ := h
    simp [he.ne_nil]

/-- It starts with something else than a separator. -/
theorem Sole.goesOn {element : Text} (h : Sole element) : GoesOn element := by
  obtain ⟨c, rest, rfl⟩ := List.exists_cons_of_ne_nil h.ne_nil
  exact (goesOn_cons_iff c rest).2 fun hc => h.head?_ne (congrArg some hc)

/-! ## Elements without separators at their ends -/

/-- The last separator of two texts in a row is that of the second, if this is not empty. -/
theorem dropFinal_append (a : Text) {b : Text} (h : b ≠ []) :
    dropFinal (a ++ b) = a ++ dropFinal b := by
  induction a with
  | nil => rfl
  | cons c a ih =>
    rw [List.cons_append, dropFinal_cons (.inr (List.append_ne_nil_of_right_ne_nil a h)), ih,
      List.cons_append]

/-- A text that does not end in a separator has none to drop at its end. -/
theorem dropFinal_eq_self {t : Text} (h : t.getLast? ≠ some separator) : dropFinal t = t := if_neg h

/-- A text that starts with something else than a separator is not empty. -/
theorem GoesOn.ne_nil {t : Text} (h : GoesOn t) : t ≠ [] := by
  rintro rfl
  obtain ⟨c, hc, -⟩ := h
  cases hc

/-- It does not start with a separator. -/
theorem GoesOn.head?_ne {t : Text} (h : GoesOn t) : t.head? ≠ some separator := by
  obtain ⟨c, hc, hne⟩ := h
  rw [hc]
  exact fun heq => hne (Option.some.inj heq)

/-- It still does so with more behind it. -/
theorem GoesOn.append {t : Text} (h : GoesOn t) (more : Text) : GoesOn (t ++ more) := by
  obtain ⟨c, hc, hne⟩ := h
  exact ⟨c, by rw [List.head?_append, Option.mem_def.1 hc]; rfl, hne⟩

/-- A text that starts with something else than a separator loses the repeated ones and the final one. -/
theorem GoesOn.dropEmpty_eq {t : Text} (h : GoesOn t) :
    dropEmpty t = dropFinal (dropRepeated false t) := by
  rw [dropEmpty, dropRepeated_eq_false h.head?_ne]

/-- Two such texts with a separator between them do so each by itself. -/
theorem GoesOn.dropEmpty_append {t u : Text} (ht : GoesOn t) (hu : GoesOn u) :
    dropEmpty (t ++ ';' :: u) = dropEmpty t ++ ';' :: dropEmpty u := by
  have hleft : dropRepeated true u ≠ [] := by
    rw [dropRepeated_eq_false hu.head?_ne]
    exact dropRepeated_ne_nil hu.ne_nil
  rw [(ht.append _).dropEmpty_eq, dropRepeated_append_separator,
    dropFinal_append _ (List.cons_ne_nil _ _), dropFinal_cons (.inr hleft), clean, ht.dropEmpty_eq,
    dropEmpty]

/-- And so do elements that are written next to each other. -/
theorem dropEmpty_join {elements : List Text} (h : ∀ element ∈ elements, GoesOn element) :
    dropEmpty (Text.join [';'] elements) = Text.join [';'] (elements.map dropEmpty) := by
  induction elements with
  | nil => rfl
  | cons element rest ih =>
    rw [List.forall_mem_cons] at h
    cases rest with
    | nil => rw [join_singleton, List.map_cons, List.map_nil, join_singleton]
    | cons next rest =>
      have hjoin : GoesOn (Text.join [';'] (next :: rest)) := by
        obtain ⟨more, hmore⟩ := exists_join_cons next rest
        rw [hmore]
        exact (h.2 next List.mem_cons_self).append more
      rw [join_cons_cons, h.1.dropEmpty_append hjoin, ih h.2]
      rfl

/-- A single piece that ends in a separator is one without it, and brackets are open at its end. -/
theorem pieces_of_concat {depth : Nat} {t : Text} (h : pieces depth (t ++ [';']) = [t ++ [';']]) :
    pieces depth t = [t] ∧ 0 < bracketsAfter depth t := by
  induction depth, t using pieces_induction with
  | nil depth =>
    cases depth with
    | zero => cases h
    | succ depth => exact ⟨rfl, Nat.succ_pos depth⟩
  | escaped depth rest ih =>
    -- The backslash of an escaped separator is taken off, so such a piece is not the text.
    rw [List.cons_append, List.cons_append, pieces_escaped, consFirst_eq] at h
    exact absurd (List.cons.inj (List.cons.inj h).1).1 (by decide)
  | separator rest ih =>
    rw [List.cons_append, pieces_separator] at h
    cases (List.cons.inj h).1
  | char depth c rest hsep hescape ih =>
    have hescape' : c = '\\' → (rest ++ [';']).head? ≠ some ';' := by
      rintro rfl
      cases rest with
      | nil => cases h
      | cons d rest => exact hescape rfl
    have hrest : pieces (bracketsBehind depth c) (rest ++ [';']) = [rest ++ [';']] := by
      rw [List.cons_append, pieces_cons hsep hescape'] at h
      obtain ⟨first, hfirst, hpieces⟩ := eq_cons_of_consFirst (pieces_ne_nil _ _) h
      rw [hpieces, (List.cons.inj hfirst).2]
    obtain ⟨hpieces, hopen⟩ := ih hrest
    rw [pieces_cons hsep hescape, hpieces]
    exact ⟨rfl, hopen⟩

/-- An element with an expression has no separator at its end. -/
theorem Sole.dropFinal_of_opening {element : Text} (h : Sole element) (hopen : opening <:+: element) :
    dropFinal element = element := by
  cases h with
  | plain hplain => exact absurd hopen hplain
  | around h => exact dropFinal_eq_self h.getLast?_ne

/-- Without the separator at its end, an element stays an element and kept apart from the next one. -/
theorem Sole.dropFinal {element : Text} (h : Sole element) :
    Sole (dropFinal element) ∧
      ∀ next, Separated element next → Separated (Elements.dropFinal element) next := by
  rcases dropFinal_eq_or element with heq | heq
  · rw [heq]
    exact ⟨h, fun _ => id⟩
  · -- A bracket is open at the end, so the separator is held with and without the one before it.
    cases h with
    | plain hplain hne hpieces =>
      rw [heq] at hpieces
      obtain ⟨hpieces, hopen⟩ := pieces_of_concat hpieces
      refine ⟨.plain (fun hin => hplain ?_) ?_ hpieces, fun next hnext => ?_⟩
      · rw [heq]
        exact hin.trans (List.prefix_append _ _).isInfix
      · intro hnil
        rw [hnil] at hopen
        exact Nat.lt_irrefl 0 hopen
      · have hheld : Held 0 element := by
          refine .inr ?_
          rw [heq, bracketsAfter_append]
          exact hopen
        exact .inr (.inr ((hnext.resolve_left hplain).resolve_left fun hnot => hnot hheld))
    | around h =>
      refine absurd ?_ h.getLast?_ne
      rw [heq, List.getLast?_concat]
      rfl

/-- Elements without the separators at their ends; one that an element that starts with an expression
follows keeps its own. -/
def dropFinals : List Text → List Text
  | [] => []
  | element :: rest =>
    (if ∃ next ∈ rest.head?, opening <+: next then element else dropFinal element) :: dropFinals rest

/-- An element that ends in a separator and that an expression follows keeps it. -/
theorem dropFinals_cons_of_opening (element : Text) {next : Text} (rest : List Text)
    (h : opening <+: next) :
    dropFinals (element :: next :: rest) = element :: dropFinals (next :: rest) := by
  rw [dropFinals, if_pos ⟨next, rfl, h⟩]

/-- Any other one that is not the last loses it. -/
theorem dropFinals_cons_of_not {element next : Text} (rest : List Text)
    (h : ¬ (element.getLast? = some separator ∧ opening <+: next)) :
    dropFinals (element :: next :: rest) = dropFinal element :: dropFinals (next :: rest) := by
  rw [dropFinals]
  split
  · next hopen =>
    obtain ⟨first, hfirst, hopen⟩ := hopen
    obtain rfl := Option.some.inj hfirst
    rw [dropFinal_eq_self fun hlast => h ⟨hlast, hopen⟩]
  · rfl

/-- In front of an expression the separator behind an element is read as its own last one. -/
theorem Sole.split_dropFinal_append {element : Text} (h : Sole element)
    (hlast : element.getLast? = some separator) (after : Text) :
    split (Elements.dropFinal element ++ ';' :: (opening ++ after)) =
      element :: split (opening ++ after) := by
  have hfinal : Elements.dropFinal element ++ [';'] = element := by
    obtain ⟨init, rfl⟩ := List.getLast?_eq_some_iff.1 hlast
    exact congrArg (· ++ [';']) ((if_pos hlast).trans List.dropLast_concat)
  rw [List.append_cons, hfinal, h.split_held hlast]

/-- Elements without the separators at their ends are read from their join like this: where one stands in
front of an expression, the separator that is written between the two is taken for it. -/
theorem split_join_dropFinal {elements : List Text} (hsole : ∀ element ∈ elements, Sole element)
    (hchain : elements.IsChain Beside) :
    split (Text.join [';'] (elements.map dropFinal)) = dropFinals elements := by
  induction elements with
  | nil => exact split_nil
  | cons element rest ih =>
    obtain ⟨helement, hrest⟩ := List.forall_mem_cons.1 hsole
    cases rest with
    | nil =>
      rw [List.map_cons, List.map_nil, join_singleton, helement.dropFinal.1.split_eq]
      simp [dropFinals]
    | cons next rest =>
      obtain ⟨hnext, htail⟩ := List.isChain_cons_cons.1 hchain
      have hnextSole : Sole next := hrest next List.mem_cons_self
      obtain ⟨more, hmore⟩ := exists_join_cons (dropFinal next) (rest.map dropFinal)
      have hbehind := ih hrest htail
      rw [List.map_cons, hmore] at hbehind
      rw [List.map_cons, List.map_cons, join_cons_cons, hmore]
      by_cases hheld : element.getLast? = some separator ∧ opening <+: next
      · obtain ⟨hlast, hopen⟩ := hheld
        rw [dropFinals_cons_of_opening element rest hopen, ← hbehind,
          hnextSole.dropFinal_of_opening hopen.isInfix]
        obtain ⟨after, rfl⟩ := hopen
        rw [List.append_assoc]
        exact helement.split_dropFinal_append hlast (after ++ more)
      · have hseparated : Separated element next := hnext.resolve_right hheld
        have htouching : Touching next → Touching (dropFinal next ++ more) := by
          rintro ⟨touching, after, rfl, htouching⟩
          rw [hnextSole.dropFinal_of_opening ⟨touching, after, rfl⟩]
          exact Touching.append ⟨touching, after, rfl, htouching⟩ more
        rw [dropFinals_cons_of_not rest hheld, ← hbehind]
        exact helement.dropFinal.1.split_append
          ((helement.dropFinal.2 next hseparated).imp_right fun hor => hor.imp_right htouching)

/-- Every element that ends in a separator is followed by one that starts with an expression. -/
def FinalsKept (elements : List Text) : Prop :=
  ∀ before element after, elements = before ++ element :: after →
    element.getLast? = some separator → ∃ next ∈ after.head?, opening <+: next

/-- No elements lose nothing at their ends. -/
theorem finalsKept_nil : FinalsKept [] := by
  intro before element after heq
  cases before <;> cases heq

/-- Whether elements keep their ends is a matter of each and the one behind it. -/
theorem finalsKept_cons_iff (element : Text) (rest : List Text) :
    FinalsKept (element :: rest) ↔
      (element.getLast? = some separator → ∃ next ∈ rest.head?, opening <+: next) ∧
        FinalsKept rest := by
  constructor
  · intro h
    refine ⟨h [] element rest rfl, fun before other after heq => h (element :: before) other after ?_⟩
    rw [heq, List.cons_append]
  · rintro ⟨hfirst, hrest⟩ before other after heq
    cases before with
    | nil =>
      obtain ⟨rfl, rfl⟩ := List.cons.inj heq
      exact hfirst
    | cons _ before =>
      obtain ⟨-, hbehind⟩ := List.cons.inj heq
      exact hrest before other after hbehind

/-- Then nothing is lost at the ends. -/
theorem FinalsKept.dropFinals_eq {elements : List Text} (h : FinalsKept elements) :
    dropFinals elements = elements := by
  induction elements with
  | nil => rfl
  | cons element rest ih =>
    obtain ⟨hfirst, hrest⟩ := (finalsKept_cons_iff element rest).1 h
    rw [dropFinals, ih hrest]
    split
    · rfl
    · next hnot => rw [dropFinal_eq_self (mt hfirst hnot)]

/-- This only depends on how the elements end and which of them start with an expression. -/
theorem finalsKept_map_iff {f : Text → Text} {elements : List Text}
    (hlast : ∀ element ∈ elements, (f element).getLast? = element.getLast?)
    (hopen : ∀ element, opening <+: f element ↔ opening <+: element) :
    FinalsKept (elements.map f) ↔ FinalsKept elements := by
  induction elements with
  | nil => rfl
  | cons element rest ih =>
    rw [List.forall_mem_cons] at hlast
    have hhead : (∃ next ∈ (rest.map f).head?, opening <+: next) ↔
        ∃ next ∈ rest.head?, opening <+: next := by
      cases rest with
      | nil => simp
      | cons next rest => simp [hopen]
    rw [List.map_cons, finalsKept_cons_iff, finalsKept_cons_iff, ih hlast.2, hlast.1, hhead]

end Elements

end BuildExpr
