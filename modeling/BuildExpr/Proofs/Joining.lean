import Mathlib.Data.List.Chain
import BuildExpr.Proofs.EmptyElements

/-!
# Elements written next to each other

Elements that are written with a separator between every two of them are read as a list again. Each of them
comes back if nothing that it says can have an effect on a separator: alone it is read as itself (`Sole`),
and the separator behind it is not held, or the next element has an expression with text in front of it,
which no separator before it can be part of (`Separated`; `Sole.split_append`). The elements of a split
stand next to each other in this way, unless one ends in the separator that was held between it and an
expression (`Beside`, `isChain_split`); in front of the expression such an element is read as it stands
(`split_held`).
-/

namespace BuildExpr.Elements

open Text

/-! ## Pieces -/

/-- Every text has a piece, be it the empty one. -/
theorem pieces_ne_nil (depth : Nat) (t : Text) : pieces depth t ≠ [] := by
  fun_cases pieces depth t <;> simp [consFirst_eq]

/-- A character goes into the first of some pieces, whatever follows them. -/
theorem consFirst_append (c : Char) {list : List Text} (h : list ≠ []) (more : List Text) :
    consFirst c (list ++ more) = consFirst c list ++ more := by
  obtain ⟨piece, rest, rfl⟩ := List.exists_cons_of_ne_nil h
  rfl

/-- It does not change how many pieces there are. -/
theorem length_consFirst (c : Char) {list : List Text} (h : list ≠ []) :
    (consFirst c list).length = list.length := by
  obtain ⟨piece, rest, rfl⟩ := List.exists_cons_of_ne_nil h
  rfl

/-- Pieces that a character has gone into have it at the start of the first one. -/
theorem eq_cons_of_consFirst {c : Char} {list : List Text} (h : list ≠ []) {first : Text}
    {rest : List Text} (heq : consFirst c list = first :: rest) :
    ∃ piece, first = c :: piece ∧ list = piece :: rest := by
  obtain ⟨piece, others, rfl⟩ := List.exists_cons_of_ne_nil h
  obtain ⟨rfl, rfl⟩ := List.cons.inj heq
  exact ⟨piece, rfl, rfl⟩

/-- At a separator that is not held, what follows is in other pieces. -/
theorem pieces_append_separator {depth : Nat} {x : Text} (hx : ¬ Held depth x) (t : Text) :
    pieces depth (x ++ ';' :: t) = pieces depth x ++ pieces 0 t := by
  induction depth, x using pieces_induction with
  | nil depth =>
    -- No bracket is open, so the separator ends the piece.
    rw [held_nil_iff, Nat.not_lt, Nat.le_zero] at hx
    subst hx
    rw [List.nil_append, pieces_separator]
    simp [pieces]
  | escaped depth rest ih =>
    have hrest : ¬ Held depth rest := by
      rw [held_cons_iff, held_cons_iff] at hx
      exact fun hheld => hx (.inr (.inr hheld))
    rw [List.cons_append, List.cons_append, pieces_escaped, pieces_escaped, ih hrest,
      consFirst_append _ (pieces_ne_nil depth rest)]
  | separator rest ih =>
    have hrest : ¬ Held 0 rest := by
      rw [held_cons_iff] at hx
      exact fun hheld => hx (.inr hheld)
    rw [List.cons_append, pieces_separator, pieces_separator, ih hrest, List.cons_append]
  | char depth c rest hsep hescape ih =>
    rw [held_cons_iff, not_or] at hx
    have hescape' : c = '\\' → (rest ++ ';' :: t).head? ≠ some ';' := by
      intro hc
      cases rest with
      | nil => exact absurd ⟨rfl, hc⟩ hx.1
      | cons d rest => exact hescape hc
    rw [List.cons_append, pieces_cons hsep hescape', pieces_cons hsep hescape, ih hx.2,
      consFirst_append _ (pieces_ne_nil _ rest)]

/-- At a separator that is not held, the elements of both sides are read one by one. -/
theorem expand_append_separator {x : Text} (hx : ¬ Held 0 x) (t : Text) :
    expand (x ++ ';' :: t) = expand x ++ expand t := by
  rw [expand, pieces_append_separator hx, List.filter_append]
  rfl

/-- A separator that is held at the end ends the last piece. -/
theorem pieces_of_held {depth : Nat} {x : Text} (hx : Held depth x) :
    ∃ init last, pieces depth (x ++ [';']) = init ++ [last] ∧ last.getLast? = some ';' := by
  -- A character in front of the pieces goes to the first, and the last keeps its end.
  have hconsFirst (c : Char) {list : List Text}
      (h : ∃ init last, list = init ++ [last] ∧ last.getLast? = some ';') :
      ∃ init last, consFirst c list = init ++ [last] ∧ last.getLast? = some ';' := by
    obtain ⟨init, last, rfl, hlast⟩ := h
    cases init with
    | nil => exact ⟨[], c :: last, rfl, by rw [List.getLast?_cons, hlast]; rfl⟩
    | cons first init => exact ⟨(c :: first) :: init, last, rfl, hlast⟩
  induction depth, x using pieces_induction with
  | nil depth =>
    have hdepth : 0 < depth := (held_nil_iff depth).1 hx
    rw [List.nil_append, pieces_cons (fun _ => hdepth) fun h => absurd h (by decide)]
    exact ⟨[], [';'], by simp [pieces, consFirst], rfl⟩
  | escaped depth rest ih =>
    have hrest : Held depth rest := by
      rw [held_cons_iff, held_cons_iff] at hx
      simpa [bracketsBehind] using hx
    rw [List.cons_append, List.cons_append, pieces_escaped]
    exact hconsFirst ';' (ih hrest)
  | separator rest ih =>
    have hrest : Held 0 rest := by
      rw [held_cons_iff] at hx
      simpa [bracketsBehind] using hx
    obtain ⟨init, last, hpieces, hlast⟩ := ih hrest
    rw [List.cons_append, pieces_separator, hpieces]
    exact ⟨[] :: init, last, rfl, hlast⟩
  | char depth c rest hsep hescape ih =>
    rcases (held_cons_iff depth c rest).1 hx with ⟨rfl, rfl⟩ | hrest
    · exact ⟨[], [';'], by simp [pieces, consFirst], rfl⟩
    · rw [List.cons_append]
      -- A final backslash has the separator behind it to escape.
      by_cases hc : c = '\\' ∧ rest = []
      · obtain ⟨rfl, rfl⟩ := hc
        exact ⟨[], [';'], by simp [pieces, consFirst], rfl⟩
      · have hescape' : c = '\\' → (rest ++ [';']).head? ≠ some ';' := by
          intro hbackslash
          cases rest with
          | nil => exact absurd ⟨hbackslash, rfl⟩ hc
          | cons d rest => exact hescape hbackslash
        rw [pieces_cons hsep hescape']
        exact hconsFirst c (ih hrest)

/-- The first of several pieces does not hold the separator behind it, and the others are those of what
follows. -/
theorem not_held_of_pieces {depth : Nat} {t p q : Text} {rest : List Text}
    (h : pieces depth t = p :: q :: rest) :
    ¬ Held depth p ∧ ∃ u, q :: rest = pieces 0 u := by
  induction depth, t using pieces_induction generalizing p q rest with
  | nil depth =>
    rw [pieces] at h
    cases h
  | escaped depth t ih =>
    rw [pieces_escaped] at h
    obtain ⟨first, rfl, hpieces⟩ := eq_cons_of_consFirst (pieces_ne_nil depth t) h
    obtain ⟨hfirst, hrest⟩ := ih hpieces
    rw [held_cons_iff, not_or]
    exact ⟨⟨fun hc => absurd hc.2 (by decide), hfirst⟩, hrest⟩
  | separator t ih =>
    rw [pieces_separator] at h
    obtain ⟨rfl, hrest⟩ := List.cons.inj h
    exact ⟨by rw [held_nil_iff]; exact Nat.lt_irrefl 0, t, hrest.symm⟩
  | char depth c t hsep hescape ih =>
    rw [pieces_cons hsep hescape] at h
    obtain ⟨first, rfl, hpieces⟩ := eq_cons_of_consFirst (pieces_ne_nil _ t) h
    obtain ⟨hfirst, hrest⟩ := ih hpieces
    rw [held_cons_iff, not_or]
    refine ⟨⟨?_, hfirst⟩, hrest⟩
    rintro ⟨rfl, rfl⟩
    -- Nothing would stand between the backslash and the separator.
    cases t with
    | nil => simp [pieces] at hpieces
    | cons d t =>
      have hd : d ≠ ';' := fun hd => hescape rfl (by rw [hd]; rfl)
      obtain ⟨e, list, hlist⟩ := exists_pieces_eq_consFirst (bracketsBehind depth '\\') hd t
      rw [hlist, consFirst_eq] at hpieces
      cases hpieces

/-- So none of the pieces but the last one holds the separator behind it. -/
theorem not_held_of_mem_pieces {t last : Text} {init : List Text}
    (h : pieces 0 t = init ++ [last]) : ∀ p ∈ init, ¬ Held 0 p := by
  induction init generalizing t with
  | nil => exact List.forall_mem_nil _
  | cons p init ih =>
    obtain ⟨q, rest, hrest⟩ := List.exists_cons_of_ne_nil (List.concat_ne_nil last init)
    rw [List.cons_append, hrest] at h
    obtain ⟨hp, u, hu⟩ := not_held_of_pieces h
    exact List.forall_mem_cons.2 ⟨hp, ih (hu.symm.trans hrest.symm)⟩

/-! ## Splitting off the part before a separator -/

/-- No character of a text without separators is one. -/
theorem ne_separator_of_mem {t : Text} (h : separator ∉ t) : ∀ c ∈ t, decide (c ≠ ';') = true := by
  intro c hc
  rw [decide_eq_true_eq]
  rintro rfl
  exact h hc

/-- A text without separators touches the expression behind it as a whole. -/
theorem glue_of_not_mem {t : Text} (h : separator ∉ t) : glue t = ([], t) := by
  have hreverse : separator ∉ t.reverse := mt List.mem_reverse.1 h
  rw [glue, List.takeWhile_eq_self_iff.2 (ne_separator_of_mem hreverse), List.reverse_reverse]
  simp

/-- Only what stands behind the last separator touches an expression. -/
theorem glue_append_separator (part : Text) {touching : Text} (h : separator ∉ touching) :
    glue (part ++ ';' :: touching) =
      if touching = [] then (part ++ [';'], []) else (part, touching) := by
  have hreverse : (part ++ ';' :: touching).reverse = touching.reverse ++ ';' :: part.reverse := by simp
  have hfree : separator ∉ touching.reverse := mt List.mem_reverse.1 h
  have htake : (part ++ ';' :: touching).reverse.takeWhile (· ≠ ';') = touching.reverse := by
    rw [hreverse, List.takeWhile_append_of_pos (ne_separator_of_mem hfree),
      List.takeWhile_cons_of_neg (by simp), List.append_nil]
  have hlength : touching.length ≠ (part ++ ';' :: touching).length := by
    simp only [List.length_append, List.length_cons]
    omega
  rw [glue, htake, List.reverse_reverse, if_neg hlength]
  by_cases hnil : touching = []
  · subst hnil
    rfl
  · have hpart : (part ++ ';' :: touching).length - touching.length - 1 = part.length := by
      simp only [List.length_append, List.length_cons]
      omega
    rw [if_neg (by simpa using hnil), if_neg hnil, hpart, List.take_left]

/-- A text without a separator or cut at its last one. -/
theorem separator_not_mem_or_last (t : Text) :
    separator ∉ t ∨ ∃ part touching, t = part ++ ';' :: touching ∧ separator ∉ touching := by
  by_cases h : separator ∈ t
  · obtain ⟨front, back, hreverse, hfront⟩ := List.eq_append_cons_of_mem (List.mem_reverse.2 h)
    refine .inr ⟨back.reverse, front.reverse, ?_, fun hmem => hfront (List.mem_reverse.1 hmem)⟩
    rw [← List.reverse_reverse t, hreverse]
    simp [separator]
  · exact .inl h

/-- A part in front of a separator makes no difference to what touches an expression, and its elements come
first. -/
theorem glue_append {x before : Text} (h : ¬ Held 0 x ∨ separator ∉ before ∧ before ≠ []) :
    (glue (x ++ ';' :: before)).2 = (glue before).2 ∧
      expand (glue (x ++ ';' :: before)).1 = expand x ++ expand (glue before).1 := by
  rcases separator_not_mem_or_last before with hbefore | ⟨part, touching, rfl, htouching⟩
  · rw [glue_append_separator x hbefore, glue_of_not_mem hbefore]
    split
    · next hnil =>
      have hx : ¬ Held 0 x := h.resolve_right fun hne => hne.2 hnil
      rw [expand_append_separator hx]
      exact ⟨hnil.symm, rfl⟩
    · exact ⟨rfl, (List.append_nil _).symm⟩
  · have hx : ¬ Held 0 x := h.resolve_right fun hnot => hnot.1 (by simp [separator])
    rw [← List.cons_append, ← List.append_assoc, glue_append_separator _ htouching,
      glue_append_separator part htouching]
    split
    · rw [List.append_assoc, List.cons_append, expand_append_separator hx]
      exact ⟨rfl, rfl⟩
    · rw [expand_append_separator hx]
      exact ⟨rfl, rfl⟩

/-- The elements from an expression on, with the text that touches it and all that follows its `$<`. -/
def fromOpening (touching after : Text) : List Text :=
  match splitAtClosing 0 after with
  | none => [touching ++ opening ++ after]
  | some (inside, rest) =>
    (touching ++ opening ++ inside ++ '>' :: rest.takeWhile (· ≠ ';')) ::
      split (rest.dropWhile (· ≠ ';'))

/-- Without an expression, splitting a list is reading its elements. -/
theorem split_of_no_opening {t : Text} (h : ¬ opening <:+: t) : split t = expand t := by
  have hopen := splitAtOpening_eq_none_iff.2 h
  rw [split]
  split
  · rfl
  · next hsome =>
    rw [hopen] at hsome
    cases hsome

/-- With one, the elements before it come first and are followed by those from its opening on. -/
theorem split_of_splitAtOpening {t before after : Text}
    (h : t.splitAtOpening = some (before, after)) :
    split t = expand (glue before).1 ++ fromOpening (glue before).2 after := by
  rw [split]
  split
  · next hnone =>
    rw [h] at hnone
    cases hnone
  · next hsome =>
    obtain ⟨rfl, rfl⟩ := Prod.mk.inj (Option.some.inj (h.symm.trans hsome))
    unfold fromOpening
    dsimp only
    cases splitAtClosing 0 after with
    | none => rfl
    | some parts => rfl

/-- A text without an opening stands in front of the first one of what follows. -/
theorem splitAtOpening_append {x t : Text} (hx : ¬ opening <:+: x) (hapart : Apart x t) :
    splitAtOpening (x ++ t) = (splitAtOpening t).map fun (before, after) => (x ++ before, after) := by
  induction x with
  | nil => simp
  | cons c x ih =>
    have hopen : ∀ tail, c = '$' → x = '<' :: tail → False := by
      rintro tail rfl rfl
      exact hx ⟨[], tail, rfl⟩
    rw [List.cons_append, splitAtOpening, ih (no_opening_of_cons hx) hapart.of_cons, Option.map_map]
    · rfl
    · exact hapart.not_opening hopen

/-- The first opening is the one behind text without any. -/
theorem splitAtOpening_opening {before : Text} (hbefore : ¬ opening <:+: before) (after : Text) :
    splitAtOpening (before ++ opening ++ after) = some (before, after) := by
  have hopening : splitAtOpening (opening ++ after) = some ([], after) := by simp [opening, splitAtOpening]
  have hhead : (opening ++ after).head? ≠ some '<' := by simp [opening]
  rw [List.append_assoc, splitAtOpening_append hbefore (apart_of_head? hhead), hopening]
  simp

/-- A text that touches an expression in it, from the start of the text on. -/
def Touching (t : Text) : Prop :=
  ∃ touching after, t = touching ++ opening ++ after ∧ ¬ opening <:+: touching ∧
    separator ∉ touching ∧ touching ≠ []

/-- In front of a separator that is not held, or of text that touches an expression, text without
expressions is a list of its own. -/
theorem split_append_separator {x t : Text} (hplain : ¬ opening <:+: x)
    (h : ¬ Held 0 x ∨ Touching t) : split (x ++ ';' :: t) = expand x ++ split t := by
  have hseparator : splitAtOpening (';' :: t) =
      (splitAtOpening t).map fun (before, after) => (';' :: before, after) := by
    rw [splitAtOpening]
    exact fun tail hc => absurd hc (by decide)
  have hopen := splitAtOpening_append hplain (apart_of_head? (b := ';' :: t) (by simp))
  rw [hseparator, Option.map_map] at hopen
  -- The first opening is that of what follows, with more text in front of it.
  cases hafter : splitAtOpening t with
  | none =>
    have hheld : ¬ Held 0 x := by
      refine h.resolve_right ?_
      rintro ⟨touching, after, rfl, -⟩
      exact splitAtOpening_eq_none_iff.1 hafter ⟨touching, after, rfl⟩
    rw [hafter] at hopen
    rw [split_of_no_opening (splitAtOpening_eq_none_iff.1 hopen),
      split_of_no_opening (splitAtOpening_eq_none_iff.1 hafter), expand_append_separator hheld]
  | some parts =>
    obtain ⟨before, after⟩ := parts
    rw [hafter] at hopen
    have hbefore : ¬ Held 0 x ∨ separator ∉ before ∧ before ≠ [] := by
      refine h.imp_right ?_
      rintro ⟨touching, rest, rfl, htouching, hfree, hne⟩
      rw [splitAtOpening_opening htouching] at hafter
      obtain ⟨rfl, -⟩ := Prod.mk.inj (Option.some.inj hafter)
      exact ⟨hfree, hne⟩
    obtain ⟨htouching, hexpand⟩ := glue_append hbefore
    rw [split_of_splitAtOpening hopen, split_of_splitAtOpening hafter, htouching, hexpand,
      List.append_assoc]

/-! ## From element to element -/

/-- An expression and what stands around it make one element, behind the elements before it. -/
theorem split_expression {before e trail rest : Text} (hbefore : ¬ opening <:+: before)
    (he : IsExpression e) (htrail : separator ∉ trail)
    (hrest : ∀ c, rest.head? = some c → c = separator) :
    split (before ++ e ++ (trail ++ rest)) =
      expand (glue before).1 ++ ((glue before).2 ++ e ++ trail) :: split rest := by
  obtain ⟨body, rfl, hbody⟩ := he
  have hopen : splitAtOpening (before ++ (opening ++ body ++ ['>']) ++ (trail ++ rest)) =
      some (before, body ++ ['>'] ++ (trail ++ rest)) := by
    rw [← splitAtOpening_opening hbefore]
    simp
  -- The element ends in front of the next separator, which is where the rest starts.
  have hall := ne_separator_of_mem htrail
  have htake : (trail ++ rest).takeWhile (· ≠ ';') = trail ∧
      (trail ++ rest).dropWhile (· ≠ ';') = rest := by
    rw [List.takeWhile_append_of_pos hall, List.dropWhile_append_of_pos hall]
    cases rest with
    | nil => simp
    | cons c rest =>
      obtain rfl := hrest c rfl
      simp [separator]
  rw [split_of_splitAtOpening hopen, fromOpening, splitAtClosing_append hbody]
  dsimp only
  rw [List.nil_append, htake.1, htake.2]
  simp

/-- Induction along the elements of a closed text that have an expression, each with what stands in front of
it. -/
@[elab_as_elim] theorem split_induction {motive : Text → Prop}
    (plain : ∀ t, ¬ opening <:+: t → motive t)
    (expression : ∀ before e trail rest, ¬ opening <:+: before → IsExpression e →
      separator ∉ trail → (∀ c, rest.head? = some c → c = separator) → Closed (trail ++ rest) →
      motive rest → motive (before ++ e ++ (trail ++ rest)))
    {t : Text} (h : Closed t) : motive t := by
  induction hn : t.length using Nat.strongRecOn generalizing t with
  | ind n ih =>
    subst hn
    rcases h.plain_or_expression with hplain | ⟨before, e, rest, rfl, hbefore, he, hrest⟩
    · exact plain t hplain
    · have hcut : rest.takeWhile (· ≠ ';') ++ rest.dropWhile (· ≠ ';') = rest :=
        List.takeWhile_append_dropWhile
      have hlength : 0 < e.length := List.length_pos_iff.2 he.ne_nil
      have hshort : (rest.dropWhile (· ≠ ';')).length < (before ++ e ++ rest).length := by
        have hle := (List.dropWhile_sublist (l := rest) (· ≠ ';')).length_le
        simp only [List.length_append]
        omega
      have hclosed : Closed (rest.takeWhile (· ≠ ';') ++ rest.dropWhile (· ≠ ';')) :=
        hcut.symm ▸ hrest
      have hmotive := expression before e _ _ hbefore he (separator_not_mem_takeWhile rest)
        (fun c => eq_separator_of_head?_dropWhile) hclosed (ih _ hshort hclosed.of_append rfl)
      rwa [hcut] at hmotive

/-- An element with an expression: text that touches the expression stands in front of it, and text up to
the next separator behind. -/
def Around (element : Text) : Prop :=
  ∃ touching e trail, element = touching ++ e ++ trail ∧ ¬ opening <:+: touching ∧
    separator ∉ touching ∧ IsExpression e ∧ separator ∉ trail

/-- A text that is one element when it is read alone. -/
inductive Sole : Text → Prop where
  | plain {element : Text} : ¬ opening <:+: element → element ≠ [] → pieces 0 element = [element] →
      Sole element
  | around {element : Text} : Around element → Sole element

/-- An element with an expression ends in it or in text without separators. -/
theorem Around.getLast?_ne {element : Text} (h : Around element) : element.getLast? ≠ some separator := by
  obtain ⟨touching, e, trail, rfl, -, -, ⟨body, rfl, -⟩, htrail⟩ := h
  rcases List.eq_nil_or_concat trail with rfl | ⟨init, c, rfl⟩
  · rw [List.append_nil, ← List.append_assoc, List.getLast?_concat]
    decide
  · intro hlast
    rw [List.concat_eq_append, ← List.append_assoc, List.getLast?_concat] at hlast
    obtain rfl := Option.some.inj hlast
    exact htrail (by simp)

/-- What touches an expression has no separators. -/
theorem separator_not_mem_glue (before : Text) : separator ∉ (glue before).2 := by
  rcases separator_not_mem_or_last before with hbefore | ⟨part, touching, rfl, htouching⟩
  · rw [glue_of_not_mem hbefore]
    exact hbefore
  · rw [glue_append_separator part htouching]
    split
    · exact List.not_mem_nil
    · exact htouching

/-- The elements of a closed text have a whole expression or no opening. -/
theorem around_or_plain_of_mem_split {t : Text} (h : Closed t) :
    ∀ element ∈ split t, Around element ∨ ¬ opening <:+: element ∧ element ≠ [] := by
  have hexpand {part : Text} (hpart : ¬ opening <:+: part) :
      ∀ element ∈ expand part, Around element ∨ ¬ opening <:+: element ∧ element ≠ [] :=
    fun element hmem => .inr ⟨no_opening_of_mem_expand hpart hmem, ne_nil_of_mem_expand hmem⟩
  refine split_induction (fun t hplain => ?_) (fun before e trail rest hbefore he htrail hrest _ ih => ?_) h
  · rw [split_of_no_opening hplain]
    exact hexpand hplain
  · obtain ⟨hpart, htouching⟩ := glue_infix before
    rw [split_expression hbefore he htrail hrest, List.forall_mem_append, List.forall_mem_cons]
    refine ⟨hexpand fun hin => hbefore (hin.trans hpart), .inl ?_, ih⟩
    exact ⟨_, e, trail, rfl, fun hin => hbefore (hin.trans htouching), separator_not_mem_glue before, he,
      htrail⟩

/-- The pieces of a text and the separators between them are no longer than the text. -/
theorem length_pieces_le (depth : Nat) (t : Text) :
    (pieces depth t).flatten.length + (pieces depth t).length ≤ t.length + 1 := by
  induction depth, t using pieces_induction with
  | nil depth => simp [pieces]
  | escaped depth rest ih =>
    rw [pieces_escaped, flatten_consFirst, length_consFirst _ (pieces_ne_nil depth rest)]
    simp only [List.length_cons]
    omega
  | separator rest ih =>
    rw [pieces_separator]
    simp only [List.flatten_cons, List.nil_append, List.length_cons]
    omega
  | char depth c rest hsep hescape ih =>
    rw [pieces_cons hsep hescape, flatten_consFirst, length_consFirst _ (pieces_ne_nil _ rest)]
    simp only [List.length_cons]
    omega

/-- A text that expands to itself is a single piece. -/
theorem pieces_eq_singleton {t : Text} (h : expand t = [t]) : pieces 0 t = [t] := by
  have hflatten : (pieces 0 t).flatten = t := by
    rw [← flatten_filter_nonempty, ← expand, h]
    simp
  have hlength := length_pieces_le 0 t
  rw [hflatten] at hlength
  obtain ⟨first, rest, hpieces⟩ := List.exists_cons_of_ne_nil (pieces_ne_nil 0 t)
  rw [hpieces, List.length_cons] at hlength
  have hrest : rest = [] := List.length_eq_zero_iff.1 (by omega)
  rw [hpieces, hrest] at hflatten ⊢
  rw [← hflatten]
  simp

/-- An element of a closed text that is an element when it is read alone. -/
theorem sole_of_mem_split {t element : Text} (h : Closed t) (hmem : element ∈ split t)
    (hsole : split element = [element]) : Sole element := by
  rcases around_or_plain_of_mem_split h element hmem with haround | ⟨hplain, hne⟩
  · exact .around haround
  · rw [split_of_no_opening hplain] at hsole
    exact .plain hplain hne (pieces_eq_singleton hsole)

/-! ## Elements with separators between them -/

/-- The empty list has no elements. -/
theorem split_nil : split [] = [] := by
  rw [split_of_no_opening (by simp [opening])]
  rfl

/-- A single piece that is not empty is the only element. -/
theorem expand_of_pieces {t element : Text} (hne : element ≠ []) (h : pieces 0 t = [element]) :
    expand t = [element] := by
  rw [expand, h]
  simpa using hne

/-- An element on its own is the only element of itself. -/
theorem Sole.split_eq {element : Text} (h : Sole element) : split element = [element] := by
  cases h with
  | plain hplain hne hpieces =>
    rw [split_of_no_opening hplain, expand_of_pieces hne hpieces]
  | around h =>
    obtain ⟨touching, e, trail, rfl, htouching, hfree, he, htrail⟩ := h
    have hend : ∀ c, ([] : Text).head? = some c → c = separator := by simp
    have hsplit := split_expression htouching he htrail hend
    rw [List.append_nil, glue_of_not_mem hfree, split_nil] at hsplit
    exact hsplit

/-- A separator in front of a list makes no difference. -/
theorem split_separator (t : Text) : split (';' :: t) = split t := by
  have hnil : ¬ Held 0 [] := by
    rw [held_nil_iff]
    exact Nat.lt_irrefl 0
  exact split_append_separator (x := []) (by simp [opening]) (.inl hnil)

/-- Two elements that a separator between them keeps apart: the first one has an expression or does not hold
the separator, or the second one has text that touches an expression. -/
def Separated (element next : Text) : Prop :=
  opening <:+: element ∨ ¬ Held 0 element ∨ Touching next

/-- A text still touches its first expression with more behind it. -/
theorem Touching.append {t : Text} (h : Touching t) (more : Text) : Touching (t ++ more) := by
  obtain ⟨touching, after, rfl, hrest⟩ := h
  exact ⟨touching, after ++ more, by simp, hrest⟩

/-- An element that is kept apart from what follows is split off. -/
theorem Sole.split_append {element next : Text} (h : Sole element) (hnext : Separated element next) :
    split (element ++ ';' :: next) = element :: split next := by
  cases h with
  | plain hplain hne hpieces =>
    rw [split_append_separator hplain (hnext.resolve_left hplain), expand_of_pieces hne hpieces,
      List.singleton_append]
  | around h =>
    obtain ⟨touching, e, trail, rfl, htouching, hfree, he, htrail⟩ := h
    have hend : ∀ c, (';' :: next).head? = some c → c = separator :=
      fun c hc => (Option.some.inj hc).symm
    have hsplit := split_expression htouching he htrail hend
    rw [glue_of_not_mem hfree, split_separator] at hsplit
    rw [List.append_assoc]
    exact hsplit

/-- A single element is written as it is. -/
theorem join_singleton (t : Text) : Text.join [';'] [t] = t := List.append_nil t

/-- Between two elements a separator is written. -/
theorem join_cons_cons (t next : Text) (rest : List Text) :
    Text.join [';'] (t :: next :: rest) = t ++ ';' :: Text.join [';'] (next :: rest) := rfl

/-- What is written from some elements starts with the first of them. -/
theorem exists_join_cons (t : Text) (rest : List Text) :
    ∃ more, Text.join [';'] (t :: rest) = t ++ more := by
  cases rest with
  | nil => exact ⟨[], rfl⟩
  | cons next rest => exact ⟨_, join_cons_cons t next rest⟩

/-- What is written of elements is not empty if the first of them is not. -/
theorem join_ne_nil {first : Text} (h : first ≠ []) (rest : List Text) :
    Text.join [';'] (first :: rest) ≠ [] := by
  obtain ⟨more, hmore⟩ := exists_join_cons first rest
  rw [hmore]
  exact List.append_ne_nil_of_left_ne_nil h more

/-- An element with something else than a separator at both ends. -/
structure Trimmed (element : Text) : Prop where
  /-- It is not empty. -/
  ne_nil : element ≠ []
  /-- It starts with something else. -/
  head : element.head? ≠ some separator
  /-- It ends in something else. -/
  last : element.getLast? ≠ some separator

/-- What is written from such elements has no separator at either end. -/
theorem ends_join {elements : List Text} (h : ∀ element ∈ elements, Trimmed element) :
    (Text.join [';'] elements).head? ≠ some ';' ∧ (Text.join [';'] elements).getLast? ≠ some ';' := by
  induction elements with
  | nil => simp [Text.join]
  | cons element rest ih =>
    rw [List.forall_mem_cons] at h
    refine ⟨?_, ?_⟩
    · obtain ⟨more, hmore⟩ := exists_join_cons element rest
      rw [hmore, List.head?_append_of_ne_nil element h.1.ne_nil]
      exact h.1.head
    · cases rest with
      | nil =>
        rw [join_singleton]
        exact h.1.last
      | cons next rest =>
        have hne := join_ne_nil (h.2 next List.mem_cons_self).ne_nil rest
        rw [join_cons_cons, ← List.singleton_append, ← List.append_assoc,
          List.getLast?_append_of_ne_nil _ hne]
        exact (ih h.2).2

/-- In front of an expression, an element that ends in a separator is split off with it. -/
theorem Sole.split_held {element after : Text} (h : Sole element)
    (hlast : element.getLast? = some separator) :
    split (element ++ (opening ++ after)) = element :: split (opening ++ after) := by
  cases h with
  | plain hplain hne hpieces =>
    have hopen : splitAtOpening (element ++ (opening ++ after)) = some (element, after) := by
      rw [← List.append_assoc, splitAtOpening_opening hplain]
    have hafter : splitAtOpening (opening ++ after) = some ([], after) := by
      simp [opening, splitAtOpening]
    -- The separator at the end is the last one, and nothing behind it touches the expression.
    have hglue : glue element = (element, []) := by
      obtain ⟨init, rfl⟩ := List.getLast?_eq_some_iff.1 hlast
      exact glue_append_separator init List.not_mem_nil
    rw [split_of_splitAtOpening hopen, split_of_splitAtOpening hafter, hglue,
      expand_of_pieces hne hpieces]
    rfl
  | around h => exact absurd hlast h.getLast?_ne

/-- Neighbours as a split leaves them: the first one is kept apart from the next, or it ends in the
separator between the two, which was held, and the next one starts with an expression. -/
def Beside (element next : Text) : Prop :=
  Separated element next ∨ element.getLast? = some separator ∧ opening <+: next

/-- Elements that do not hold a separator are kept apart from whatever follows. -/
theorem isChain_append {elements more : List Text} (h : ∀ element ∈ elements, ¬ Held 0 element)
    (hmore : more.IsChain Beside) : (elements ++ more).IsChain Beside := by
  induction elements with
  | nil => exact hmore
  | cons element rest ih =>
    obtain ⟨helement, hrest⟩ := List.forall_mem_cons.1 h
    rw [List.cons_append]
    exact (ih hrest).cons fun next _ => .inl (.inr (.inl helement))

/-- No element of a list but the last holds the separator behind it. -/
theorem not_held_of_mem_expand {t : Text} : ∀ element ∈ (expand t).dropLast, ¬ Held 0 element := by
  obtain ⟨init, last, hpieces⟩ : ∃ init last, pieces 0 t = init ++ [last] :=
    ⟨_, _, (List.dropLast_append_getLast (pieces_ne_nil 0 t)).symm⟩
  -- All elements but the last come from pieces that another piece follows.
  have hinit : ∀ element ∈ (expand t).dropLast, element ∈ init := by
    intro element hmem
    rw [expand, hpieces, List.filter_append] at hmem
    cases last with
    | nil =>
      have hnil : ([[]] : List Text).filter (fun piece => !piece.isEmpty) = [] := rfl
      rw [hnil, List.append_nil] at hmem
      exact (List.mem_filter.1 (List.mem_of_mem_dropLast hmem)).1
    | cons c last =>
      rw [List.filter_cons_of_pos rfl, List.filter_nil, List.dropLast_concat] at hmem
      exact (List.mem_filter.1 hmem).1
  exact fun element hmem => not_held_of_mem_pieces hpieces element (hinit element hmem)

/-- Elements none of which but the last holds the separator behind it are read from their join one by one. -/
theorem expand_join_of_not_held {elements : List Text}
    (h : ∀ element ∈ elements.dropLast, ¬ Held 0 element) :
    expand (Text.join [';'] elements) = elements.flatMap expand := by
  induction elements with
  | nil => rfl
  | cons element rest ih =>
    cases rest with
    | nil => rw [join_singleton, List.flatMap_singleton]
    | cons next rest =>
      rw [List.dropLast_cons_cons, List.forall_mem_cons] at h
      calc expand (Text.join [';'] (element :: next :: rest))
          = expand element ++ expand (Text.join [';'] (next :: rest)) := by
            rw [join_cons_cons, expand_append_separator h.1]
        _ = expand element ++ (next :: rest).flatMap expand := by rw [ih h.2]

/-- The elements of a list without expressions stand beside each other; so they do with what follows the
list if the last of them does. -/
theorem isChain_expand_append {t : Text} {more : List Text} (hmore : more.IsChain Beside)
    (hlast : ∀ last ∈ (expand t).getLast?, ∀ next ∈ more.head?, Beside last next) :
    (expand t ++ more).IsChain Beside := by
  rcases List.eq_nil_or_concat (expand t) with hnil | ⟨init, last, hconcat⟩
  · rw [hnil]
    exact hmore
  · rw [List.concat_eq_append] at hconcat
    -- Only the last element may hold the separator behind it.
    have hinit : ∀ element ∈ init, ¬ Held 0 element := by
      have hheld := not_held_of_mem_expand (t := t)
      rwa [hconcat, List.dropLast_concat] at hheld
    rw [hconcat, List.getLast?_concat] at hlast
    rw [hconcat, List.append_assoc]
    exact isChain_append hinit (hmore.cons (hlast last rfl))

/-- The last element of a list that a separator ends does not hold a further one, or it has the separator
at its end. -/
theorem getLast?_expand_separator {part last : Text} (h : (expand (part ++ [';'])).getLast? = some last) :
    ¬ Held 0 last ∨ last.getLast? = some separator := by
  by_cases hheld : Held 0 part
  · obtain ⟨init, piece, hpieces, hend⟩ := pieces_of_held hheld
    have hne : piece ≠ [] := by
      rintro rfl
      cases hend
    rw [expand, hpieces, List.filter_append, List.filter_cons_of_pos (by simpa using hne),
      List.filter_nil, List.getLast?_concat] at h
    obtain rfl := Option.some.inj h
    exact .inr hend
  · have hpieces : pieces 0 (part ++ [';']) = pieces 0 part ++ [[]] :=
      (pieces_append_separator hheld []).trans (by simp [pieces])
    rw [expand_append_separator hheld] at h
    have hmem : last ∈ expand part := by
      have hnil : expand [] = [] := rfl
      rw [hnil, List.append_nil] at h
      exact List.mem_of_getLast? h
    exact .inl (not_held_of_mem_pieces hpieces last (List.mem_filter.1 hmem).1)

/-- The elements of the split of a closed text stand beside each other. -/
theorem isChain_split {t : Text} (h : Closed t) : (split t).IsChain Beside := by
  refine split_induction (fun t hplain => ?_) (fun before e trail rest hbefore he htrail hrest _ ih => ?_) h
  · rw [split_of_no_opening hplain]
    simpa using isChain_expand_append (t := t) List.IsChain.nil (by simp)
  · rw [split_expression hbefore he htrail hrest]
    obtain ⟨body, heq, -⟩ := he
    have helements : (((glue before).2 ++ e ++ trail) :: split rest).IsChain Beside :=
      ih.cons fun next _ => .inl (.inl ⟨(glue before).2, body ++ ['>'] ++ trail, by simp [heq]⟩)
    refine isChain_expand_append helements fun last hlast next hnext => ?_
    obtain rfl := Option.some.inj hnext
    rcases separator_not_mem_or_last before with hfree | ⟨part, touching, rfl, hfree⟩
    · rw [glue_of_not_mem hfree] at hlast
      cases hlast
    · rw [glue_append_separator part hfree] at hlast ⊢
      by_cases hnil : touching = []
      · rw [if_pos hnil] at hlast ⊢
        refine (getLast?_expand_separator hlast).imp (fun hheld => .inr (.inl hheld)) fun hend => ?_
        exact ⟨hend, body ++ ['>'] ++ trail, by simp [heq]⟩
      · rw [if_neg hnil]
        refine .inl (.inr (.inr ⟨touching, body ++ ['>'] ++ trail, by simp [heq], ?_, hfree, hnil⟩))
        exact fun hin => hbefore (hin.trans ⟨part ++ [';'], [], by simp⟩)

end BuildExpr.Elements
