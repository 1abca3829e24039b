import BuildExpr.Proofs.Splitting

/-!
# Dropping empty elements

Dropping the empty elements of a list takes every `;` for a separator, while expanding the list passes
over those that are escaped or inside brackets. The two agree unless such a `;`, which is *held* by what
stands before it, is followed by a further `;` or by nothing: then a part of an element is dropped, or two
elements become one (`expand_dropEmpty_iff`).

The proof goes along the text, with the number of brackets open. The piece being read has to stay as it is,
and of the pieces behind it those that are not empty (`Alike`). Where a held `;` is dropped inside brackets
a piece loses a character for good, because no `;` that is dropped can make up for it
(`length_flatten_pieces_clean_le`).
-/

namespace BuildExpr.Elements

/-! ## Runs of separators -/

/-- The empty text has nothing to drop. -/
@[simp] theorem dropRepeated_nil (after : Bool) : dropRepeated after [] = [] := by rw [dropRepeated]

/-- The first of some separators in a row is kept. -/
@[simp] theorem dropRepeated_separator (rest : Text) :
    dropRepeated false (';' :: rest) = ';' :: dropRepeated true rest := by simp [dropRepeated]

/-- The others are dropped. -/
@[simp] theorem dropRepeated_repeated (rest : Text) :
    dropRepeated true (';' :: rest) = dropRepeated true rest := by simp [dropRepeated]

/-- Any other character stays and ends the run. -/
theorem dropRepeated_cons {c : Char} (hc : c ≠ ';') (after : Bool) (rest : Text) :
    dropRepeated after (c :: rest) = c :: dropRepeated false rest := by rw [dropRepeated, if_neg hc]

/-- It makes no difference what is in front of a text that does not start with a separator. -/
theorem dropRepeated_eq_false {t : Text} (h : t.head? ≠ some ';') (after : Bool) :
    dropRepeated after t = dropRepeated false t := by
  cases t with
  | nil => rw [dropRepeated_nil, dropRepeated_nil]
  | cons c rest =>
    have hc : c ≠ ';' := fun hc => h (congrArg some hc)
    rw [dropRepeated_cons hc, dropRepeated_cons hc]

/-- Where a separator has just been, what is left does not start with one. -/
theorem head?_dropRepeated_true (t : Text) : (dropRepeated true t).head? ≠ some ';' := by
  induction t with
  | nil => simp
  | cons c rest ih =>
    by_cases hc : c = ';'
    · rw [hc, dropRepeated_repeated]
      exact ih
    · rw [dropRepeated_cons hc]
      simpa using hc

/-- Elsewhere the first character stays. -/
theorem head?_dropRepeated_false (t : Text) : (dropRepeated false t).head? = t.head? := by
  cases t with
  | nil => rw [dropRepeated_nil]
  | cons c rest =>
    by_cases hc : c = ';'
    · rw [hc, dropRepeated_separator, List.head?_cons, List.head?_cons]
    · rw [dropRepeated_cons hc, List.head?_cons, List.head?_cons]

/-- Nothing but characters of the text is left, in their order. -/
theorem dropRepeated_sublist (after : Bool) (t : Text) : (dropRepeated after t).Sublist t := by
  induction t generalizing after with
  | nil => rw [dropRepeated_nil]
  | cons c rest ih =>
    by_cases hc : c = ';'
    · subst hc
      cases after with
      | true =>
        rw [dropRepeated_repeated]
        exact (ih true).cons ';'
      | false =>
        rw [dropRepeated_separator]
        exact (ih true).cons_cons ';'
    · rw [dropRepeated_cons hc]
      exact (ih false).cons_cons c

/-- Two texts that do not meet in a run of separators lose their repeated ones each by itself. -/
theorem dropRepeated_append {a b : Text} (h : a.getLast? = some ';' → b.head? ≠ some ';') :
    dropRepeated false (a ++ b) = dropRepeated false a ++ dropRepeated false b := by
  -- In front of the second text either nothing has been read since the start, or the run has ended, or
  -- it makes no difference.
  have hgeneral (after : Bool) (hafter : a = [] → after = true → b.head? ≠ some ';') :
      dropRepeated after (a ++ b) = dropRepeated after a ++ dropRepeated false b := by
    induction a generalizing after with
    | nil =>
      rw [List.nil_append, dropRepeated_nil, List.nil_append]
      cases after with
      | true => exact dropRepeated_eq_false (hafter rfl rfl) true
      | false => rfl
    | cons c rest ih =>
      have hlast : rest.getLast? = some ';' → b.head? ≠ some ';' := by
        intro hrest
        obtain ⟨init, hinit⟩ := List.getLast?_eq_some_iff.1 hrest
        exact h (by rw [hinit, ← List.cons_append, List.getLast?_concat])
      by_cases hc : c = ';'
      · subst hc
        have hrest : rest = [] → true = true → b.head? ≠ some ';' := fun hnil _ => h (by rw [hnil]; rfl)
        cases after with
        | true =>
          rw [List.cons_append, dropRepeated_repeated, dropRepeated_repeated]
          exact ih hlast true hrest
        | false =>
          rw [List.cons_append, dropRepeated_separator, dropRepeated_separator, List.cons_append]
          exact congrArg (List.cons ';') (ih hlast true hrest)
      · rw [List.cons_append, dropRepeated_cons hc, dropRepeated_cons hc, List.cons_append]
        exact congrArg (List.cons c) (ih hlast false fun _ hfalse => absurd hfalse (by decide))
  exact hgeneral false fun _ hfalse => absurd hfalse (by decide)

/-- No separator that follows another one is left. -/
theorem not_repeated_dropRepeated (after : Bool) (t : Text) :
    ¬ [separator, separator] <:+: dropRepeated after t := by
  induction t generalizing after with
  | nil => simp
  | cons c rest ih =>
    by_cases hc : c = ';'
    · subst hc
      cases after with
      | true =>
        rw [dropRepeated_repeated]
        exact ih true
      | false =>
        -- Two separators in a row could only come about here, but what follows has none in front.
        rw [dropRepeated_separator, List.infix_cons_iff, not_or]
        refine ⟨?_, ih true⟩
        rintro ⟨tail, htail⟩
        have hhead := head?_dropRepeated_true rest
        rw [← (List.cons.inj htail).2] at hhead
        exact hhead rfl
    · rw [dropRepeated_cons hc, List.infix_cons_iff, not_or]
      refine ⟨?_, ih false⟩
      rintro ⟨tail, htail⟩
      exact hc (List.cons.inj htail).1.symm

/-- A text without such a separator is left as it is. -/
theorem dropRepeated_eq_self {t : Text} (h : ¬ [separator, separator] <:+: t) :
    dropRepeated false t = t := by
  induction t with
  | nil => rw [dropRepeated_nil]
  | cons c rest ih =>
    rw [List.infix_cons_iff, not_or] at h
    have hrest := ih h.2
    by_cases hc : c = ';'
    · subst hc
      have hhead : rest.head? ≠ some ';' := by
        intro hhead
        obtain ⟨tail, rfl⟩ := List.head?_eq_some_iff.1 hhead
        exact h.1 ⟨tail, rfl⟩
      rw [dropRepeated_separator, dropRepeated_eq_false hhead, hrest]
    · rw [dropRepeated_cons hc, hrest]

/-- Any first character but a separator stays before a final one is dropped. -/
theorem dropFinal_cons {c : Char} {t : Text} (h : c ≠ ';' ∨ t ≠ []) :
    dropFinal (c :: t) = c :: dropFinal t := by
  cases t with
  | nil =>
    have hc : c ≠ ';' := h.resolve_right fun hne => hne rfl
    simp [dropFinal, hc]
  | cons d rest =>
    unfold dropFinal
    rw [List.getLast?_cons_cons, List.dropLast_cons_cons]
    split
    · rfl
    · rfl

/-- Nothing but a separator at the end is dropped. -/
theorem dropFinal_eq_or (t : Text) : dropFinal t = t ∨ t = dropFinal t ++ [';'] := by
  unfold dropFinal
  split
  · next hlast =>
    obtain ⟨init, rfl⟩ := List.getLast?_eq_some_iff.1 hlast
    exact .inr (by rw [List.dropLast_concat])
  · exact .inl rfl

/-- What is left of a text when repeated and final separators are dropped. -/
def clean (after : Bool) (t : Text) : Text := dropFinal (dropRepeated after t)

/-- Nothing is left of the empty text. -/
@[simp] theorem clean_nil (after : Bool) : clean after [] = [] := by simp [clean, dropFinal]

/-- Nothing is left of a separator right behind another one. -/
@[simp] theorem clean_repeated (rest : Text) : clean true (';' :: rest) = clean true rest := by
  rw [clean, dropRepeated_repeated, clean]

/-- Any other character is kept, in front of what is left of the rest. -/
theorem clean_cons {c : Char} (hc : c ≠ ';') (after : Bool) (rest : Text) :
    clean after (c :: rest) = c :: clean false rest := by
  rw [clean, dropRepeated_cons hc, dropFinal_cons (.inl hc), clean]

/-- What is left behind a separator starts with none. -/
theorem head?_clean_true (t : Text) : (clean true t).head? ≠ some ';' := by
  induction t with
  | nil => simp
  | cons c rest ih =>
    by_cases hc : c = ';'
    · rw [hc, clean_repeated]
      exact ih
    · rw [clean_cons hc]
      simpa using hc

/-- A separator stays unless nothing is left behind it. -/
theorem clean_separator (rest : Text) :
    clean false (';' :: rest) = if clean true rest = [] then [] else ';' :: clean true rest := by
  unfold clean
  rw [dropRepeated_separator]
  cases hrest : dropRepeated true rest with
  | nil => simp [dropFinal]
  | cons c tail =>
    have hc : c ≠ ';' := by
      have hhead := head?_dropRepeated_true rest
      rw [hrest] at hhead
      exact fun hc => hhead (congrArg some hc)
    rw [dropFinal_cons (.inr (List.cons_ne_nil c tail)), dropFinal_cons (.inl hc), if_neg]
    exact List.cons_ne_nil c _

/-- No separator comes to the front. -/
theorem head?_of_clean {t : Text} (h : (clean false t).head? = some ';') : t.head? = some ';' := by
  cases t with
  | nil => simp at h
  | cons c rest =>
    by_cases hc : c = ';'
    · exact congrArg some hc
    · rw [clean_cons hc] at h
      exact h

/-- What is left once is left again. -/
theorem clean_clean (t : Text) :
    (∀ after, clean after (clean true t) = clean true t) ∧
      clean false (clean false t) = clean false t := by
  induction t with
  | nil => simp
  | cons c rest ih =>
    by_cases hc : c = ';'
    · subst hc
      have hfalse : clean false (clean false (';' :: rest)) = clean false (';' :: rest) := by
        rw [clean_separator]
        split
        · rw [clean_nil]
        · next hne => rw [clean_separator, ih.1 true, if_neg hne]
      rw [clean_repeated]
      exact ⟨ih.1, hfalse⟩
    · have hcons (after : Bool) : clean after (c :: clean false rest) = c :: clean false rest := by
        rw [clean_cons hc, ih.2]
      rw [clean_cons hc, clean_cons hc]
      exact ⟨hcons, hcons false⟩

/-- A list has no empty elements left to drop. -/
theorem dropEmpty_dropEmpty (t : Text) : dropEmpty (dropEmpty t) = dropEmpty t := (clean_clean t).1 true

/-! ## Pieces, character by character -/

/-- How many brackets are open behind a character. -/
def bracketsBehind (depth : Nat) (c : Char) : Nat :=
  if c = '[' then depth + 1 else if c = ']' then depth - 1 else depth

/-- Only brackets change how many brackets are open. -/
theorem bracketsBehind_of_ne (depth : Nat) {c : Char} (hopen : c ≠ '[') (hclose : c ≠ ']') :
    bracketsBehind depth c = depth := by
  rw [bracketsBehind, if_neg hopen, if_neg hclose]

/-- How many brackets are open behind a text that starts inside `depth` of them. -/
def bracketsAfter (depth : Nat) (t : Text) : Nat := t.foldl bracketsBehind depth

/-- The brackets open behind a text are counted along it from its first character on. -/
theorem bracketsAfter_cons (depth : Nat) (c : Char) (t : Text) :
    bracketsAfter depth (c :: t) = bracketsAfter (bracketsBehind depth c) t := rfl

/-- Behind two texts they are counted along the one and then along the other. -/
theorem bracketsAfter_append (depth : Nat) (a b : Text) :
    bracketsAfter depth (a ++ b) = bracketsAfter (bracketsAfter depth a) b := List.foldl_append

/-- Without brackets in a text, as many are open behind it as in front of it. -/
theorem bracketsAfter_of_not_mem {t : Text} (hopen : '[' ∉ t) (hclose : ']' ∉ t) (depth : Nat) :
    bracketsAfter depth t = depth := by
  induction t with
  | nil => rfl
  | cons c t ih =>
    rw [List.mem_cons, not_or] at hopen hclose
    rw [bracketsAfter_cons, bracketsBehind_of_ne depth (Ne.symm hopen.1) (Ne.symm hclose.1)]
    exact ih hopen.2 hclose.2

/-- A character that neither separates nor is escaped goes into the first piece. -/
theorem pieces_cons {depth : Nat} {c : Char} {rest : Text} (hsep : c = ';' → 0 < depth)
    (hescape : c = '\\' → rest.head? ≠ some ';') :
    pieces depth (c :: rest) = consFirst c (pieces (bracketsBehind depth c) rest) := by
  by_cases hopen : c = '['
  · subst hopen
    simp [pieces, bracketsBehind]
  · by_cases hclose : c = ']'
    · subst hclose
      simp [pieces, bracketsBehind]
    · rw [bracketsBehind_of_ne depth hopen hclose, pieces]
      · rintro tail rfl rfl
        exact hescape rfl rfl
      · exact hopen
      · exact hclose
      · rintro rfl rfl
        exact Nat.lt_irrefl 0 (hsep rfl)

/-- An escaped separator goes into the first piece, without its backslash. -/
theorem pieces_escaped (depth : Nat) (rest : Text) :
    pieces depth ('\\' :: ';' :: rest) = consFirst ';' (pieces depth rest) := by rw [pieces]

/-- A separator outside of brackets ends a piece. -/
theorem pieces_separator (rest : Text) : pieces 0 (';' :: rest) = [] :: pieces 0 rest := by
  rw [pieces]

/-- Induction along the pieces of a text: an escaped separator is one step, and so is a separator that
separates. -/
@[elab_as_elim] theorem pieces_induction {motive : Nat → Text → Prop}
    (nil : ∀ depth, motive depth [])
    (escaped : ∀ depth rest, motive depth rest → motive depth ('\\' :: ';' :: rest))
    (separator : ∀ rest, motive 0 rest → motive 0 (';' :: rest))
    (char : ∀ depth c rest, (c = ';' → 0 < depth) → (c = '\\' → rest.head? ≠ some ';') →
      motive (bracketsBehind depth c) rest → motive depth (c :: rest))
    (depth : Nat) (t : Text) : motive depth t := by
  induction hn : t.length using Nat.strongRecOn generalizing depth t with
  | ind n ih =>
    subst hn
    cases t with
    | nil => exact nil depth
    | cons c rest =>
      by_cases hescape : c = '\\' ∧ rest.head? = some ';'
      · obtain ⟨rfl, hhead⟩ := hescape
        obtain ⟨tail, rfl⟩ := List.head?_eq_some_iff.1 hhead
        exact escaped depth tail (ih _ (by simp only [List.length_cons]; omega) depth tail rfl)
      · rw [not_and] at hescape
        by_cases hsep : c = ';' → 0 < depth
        · exact char depth c rest hsep hescape (ih _ (Nat.lt_succ_self _) _ rest rfl)
        · push Not at hsep
          obtain ⟨rfl, hdepth⟩ := hsep
          obtain rfl := Nat.le_zero.1 hdepth
          exact separator rest (ih _ (Nat.lt_succ_self _) 0 rest rfl)

/-- What is put in front of the first piece is put in front of them all. -/
theorem flatten_consFirst (c : Char) (list : List Text) :
    (consFirst c list).flatten = c :: list.flatten := by
  cases list with
  | nil => rfl
  | cons piece rest => rfl

/-- Dropping separators makes the pieces together no longer. -/
theorem length_flatten_pieces_clean_le (depth : Nat) (t : Text) (after : Bool) :
    (pieces depth (clean after t)).flatten.length ≤ (pieces depth t).flatten.length := by
  induction depth, t using pieces_induction generalizing after with
  | nil depth => rw [clean_nil]
  | escaped depth rest ih =>
    have hrest := ih true
    rw [clean_cons (by decide), clean_separator, pieces_escaped, flatten_consFirst]
    split
    · -- The backslash that is left alone is as long as the separator it escaped.
      rw [pieces_cons (fun h => absurd h (by decide)) (by simp), flatten_consFirst]
      simp [pieces]
    · rw [pieces_escaped, flatten_consFirst]
      simpa using hrest
  | separator rest ih =>
    have hrest := ih true
    rw [pieces_separator]
    cases after with
    | true =>
      rw [clean_repeated]
      simpa using hrest
    | false =>
      rw [clean_separator]
      split
      · simp [pieces]
      · rw [pieces_separator]
        simpa using hrest
  | char depth c rest hsep hescape ih =>
    rw [pieces_cons hsep hescape, flatten_consFirst, List.length_cons]
    by_cases hc : c = ';'
    · subst hc
      have hrest := ih true
      cases after with
      | true =>
        rw [clean_repeated]
        exact Nat.le_succ_of_le hrest
      | false =>
        rw [clean_separator]
        split
        · simp [pieces]
        · rw [pieces_cons hsep (fun h => absurd h (by decide)), flatten_consFirst, List.length_cons]
          exact Nat.succ_le_succ hrest
    · have hrest := ih false
      have hescape' : c = '\\' → (clean false rest).head? ≠ some ';' :=
        fun hc hhead => hescape hc (head?_of_clean hhead)
      rw [clean_cons hc, pieces_cons (fun h => absurd h hc) hescape', flatten_consFirst,
        List.length_cons]
      exact Nat.succ_le_succ hrest

/-- Two lists of pieces that may follow the same text: the first pieces are the same, and so are the
others that are not empty. -/
def Alike (list list' : List Text) : Prop :=
  list.headD [] = list'.headD [] ∧
    (list.tail.filter fun piece => !piece.isEmpty) = list'.tail.filter fun piece => !piece.isEmpty

/-- A list of pieces is like itself. -/
theorem Alike.refl (list : List Text) : Alike list list := ⟨rfl, rfl⟩

/-- A character in front of the first pieces does not matter. -/
theorem alike_consFirst_iff (c : Char) (list list' : List Text) :
    Alike (consFirst c list) (consFirst c list') ↔ Alike list list' := by
  simp [Alike, consFirst_eq]

/-- Any first character but a separator goes into the first piece, unescaped or not. -/
theorem exists_pieces_eq_consFirst (depth : Nat) {c : Char} (hc : c ≠ ';') (rest : Text) :
    ∃ d list, pieces depth (c :: rest) = consFirst d list := by
  by_cases hescape : c = '\\' → rest.head? ≠ some ';'
  · exact ⟨c, _, pieces_cons (fun h => absurd h hc) hescape⟩
  · push Not at hescape
    obtain ⟨rfl, hhead⟩ := hescape
    obtain ⟨tail, rfl⟩ := List.head?_eq_some_iff.1 hhead
    exact ⟨';', _, pieces_escaped depth tail⟩

/-- So texts that do not start with a separator have the same elements exactly if their pieces are
alike. -/
theorem expand_eq_iff_alike {c c' : Char} (hc : c ≠ ';') (hc' : c' ≠ ';') (rest rest' : Text) :
    expand (c :: rest) = expand (c' :: rest') ↔
      Alike (pieces 0 (c :: rest)) (pieces 0 (c' :: rest')) := by
  obtain ⟨d, list, hpieces⟩ := exists_pieces_eq_consFirst 0 hc rest
  obtain ⟨d', list', hpieces'⟩ := exists_pieces_eq_consFirst 0 hc' rest'
  simp [expand, Alike, hpieces, hpieces', consFirst_eq]

/-- Behind a separator all pieces are others. -/
theorem alike_separator_iff (t t' : Text) :
    Alike (pieces 0 (';' :: t)) (pieces 0 (';' :: t')) ↔ expand t = expand t' := by
  rw [pieces_separator, pieces_separator]
  simp [Alike, expand]

/-- Empty pieces add nothing to the text that pieces make up. -/
theorem flatten_filter_nonempty (list : List Text) :
    (list.filter fun piece => !piece.isEmpty).flatten = list.flatten := by
  induction list with
  | nil => rfl
  | cons piece rest ih =>
    cases piece with
    | nil => simpa using ih
    | cons c piece => simpa using ih

/-- Pieces that are alike make up the same text. -/
theorem Alike.flatten_eq {list list' : List Text} (h : Alike list list') :
    list.flatten = list'.flatten := by
  have hflatten (pieces : List Text) : pieces.flatten =
      pieces.headD [] ++ (pieces.tail.filter fun piece => !piece.isEmpty).flatten := by
    rw [flatten_filter_nonempty]
    cases pieces with
    | nil => rfl
    | cons piece rest => rfl
  rw [hflatten list, hflatten list', h.1, h.2]

/-! ## Held separators -/

/-- A `;` behind a text that starts inside `depth` brackets is held: a backslash stands right before it,
or a bracket is open. -/
def Held (depth : Nat) (before : Text) : Prop :=
  before.getLast? = some '\\' ∨ 0 < bracketsAfter depth before

/-- A text goes on with something else than a separator. -/
def GoesOn (t : Text) : Prop := ∃ c ∈ t.head?, c ≠ separator

/-- Behind every held `;` a text that starts inside `depth` brackets goes on with something else than a
further one. -/
def HeldApart (depth : Nat) (t : Text) : Prop :=
  ∀ before after, t = before ++ separator :: after → Held depth before → GoesOn after

/-- At the start, a separator is held exactly if brackets are open. -/
theorem held_nil_iff (depth : Nat) : Held depth [] ↔ 0 < depth := by
  simp [Held, bracketsAfter]

/-- Without brackets in it, a text holds a separator behind it only by a backslash. -/
theorem held_iff_getLast? {before : Text} (hopen : '[' ∉ before) (hclose : ']' ∉ before) :
    Held 0 before ↔ before.getLast? = some '\\' := by
  rw [Held, bracketsAfter_of_not_mem hopen hclose]
  exact or_iff_left (Nat.lt_irrefl 0)

/-- Whether a separator is held is seen along the text in front of it. -/
theorem held_cons_iff (depth : Nat) (c : Char) (before : Text) :
    Held depth (c :: before) ↔
      before = [] ∧ c = '\\' ∨ Held (bracketsBehind depth c) before := by
  cases before with
  | nil => simp [Held, bracketsAfter]
  | cons d before => simp [Held, bracketsAfter, List.getLast?_cons_cons]

/-- In the empty text there is no separator to be held. -/
theorem heldApart_nil (depth : Nat) : HeldApart depth [] := by
  intro before after h
  simp at h

/-- Along a text, a `;` is held by the number of brackets open or by the backslash before it. -/
theorem heldApart_cons_iff (depth : Nat) (c : Char) (t : Text) :
    HeldApart depth (c :: t) ↔
      (c = separator → 0 < depth → GoesOn t) ∧
        (c = '\\' → ∀ rest, t = separator :: rest → GoesOn rest) ∧
          HeldApart (bracketsBehind depth c) t := by
  constructor
  · intro h
    refine ⟨fun hc hdepth => ?_, fun hc rest ht => ?_, fun before after ht hheld => ?_⟩
    · exact h [] t (by rw [hc]; rfl) ((held_nil_iff depth).2 hdepth)
    · exact h [c] rest (by rw [ht]; rfl) ((held_cons_iff depth c []).2 (.inl ⟨rfl, hc⟩))
    · exact h (c :: before) after (by rw [ht]; rfl) ((held_cons_iff depth c before).2 (.inr hheld))
  · rintro ⟨hsep, hescape, ht⟩ before after heq hheld
    cases before with
    | nil =>
      obtain ⟨rfl, rfl⟩ := List.cons.inj heq
      exact hsep rfl ((held_nil_iff depth).1 hheld)
    | cons d before =>
      obtain ⟨rfl, rfl⟩ := List.cons.inj heq
      rcases (held_cons_iff depth c before).1 hheld with ⟨rfl, hc⟩ | hheld
      · exact hescape hc after rfl
      · exact ht before after rfl hheld

/-- Behind an escaped separator the text has to go on with something else. -/
theorem heldApart_escaped_iff (depth : Nat) (rest : Text) :
    HeldApart depth ('\\' :: ';' :: rest) ↔ GoesOn rest ∧ HeldApart depth rest := by
  rw [heldApart_cons_iff, heldApart_cons_iff]
  simp +contextual [separator, bracketsBehind]

/-- Whether a text goes on with something else is a matter of its first character. -/
theorem goesOn_cons_iff (c : Char) (rest : Text) : GoesOn (c :: rest) ↔ c ≠ separator := by
  simp [GoesOn]

/-- What does not go on with something else is at its end or goes on with a separator. -/
theorem eq_nil_or_separator {t : Text} (h : ¬ GoesOn t) : t = [] ∨ ∃ rest, t = ';' :: rest := by
  cases t with
  | nil => exact .inl rfl
  | cons c rest =>
    rw [goesOn_cons_iff, not_not] at h
    exact .inr ⟨rest, by rw [h]; rfl⟩

/-- A text that goes on loses nothing right behind a separator. -/
theorem GoesOn.clean_separator {t : Text} (h : GoesOn t) :
    clean false (';' :: t) = ';' :: clean false t := by
  obtain ⟨c, hc, hne⟩ := h
  obtain ⟨rest, rfl⟩ := List.head?_eq_some_iff.1 hc
  rw [Elements.clean_separator, clean_cons hne, if_neg (List.cons_ne_nil _ _), clean_cons hne]

/-! ## Where dropping and expanding agree -/

/-- A `;` that a bracket holds is missed when it is dropped. -/
theorem length_flatten_pieces_clean_lt {depth : Nat} (hdepth : 0 < depth) (rest : Text) :
    (pieces depth (clean true (';' :: rest))).flatten.length <
      (pieces depth (';' :: rest)).flatten.length := by
  have hle := length_flatten_pieces_clean_le depth rest true
  have hpieces : pieces depth (';' :: rest) = consFirst ';' (pieces depth rest) :=
    pieces_cons (fun _ => hdepth) fun hc => absurd hc (by decide)
  rw [clean_repeated, hpieces, flatten_consFirst, List.length_cons]
  exact Nat.lt_succ_of_le hle

/-- So is one that is dropped behind it, and one that ends the text. -/
theorem not_alike_bracketed {depth : Nat} (hdepth : 0 < depth) {rest : Text} (h : ¬ GoesOn rest) :
    ¬ Alike (pieces depth (clean false (';' :: rest))) (pieces depth (';' :: rest)) := by
  intro halike
  have hlength := congrArg List.length halike.flatten_eq
  have hpieces (rest : Text) :
      (pieces depth (';' :: rest)).flatten.length = (pieces depth rest).flatten.length + 1 := by
    rw [pieces_cons (fun _ => hdepth) (fun hc => absurd hc (by decide)), flatten_consFirst]
    rfl
  rw [hpieces, clean_separator] at hlength
  rcases eq_nil_or_separator h with rfl | ⟨rest, rfl⟩
  · simp [pieces] at hlength
  · have hlt := length_flatten_pieces_clean_lt hdepth rest
    split at hlength
    · simp [pieces] at hlength
    · rw [hpieces] at hlength
      omega

/-- An escaped `;` that is followed by a further one, or by nothing, is lost as well, or a separator
behind it is. -/
theorem not_alike_escaped (depth : Nat) {rest : Text} (h : ¬ GoesOn rest) :
    ¬ Alike (pieces depth ('\\' :: clean false (';' :: rest)))
      (pieces depth ('\\' :: ';' :: rest)) := by
  rw [pieces_escaped, clean_separator]
  split
  · -- The backslash is all that is left.
    intro halike
    simp [Alike, pieces, consFirst_eq] at halike
  · next hrest =>
    rw [pieces_escaped, alike_consFirst_iff]
    rcases eq_nil_or_separator h with rfl | ⟨rest, rfl⟩
    · exact absurd (clean_nil true) hrest
    · rcases Nat.eq_zero_or_pos depth with rfl | hdepth
      · -- The separator that is dropped ended the element.
        intro halike
        obtain ⟨c, tail, hclean⟩ := List.exists_cons_of_ne_nil hrest
        have hc : c ≠ ';' := by
          have hhead := head?_clean_true (';' :: rest)
          rw [hclean] at hhead
          exact fun hc => hhead (congrArg some hc)
        have hfirst := halike.1
        obtain ⟨d, list, hpieces⟩ := exists_pieces_eq_consFirst 0 hc tail
        rw [hclean, pieces_separator, hpieces, consFirst_eq] at hfirst
        cases hfirst
      · intro halike
        have hlt := length_flatten_pieces_clean_lt hdepth rest
        rw [halike.flatten_eq] at hlt
        exact Nat.lt_irrefl _ hlt

/-- Inside and behind an element a text keeps its pieces exactly if it goes on behind every held `;`;
outside brackets, the same holds of its elements where a separator has just been. -/
theorem alike_clean_iff (depth : Nat) (t : Text) :
    (Alike (pieces depth (clean false t)) (pieces depth t) ↔ HeldApart depth t) ∧
      (depth = 0 → (expand (clean true t) = expand t ↔ HeldApart 0 t)) := by
  -- Behind a separator that separates, the rest is cleaned as one that a separator stands in front of, so
  -- both parts are needed along the text.
  induction depth, t using pieces_induction with
  | nil depth =>
    rw [clean_nil, clean_nil]
    exact ⟨iff_of_true (.refl _) (heldApart_nil depth), fun _ => iff_of_true rfl (heldApart_nil 0)⟩
  | escaped depth rest ih =>
    have hfirst : Alike (pieces depth ('\\' :: clean false (';' :: rest)))
        (pieces depth ('\\' :: ';' :: rest)) ↔ HeldApart depth ('\\' :: ';' :: rest) := by
      rw [heldApart_escaped_iff]
      by_cases hrest : GoesOn rest
      · rw [hrest.clean_separator, pieces_escaped, pieces_escaped, alike_consFirst_iff, ih.1]
        exact (and_iff_right hrest).symm
      · exact iff_of_false (not_alike_escaped depth hrest) fun h => hrest h.1
    refine ⟨?_, ?_⟩
    · rw [clean_cons (by decide)]
      exact hfirst
    · rintro rfl
      rw [clean_cons (by decide), expand_eq_iff_alike (by decide) (by decide)]
      exact hfirst
  | separator rest ih =>
    have hrest := ih.2 rfl
    have hheld : HeldApart 0 (';' :: rest) ↔ HeldApart 0 rest := by
      rw [heldApart_cons_iff]
      simp [bracketsBehind]
    have hexpand : expand (';' :: rest) = expand rest := by
      rw [expand, pieces_separator]
      rfl
    rw [hheld]
    refine ⟨?_, fun _ => ?_⟩
    · rw [clean_separator]
      split
      · next hnil =>
        -- Nothing is left behind the separator, which is dropped with what follows.
        rw [← hrest, hnil, pieces_separator]
        simp [Alike, pieces, expand]
      · rw [alike_separator_iff]
        exact hrest
    · rw [clean_repeated, hexpand]
      exact hrest
  | char depth c rest hsep hescape ih =>
    by_cases hc : c = ';'
    · subst hc
      have hdepth : 0 < depth := hsep rfl
      have hheld : HeldApart depth (';' :: rest) ↔ GoesOn rest ∧ HeldApart depth rest := by
        rw [heldApart_cons_iff]
        simp [bracketsBehind, separator, hdepth]
      refine ⟨?_, fun h => absurd h (Nat.ne_of_gt hdepth)⟩
      rw [hheld]
      by_cases hrest : GoesOn rest
      · have hfirst := ih.1
        rw [hrest.clean_separator, pieces_cons hsep (fun h => absurd h (by decide)),
          pieces_cons hsep hescape, alike_consFirst_iff]
        exact hfirst.trans (and_iff_right hrest).symm
      · exact iff_of_false (not_alike_bracketed hdepth hrest) fun h => hrest h.1
    · have hescape' : c = '\\' → (clean false rest).head? ≠ some ';' :=
        fun h hhead => hescape h (head?_of_clean hhead)
      have hheld : HeldApart depth (c :: rest) ↔ HeldApart (bracketsBehind depth c) rest := by
        have hplain : c = separator → 0 < depth → GoesOn rest := fun h => absurd h hc
        rw [heldApart_cons_iff, and_iff_right hplain, and_iff_right]
        rintro h tail rfl
        exact absurd rfl (hescape h)
      have hfirst : Alike (pieces depth (c :: clean false rest)) (pieces depth (c :: rest)) ↔
          HeldApart depth (c :: rest) := by
        rw [pieces_cons hsep hescape', pieces_cons hsep hescape, alike_consFirst_iff, hheld]
        exact ih.1
      refine ⟨?_, ?_⟩
      · rw [clean_cons hc]
        exact hfirst
      · rintro rfl
        rw [clean_cons hc, expand_eq_iff_alike hc hc]
        exact hfirst

/-- Dropping the empty elements of a list keeps the elements it expands to exactly if the list goes on,
with something else than a separator, behind every `;` that is escaped or inside brackets. -/
theorem expand_dropEmpty_iff (t : Text) : expand (dropEmpty t) = expand t ↔ HeldApart 0 t :=
  (alike_clean_iff 0 t).2 rfl

/-- An escaped separator at the end is dropped and leaves its backslash. -/
theorem expand_dropEmpty_ne : expand (dropEmpty "a\\;") ≠ expand "a\\;" := by decide

end BuildExpr.Elements
