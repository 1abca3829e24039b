import BuildExpr.Proofs.ArrayProperties

/-!
# Lists without duplicates

Removing the duplicates of a list joins the first of equal elements again, and does not escape them. None of
them but the last holds the separator behind it, so each is read from the join by itself
(`expand_withoutDuplicates`). An element that is not read as itself is read as shorter ones. So the longest
such element is lost, and nothing is lost exactly if every element is read as itself
(`expand_eq_singleton_of_subset`).

Of a separator in an element, a backslash may have stood in front in the list, and it stands there no more.
Such a separator is one of the element again if it lies in brackets and no other backslash has come to stand
in front of it (`pieces_eq_singleton_iff`).
-/

namespace BuildExpr.Elements

/-! ## Elements read by themselves -/

/-- The pieces of a text are made of its characters, in their order. -/
theorem flatten_pieces_sublist (depth : Nat) (t : Text) : (pieces depth t).flatten.Sublist t := by
  induction depth, t using pieces_induction with
  | nil depth => simp [pieces]
  | escaped depth rest ih =>
    rw [pieces_escaped, flatten_consFirst]
    exact (ih.cons_cons ';').cons '\\'
  | separator rest ih =>
    rw [pieces_separator, List.flatten_cons, List.nil_append]
    exact ih.cons ';'
  | char depth c rest hsep hescape ih =>
    rw [pieces_cons hsep hescape, flatten_consFirst]
    exact ih.cons_cons c

/-- What a text is read as is shorter than the text, unless it is the text. -/
theorem length_lt_of_mem_expand {t element : Text} (hmem : element ∈ expand t) (hne : expand t ≠ [t]) :
    element.length < t.length := by
  have hpiece : element ∈ pieces 0 t := (List.mem_filter.1 hmem).1
  have hflatten := List.sublist_flatten_of_mem hpiece
  have hsublist := hflatten.trans (flatten_pieces_sublist 0 t)
  refine Nat.lt_of_le_of_ne hsublist.length_le fun hlength => hne ?_
  obtain rfl : element = t := hsublist.eq_of_length hlength
  -- As it is one of its pieces, nothing is left for a further one.
  have hcount := length_pieces_le 0 element
  have hle := hflatten.length_le
  obtain ⟨first, rest, hpieces⟩ := List.exists_cons_of_ne_nil (pieces_ne_nil 0 element)
  rw [hpieces] at hpiece
  rw [hpieces, List.length_cons, ← hpieces] at hcount
  obtain rfl : rest = [] := List.length_eq_zero_iff.1 (by omega)
  obtain rfl := List.mem_singleton.1 hpiece
  exact expand_of_pieces (ne_nil_of_mem_expand hmem) hpieces

/-- If all elements are among what they are read as, each is read as itself. -/
theorem expand_eq_singleton_of_subset {elements : List Text} (h : elements ⊆ elements.flatMap expand) :
    ∀ element ∈ elements, expand element = [element] := by
  by_contra hlost
  push Not at hlost
  -- An element that is not read as itself comes from a longer one that is not read as itself either.
  have hlong (n : Nat) : ∃ element ∈ elements, expand element ≠ [element] ∧ n ≤ element.length := by
    induction n with
    | zero =>
      obtain ⟨element, hmem, hne⟩ := hlost
      exact ⟨element, hmem, hne, Nat.zero_le _⟩
    | succ n ih =>
      obtain ⟨element, hmem, hne, hn⟩ := ih
      obtain ⟨longer, hlonger, hin⟩ := List.mem_flatMap.1 (h hmem)
      have hne' : expand longer ≠ [longer] := by
        intro hself
        rw [hself, List.mem_singleton] at hin
        exact hne (hin ▸ hself)
      exact ⟨longer, hlonger, hne', hn.trans_lt (length_lt_of_mem_expand hin hne')⟩
  obtain ⟨element, hmem, -, hn⟩ := hlong (elements.flatten.length + 1)
  exact absurd (List.sublist_flatten_of_mem hmem).length_le (by omega)

/-- Elements that are each read as themselves stay as they are. -/
theorem flatMap_expand_eq_self {elements : List Text}
    (h : ∀ element ∈ elements, expand element = [element]) : elements.flatMap expand = elements := by
  calc elements.flatMap expand = elements.flatMap fun element => [element] := List.flatMap_congr h
    _ = elements := List.flatMap_singleton' elements

/-! ## Separators that were escaped -/

/-- Every separator that a backslash escapes in a text that starts inside `depth` brackets lies in brackets,
and no other backslash stands in front of the one that escapes it. -/
def EscapesBracketed (depth : Nat) (t : Text) : Prop :=
  ∀ before after, t = before ++ '\\' :: separator :: after →
    0 < bracketsAfter depth before ∧ before.getLast? ≠ some '\\'

/-- Nothing is escaped in the empty text. -/
theorem escapesBracketed_nil (depth : Nat) : EscapesBracketed depth [] := by
  intro before after h
  simp at h

/-- Whether what is escaped lies in brackets is seen along a text, character by character. -/
theorem escapesBracketed_cons_iff (depth : Nat) (c : Char) (t : Text) :
    EscapesBracketed depth (c :: t) ↔
      (c = '\\' → t.head? = some ';' → 0 < depth) ∧
        (c = '\\' → ∀ after, t ≠ '\\' :: ';' :: after) ∧ EscapesBracketed (bracketsBehind depth c) t := by
  constructor
  · intro h
    refine ⟨fun hc hhead => ?_, fun hc after ht => ?_, fun before after ht => ?_⟩
    · obtain ⟨after, rfl⟩ := List.head?_eq_some_iff.1 hhead
      exact (h [] after (by rw [hc]; rfl)).1
    · exact (h [c] after (by rw [ht]; rfl)).2 (by rw [hc]; rfl)
    · obtain ⟨hdepth, hlast⟩ := h (c :: before) after (by rw [ht]; rfl)
      refine ⟨hdepth, fun hbackslash => hlast ?_⟩
      rw [List.getLast?_cons, hbackslash]
      rfl
  · -- The first character matters where it is the backslash and where it stands in front of one.
    rintro ⟨hfirst, hsecond, hrest⟩ before after heq
    cases before with
    | nil =>
      obtain ⟨rfl, rfl⟩ := List.cons.inj heq
      exact ⟨hfirst rfl rfl, by simp⟩
    | cons d before =>
      obtain ⟨rfl, rfl⟩ := List.cons.inj heq
      obtain ⟨hdepth, hlast⟩ := hrest before after rfl
      refine ⟨hdepth, ?_⟩
      cases before with
      | nil =>
        intro hbackslash
        exact hsecond (by simpa using hbackslash) after rfl
      | cons e before => rwa [List.getLast?_cons_cons]

/-- A character goes into a single piece exactly if there is one without it. -/
theorem consFirst_eq_singleton_iff {c : Char} {list : List Text} (h : list ≠ []) (p : Text) :
    consFirst c list = [c :: p] ↔ list = [p] := by
  constructor
  · intro heq
    obtain ⟨piece, hpiece, hlist⟩ := eq_cons_of_consFirst h heq
    rw [hlist, (List.cons.inj hpiece).2]
  · rintro rfl
    rfl

/-- A character in front of a single piece is part of it if it neither separates nor escapes. -/
theorem pieces_cons_eq_singleton_iff {depth : Nat} {c : Char} (hsep : c = ';' → 0 < depth) (p : Text) :
    pieces depth (c :: p) = [c :: p] ↔
      (c = '\\' → p.head? ≠ some ';') ∧ pieces (bracketsBehind depth c) p = [p] := by
  by_cases hescape : c = '\\' → p.head? ≠ some ';'
  · rw [pieces_cons hsep hescape, consFirst_eq_singleton_iff (pieces_ne_nil _ p)]
    exact (and_iff_right hescape).symm
  · -- An escaping backslash is not part of the piece that is read.
    refine iff_of_false (fun h => ?_) fun h => hescape h.1
    push Not at hescape
    obtain ⟨rfl, hhead⟩ := hescape
    obtain ⟨tail, rfl⟩ := List.head?_eq_some_iff.1 hhead
    rw [pieces_escaped, consFirst_eq] at h
    simp at h

/-- A separator in front of a single piece is part of it exactly if brackets are open. -/
theorem pieces_separator_eq_singleton_iff (depth : Nat) (p : Text) :
    pieces depth (';' :: p) = [';' :: p] ↔ 0 < depth ∧ pieces depth p = [p] := by
  by_cases hdepth : 0 < depth
  · rw [pieces_cons_eq_singleton_iff fun _ => hdepth]
    simp [hdepth, bracketsBehind]
  · obtain rfl : depth = 0 := by omega
    rw [pieces_separator]
    simp

/-- The first piece of a text that does not start with a separator starts with an escaped one if it starts
with one at all. -/
theorem head?_piece_iff {depth : Nat} {t first : Text} {others : List Text}
    (h : pieces depth t = first :: others) (hhead : t.head? ≠ some ';') :
    first.head? = some ';' ↔ ∃ after, t = '\\' :: ';' :: after := by
  cases t with
  | nil =>
    rw [pieces] at h
    cases h
    simp
  | cons c rest =>
    have hc : c ≠ ';' := by simpa using hhead
    -- A piece starts with a separator only if that is the escaped one at the start of the text.
    by_cases hescape : c = '\\' → rest.head? ≠ some ';'
    · rw [pieces_cons (fun hsep => absurd hsep hc) hescape] at h
      obtain ⟨p, rfl, -⟩ := eq_cons_of_consFirst (pieces_ne_nil _ rest) h
      refine iff_of_false (by simpa using hc) ?_
      rintro ⟨after, heq⟩
      obtain ⟨rfl, rfl⟩ := List.cons.inj heq
      exact hescape rfl rfl
    · push Not at hescape
      obtain ⟨rfl, hrest⟩ := hescape
      obtain ⟨after, rfl⟩ := List.head?_eq_some_iff.1 hrest
      rw [pieces_escaped] at h
      obtain ⟨p, rfl, -⟩ := eq_cons_of_consFirst (pieces_ne_nil depth after) h
      exact iff_of_true rfl ⟨after, rfl⟩

/-- The pieces of a text are single pieces again, the first one inside the same brackets, exactly if what is
escaped in the text is in brackets. -/
theorem pieces_eq_singleton_iff {depth : Nat} {t first : Text} {others : List Text}
    (h : pieces depth t = first :: others) :
    (pieces depth first = [first] ∧ ∀ piece ∈ others, pieces 0 piece = [piece]) ↔
      EscapesBracketed depth t := by
  induction depth, t using pieces_induction generalizing first others with
  | nil depth =>
    rw [pieces] at h
    cases h
    simp [pieces, escapesBracketed_nil]
  | escaped depth rest ih =>
    rw [pieces_escaped] at h
    obtain ⟨p, rfl, hpieces⟩ := eq_cons_of_consFirst (pieces_ne_nil depth rest) h
    rw [pieces_separator_eq_singleton_iff, escapesBracketed_cons_iff, escapesBracketed_cons_iff, and_assoc,
      ih hpieces]
    simp [bracketsBehind]
  | separator rest ih =>
    rw [pieces_separator] at h
    obtain ⟨rfl, hothers⟩ := List.cons.inj h
    obtain ⟨p, others', hpieces⟩ := List.exists_cons_of_ne_nil (pieces_ne_nil 0 rest)
    rw [← hothers, hpieces, List.forall_mem_cons, ih hpieces, escapesBracketed_cons_iff]
    simp [pieces, bracketsBehind]
  | char depth c rest hsep hescape ih =>
    rw [pieces_cons hsep hescape] at h
    obtain ⟨p, rfl, hpieces⟩ := eq_cons_of_consFirst (pieces_ne_nil _ rest) h
    rw [pieces_cons_eq_singleton_iff hsep, escapesBracketed_cons_iff, and_assoc, ih hpieces]
    -- A backslash must not come to stand in front of a separator that its own backslash has been taken
    -- off.
    have hfirst : (c = '\\' → p.head? ≠ some ';') ↔ (c = '\\' → rest.head? = some ';' → 0 < depth) ∧
        (c = '\\' → ∀ after, rest ≠ '\\' :: ';' :: after) := by
      constructor
      · intro hp
        refine ⟨fun hc hhead => absurd hhead (hescape hc), fun hc after heq => hp hc ?_⟩
        exact (head?_piece_iff hpieces (hescape hc)).2 ⟨after, heq⟩
      · rintro ⟨-, hrest⟩ hc hhead
        obtain ⟨after, heq⟩ := (head?_piece_iff hpieces (hescape hc)).1 hhead
        exact hrest hc after heq
    rw [hfirst, and_assoc]

/-- The elements of a list are read as themselves exactly if what is escaped in the list is in brackets. -/
theorem expand_eq_singleton_iff (t : Text) :
    (∀ element ∈ expand t, expand element = [element]) ↔ EscapesBracketed 0 t := by
  obtain ⟨first, others, hpieces⟩ := List.exists_cons_of_ne_nil (pieces_ne_nil 0 t)
  have hall : (∀ piece ∈ pieces 0 t, pieces 0 piece = [piece]) ↔ EscapesBracketed 0 t := by
    rw [hpieces, List.forall_mem_cons, pieces_eq_singleton_iff hpieces]
  rw [← hall]
  constructor
  · intro h piece hmem
    by_cases hne : piece = []
    · rw [hne, pieces]
    · exact pieces_eq_singleton (h piece (List.mem_filter.2 ⟨hmem, by simpa using hne⟩))
  · intro h element hmem
    exact expand_of_pieces (ne_nil_of_mem_expand hmem) (h element (List.mem_filter.1 hmem).1)

/-! ## The first of equal elements -/

/-- The list that is left of a list when the first of equal elements is kept. -/
def withoutDuplicates (list : Text) : Text := Text.join [';'] (expand list).eraseDups

/-- The first of equal elements, without the last of them, stand in front of the last element of the list. -/
theorem mem_dropLast_of_eraseDups {elements : List Text} {element : Text}
    (h : element ∈ elements.eraseDups.dropLast) : element ∈ elements.dropLast := by
  rcases List.eq_nil_or_concat elements with rfl | ⟨init, last, rfl⟩
  · simp at h
  · rw [List.concat_eq_append] at h ⊢
    rw [List.dropLast_concat]
    rw [List.eraseDups_append] at h
    by_cases hlast : last ∈ init
    · have hnone : [last].removeAll init = [] := by simp [List.removeAll, hlast]
      rw [hnone, List.eraseDups_nil, List.append_nil] at h
      exact List.mem_eraseDups.1 (List.mem_of_mem_dropLast h)
    · have hone : ([last].removeAll init).eraseDups = [last] := by
        simp [List.removeAll, hlast, List.eraseDups_cons]
      rw [hone, List.dropLast_concat] at h
      exact List.mem_eraseDups.1 h

/-- The first of equal elements are not equal to each other. -/
theorem eraseDups_eraseDups (elements : List Text) :
    elements.eraseDups.eraseDups = elements.eraseDups := by
  cases elements with
  | nil => rfl
  | cons element rest =>
    have hrest := eraseDups_eraseDups (rest.filter fun other => !other == element)
    rw [List.eraseDups_cons, List.eraseDups_cons, List.filter_eq_self.2 ?_, hrest]
    intro other hmem
    exact (List.mem_filter.1 (List.mem_eraseDups.1 hmem)).2
termination_by elements.length
decreasing_by exact Nat.lt_succ_of_le (List.length_filter_le _ _)

/-- Each of the first of equal elements is read from the join by itself. -/
theorem expand_withoutDuplicates (list : Text) :
    expand (withoutDuplicates list) = (expand list).eraseDups.flatMap expand :=
  expand_join_of_not_held fun element hmem =>
    not_held_of_mem_expand element (mem_dropLast_of_eraseDups hmem)

/-- The first of equal elements of a list can be written, as the elements of the list can. -/
theorem writable_eraseDups (list : Text) : Writable (expand list).eraseDups where
  ne_nil _ hmem := ne_nil_of_mem_expand (List.mem_eraseDups.1 hmem)
  not_held element hmem := not_held_of_mem_expand element (mem_dropLast_of_eraseDups hmem)

/-- If nothing is escaped outside of brackets, the first of equal elements are left. -/
theorem EscapesBracketed.expand_withoutDuplicates {list : Text} (h : EscapesBracketed 0 list) :
    expand (withoutDuplicates list) = (expand list).eraseDups := by
  have hself := (expand_eq_singleton_iff list).2 h
  rw [Elements.expand_withoutDuplicates]
  exact flatMap_expand_eq_self fun element hmem => hself element (List.mem_eraseDups.1 hmem)

/-- Otherwise some element of the list is lost. -/
theorem escapesBracketed_of_subset {list : Text} (h : expand list ⊆ expand (withoutDuplicates list)) :
    EscapesBracketed 0 list := by
  have hsubset : (expand list).eraseDups ⊆ (expand list).eraseDups.flatMap expand := by
    rw [← expand_withoutDuplicates]
    exact fun element hmem => h (List.mem_eraseDups.1 hmem)
  refine (expand_eq_singleton_iff list).1 fun element hmem => ?_
  exact expand_eq_singleton_of_subset hsubset element (List.mem_eraseDups.2 hmem)

end BuildExpr.Elements

namespace BuildExpr.Operation

open Elements (escape expand withoutDuplicates EscapesBracketed)

/-- What `REMOVE_DUPLICATES` gives for a list. -/
theorem evaluate_removeDuplicates (call : Call) (list : Text) :
    removeDuplicates.evaluate { call with parameters := [list] } = pure (withoutDuplicates list) :=
  (readsAs_expand list).removeDuplicates _ rfl

/-- What `IN_LIST` tells of an element and a list. -/
theorem evaluate_inList (call : Call) (element list : Text) :
    inList.evaluate { call with parameters := [element, list] } =
      pure (.ofBool ((expand list).contains element)) :=
  (readsAs_expand list).inList _ element rfl

/-- If `IN_LIST` tells the same of two lists, both or neither have the element. -/
theorem contains_eq_of_evaluate_inList {call : Call} {element list list' : Text}
    (h : inList.evaluate { call with parameters := [element, list] } =
      inList.evaluate { call with parameters := [element, list'] }) :
    (expand list).contains element = (expand list').contains element := by
  rw [evaluate_inList, evaluate_inList] at h
  have hanswer : Text.ofBool ((expand list).contains element) =
      Text.ofBool ((expand list').contains element) :=
    (EStateM.Result.ok.inj (congrFun h {})).1
  cases hlist : (expand list).contains element <;> cases hlist' : (expand list').contains element <;>
    simp_all [Text.ofBool]

/-- Removing the duplicates of a list leaves the first of equal elements, and looking for an element gives the
same answer as before, exactly if all that is escaped in the list is in brackets. Then nothing changes when
they are removed again. If the elements were escaped before they are joined, they would be left of any
list. -/
theorem removeDuplicates_faithful_iff (call : Call) (list : Text) :
    removeDuplicates.evaluate { call with parameters := [list] } = pure (withoutDuplicates list) ∧
      (expand (withoutDuplicates list) = (expand list).eraseDups ↔ EscapesBracketed 0 list) ∧
      ((∀ element, inList.evaluate { call with parameters := [element, withoutDuplicates list] } =
        inList.evaluate { call with parameters := [element, list] }) ↔ EscapesBracketed 0 list) ∧
      (EscapesBracketed 0 list →
        removeDuplicates.evaluate { call with parameters := [withoutDuplicates list] } =
          pure (withoutDuplicates list)) ∧
      expand (Text.join [';'] ((expand list).eraseDups.map escape)) = (expand list).eraseDups := by
  refine ⟨evaluate_removeDuplicates call list, ⟨fun h => ?_, fun h => h.expand_withoutDuplicates⟩,
    ⟨fun h => ?_, fun h element => ?_⟩, fun h => ?_, (Elements.writable_eraseDups list).expand_join⟩
  · -- If the elements are read back, each of them is among those that are read.
    refine Elements.escapesBracketed_of_subset fun element hmem => ?_
    rw [h]
    exact List.mem_eraseDups.2 hmem
  · refine Elements.escapesBracketed_of_subset fun element hmem => ?_
    have hcontains := contains_eq_of_evaluate_inList (h element)
    rwa [List.contains_iff_mem.2 hmem, List.contains_iff_mem] at hcontains
  · have hcontains : (expand list).eraseDups.contains element = (expand list).contains element := by
      rw [Bool.eq_iff_iff, List.contains_iff_mem, List.contains_iff_mem, List.mem_eraseDups]
    rw [evaluate_inList, evaluate_inList, h.expand_withoutDuplicates, hcontains]
  · rw [evaluate_removeDuplicates, withoutDuplicates, h.expand_withoutDuplicates,
      Elements.eraseDups_eraseDups]
    rfl

/-- An escaped separator becomes one that separates. -/
theorem expand_withoutDuplicates_ne :
    expand (withoutDuplicates "a\\;b") ≠ (expand "a\\;b").eraseDups ∧
      withoutDuplicates (withoutDuplicates "a\\;a") ≠ withoutDuplicates "a\\;a" ∧
      (expand (withoutDuplicates "a\\;b")).contains "a" ≠ (expand "a\\;b").contains "a" := by
  decide

end BuildExpr.Operation
