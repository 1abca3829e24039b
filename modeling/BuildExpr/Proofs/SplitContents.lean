import BuildExpr.Proofs.Joining

/-!
# What a split keeps of a text

A split may put its elements behind others that are there already. These stay in front as they are, and the
elements behind them are those of the text by itself (`toList_splitOnto`), none of which is empty.

One after the other, the elements of a text are the text itself without some of its separators and without
the backslashes that escape one (`Pared`). This holds of each part of the text by itself: of the list in
front of an expression, of the text that touches it, and of what follows (`pared_split`). The parts meet
without a gap or an overlap, because the cuts between them lose nothing.
-/

namespace BuildExpr.Elements

open Text

/-! ## Elements behind others -/

/-- An element is added at the end, unless it is empty. -/
theorem toList_addElement (output : Array Text) (backwards : Text) :
    (addElement output backwards).toList =
      output.toList ++ [backwards.reverse].filter fun piece => !piece.isEmpty := by
  unfold addElement
  by_cases hnil : backwards = []
  · simp [hnil]
  · rw [if_neg (by simpa using hnil), Array.toList_push, List.filter_cons_of_pos (by simpa using hnil),
      List.filter_nil]

/-- In the middle of an element, the first piece goes on with what has been read of it. -/
theorem toList_expandFrom (output : Array Text) (backwards : Text) (depth : Nat) (t : Text) :
    (expandFrom output backwards depth t).toList =
      output.toList ++ ((backwards.reverse ++ (pieces depth t).headD []) ::
        (pieces depth t).tail).filter fun piece => !piece.isEmpty := by
  fun_induction expandFrom output backwards depth t with
  | case1 output backwards depth => simp [toList_addElement, pieces]
  | case2 output backwards depth rest ih =>
    rw [ih, pieces_escaped, consFirst_eq]
    simp
  | case3 output backwards depth rest ih | case4 output backwards depth rest ih =>
    rw [ih, pieces, consFirst_eq]
    simp
  | case5 output backwards rest ih =>
    -- The element ends here, so that nothing has been read of the one that starts behind the separator.
    obtain ⟨first, others, hpieces⟩ := List.exists_cons_of_ne_nil (pieces_ne_nil 0 rest)
    rw [ih, toList_addElement, List.append_assoc, ← List.filter_append, pieces_separator, hpieces,
      List.headD_cons, List.headD_cons, List.append_nil]
    rfl
  | case6 output backwards depth c rest hescape hopen hclose hsep ih =>
    have hpieces : pieces depth (c :: rest) = consFirst c (pieces depth rest) := by
      rw [pieces]
      · exact hescape
      · exact hopen
      · exact hclose
      · exact hsep
    rw [ih, hpieces, consFirst_eq]
    simp

/-- The elements of a list are added at the end, in order. -/
theorem toList_expandOnto (output : Array Text) (t : Text) :
    (expandOnto output t).toList = output.toList ++ expand t := by
  obtain ⟨first, others, hpieces⟩ := List.exists_cons_of_ne_nil (pieces_ne_nil 0 t)
  rw [expandOnto, toList_expandFrom, expand, hpieces]
  rfl

/-- The elements of a text are put behind those that are there, which stay as they are. -/
theorem toList_splitOnto (output : Array Text) (t : Text) :
    (splitOnto output t).toList = output.toList ++ split t := by
  fun_induction splitOnto output t with
  | case1 output t hopen =>
    rw [toList_expandOnto, split_of_no_opening (splitAtOpening_eq_none_iff.1 hopen)]
  | case2 output t before after hopen part touching hglue output' hclose =>
    rw [Array.toList_push, toList_expandOnto, split_of_splitAtOpening hopen, hglue, fromOpening, hclose,
      List.append_assoc]
  | case3 output t before after hopen part touching hglue output' inside rest hclose ih =>
    rw [ih, Array.toList_push, toList_expandOnto, split_of_splitAtOpening hopen, hglue, fromOpening, hclose]
    simp

/-! ## Texts without separators and escapes -/

/-- The second text is the first without some of its separators, and without the backslash in front of some
that stay. -/
inductive Pared : Text → Text → Prop where
  | nil : Pared [] []
  | keep (c : Char) {t u : Text} : Pared t u → Pared (c :: t) (c :: u)
  | separator {t u : Text} : Pared t u → Pared (';' :: t) u
  | escape {t u : Text} : Pared t u → Pared ('\\' :: ';' :: t) (';' :: u)

/-- A text is itself with nothing missing. -/
theorem Pared.refl (t : Text) : Pared t t := by
  induction t with
  | nil => exact .nil
  | cons c rest ih => exact .keep c ih

/-- What is pared part by part is pared as a whole. -/
theorem Pared.append {t t' u u' : Text} (h : Pared t u) (h' : Pared t' u') : Pared (t ++ t') (u ++ u') := by
  induction h with
  | nil => exact h'
  | keep c _ ih => exact .keep c ih
  | separator _ ih => exact .separator ih
  | escape _ ih => exact .escape ih

/-- The pieces of a text lack the separators between them and the backslashes that escaped one. -/
theorem pared_pieces (depth : Nat) (t : Text) : Pared t (pieces depth t).flatten := by
  induction depth, t using pieces_induction with
  | nil depth => exact .nil
  | escaped depth rest ih =>
    rw [pieces_escaped, flatten_consFirst]
    exact .escape ih
  | separator rest ih =>
    rw [pieces_separator, List.flatten_cons, List.nil_append]
    exact .separator ih
  | char depth c rest hsep hescape ih =>
    rw [pieces_cons hsep hescape, flatten_consFirst]
    exact .keep c ih

/-- So do the elements of a text. -/
theorem pared_expand (t : Text) : Pared t (expand t).flatten := by
  rw [expand, flatten_filter_nonempty]
  exact pared_pieces 0 t

/-- The text before an expression lacks at most the separator in front of what touches the expression, apart
from what its elements lack. -/
theorem pared_glue (before : Text) : Pared before ((expand (glue before).1).flatten ++ (glue before).2) := by
  rcases separator_not_mem_or_last before with hfree | ⟨part, touching, rfl, hfree⟩
  · rw [glue_of_not_mem hfree]
    exact .refl before
  · rw [glue_append_separator part hfree]
    split
    · next hnil =>
      rw [hnil, List.append_nil]
      exact pared_expand _
    · exact (pared_expand part).append (.separator (.refl touching))

/-- One after the other, the elements of a text are the text without some separators and escapes. -/
theorem pared_split (t : Text) : Pared t (split t).flatten := by
  fun_induction split t with
  | case1 t hopen => exact pared_expand t
  | case2 t before after hopen part touching hglue hclose =>
    have hbefore := pared_glue before
    rw [hglue] at hbefore
    have hsplit : (expand part ++ [touching ++ opening ++ after]).flatten =
        (expand part).flatten ++ touching ++ (opening ++ after) := by simp
    rw [hsplit, append_of_splitAtOpening hopen, List.append_assoc]
    exact hbefore.append (.refl _)
  | case3 t before after hopen part touching hglue inside rest hclose ih =>
    have hbefore := pared_glue before
    rw [hglue] at hbefore
    -- The expression runs on to a separator, and what it runs over comes before what is split next.
    have ht : t = before ++ (opening ++ inside ++ '>' :: rest.takeWhile (· ≠ ';') ++
        rest.dropWhile (· ≠ ';')) := by
      rw [append_of_splitAtOpening hopen, append_of_splitAtClosing hclose]
      simp
    have hsplit : (expand part ++ (touching ++ opening ++ inside ++ '>' :: rest.takeWhile (· ≠ ';')) ::
        split (rest.dropWhile (· ≠ ';'))).flatten =
        (expand part).flatten ++ touching ++ (opening ++ inside ++ '>' :: rest.takeWhile (· ≠ ';') ++
          (split (rest.dropWhile (· ≠ ';'))).flatten) := by simp
    rw [hsplit, ht]
    exact hbefore.append ((Pared.refl _).append ih)

/-- No element of a split is empty. -/
theorem ne_nil_of_mem_split {t : Text} : ∀ element ∈ split t, element ≠ [] := by
  have hexpand (part : Text) : ∀ element ∈ expand part, element ≠ [] :=
    fun element => ne_nil_of_mem_expand
  fun_induction split t with
  | case1 t hopen => exact hexpand t
  | case2 t before after hopen part touching hglue hclose =>
    rw [List.forall_mem_append, List.forall_mem_singleton]
    exact ⟨hexpand part, by simp [opening]⟩
  | case3 t before after hopen part touching hglue inside rest hclose ih =>
    rw [List.forall_mem_append, List.forall_mem_cons]
    exact ⟨hexpand part, by simp, ih⟩

/-- Splitting a text puts elements behind those that are there, which stay as they are. None of them is
empty, and one after the other they are the text without some of its separators and without the backslashes
in front of some that stay. -/
theorem splitOnto_pared (output : Array Text) (t : Text) :
    ∃ added : List Text, (splitOnto output t).toList = output.toList ++ added ∧
      (∀ element ∈ added, element ≠ []) ∧ Pared t added.flatten :=
  ⟨split t, toList_splitOnto output t, ne_nil_of_mem_split, pared_split t⟩

end BuildExpr.Elements
