import BuildExpr.Proofs.Joining

/-!
# A list without its empty elements

Dropping the empty elements of a list amounts to cutting the text at every `;` and joining the pieces that
are not empty again. The pass over the text knows only whether a separator has just been. Where one has,
what it leaves is the join of the pieces that are not empty; anywhere else the piece at the front counts
even if it is empty, because it goes on with what has been read of it (`clean_eq_join`). What is known of
a join of pieces without separators is then known of what is left (`dropEmpty_spec`).
-/

namespace BuildExpr.Elements

/-! ## Cutting at every separator -/

/-- In front of a separator at the start there is an empty piece. -/
theorem splitOn_separator (rest : Text) : (';' :: rest).splitOn ';' = [] :: rest.splitOn ';' := by
  rw [List.splitOn, List.splitOnP_cons_eq_if_modifyHead, if_pos (beq_self_eq_true _), List.splitOn]

/-- Any other character goes into the first piece. -/
theorem splitOn_cons {c : Char} (hc : c ≠ ';') (rest : Text) :
    (c :: rest).splitOn ';' = consFirst c (rest.splitOn ';') := by
  have hpiece : consFirst c (rest.splitOn ';') = (rest.splitOn ';').modifyHead (List.cons c) := by
    obtain ⟨piece, others, hpieces⟩ := List.exists_cons_of_ne_nil (List.splitOn_ne_nil ';' rest)
    rw [hpieces]
    rfl
  rw [hpiece, List.splitOn, List.splitOnP_cons_eq_if_modifyHead, if_neg (by simpa using hc), List.splitOn]

/-- No piece has a separator in it. -/
theorem separator_not_mem_of_mem_splitOn {t : Text} : ∀ piece ∈ t.splitOn ';', separator ∉ piece := by
  induction t with
  | nil => simp
  | cons c rest ih =>
    by_cases hc : c = ';'
    · rw [hc, splitOn_separator, List.forall_mem_cons]
      exact ⟨List.not_mem_nil, ih⟩
    · obtain ⟨first, others, hpieces⟩ := List.exists_cons_of_ne_nil (List.splitOn_ne_nil ';' rest)
      rw [hpieces, List.forall_mem_cons] at ih
      rw [splitOn_cons hc, hpieces, consFirst, List.forall_mem_cons, List.mem_cons, not_or]
      exact ⟨⟨fun h => hc h.symm, ih.1⟩, ih.2⟩

/-! ## Joining what is left -/

/-- A character in front of the first element is one in front of the join. -/
theorem join_cons_first (c : Char) (first : Text) (rest : List Text) :
    Text.join [';'] ((c :: first) :: rest) = c :: Text.join [';'] (first :: rest) := by
  cases rest with
  | nil => rw [join_singleton, join_singleton]
  | cons next rest => rw [join_cons_cons, join_cons_cons, List.cons_append]

/-- Apart from separators, a join is its elements one after the other. -/
theorem filter_join (elements : List Text) :
    (Text.join [';'] elements).filter (· ≠ ';') = elements.flatten.filter (· ≠ ';') := by
  induction elements with
  | nil => rfl
  | cons element rest ih =>
    cases rest with
    | nil => rw [join_singleton, List.flatten_singleton]
    | cons next rest =>
      rw [join_cons_cons, List.flatten_cons, List.filter_append, List.filter_append,
        List.filter_cons_of_neg (by simp), ih]

/-- Where a separator has just been, the join of the pieces that are not empty is left. Anywhere else the
first piece counts even if it is empty. -/
theorem clean_eq_join (t : Text) :
    clean true t = Text.join [';'] ((t.splitOn ';').filter fun piece => !piece.isEmpty) ∧
      clean false t = Text.join [';']
        ((t.splitOn ';').headD [] :: ((t.splitOn ';').tail.filter fun piece => !piece.isEmpty)) := by
  induction t with
  | nil => simp [Text.join]
  | cons c rest ih =>
    by_cases hc : c = ';'
    · subst hc
      rw [splitOn_separator, clean_repeated, clean_separator, ih.1]
      refine ⟨rfl, ?_⟩
      rw [List.headD_cons, List.tail_cons]
      -- The separator stays exactly if a piece behind it does.
      cases helements : (rest.splitOn ';').filter fun piece => !piece.isEmpty with
      | nil => rfl
      | cons element others =>
        have hmem : element ∈ (rest.splitOn ';').filter fun piece => !piece.isEmpty := by
          rw [helements]
          exact List.mem_cons_self
        have hne : element ≠ [] := by simpa using (List.mem_filter.1 hmem).2
        rw [if_neg (join_ne_nil hne others), join_cons_cons, List.nil_append]
    · obtain ⟨first, others, hpieces⟩ := List.exists_cons_of_ne_nil (List.splitOn_ne_nil ';' rest)
      have hfirst := ih.2
      rw [hpieces, List.headD_cons, List.tail_cons] at hfirst
      rw [splitOn_cons hc, hpieces, clean_cons hc, clean_cons hc, hfirst, ← join_cons_first]
      exact ⟨rfl, rfl⟩

/-- Dropping empty elements joins the pieces between separators that are not empty. -/
theorem dropEmpty_eq_join (t : Text) :
    dropEmpty t = Text.join [';'] ((t.splitOn ';').filter fun piece => !piece.isEmpty) :=
  (clean_eq_join t).1

/-- The pieces of a text that are not empty have no separator in them, so none at an end. -/
theorem trimmed_of_mem_splitOn {t piece : Text}
    (h : piece ∈ (t.splitOn ';').filter fun piece => !piece.isEmpty) : Trimmed piece := by
  obtain ⟨hmem, hne⟩ := List.mem_filter.1 h
  have hfree : separator ∉ piece := separator_not_mem_of_mem_splitOn piece hmem
  exact ⟨by simpa using hne, mt List.mem_of_head? hfree, mt List.mem_of_getLast? hfree⟩

/-- Characters other than separators stay, in their order. -/
theorem filter_dropEmpty (t : Text) : (dropEmpty t).filter (· ≠ ';') = t.filter (· ≠ ';') := by
  have hrejoin : Text.join [';'] (t.splitOn ';') = t := List.intercalate_splitOn ';'
  calc (dropEmpty t).filter (· ≠ ';')
      = ((t.splitOn ';').filter fun piece => !piece.isEmpty).flatten.filter (· ≠ ';') := by
        rw [dropEmpty_eq_join, filter_join]
    _ = (t.splitOn ';').flatten.filter (· ≠ ';') := by rw [flatten_filter_nonempty]
    _ = t.filter (· ≠ ';') := by rw [← filter_join, hrejoin]

/-- No separator follows another one in what is left. -/
theorem not_repeated_dropEmpty (t : Text) : ¬ [separator, separator] <:+: dropEmpty t := by
  intro h
  refine not_repeated_dropRepeated true t (h.trans ?_)
  rcases dropFinal_eq_or (dropRepeated true t) with heq | heq
  · rw [dropEmpty, heq]
  · exact ⟨[], [';'], heq.symm⟩

/-- Dropping the empty elements of a list cuts it at every separator and joins the pieces that are not empty.
So what is left has no separator at either end and none that follows another one, all other characters are
left in their order, and nothing more is dropped a second time. -/
theorem dropEmpty_spec (t : Text) :
    dropEmpty t = Text.join [';'] ((t.splitOn ';').filter fun piece => !piece.isEmpty) ∧
      (dropEmpty t).head? ≠ some ';' ∧ (dropEmpty t).getLast? ≠ some ';' ∧
      ¬ [';', ';'] <:+: dropEmpty t ∧
      (dropEmpty t).filter (· ≠ ';') = t.filter (· ≠ ';') ∧
      dropEmpty (dropEmpty t) = dropEmpty t := by
  have hends := ends_join fun piece => trimmed_of_mem_splitOn (t := t)
  rw [← dropEmpty_eq_join] at hends
  exact ⟨dropEmpty_eq_join t, hends.1, hends.2, not_repeated_dropEmpty t, filter_dropEmpty t,
    dropEmpty_dropEmpty t⟩

end BuildExpr.Elements
