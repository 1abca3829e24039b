import BuildExpr.Interface
import BuildExpr.Proofs.Matching
import BuildExpr.Proofs.Spelling

/-!
# Removing expressions leaves the outermost text

Removing all expressions works on offsets: it looks for the next opening and for the `>` that closes it,
and stops at an opening that nothing closes. The forest of the text up to there has the same expressions
for its outermost operations, so what is removed is just these operations: the texts between them stay,
and behind them the rest of the text, in which nothing is removed (`exported_stripAll_eq`).

What the two have in common is the text outside all expressions (`Text.outsideFrom`), which can be told
character by character: an opening goes one deeper, and a `>` goes back. This is what is left when an
expression that ends is skipped, and also what a reading keeps outside all expressions.
-/

namespace BuildExpr

namespace Text

/-! ## Outside all expressions -/

/-- The text outside all expressions, of a text that starts inside `depth` of them. -/
def outsideFrom : Nat → Text → Text
  | _, [] => []
  | depth, '$' :: '<' :: rest => outsideFrom (depth + 1) rest
  | depth + 1, '>' :: rest => outsideFrom depth rest
  | depth + 1, _ :: rest => outsideFrom (depth + 1) rest
  | 0, c :: rest => c :: outsideFrom 0 rest

/-- Nothing is outside in the empty text. -/
theorem outsideFrom_nil (depth : Nat) : outsideFrom depth [] = [] := by rw [outsideFrom]

/-- Behind an opening the text is inside one more expression. -/
theorem outsideFrom_opening (depth : Nat) (rest : Text) :
    outsideFrom depth ('$' :: '<' :: rest) = outsideFrom (depth + 1) rest := by rw [outsideFrom]

/-- Behind a closing it is inside one less. -/
theorem outsideFrom_closing (depth : Nat) (rest : Text) :
    outsideFrom (depth + 1) ('>' :: rest) = outsideFrom depth rest := by
  rw [outsideFrom]

variable {c : Char} {rest : Text}

/-- Inside an expression a character that is no delimiter is left out. -/
theorem outsideFrom_succ_cons (depth : Nat) (hclose : c ≠ '>')
    (hopen : ∀ tail, c = '$' → rest = '<' :: tail → False) :
    outsideFrom (depth + 1) (c :: rest) = outsideFrom (depth + 1) rest := by
  rw [outsideFrom]
  · exact hopen
  · exact hclose

/-- Outside all expressions every character that opens none is kept. -/
theorem outsideFrom_zero_cons (hopen : ∀ tail, c = '$' → rest = '<' :: tail → False) :
    outsideFrom 0 (c :: rest) = c :: outsideFrom 0 rest := by
  rw [outsideFrom]
  exact hopen

/-- Up to the first opening everything is outside. -/
theorem outsideFrom_append {before : Text} (hbefore : ¬ opening <:+: before)
    (hapart : Apart before rest) : outsideFrom 0 (before ++ rest) = before ++ outsideFrom 0 rest := by
  induction before with
  | nil => rfl
  | cons c before ih =>
    have hopen : ∀ tail, c = '$' → before = '<' :: tail → False := by
      rintro tail rfl rfl
      exact hbefore ⟨[], tail, rfl⟩
    rw [List.cons_append, outsideFrom_zero_cons (hapart.not_opening hopen),
      ih (no_opening_of_cons hbefore) hapart.of_cons, List.cons_append]

/-- Without openings, all is outside. -/
theorem outsideFrom_of_no_opening {t : Text} (h : ¬ opening <:+: t) : outsideFrom 0 t = t := by
  have houtside : outsideFrom 0 (t ++ []) = t ++ outsideFrom 0 [] :=
    outsideFrom_append h (apart_of_head? (by simp))
  rwa [List.append_nil, outsideFrom_nil, List.append_nil] at houtside

/-- Nothing is outside up to the `>` that closes the outermost expression. -/
theorem outsideFrom_of_splitAtClosing {depth : Nat} {t inside after : Text}
    (h : splitAtClosing depth t = some (inside, after)) :
    outsideFrom (depth + 1) t = outsideFrom 0 after := by
  -- The depth of the count goes along with that of the scan.
  fun_induction splitAtClosing depth t generalizing inside with
  | case1 => cases h
  | case2 depth rest ih =>
    obtain ⟨⟨between, behind⟩, hsplit, heq⟩ := Option.map_eq_some_iff.1 h
    obtain ⟨-, rfl⟩ := Prod.mk.inj heq
    rw [outsideFrom_opening, ih hsplit]
  | case3 rest =>
    obtain ⟨-, rfl⟩ := Prod.mk.inj (Option.some.inj h)
    exact outsideFrom_closing 0 rest
  | case4 depth rest ih =>
    obtain ⟨⟨between, behind⟩, hsplit, heq⟩ := Option.map_eq_some_iff.1 h
    obtain ⟨-, rfl⟩ := Prod.mk.inj heq
    rw [outsideFrom_closing, ih hsplit]
  | case5 depth c rest hopen hzero hsucc ih =>
    obtain ⟨⟨between, behind⟩, hsplit, heq⟩ := Option.map_eq_some_iff.1 h
    obtain ⟨-, rfl⟩ := Prod.mk.inj heq
    have hclose : c ≠ '>' := by
      cases depth with
      | zero => exact hzero rfl
      | succ depth => exact hsucc depth rfl
    rw [outsideFrom_succ_cons depth hclose hopen, ih hsplit]

end Text

namespace Forest

/-- The text nodes of a forest in a row, without its operations. -/
def texts : Forest → Text
  | [] => []
  | .text value :: rest => value ++ texts rest
  | .operation _ _ _ :: rest => texts rest

/-- The texts of forests in a row are those of each of them. -/
theorem texts_append (a b : Forest) : texts (a ++ b) = texts a ++ texts b := by
  induction a with
  | nil => rfl
  | cons node a ih =>
    cases node with
    | text value => rw [List.cons_append, texts, texts, ih, List.append_assoc]
    | operation name parameters span => rw [List.cons_append, texts, texts, ih]

/-- Pushing a node adds its text, if it is one. -/
theorem texts_push (forest : Forest) (node : Node) :
    texts (push forest node) = texts forest ++ texts [node] := by
  rw [← texts_append]
  fun_induction push forest node with
  | case1 => rfl
  | case2 node => rfl
  | case3 before value => simp [texts]
  | case4 first rest node hsingle ih =>
    cases first with
    | text value => rw [List.cons_append, texts, texts, ih]
    | operation name parameters span => rw [List.cons_append, texts, texts, ih]

namespace Reading

/-- An operation adds no text. -/
theorem texts_done_push_close (r : Reading) (e : OpenExpression) (stop : Nat) :
    texts (r.push (e.close stop)).done = texts r.done := by
  obtain ⟨done, pending⟩ := r
  cases pending with
  | nil =>
    obtain ⟨name, parameters, -, -, hclose⟩ := e.exists_name
    rw [hclose]
    exact (texts_push done _).trans (List.append_nil _)
  | cons e outer => rfl

/-- What is read outside all expressions goes behind the texts that have been read there. -/
theorem texts_done_read (r : Reading) (offset : Nat) (t : Text) :
    texts (r.read offset t).done = texts r.done ++ Text.outsideFrom r.pending.length t := by
  induction t using Text.opening_induction generalizing r offset with
  | nil => rw [read_nil, Text.outsideFrom_nil, List.append_nil]
  | opening rest ih =>
    rw [read_opening, ih, Text.outsideFrom_opening]
    rfl
  | char c rest hopen ih =>
    rcases r.admits_or_mark c with hadmits | ⟨done, e, outer, rfl, rfl | rfl⟩
    · rw [read_cons r offset hadmits hopen, ih, length_pending_push]
      -- The character joins the texts outside only if no expression is open.
      obtain ⟨done, pending⟩ := r
      cases pending with
      | nil =>
        have hpushed : texts (push ⟨done, []⟩ (.text [c])).done = texts done ++ [c] :=
          texts_push done (.text [c])
        rw [hpushed, List.append_assoc]
        exact congrArg (texts done ++ ·) (Text.outsideFrom_zero_cons hopen).symm
      | cons e outer =>
        have hclose : c ≠ '>' := by
          rintro rfl
          cases pending_eq_nil_of_admits hadmits
        exact congrArg (texts done ++ ·) (Text.outsideFrom_succ_cons outer.length hclose hopen).symm
    · rw [read_closing, ih, length_pending_push, texts_done_push_close]
      exact congrArg (texts done ++ ·) (Text.outsideFrom_closing outer.length rest).symm
    · rw [read_mark, ih]
      exact congrArg (texts done ++ ·)
        (Text.outsideFrom_succ_cons outer.length e.mark_ne_closing hopen).symm

end Reading

/-- The outermost texts of a closed text are what is outside its expressions. -/
theorem texts_ofTokens_scan {t : Text} (h : t.Closed) :
    texts (ofTokens (Token.scan t)) = Text.outsideFrom 0 t := by
  have hread := Reading.texts_done_read {} 0 t
  rw [read_closed h] at hread
  exact hread

end Forest

/-! ## Where removing expressions stops -/

namespace Text

/-- Where a text goes on in a way that removing expressions does not touch: at the first `$<` that no
expression contains and that has no `>`, or at the end of the text. -/
def tailStart (t : Text) : Nat :=
  (t.openings.find? fun start =>
    (t.closingFrom (start + 2)).isNone &&
      t.expressionSpans.all fun span => !span.contains start).getD t.byteLength

/-- A text in two parts: in the first one all expressions end, and the second one is empty or starts with
an expression that does not. -/
structure EndsWith (t head tail : Text) : Prop where
  /-- There is nothing but the two parts. -/
  eq : t = head ++ tail
  /-- All expressions of the first part end. -/
  closed : head.Closed
  /-- The second one does not go on with one that does. -/
  tail : tail = [] ∨ ∃ after, tail = opening ++ after ∧ splitAtClosing 0 after = none

variable {t head tail : Text}

/-- The expressions of a closed text end in it, whatever follows. -/
theorem Closed.exists_closingFrom (h : Closed head) {start : Nat} (hstart : start ∈ head.openings)
    (tail : Text) :
    ∃ closing < byteLength head, closingFrom (head ++ tail) (start + 2) = some closing := by
  obtain ⟨before, after, rfl, rfl⟩ := exists_append_of_mem_openingsAt hstart
  obtain ⟨⟨inside, rest⟩, hsplit⟩ := Option.isSome_iff_exists.1 (h before after rfl)
  have hclosing := closingFrom_opening before (after ++ tail)
  rw [splitAtClosing_append hsplit, ← List.append_assoc] at hclosing
  refine ⟨byteLength before + 2 + byteLength inside, ?_, by rw [Nat.zero_add]; exact hclosing⟩
  have hsize : 0 < '>'.utf8Size := Char.utf8Size_pos '>'
  have hopening : byteLength opening = 2 := rfl
  simp only [append_of_splitAtClosing hsplit, byteLength_append, byteLength_cons, hopening]
  omega

namespace EndsWith

/-- The openings are those of the first part and those of the second. -/
theorem openings_eq (h : t.EndsWith head tail) :
    t.openings = head.openings ++ openingsAt (byteLength head) tail := by
  have hhead : tail.head? ≠ some '<' := by
    rcases h.tail with rfl | ⟨after, rfl, -⟩ <;> simp [opening]
  unfold openings
  rw [h.eq, openingsAt_append 0 (apart_of_head? hhead), Nat.zero_add]

/-- The expression that the second part starts with does not end. -/
theorem closingFrom_eq_none {after : Text} (h : t.EndsWith head (opening ++ after))
    (hopen : splitAtClosing 0 after = none) : t.closingFrom (byteLength head + 2) = none := by
  rw [h.eq, ← List.append_assoc, closingFrom_opening, hopen]
  rfl

/-- No expression contains the place where the second part starts with one that does not end. -/
theorem not_contains {after : Text} (h : t.EndsWith head (opening ++ after))
    (hopen : splitAtClosing 0 after = none) {span : Span} (hspan : span ∈ t.expressionSpans) :
    span.contains (byteLength head) = false := by
  obtain ⟨start, hstart, hfound⟩ := List.mem_filterMap.1 hspan
  obtain ⟨closing, hclosing, rfl⟩ := Option.map_eq_some_iff.1 hfound
  -- An expression of the first part ends in it, and none starts at the very place.
  have hapart : closing < byteLength head ∨ byteLength head < start := by
    rw [h.openings_eq] at hstart
    rcases List.mem_append.1 hstart with hhead | htail
    · obtain ⟨closing', hlt, hclosing'⟩ := h.closed.exists_closingFrom hhead (opening ++ after)
      rw [← h.eq, hclosing] at hclosing'
      obtain rfl := Option.some.inj hclosing'
      exact .inl hlt
    · rcases List.mem_cons.1 htail with rfl | hbehind
      · rw [h.closingFrom_eq_none hopen] at hclosing
        cases hclosing
      · have hle := (openingsAt_sorted _ _).2 start hbehind
        exact .inr (by omega)
  simp only [Span.contains, Bool.and_eq_false_imp, decide_eq_true_eq, decide_eq_false_iff_not]
  omega

/-- The tail is found where the second part starts. -/
theorem tailStart_eq (h : t.EndsWith head tail) : t.tailStart = byteLength head := by
  have hclosed : head.openings.find? (fun start =>
      (t.closingFrom (start + 2)).isNone &&
        t.expressionSpans.all fun span => !span.contains start) = none := by
    refine List.find?_eq_none.2 fun start hstart => ?_
    obtain ⟨closing, -, hclosing⟩ := h.closed.exists_closingFrom hstart tail
    rw [← h.eq] at hclosing
    simp [hclosing]
  unfold tailStart
  rw [h.openings_eq, List.find?_append, hclosed, Option.none_or]
  rcases h.tail with rfl | ⟨after, rfl, hopen⟩
  · rw [h.eq, List.append_nil]
    rfl
  · have houtside : t.expressionSpans.all (fun span => !span.contains (byteLength head)) = true :=
      List.all_eq_true.2 fun span hspan => by rw [h.not_contains hopen hspan]; rfl
    rw [show openingsAt (byteLength head) (opening ++ after) =
      byteLength head :: openingsAt (byteLength head + 2) after from rfl, List.find?_cons_of_pos]
    · rfl
    · rw [h.closingFrom_eq_none hopen, houtside]
      rfl

/-- The place lies between two characters, and the two parts are what it cuts the text into. -/
theorem slices_eq (h : t.EndsWith head tail) :
    slice 0 t.tailStart t = head ∧ slice t.tailStart t.byteLength t = tail := by
  have hhead := slice_append [] head tail
  have htail := slice_append head tail []
  rw [List.append_nil, ← byteLength_append, ← h.eq] at htail
  rw [List.nil_append, ← h.eq, byteLength_nil, Nat.zero_add] at hhead
  rw [h.tailStart_eq]
  exact ⟨hhead, htail⟩

end EndsWith

end Text

namespace Interface

open Text in
/-- Removing expressions removes those of the first part and nothing of the second. -/
theorem exists_endsWith (t : Text) :
    ∃ head tail, t.EndsWith head tail ∧ removeExpressions t = outsideFrom 0 head ++ tail := by
  fun_induction removeExpressions t with
  | case1 t hopen =>
    have hplain : ¬ opening <:+: t := splitAtOpening_eq_none_iff.1 hopen
    refine ⟨t, [], ⟨(List.append_nil t).symm, closed_of_no_opening hplain, .inl rfl⟩, ?_⟩
    rw [outsideFrom_of_no_opening hplain, List.append_nil]
  | case2 t before after hopen hclose =>
    -- This opening has no end, so it is where the second part starts.
    have ht : t = before ++ (opening ++ after) := by
      rw [← List.append_assoc]
      exact append_of_splitAtOpening hopen
    have hplain : ¬ opening <:+: before :=
      splitAtOpening_eq_none_iff.1 (splitAtOpening_before hopen)
    refine ⟨before, opening ++ after,
      ⟨ht, closed_of_no_opening hplain, .inr ⟨after, rfl, hclose⟩⟩, ?_⟩
    rw [outsideFrom_of_no_opening hplain]
    exact ht
  | case3 t before after hopen inside rest hclose ih =>
    -- The expression goes with the first part of what follows it, as nothing of it is outside.
    obtain ⟨head, tail, hrest, hremoved⟩ := ih
    have hplain : ¬ opening <:+: before :=
      splitAtOpening_eq_none_iff.1 (splitAtOpening_before hopen)
    have hexpression : IsExpression (opening ++ inside ++ ['>']) :=
      isExpression_of_splitAtClosing hclose
    have hclosed : Closed (before ++ (opening ++ inside ++ ['>']) ++ head) :=
      (hexpression.closed_append_iff (closed_of_no_opening hplain) head).2 hrest.closed
    have houtside : outsideFrom 0 (before ++ (opening ++ inside ++ ['>']) ++ head) =
        before ++ outsideFrom 0 head := by
      have hend := splitAtClosing_append (splitAtClosing_before hclose) head
      rw [List.append_assoc, outsideFrom_append hplain (apart_of_head? (by simp [opening]))]
      rw [List.append_assoc, List.append_assoc, ← List.append_assoc inside]
      exact congrArg (before ++ ·)
        ((outsideFrom_opening 0 _).trans (outsideFrom_of_splitAtClosing hend))
    refine ⟨before ++ (opening ++ inside ++ ['>']) ++ head, tail, ⟨?_, hclosed, hrest.tail⟩, ?_⟩
    · rw [append_of_splitAtOpening hopen, append_of_splitAtClosing hclose, hrest.eq]
      simp
    · rw [houtside, hremoved, List.append_assoc]

/-- Removing all expressions leaves the texts of the outermost level: of the text up to the first `$<`
that is outside all expressions and has no `>`, the nodes that are no operations, and behind them the
rest of the text as it stands. What the operations are is told by the forest of the text, read within
any limit that it does not exceed. -/
theorem exported_stripAll_eq (root : Option Text) (t : Text) {limit : Nat}
    (h : (Text.slice 0 t.tailStart t).nesting ≤ limit) :
    exported .stripAll root t = Elements.dropEmpty
      (Forest.texts (Tree.parse limit (Text.slice 0 t.tailStart t)).nodes ++
        Text.slice t.tailStart t.byteLength t) := by
  obtain ⟨head, tail, hparts, hremoved⟩ := exists_endsWith t
  obtain ⟨hhead, htail⟩ := hparts.slices_eq
  rw [hhead] at h ⊢
  have hnodes : (Tree.parse limit head).nodes = Forest.ofTokens (Token.scan head) :=
    Tree.nodes_parse h
  rw [htail, hnodes, Forest.texts_ofTokens_scan hparts.closed, ← hremoved]
  rfl

/-- An expression without an end is kept with the one in it that has an end. -/
theorem exported_stripAll_unterminated :
    let t : Text := "a$<b:$<c>>;;d$<e,$<f>;"
    t.tailStart = 13 ∧ (Text.slice 0 13 t).nesting ≤ 2 ∧
      exported .stripAll none t = "a;d$<e,$<f>" := by
  intro t
  have htail : t.tailStart = 13 := by decide
  have hnesting : (Text.slice 0 13 t).nesting ≤ 2 := by decide
  have hexported := exported_stripAll_eq none t (htail.symm ▸ hnesting)
  rw [htail] at hexported
  exact ⟨htail, hnesting, hexported.trans (by decide)⟩

end Interface

end BuildExpr
