import Mathlib.Data.List.Nodup
import BuildExpr.Proofs.Reading

/-!
# Operations stand where expressions end

Whether the `$<` at a place has its `>` can be told in two ways: by reading the whole text into a
forest, or by counting delimiters from that place on. Both find the same expressions
(`Tree.spans_nodes_parse`).

While a text is read, the spans of the forest to come are known: those of the operations finished so
far, for each open expression its own span if the text ahead closes it, and the spans of the
expressions that the text ahead opens and closes itself. With the open expressions taken from the
outermost to the innermost this is the order in which the operations stand in the forest, so nothing
moves when a character is read (`spans_finish_read`).
-/

namespace BuildExpr

namespace Text

/-! ## The expressions of a text -/

/-- The span of an expression that starts at `start`, if the text at `offset` closes it: it is the
outermost of `depth + 1` open ones. -/
def closedSpan (start offset depth : Nat) (t : Text) : List Span :=
  match splitAtClosing depth t with
  | some (before, _) => [⟨start, offset + byteLength before + 1⟩]
  | none => []

/-- The spans of the expressions that are opened and closed in a text at `offset`, in the order in
which they are opened. -/
def expressionSpansFrom : Nat → Text → List Span
  | _, [] => []
  | offset, '$' :: '<' :: rest =>
    closedSpan offset (offset + 2) 0 rest ++ expressionSpansFrom (offset + 2) rest
  | offset, c :: rest => expressionSpansFrom (offset + c.utf8Size) rest

/-- The spans of the expressions of a text, in the order in which they are opened. -/
def expressionSpans (t : Text) : List Span :=
  t.openings.filterMap fun start =>
    (t.closingFrom (start + 2)).map fun closing => ⟨start, closing + 1⟩

/-- Nothing is closed where the text has ended. -/
theorem closedSpan_nil (start offset depth : Nat) : closedSpan start offset depth [] = [] := by
  simp [closedSpan, splitAtClosing]

/-- An expression that is not closed in a first part may be closed in the rest. -/
theorem closedSpan_of_split (start offset : Nat) {depth depth' : Nat} (first : Text) {rest t : Text}
    (h : splitAtClosing depth t =
      (splitAtClosing depth' rest).map fun (before, after) => (first ++ before, after)) :
    closedSpan start offset depth t = closedSpan start (offset + byteLength first) depth' rest := by
  unfold closedSpan
  rw [h]
  cases splitAtClosing depth' rest with
  | none => rfl
  | some parts => simp [Nat.add_assoc]

/-- Behind an opening, one more expression has to be closed first. -/
theorem closedSpan_opening (start offset depth : Nat) (t : Text) :
    closedSpan start offset depth ('$' :: '<' :: t) =
      closedSpan start (offset + 2) (depth + 1) t :=
  closedSpan_of_split start offset opening (by rw [splitAtClosing]; rfl)

/-- With one expression open, a closing ends it. -/
theorem closedSpan_zero_closing (start offset : Nat) (t : Text) :
    closedSpan start offset 0 ('>' :: t) = [⟨start, offset + 1⟩] := by
  simp [closedSpan, splitAtClosing]

/-- With more of them open, it ends an inner one. -/
theorem closedSpan_succ_closing (start offset depth : Nat) (t : Text) :
    closedSpan start offset (depth + 1) ('>' :: t) = closedSpan start (offset + 1) depth t :=
  closedSpan_of_split start offset ['>'] (by rw [splitAtClosing]; rfl)

/-- Any other character is passed over. -/
theorem closedSpan_cons (start offset depth : Nat) {c : Char} {t : Text} (hclose : c ≠ '>')
    (hopen : ∀ rest, c = '$' → t = '<' :: rest → False) :
    closedSpan start offset depth (c :: t) = closedSpan start (offset + c.utf8Size) depth t := by
  refine closedSpan_of_split start offset [c] ?_
  rw [splitAtClosing_cons depth hclose hopen]
  rfl

/-- From the offset of a second part on, only that part is left. -/
theorem dropToByte_append (offset : Nat) (a b : Text) :
    dropToByte (offset + byteLength a) offset (a ++ b) = (offset + byteLength a, b) := by
  induction a generalizing offset with
  | nil =>
    cases b with
    | nil => rfl
    | cons c b => simp [dropToByte]
  | cons c a ih =>
    have hsize : 0 < c.utf8Size := Char.utf8Size_pos c
    have hlt : ¬ offset + (c.utf8Size + byteLength a) ≤ offset := by omega
    rw [List.cons_append, byteLength_cons, dropToByte, if_neg hlt, ← Nat.add_assoc, ih]

/-- From the end of a first part on, the closing is that of the rest. -/
theorem closingFrom_append (a b : Text) :
    closingFrom (a ++ b) (byteLength a) =
      (splitAtClosing 0 b).map fun (before, _) => byteLength a + byteLength before := by
  have hdrop := dropToByte_append 0 a b
  rw [Nat.zero_add] at hdrop
  unfold closingFrom
  rw [hdrop]

/-- The expression that an opening starts ends where the text behind the opening closes it. -/
theorem closingFrom_opening (before after : Text) :
    closingFrom (before ++ opening ++ after) (byteLength before + 2) =
      (splitAtClosing 0 after).map fun (inside, _) => byteLength before + 2 + byteLength inside := by
  have hlength : byteLength (before ++ opening) = byteLength before + 2 := byteLength_append _ _
  rw [← hlength]
  exact closingFrom_append (before ++ opening) after

/-- From any place in a text on, following the text finds the expressions that the offsets of its
openings name. -/
theorem expressionSpansFrom_eq (before t : Text) :
    expressionSpansFrom (byteLength before) t =
      (openingsAt (byteLength before) t).filterMap fun start =>
        ((before ++ t).closingFrom (start + 2)).map fun closing => ⟨start, closing + 1⟩ := by
  -- The offset is that of the text so far, which grows along the scan.
  generalize hoffset : byteLength before = offset
  fun_induction expressionSpansFrom offset t generalizing before with
  | case1 offset => simp [openingsAt]
  | case2 offset rest ih =>
    have hlength : byteLength (before ++ opening) = offset + 2 := by
      rw [byteLength_append, hoffset]
      rfl
    have hclosing := closingFrom_opening before rest
    rw [hoffset] at hclosing
    have hrest := ih (before ++ opening) hlength
    have hwhole : before ++ opening ++ rest = before ++ '$' :: '<' :: rest := by simp [opening]
    rw [hwhole] at hclosing hrest
    rw [openingsAt, List.filterMap_cons, hclosing, hrest]
    -- Whether the expression is closed only depends on what follows its opening.
    unfold closedSpan
    cases splitAtClosing 0 rest with
    | none => rfl
    | some parts => rfl
  | case3 offset c rest hopen ih =>
    have hlength : byteLength (before ++ [c]) = offset + c.utf8Size := by
      rw [byteLength_append, hoffset]
      rfl
    have hrest := ih (before ++ [c]) hlength
    have hwhole : before ++ [c] ++ rest = before ++ c :: rest := by simp
    rw [hwhole] at hrest
    rw [openingsAt, hrest]
    exact hopen

/-- Followed from its start, a text has all of its expressions. -/
theorem expressionSpansFrom_zero (t : Text) : expressionSpansFrom 0 t = t.expressionSpans :=
  expressionSpansFrom_eq [] t

/-- The openings of a first part come first, unless the parts meet in an opening. -/
theorem openingsAt_append (offset : Nat) {a b : Text} (hab : Apart a b) :
    openingsAt offset (a ++ b) = openingsAt offset a ++ openingsAt (offset + byteLength a) b := by
  fun_induction openingsAt offset a with
  | case1 => rfl
  | case2 offset rest ih =>
    have hsize : byteLength ('$' :: '<' :: rest) = 2 + byteLength rest := by
      rw [show '$' :: '<' :: rest = opening ++ rest from rfl, byteLength_append]
      rfl
    have hrest := ih hab.of_cons.of_cons
    rw [hsize, ← Nat.add_assoc]
    show offset :: openingsAt (offset + 2) (rest ++ b) = _
    rw [hrest]
    rfl
  | case3 offset c rest hopen ih =>
    rw [List.cons_append, openingsAt, ih hab.of_cons, byteLength_cons, Nat.add_assoc]
    exact hab.not_opening hopen

/-- Every occurrence of an opening is listed. -/
theorem byteLength_mem_openings (before after : Text) :
    byteLength before ∈ openings (before ++ opening ++ after) := by
  have hapart : Apart before (opening ++ after) := apart_of_head? (by simp [opening])
  unfold openings
  rw [List.append_assoc, openingsAt_append 0 hapart, Nat.zero_add]
  exact List.mem_append_right _ List.mem_cons_self

/-- What is listed as an opening is one. -/
theorem exists_append_of_mem_openingsAt {offset start : Nat} {t : Text}
    (h : start ∈ openingsAt offset t) :
    ∃ before after, t = before ++ opening ++ after ∧ start = offset + byteLength before := by
  fun_induction openingsAt offset t with
  | case1 => cases h
  | case2 offset rest ih =>
    rcases List.mem_cons.1 h with rfl | h
    · exact ⟨[], rest, rfl, rfl⟩
    · obtain ⟨before, after, rfl, rfl⟩ := ih h
      refine ⟨opening ++ before, after, by simp [opening], ?_⟩
      rw [byteLength_append, ← Nat.add_assoc]
      rfl
  | case3 offset c rest _ ih =>
    obtain ⟨before, after, rfl, rfl⟩ := ih h
    exact ⟨c :: before, after, by simp, by rw [byteLength_cons, Nat.add_assoc]⟩

/-- A span starts at an occurrence of an opening exactly if the expression ends. -/
theorem exists_mem_expressionSpans_iff (before after : Text) :
    (∃ span ∈ (before ++ opening ++ after).expressionSpans, span.start = byteLength before) ↔
      (splitAtClosing 0 after).isSome := by
  have hclosing := closingFrom_opening before after
  unfold expressionSpans
  constructor
  · rintro ⟨span, hspan, hstart⟩
    obtain ⟨start, -, hspan⟩ := List.mem_filterMap.1 hspan
    obtain ⟨closing, hfound, rfl⟩ := Option.map_eq_some_iff.1 hspan
    rw [show start = byteLength before from hstart, hclosing] at hfound
    obtain ⟨parts, hsplit, -⟩ := Option.map_eq_some_iff.1 hfound
    rw [hsplit]
    rfl
  · intro hsome
    obtain ⟨⟨inside, rest⟩, hsplit⟩ := Option.isSome_iff_exists.1 hsome
    refine ⟨⟨byteLength before, byteLength before + 2 + byteLength inside + 1⟩, ?_, rfl⟩
    refine List.mem_filterMap.2 ⟨byteLength before, byteLength_mem_openings before after, ?_⟩
    rw [hclosing, hsplit]
    rfl

/-- Openings lie at or after the offset of the text, in increasing order. -/
theorem openingsAt_sorted (offset : Nat) (t : Text) :
    (openingsAt offset t).Pairwise (· < ·) ∧ ∀ start ∈ openingsAt offset t, offset ≤ start := by
  fun_induction openingsAt offset t with
  | case1 => simp
  | case2 offset rest ih =>
    obtain ⟨hsorted, hle⟩ := ih
    constructor
    · refine List.pairwise_cons.2 ⟨fun start hstart => ?_, hsorted⟩
      have := hle start hstart
      omega
    · intro start hstart
      rcases List.mem_cons.1 hstart with rfl | hstart
      · exact Nat.le_refl _
      · have := hle start hstart
        omega
  | case3 offset c rest _ ih =>
    obtain ⟨hsorted, hle⟩ := ih
    refine ⟨hsorted, fun start hstart => ?_⟩
    have := hle start hstart
    omega

/-- No expression is listed twice. -/
theorem nodup_expressionSpans (t : Text) : t.expressionSpans.Nodup := by
  have hopenings : t.openings.Nodup := (openingsAt_sorted 0 t).1.imp Nat.ne_of_lt
  refine List.Nodup.filterMap (fun start start' s hs hs' => ?_) hopenings
  obtain ⟨closing, -, rfl⟩ := Option.map_eq_some_iff.1 hs
  obtain ⟨closing', -, hspan⟩ := Option.map_eq_some_iff.1 hs'
  exact (congrArg Span.start hspan).symm

end Text

namespace Forest

/-! ## The operations of a forest -/

mutual

/-- The spans of the operations in a node, an operation before those inside it. -/
def nodeSpans : Node → List Span
  | .text _ => []
  | .operation name parameters span => span :: (spans name ++ partsSpans parameters)

/-- The spans of the operations in a forest, inner ones included. -/
def spans : Forest → List Span
  | [] => []
  | node :: rest => nodeSpans node ++ spans rest

/-- The spans of the operations in some parameters. -/
def partsSpans : List Forest → List Span
  | [] => []
  | part :: rest => spans part ++ partsSpans rest

end

mutual

/-- There is a span for every operation of a node. -/
theorem length_nodeSpans (node : Node) : (nodeSpans node).length = nodeOperations node := by
  cases node with
  | text value => simp [nodeSpans, nodeOperations]
  | operation name parameters span =>
    have hname := length_spans name
    have hparameters := length_partsSpans parameters
    simp only [nodeSpans, nodeOperations, List.length_cons, List.length_append]
    omega

/-- There are as many spans as operations. -/
theorem length_spans (forest : Forest) : (spans forest).length = operationCount forest := by
  cases forest with
  | nil => simp [spans, operationCount]
  | cons node rest =>
    have hnode := length_nodeSpans node
    have hrest := length_spans rest
    simp only [spans, operationCount, List.length_append]
    omega

/-- So there is for every operation of parameters. -/
theorem length_partsSpans (parts : List Forest) :
    (partsSpans parts).length = partsOperations parts := by
  cases parts with
  | nil => simp [partsSpans, partsOperations]
  | cons part rest =>
    have hpart := length_spans part
    have hrest := length_partsSpans rest
    simp only [partsSpans, partsOperations, List.length_append]
    omega

end

/-- The forest without nodes has no spans. -/
@[simp] theorem spans_nil : spans [] = [] := by simp [spans]

/-- The spans of a forest are those of its nodes in order. -/
@[simp] theorem spans_cons (node : Node) (rest : Forest) :
    spans (node :: rest) = nodeSpans node ++ spans rest := by simp [spans]

/-- A text has no spans. -/
@[simp] theorem nodeSpans_text (value : Text) : nodeSpans (.text value) = [] := by
  simp [nodeSpans]

/-- The spans of two forests in a row are those of the one and then of the other. -/
@[simp] theorem spans_append (a b : Forest) : spans (a ++ b) = spans a ++ spans b := by
  induction a with
  | nil => simp
  | cons node a ih => simp [ih]

/-- Pushing a node adds its spans, whether or not two texts become one. -/
@[simp] theorem spans_push (forest : Forest) (node : Node) :
    spans (push forest node) = spans forest ++ nodeSpans node := by
  fun_induction push forest node <;> simp_all

/-- So does pushing the nodes of a forest. -/
@[simp] theorem spans_extend (forest nodes : Forest) :
    spans (extend forest nodes) = spans forest ++ spans nodes := by
  induction nodes generalizing forest with
  | nil => simp [extend]
  | cons node nodes ih =>
    have hrest := ih (push forest node)
    simp only [extend, List.foldl_cons] at hrest ⊢
    simp [hrest]

/-- No parameters have no spans. -/
@[simp] theorem partsSpans_nil : partsSpans [] = [] := by simp [partsSpans]

/-- The spans of parameters are those of each in order. -/
@[simp] theorem partsSpans_cons (part : Forest) (rest : List Forest) :
    partsSpans (part :: rest) = spans part ++ partsSpans rest := by simp [partsSpans]

/-- The spans of parameters in a row are those of the first and then of the others. -/
@[simp] theorem partsSpans_append (a b : List Forest) :
    partsSpans (a ++ b) = partsSpans a ++ partsSpans b := by
  induction a with
  | nil => simp
  | cons part a ih => simp [ih]

namespace OpenExpression

/-- The operations inside an expression stay when its end never comes. -/
theorem spans_spread (e : OpenExpression) : spans e.spread = partsSpans e.parts := by
  have hparts (mark : Text) (parts : List Forest) :
      spans (spreadParts mark parts) = partsSpans parts := by
    induction parts generalizing mark with
    | nil => simp [spreadParts]
    | cons part rest ih => simp [spreadParts, ih]
  obtain ⟨name, parameters, heq, hspread, -⟩ := e.exists_name
  simp [hspread, heq, hparts]

/-- Closing an expression puts its own span before those inside it. -/
theorem nodeSpans_close (e : OpenExpression) (stop : Nat) :
    nodeSpans (e.close stop) = ⟨e.start, stop⟩ :: partsSpans e.parts := by
  obtain ⟨name, parameters, heq, -, hclose⟩ := e.exists_name
  simp [hclose, heq, nodeSpans]

end OpenExpression

namespace Reading

/-! ## The spans of the forest to come -/

/-- The spans that open expressions will have left behind after the text at `offset`, from the
outermost expression to the innermost. `depth` others are open inside them. -/
def openSpans (offset : Nat) (t : Text) : Nat → List OpenExpression → List Span
  | _, [] => []
  | depth, e :: outer =>
    openSpans offset t (depth + 1) outer ++ Text.closedSpan e.start offset depth t ++
      partsSpans e.parts

/-- The spans that what has been read will have left behind after the text at `offset`. -/
def spansBefore (r : Reading) (offset : Nat) (t : Text) : List Span :=
  spans r.done ++ openSpans offset t 0 r.pending

/-- Texts that close the same expressions, `shift` levels further out in the second one. -/
theorem openSpans_congr (shift : Nat) {offset offset' : Nat} {t t' : Text}
    (h : ∀ start depth, Text.closedSpan start offset depth t =
      Text.closedSpan start offset' (depth + shift) t')
    (depth : Nat) (pending : List OpenExpression) :
    openSpans offset t depth pending = openSpans offset' t' (depth + shift) pending := by
  induction pending generalizing depth with
  | nil => rfl
  | cons e outer ih => rw [openSpans, openSpans, ih, h, Nat.add_right_comm]

/-- A node that is pushed adds its spans at the end. -/
theorem spansBefore_push (r : Reading) (node : Node) (offset : Nat) (t : Text) :
    (r.push node).spansBefore offset t = r.spansBefore offset t ++ nodeSpans node := by
  obtain ⟨done, pending⟩ := r
  cases pending with
  | nil => simp [spansBefore, push, openSpans]
  | cons e outer => simp [spansBefore, push, openSpans, OpenExpression.parts]

/-- Beginning the next part adds no spans. -/
theorem spansBefore_nextPart (r : Reading) (offset : Nat) (t : Text) :
    r.nextPart.spansBefore offset t = r.spansBefore offset t := by
  obtain ⟨done, pending⟩ := r
  cases pending with
  | nil => rfl
  | cons e outer => simp [spansBefore, nextPart, openSpans, OpenExpression.parts]

/-- At the end of the text nothing is closed any more. -/
theorem spans_finish (r : Reading) (offset : Nat) :
    spans r.finish = r.spansBefore offset [] := by
  obtain ⟨done, pending⟩ := r
  have hfinish (depth : Nat) : spans (finish ⟨done, pending⟩) =
      spans done ++ openSpans offset [] depth pending := by
    induction pending generalizing depth with
    | nil => simp [finish, openSpans]
    | cons e outer ih =>
      rw [finish_cons, spans_extend, ih (depth + 1), OpenExpression.spans_spread, openSpans,
        Text.closedSpan_nil]
      simp
  exact hfinish 0

/-- A `>` that closes nothing and any other character that is no delimiter move nothing. -/
theorem spansBefore_cons (r : Reading) (offset : Nat) {c : Char} {rest : Text}
    (hclose : c = '>' → r.pending = [])
    (hopen : ∀ tail, c = '$' → rest = '<' :: tail → False) :
    r.spansBefore offset (c :: rest) = r.spansBefore (offset + c.utf8Size) rest := by
  unfold spansBefore
  by_cases hc : c = '>'
  · rw [hclose hc]
    rfl
  · have hshift : openSpans offset (c :: rest) 0 r.pending =
        openSpans (offset + c.utf8Size) rest 0 r.pending :=
      openSpans_congr 0 (fun start depth => Text.closedSpan_cons start offset depth hc hopen) 0 _
    rw [hshift]

/-- A `>` that ends an expression makes it an operation with the span that was foreseen. -/
theorem spansBefore_closing (done : Forest) (e : OpenExpression) (outer : List OpenExpression)
    (offset : Nat) (rest : Text) :
    spansBefore ⟨done, e :: outer⟩ offset ('>' :: rest) =
      (push ⟨done, outer⟩ (e.close (offset + 1))).spansBefore (offset + 1) rest := by
  have hshift : openSpans (offset + 1) rest 0 outer = openSpans offset ('>' :: rest) 1 outer :=
    openSpans_congr 1
      (fun start depth => (Text.closedSpan_succ_closing start offset depth rest).symm) 0 outer
  rw [spansBefore_push, OpenExpression.nodeSpans_close]
  simp [spansBefore, openSpans, hshift, Text.closedSpan_zero_closing]

/-- The forest at the end of a text has the spans that are known before the text and those of the
expressions in it. -/
theorem spans_finish_read (r : Reading) (offset : Nat) (t : Text) :
    spans (r.read offset t).finish =
      r.spansBefore offset t ++ Text.expressionSpansFrom offset t := by
  fun_induction Text.expressionSpansFrom offset t generalizing r with
  | case1 offset => rw [read_nil, spans_finish r offset, List.append_nil]
  | case2 offset rest ih =>
    have hshift : openSpans offset ('$' :: '<' :: rest) 0 r.pending =
        openSpans (offset + 2) rest 1 r.pending :=
      openSpans_congr 1 (fun start depth => Text.closedSpan_opening start offset depth rest) 0 _
    rw [read_opening, ih]
    simp [spansBefore, openSpans, hshift, OpenExpression.parts]
  | case3 offset c rest hopen ih =>
    rcases r.admits_or_mark c with hadmits | ⟨done, e, outer, rfl, rfl | rfl⟩
    · have hclose : c = '>' → r.pending = [] := fun hc => pending_eq_nil_of_admits (hc ▸ hadmits)
      rw [read_cons r offset hadmits hopen, ih, spansBefore_push, nodeSpans_text, List.append_nil,
        spansBefore_cons r offset hclose hopen]
    · rw [read_closing, spansBefore_closing]
      exact ih _
    · rw [spansBefore_cons _ _ (fun hmark => absurd hmark e.mark_ne_closing) hopen, read_mark]
      rw [e.utf8Size_mark] at ih ⊢
      rw [ih, spansBefore_nextPart]

end Reading

end Forest

/-- In a text that nests within the limit, the operations are the expressions that end: their spans
are those of the openings with their closings, each once. So there are as many operations as openings
with a closing, and an operation starts at an opening exactly if its expression ends. -/
theorem Tree.spans_nodes_parse {limit : Nat} {source : Text} (h : source.nesting ≤ limit) :
    let tree := Tree.parse limit source
    let spans := Forest.spans tree.nodes
    spans = (source.openings.filterMap fun start =>
        (source.closingFrom (start + 2)).map fun closing => ⟨start, closing + 1⟩) ∧
      spans.Nodup ∧
      tree.operationCount =
        (source.openings.filter fun start => (source.closingFrom (start + 2)).isSome).length ∧
      ∀ before after, source = before ++ opening ++ after →
        ((∃ span ∈ spans, span.start = before.byteLength) ↔
          (Text.splitAtClosing 0 after).isSome) := by
  intro tree spans
  -- The spans of the nodes are those that the scan along the text finds.
  have hspans : spans = source.expressionSpans := by
    have hread := Forest.Reading.spans_finish_read {} 0 source
    rw [← Tree.nodes_parse h, Text.expressionSpansFrom_zero] at hread
    exact hread
  refine ⟨hspans, hspans ▸ source.nodup_expressionSpans, ?_, ?_⟩
  · have hcount : tree.operationCount = spans.length := (Forest.length_spans _).symm
    rw [hcount, hspans]
    unfold Text.expressionSpans
    rw [List.length_filterMap_eq_countP, List.countP_eq_length_filter]
    simp
  · intro before after hsource
    rw [hspans, hsource]
    exact Text.exists_mem_expressionSpans_iff before after

/-- The first of four openings never ends, as the `>` at the end of the text belongs to the third one:
only the other three become operations. -/
theorem Tree.spans_nodes_parse_unterminated :
    let source : Text := "x$<A:$<B>,$<$<C>D:é>"
    source.nesting ≤ 3 ∧
      Forest.spans (Tree.parse 3 source).nodes = [⟨5, 9⟩, ⟨10, 21⟩, ⟨12, 16⟩] ∧
      (Tree.parse 3 source).operationCount = 3 := by
  intro source
  have hnesting : source.nesting ≤ 3 := by decide
  obtain ⟨hspans, -, hcount, -⟩ := Tree.spans_nodes_parse hnesting
  refine ⟨hnesting, ?_, ?_⟩
  · rw [hspans]
    decide
  · rw [hcount]
    decide

end BuildExpr
