import BuildExpr.Proofs.Closed
import BuildExpr.Tree

/-!
# Reading a text along its characters

A forest is read from tokens, but what is to be shown about it is mostly a fact about the characters
of its text. Here the detour over the tokens is taken out once. `Reading.read` is the reading after a
further text, and there is one equation for each kind of character: an opening, a mark where it is one,
and any other character, which becomes text at the end of what is being read. Where a character may
stand as text depends on the `Place` at which the reading is, and a whole text of such characters is
read as one text node (`read_text`). Likewise `nestingFrom` counts the nesting of a text along its
characters, and it is the nesting of the tokens (`deepest_scan`).
-/

namespace BuildExpr

/-! ## How deep a text nests -/

namespace Text

/-- The greatest number of expressions open at once in a text that starts inside `depth` of them. -/
def nestingFrom : Nat → Text → Nat
  | depth, [] => depth
  | depth, '$' :: '<' :: rest => nestingFrom (depth + 1) rest
  | depth, '>' :: rest => max depth (nestingFrom (depth - 1) rest)
  | depth, _ :: rest => nestingFrom depth rest

/-- The greatest number of expressions open at once, those that are never closed included. -/
def nesting (t : Text) : Nat := nestingFrom 0 t

/-- At the end of a text no more operations are opened. -/
@[simp] theorem nestingFrom_nil (depth : Nat) : nestingFrom depth [] = depth := by
  simp [nestingFrom]

/-- An opening opens one more. -/
@[simp] theorem nestingFrom_opening (depth : Nat) (t : Text) :
    nestingFrom depth ('$' :: '<' :: t) = nestingFrom (depth + 1) t := by simp [nestingFrom]

/-- Behind a closing the count goes on from one less. -/
@[simp] theorem nestingFrom_closing (depth : Nat) (t : Text) :
    nestingFrom depth ('>' :: t) = max depth (nestingFrom (depth - 1) t) := by simp [nestingFrom]

/-- A character that is no delimiter and starts none does not count. -/
theorem nestingFrom_cons {c : Char} {t : Text} (depth : Nat) (hclose : c ≠ '>')
    (hopen : ∀ rest, c = '$' → t = '<' :: rest → False) :
    nestingFrom depth (c :: t) = nestingFrom depth t := by
  rw [nestingFrom]
  · exact hopen
  · exact hclose

/-- Outside all expressions a `>` does not count either. -/
theorem nestingFrom_zero_cons {c : Char} {t : Text}
    (hopen : ∀ rest, c = '$' → t = '<' :: rest → False) :
    nestingFrom 0 (c :: t) = nestingFrom 0 t := by
  by_cases hclose : c = '>'
  · rw [hclose, nestingFrom_closing, Nat.zero_max]
  · exact nestingFrom_cons 0 hclose hopen

/-- As many expressions are open at once as at the start. -/
theorem le_nestingFrom (depth : Nat) (t : Text) : depth ≤ nestingFrom depth t := by
  fun_induction nestingFrom depth t with
  | case1 => exact Nat.le_refl _
  | case2 depth rest ih => omega
  | case3 depth rest ih => exact Nat.le_max_left _ _
  | case4 depth c rest _ _ ih => exact ih

end Text

namespace Token

/-- A character put in front of tokens changes nothing about their nesting. -/
theorem deepestFrom_consChar (depth offset : Nat) (c : Char) (tokens : List Token) :
    deepestFrom depth (consChar offset c tokens) = deepestFrom depth tokens := by
  fun_cases consChar offset c tokens with
  | case1 => rfl
  | case2 => rfl

/-- The nesting of the tokens of a text is that of the text. -/
theorem deepestFrom_scanFrom (depth offset : Nat) (t : Text) :
    deepestFrom depth (scanFrom depth offset t) = Text.nestingFrom depth t := by
  fun_induction scanFrom depth offset t with
  | case1 => simp [deepestFrom]
  | case2 depth offset rest ih =>
    rw [Text.nestingFrom_opening, ← ih]
    rfl
  | case3 depth offset rest ih =>
    rw [Text.nestingFrom_closing, Nat.succ_sub_one, ← ih]
    rfl
  | case4 depth offset rest ih =>
    rw [Text.nestingFrom_cons _ (by decide) (by simp), ← ih]
    rfl
  | case5 depth offset rest ih =>
    rw [Text.nestingFrom_cons _ (by decide) (by simp), ← ih]
    rfl
  | case6 depth offset c rest hopen hclose _ _ ih =>
    rw [deepestFrom_consChar, ih]
    cases depth with
    | zero => exact (Text.nestingFrom_zero_cons hopen).symm
    | succ depth => exact (Text.nestingFrom_cons _ (fun hc => hclose depth rfl hc) hopen).symm

/-- The nesting of a text is that of its tokens. -/
theorem deepest_scan (t : Text) : deepest (scan t) = t.nesting := deepestFrom_scanFrom 0 0 t

/-- Some expression is opened in the tokens of a text if there is an opening in it. -/
theorem anyOpening_scanFrom (depth offset : Nat) (t : Text) :
    anyOpening (scanFrom depth offset t) = (Text.splitAtOpening t).isSome := by
  fun_induction scanFrom depth offset t with
  | case1 => rfl
  | case2 => rfl
  | case3 depth offset rest ih | case4 depth offset rest ih | case5 depth offset rest ih =>
    rw [Text.splitAtOpening, Option.isSome_map, ← ih]
    · rfl
    · simp
  | case6 depth offset c rest hopen _ _ _ ih =>
    have hchar (tokens : List Token) :
        anyOpening (consChar offset c tokens) = anyOpening tokens := by
      fun_cases consChar offset c tokens with
      | case1 => rfl
      | case2 => rfl
    rw [hchar, ih, Text.splitAtOpening, Option.isSome_map]
    exact hopen

end Token

namespace Forest

/-! ## Text at the end of a forest -/

/-- No opening begins in a text without openings, whatever but a `<` comes after the text. -/
theorem not_opening_of_text {c : Char} {value rest : Text} (hopening : ¬ opening <:+: c :: value)
    (hrest : rest.head? ≠ some '<') : ∀ tail, c = '$' → value ++ rest = '<' :: tail → False := by
  rintro tail rfl htail
  cases value with
  | nil =>
    rw [List.nil_append] at htail
    rw [htail] at hrest
    exact hrest rfl
  | cons d value =>
    obtain ⟨rfl, -⟩ := List.cons.inj htail
    exact hopening ⟨[], value, rfl⟩

/-- Only where a single text is left does a push not go past the first node. -/
theorem push_cons {first : Node} {rest : Forest} (h : ∀ before, first = .text before → rest ≠ [])
    (node : Node) : push (first :: rest) node = first :: push rest node := by
  rw [push]
  rintro before value rfl hfirst hrest
  exact h before hfirst hrest

/-- A forest with nodes has some after a push. -/
theorem push_ne_nil {forest : Forest} (h : forest ≠ []) (node : Node) : push forest node ≠ [] := by
  fun_cases push forest node with
  | case1 => exact absurd rfl h
  | case2 => simp
  | case3 => simp
  | case4 => simp

/-- Pushing the empty text changes nothing. -/
theorem push_text_nil (forest : Forest) : push forest (.text []) = forest := by
  induction forest with
  | nil => rfl
  | cons first rest ih =>
    by_cases h : ∀ before, first = .text before → rest ≠ []
    · rw [push_cons h, ih]
    · push Not at h
      obtain ⟨before, rfl, rfl⟩ := h
      simp [push]

/-- Text after text at the end of a forest is one text. -/
theorem push_push_text (forest : Forest) (a b : Text) :
    push (push forest (.text a)) (.text b) = push forest (.text (a ++ b)) := by
  induction forest with
  | nil =>
    cases a with
    | nil => rfl
    | cons c a => rfl
  | cons first rest ih =>
    by_cases h : ∀ before, first = .text before → rest ≠ []
    · have hpushed : ∀ before, first = .text before → push rest (.text a) ≠ [] :=
        fun before hfirst => push_ne_nil (h before hfirst) _
      rw [push_cons h, push_cons hpushed, push_cons h, ih]
    · push Not at h
      obtain ⟨before, rfl, rfl⟩ := h
      simp [push]

/-- Nodes are pushed one after the other. -/
theorem extend_cons (forest : Forest) (node : Node) (rest : Forest) :
    extend forest (node :: rest) = extend (push forest node) rest := rfl

/-- Where the next character belongs. -/
inductive Place where
  /-- Outside all expressions. -/
  | outside
  /-- To the name of an expression. -/
  | name
  /-- To a parameter of an expression. -/
  | parameter
deriving DecidableEq, Repr

/-- Whether a character may be text in a place: it is no mark there. -/
def Place.admits : Place → Char → Bool
  | outside, _ => true
  | name, c => c ≠ ':' && c ≠ '>'
  | parameter, c => c ≠ ',' && c ≠ '>'

/-- An open expression has a name, perhaps not all of it, and parameters. It becomes an operation with
these, or text in which they stand between marks. -/
theorem OpenExpression.exists_name (e : OpenExpression) :
    ∃ name parameters, e.parts = name :: parameters ∧
      e.spread = .text opening :: (name ++ spreadParts [':'] parameters) ∧
      ∀ stop, e.close stop = .operation name parameters ⟨e.start, stop⟩ := by
  obtain ⟨name, parameters, hparts⟩ := List.exists_cons_of_ne_nil
    (show e.parts ≠ [] from List.append_ne_nil_of_right_ne_nil _ (List.cons_ne_nil _ _))
  refine ⟨name, parameters, hparts, ?_, fun stop => ?_⟩
  · rw [spread, hparts]
    rfl
  · rw [close, hparts]

/-- The mark that ends the part being read. -/
def OpenExpression.mark (e : OpenExpression) : Char := if e.finished.isEmpty then ':' else ','

/-- The mark of a part is no closing. -/
theorem OpenExpression.mark_ne_closing (e : OpenExpression) : e.mark ≠ '>' := by
  unfold mark
  split
  · decide
  · decide

/-- It takes one byte. -/
@[simp] theorem OpenExpression.utf8Size_mark (e : OpenExpression) : e.mark.utf8Size = 1 := by
  unfold mark
  split
  · rfl
  · rfl

namespace Reading

/-! ## What has been read after a further text -/

/-- The reading after a text that stands at `offset`. -/
def read (r : Reading) (offset : Nat) (t : Text) : Reading :=
  (Token.scanFrom r.pending.length offset t).foldl step r

/-- Where the next character belongs. -/
def place (r : Reading) : Place :=
  match r.pending with
  | [] => .outside
  | e :: _ => if e.finished.isEmpty then .name else .parameter

/-- Pushing a node opens and closes nothing. -/
@[simp] theorem length_pending_push (r : Reading) (node : Node) :
    (r.push node).pending.length = r.pending.length := by
  obtain ⟨done, pending⟩ := r
  cases pending with
  | nil => rfl
  | cons e outer => rfl

/-- Pushing a node does not change where the next character belongs. -/
@[simp] theorem place_push (r : Reading) (node : Node) : (r.push node).place = r.place := by
  obtain ⟨done, pending⟩ := r
  cases pending with
  | nil => rfl
  | cons e outer => rfl

/-- Reading no text changes nothing. -/
theorem push_text_nil (r : Reading) : r.push (.text []) = r := by
  obtain ⟨done, pending⟩ := r
  cases pending with
  | nil => simp [push, Forest.push_text_nil]
  | cons e outer => simp [push, Forest.push_text_nil]

/-- Text read after text is read as one. -/
theorem push_push_text (r : Reading) (a b : Text) :
    (r.push (.text a)).push (.text b) = r.push (.text (a ++ b)) := by
  obtain ⟨done, pending⟩ := r
  cases pending with
  | nil => simp [push, Forest.push_push_text]
  | cons e outer => simp [push, Forest.push_push_text]

/-- What is left of an open expression goes to the end of what is around it. -/
theorem finish_cons (done : Forest) (e : OpenExpression) (outer : List OpenExpression) :
    finish ⟨done, e :: outer⟩ = (finish ⟨done, outer⟩).extend e.spread := rfl

/-- A character is text where it stands, or it ends the innermost expression or a part of it. -/
theorem admits_or_mark (r : Reading) (c : Char) :
    r.place.admits c = true ∨
      ∃ done e outer, r = ⟨done, e :: outer⟩ ∧ (c = '>' ∨ c = e.mark) := by
  obtain ⟨done, pending⟩ := r
  cases pending with
  | nil => exact .inl rfl
  | cons e outer =>
    by_cases hc : c = '>' ∨ c = e.mark
    · exact .inr ⟨done, e, outer, rfl, hc⟩
    · left
      by_cases hname : e.finished = []
      · simp only [OpenExpression.mark, hname, List.isEmpty_nil, if_true] at hc
        simpa [place, hname, Place.admits, and_comm] using hc
      · simp only [OpenExpression.mark, List.isEmpty_iff, hname, if_false] at hc
        simpa [place, hname, Place.admits, and_comm] using hc

/-- Only outside all expressions is a `>` text. -/
theorem pending_eq_nil_of_admits {r : Reading} (h : r.place.admits '>' = true) :
    r.pending = [] := by
  rcases r with ⟨done, _ | ⟨e, outer⟩⟩
  · rfl
  · unfold place at h
    dsimp only at h
    split at h
    · exact absurd h (by decide)
    · exact absurd h (by decide)

/-- A character in front of tokens is read first. -/
theorem foldl_step_consChar (r : Reading) (offset : Nat) (c : Char) (tokens : List Token) :
    (Token.consChar offset c tokens).foldl step r = tokens.foldl step (r.push (.text [c])) := by
  fun_cases Token.consChar offset c tokens with
  | case1 span text rest =>
    have hstep (r : Reading) (span : Span) (text : Text) :
        r.step ⟨.text, span, text⟩ = r.push (.text text) := rfl
    rw [List.foldl_cons, List.foldl_cons, hstep, hstep, push_push_text]
    rfl
  | case2 => rfl

/-- At the end of the text there is nothing to read. -/
@[simp] theorem read_nil (r : Reading) (offset : Nat) : r.read offset [] = r := by
  simp [read, Token.scanFrom]

/-- An opening begins an expression. -/
theorem read_opening (r : Reading) (offset : Nat) (rest : Text) :
    r.read offset ('$' :: '<' :: rest) =
      read { r with pending := ⟨offset, [], []⟩ :: r.pending } (offset + 2) rest := by
  simp [read, Token.scanFrom, step]

section

variable (done : Forest) (e : OpenExpression) (outer : List OpenExpression) (offset : Nat)
  (rest : Text)

/-- A `>` ends the innermost expression. -/
theorem read_closing :
    read ⟨done, e :: outer⟩ offset ('>' :: rest) =
      (push ⟨done, outer⟩ (e.close (offset + 1))).read (offset + 1) rest := by
  unfold read
  rw [length_pending_push]
  simp [Token.scanFrom, step]

/-- The mark of the part being read ends that part. -/
theorem read_mark :
    read ⟨done, e :: outer⟩ offset (e.mark :: rest) =
      read (nextPart ⟨done, e :: outer⟩) (offset + 1) rest := by
  by_cases hname : e.finished = []
  · simp [OpenExpression.mark, read, Token.scanFrom, step, nextPart, hname]
  · simp [OpenExpression.mark, read, Token.scanFrom, step, nextPart, hname]

end

/-- Any character that is no mark where it stands becomes text at the end of what is being read. -/
theorem read_cons (r : Reading) (offset : Nat) {c : Char} {rest : Text}
    (hc : r.place.admits c = true) (hopen : ∀ tail, c = '$' → rest = '<' :: tail → False) :
    r.read offset (c :: rest) = (r.push (.text [c])).read (offset + c.utf8Size) rest := by
  -- Outside all expressions, and for characters that are never marks, there is a text token.
  have htext (h : ∀ depth, r.pending.length = depth + 1 → c ≠ '>' ∧ c ≠ ':' ∧ c ≠ ',') :
      r.read offset (c :: rest) = (r.push (.text [c])).read (offset + c.utf8Size) rest := by
    unfold read
    rw [length_pending_push, ← foldl_step_consChar r offset, Token.scanFrom]
    · exact hopen
    · exact fun depth hdepth => (h depth hdepth).1
    · exact fun depth hdepth => (h depth hdepth).2.1
    · exact fun depth hdepth => (h depth hdepth).2.2
  obtain ⟨done, pending⟩ := r
  cases pending with
  | nil => exact htext (by simp)
  | cons e outer =>
    -- In a name a comma is no mark, and in a parameter a colon is none.
    by_cases hname : e.finished = []
    · simp only [place, hname, List.isEmpty_nil, if_true, Place.admits, Bool.and_eq_true,
        decide_eq_true_eq] at hc
      by_cases hcomma : c = ','
      · subst hcomma
        have hsize : Char.utf8Size ',' = 1 := rfl
        unfold read
        rw [length_pending_push, hsize]
        simp [Token.scanFrom, step, hname]
      · exact htext fun _ _ => ⟨hc.2, hc.1, hcomma⟩
    · simp only [place, List.isEmpty_iff, hname, if_false, Place.admits, Bool.and_eq_true,
        decide_eq_true_eq] at hc
      by_cases hcolon : c = ':'
      · subst hcolon
        have hsize : Char.utf8Size ':' = 1 := rfl
        unfold read
        rw [length_pending_push, hsize]
        simp [Token.scanFrom, step, hname]
      · exact htext fun _ _ => ⟨hc.2, hcolon, hc.1⟩

/-- A text of such characters is read as one text node. What follows it must not make an opening of
its last character. -/
theorem read_text (r : Reading) (offset : Nat) {value rest : Text}
    (hopening : ¬ opening <:+: value) (hadmits : ∀ c ∈ value, r.place.admits c = true)
    (hrest : rest.head? ≠ some '<') :
    r.read offset (value ++ rest) =
      (r.push (.text value)).read (offset + value.byteLength) rest := by
  induction value generalizing r offset with
  | nil => simp [push_text_nil]
  | cons c value ih =>
    have hopen := not_opening_of_text hopening hrest
    have hvalue := Text.no_opening_of_cons hopening
    have hadmits' : ∀ d ∈ value, (r.push (.text [c])).place.admits d = true := by
      intro d hd
      rw [place_push]
      exact hadmits d (List.mem_cons_of_mem c hd)
    rw [List.cons_append, read_cons r offset (hadmits c List.mem_cons_self) hopen,
      ih _ _ hvalue hadmits', push_push_text]
    simp [Nat.add_assoc]

end Reading

end Forest

/-- Some expression is opened in the tokens of a text exactly if there is an opening in it. -/
theorem Token.anyOpening_scan (t : Text) : anyOpening (scan t) = true ↔ opening <:+: t := by
  rw [scan, anyOpening_scanFrom, Option.isSome_iff_ne_none, ne_eq, Text.splitAtOpening_eq_none_iff,
    not_not]

/-- Within the limit, the nodes of a tree are what has been read at the end of its text. -/
theorem Tree.nodes_parse {limit : Nat} {source : Text} (h : source.nesting ≤ limit) :
    (Tree.parse limit source).nodes = (({} : Forest.Reading).read 0 source).finish := by
  unfold Tree.parse
  dsimp only
  rw [Token.deepest_scan, if_neg (Nat.not_lt.2 h)]
  cases hopening : Token.anyOpening (Token.scan source) with
  | true => rfl
  | false =>
    have hnone : ¬ opening <:+: source := by
      rw [← Token.anyOpening_scan, hopening]
      exact Bool.false_ne_true
    -- Without any opening the whole text is one text node.
    have hread : ({} : Forest.Reading).read 0 (source ++ []) =
        (Forest.Reading.push {} (.text source)).read (0 + source.byteLength) [] :=
      Forest.Reading.read_text {} 0 hnone (fun _ _ => rfl) (by simp)
    rw [List.append_nil, Forest.Reading.read_nil] at hread
    rw [hread]
    rfl

/-- A text without openings does not nest. -/
theorem Text.nesting_of_no_opening {t : Text} (h : ¬ opening <:+: t) : t.nesting = 0 := by
  unfold nesting
  induction t with
  | nil => exact nestingFrom_nil 0
  | cons c rest ih =>
    have hend : ([] : Text).head? ≠ some '<' := by simp
    have hopen := Forest.not_opening_of_text h hend
    rw [List.append_nil] at hopen
    rw [nestingFrom_zero_cons hopen]
    exact ih (no_opening_of_cons h)

namespace Tree

/-- A tree knows the text it was read from. -/
@[simp] theorem source_parse (limit : Nat) (source : Text) :
    (parse limit source).source = source := by
  fun_cases parse limit source with
  | case1 => rfl
  | case2 => rfl
  | case3 => rfl

/-- A tree is evaluated exactly if there is an opening in its text. -/
theorem needsEvaluation_parse (limit : Nat) (source : Text) :
    (parse limit source).needsEvaluation = true ↔ opening <:+: source := by
  rw [← Token.anyOpening_scan]
  fun_cases parse limit source with
  | case1 tokens hopening => simpa [needsEvaluation] using hopening
  | case2 tokens hopening => simpa [needsEvaluation] using hopening
  | case3 tokens hopening => simpa [needsEvaluation] using hopening

/-- A text that nests deeper than the limit is not read. -/
theorem parse_of_lt {limit : Nat} {source : Text} (h : limit < source.nesting) :
    parse limit source = .tooDeep source source.nesting limit := by
  have hopening : Token.anyOpening (Token.scan source) = true := by
    by_contra hnone
    rw [Token.anyOpening_scan] at hnone
    rw [Text.nesting_of_no_opening hnone] at h
    exact absurd h (Nat.not_lt_zero limit)
  unfold parse
  dsimp only
  rw [if_pos hopening, Token.deepest_scan, if_pos h]

/-- Limits that a text stays within read it alike. -/
theorem parse_eq_of_le {limit limit' : Nat} {source : Text} (h : source.nesting ≤ limit)
    (h' : source.nesting ≤ limit') : parse limit source = parse limit' source := by
  unfold parse
  dsimp only
  rw [Token.deepest_scan, if_neg (Nat.not_lt.2 h), if_neg (Nat.not_lt.2 h')]

end Tree

end BuildExpr
