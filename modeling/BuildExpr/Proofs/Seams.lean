import BuildExpr.Proofs.Spelling

/-!
# Reading one text after another

No expression is open where a closed text ends. So a text that is read after it is read as it is by
itself: its nodes go to the end of what is there, and they differ from its own nodes in their spans only
(`Forest.ofTokens_append`). Two facts about readings are behind this, each an induction along the second
text: reading on makes no use of what is outside all open expressions (`Reading.read_behind`), nor of any
span (`Reading.withoutSpans_read`).
-/

namespace BuildExpr

/-! ## Texts -/

namespace Text

/-- The nesting of a text that follows another one is counted from the expressions still open. -/
theorem nestingFrom_append (depth : Nat) {a b : Text} (hab : Apart a b) :
    nestingFrom depth (a ++ b) = max (nestingFrom depth a) (nestingFrom (openAfter depth a) b) := by
  induction a using opening_induction generalizing depth with
  | nil =>
    rw [List.nil_append, nestingFrom_nil, openAfter_nil]
    exact (Nat.max_eq_right (le_nestingFrom depth b)).symm
  | opening rest ih =>
    rw [nestingFrom_opening, openAfter_opening, ← ih _ hab.of_cons.of_cons]
    exact nestingFrom_opening depth (rest ++ b)
  | char c rest hopen ih =>
    have hopen' := hab.not_opening hopen
    rw [List.cons_append]
    by_cases hclose : c = '>'
    · subst hclose
      rw [nestingFrom_closing, nestingFrom_closing, openAfter_closing, ih _ hab.of_cons,
        Nat.max_assoc]
    · rw [nestingFrom_cons depth hclose hopen', nestingFrom_cons depth hclose hopen,
        openAfter_cons depth hclose hopen, ih _ hab.of_cons]

/-- Behind a closed text it is counted from the start. -/
theorem Closed.nesting_append {a b : Text} (ha : Closed a) (hab : Apart a b) :
    (a ++ b).nesting = max a.nesting b.nesting := by
  unfold nesting
  rw [nestingFrom_append 0 hab, ha.openAfter_eq_zero]

end Text

/-! ## Forests -/

namespace Forest

/-- A node may be pushed before or after the forest it is at the end of. -/
theorem extend_push (forest nodes : Forest) (node : Node) :
    extend forest (push nodes node) = push (extend forest nodes) node := by
  fun_induction push nodes node generalizing forest with
  | case1 => exact (push_text_nil forest).symm
  | case2 => rfl
  | case3 before value => exact (push_push_text forest before value).symm
  | case4 first rest node hsingle ih => exact ih (push forest first)

/-- So may the nodes of a forest. -/
theorem extend_extend (forest nodes more : Forest) :
    extend forest (extend nodes more) = extend (extend forest nodes) more := by
  induction more generalizing nodes with
  | nil => rfl
  | cons node rest ih =>
    rw [extend_cons, extend_cons, ih, extend_push]

/-! ### Spans forgotten -/

/-- Spans are forgotten in two forests in a row as in each of them. -/
theorem withoutSpans_append (a b : Forest) :
    withoutSpans (a ++ b) = withoutSpans a ++ withoutSpans b := by
  induction a with
  | nil => simp [withoutSpans]
  | cons node a ih => simp [withoutSpans, ih]

/-- No node is lost with its span. -/
theorem withoutSpans_eq_nil_iff (forest : Forest) : withoutSpans forest = [] ↔ forest = [] := by
  cases forest with
  | nil => simp [withoutSpans]
  | cons node rest => simp [withoutSpans]

/-- A node is pushed in the same way when spans are forgotten. -/
theorem withoutSpans_push (forest : Forest) (node : Node) :
    withoutSpans (push forest node) = push (withoutSpans forest) (nodeWithoutSpans node) := by
  induction forest with
  | nil =>
    cases node with
    | text value =>
      cases value with
      | nil => simp [push, withoutSpans, nodeWithoutSpans]
      | cons c value => simp [push, withoutSpans, nodeWithoutSpans]
    | operation name parameters span => simp [push, withoutSpans, nodeWithoutSpans]
  | cons first rest ih =>
    -- Only a single text at the end can be joined with the node, and it is one with and without spans.
    by_cases h : ∀ before, first = .text before → rest ≠ []
    · have h' : ∀ before, nodeWithoutSpans first = .text before → withoutSpans rest ≠ [] := by
        cases first with
        | text value => exact fun _ _ hrest => h value rfl ((withoutSpans_eq_nil_iff rest).1 hrest)
        | operation name parameters span => simp [nodeWithoutSpans]
      rw [push_cons h, withoutSpans, withoutSpans, push_cons h', ih]
    · push Not at h
      obtain ⟨before, rfl, rfl⟩ := h
      cases node with
      | text value => simp [push, withoutSpans, nodeWithoutSpans]
      | operation name parameters span => simp [push, withoutSpans, nodeWithoutSpans]

/-- So are the nodes of a forest. -/
theorem withoutSpans_extend (forest nodes : Forest) :
    withoutSpans (extend forest nodes) = extend (withoutSpans forest) (withoutSpans nodes) := by
  induction nodes generalizing forest with
  | nil => simp [extend, withoutSpans]
  | cons node rest ih =>
    rw [extend_cons, ih, withoutSpans_push, withoutSpans, extend_cons]

/-- Spans are forgotten in parameters in a row as in each of them. -/
theorem partsWithoutSpans_append (a b : List Forest) :
    partsWithoutSpans (a ++ b) = partsWithoutSpans a ++ partsWithoutSpans b := by
  induction a with
  | nil => simp [partsWithoutSpans]
  | cons part a ih => simp [partsWithoutSpans, ih]

namespace OpenExpression

/-- An open expression with all spans forgotten, and where it was opened. -/
def withoutSpans (e : OpenExpression) : OpenExpression :=
  ⟨0, partsWithoutSpans e.finished, e.current.withoutSpans⟩

/-- The parts of an open expression are its parts when spans are forgotten. -/
theorem parts_withoutSpans (e : OpenExpression) : e.withoutSpans.parts = partsWithoutSpans e.parts := by
  rw [parts, parts, partsWithoutSpans_append]
  simp [withoutSpans, partsWithoutSpans]

/-- Its mark does not depend on spans. -/
theorem mark_withoutSpans (e : OpenExpression) : e.withoutSpans.mark = e.mark := by
  obtain ⟨start, finished, current⟩ := e
  cases finished with
  | nil => simp [mark, withoutSpans, partsWithoutSpans]
  | cons part rest => simp [mark, withoutSpans, partsWithoutSpans]

/-- Nor does the operation that it ends as, but for its own span. -/
theorem nodeWithoutSpans_close (e : OpenExpression) (stop : Nat) :
    nodeWithoutSpans (e.close stop) = e.withoutSpans.close 0 := by
  obtain ⟨name, parameters, hparts, -, hclose⟩ := e.exists_name
  have hparts' := e.parts_withoutSpans
  rw [hparts, partsWithoutSpans] at hparts'
  rw [hclose, nodeWithoutSpans, close, hparts']
  rfl

/-- Parts are spread with their marks in the same way when spans are forgotten. -/
theorem spreadParts_withoutSpans (mark : Text) (rest : List Forest) :
    spreadParts mark (partsWithoutSpans rest) = (spreadParts mark rest).withoutSpans := by
  induction rest generalizing mark with
  | nil => simp [spreadParts, partsWithoutSpans, Forest.withoutSpans]
  | cons part rest ih =>
    simp [spreadParts, partsWithoutSpans, Forest.withoutSpans, nodeWithoutSpans, withoutSpans_append,
      ih]

/-- So is an expression that never ends. -/
theorem spread_withoutSpans (e : OpenExpression) :
    e.withoutSpans.spread = e.spread.withoutSpans := by
  obtain ⟨name, parameters, hparts, hspread, -⟩ := e.exists_name
  have hparts' := e.parts_withoutSpans
  rw [hparts, partsWithoutSpans] at hparts'
  rw [hspread, spread, hparts']
  simp [Forest.withoutSpans, nodeWithoutSpans, withoutSpans_append, spreadParts_withoutSpans]

end OpenExpression

namespace Reading

/-- What has been read, with all spans forgotten. -/
def withoutSpans (r : Reading) : Reading :=
  ⟨r.done.withoutSpans, r.pending.map OpenExpression.withoutSpans⟩

/-- A node that has been read goes to the same place when spans are forgotten. -/
theorem withoutSpans_push (r : Reading) (node : Node) :
    (r.push node).withoutSpans = r.withoutSpans.push (nodeWithoutSpans node) := by
  obtain ⟨done, pending⟩ := r
  cases pending with
  | nil => simp [push, withoutSpans, Forest.withoutSpans_push]
  | cons e outer => simp [push, withoutSpans, OpenExpression.withoutSpans, Forest.withoutSpans_push]

/-- So does the next part. -/
theorem withoutSpans_nextPart (r : Reading) : r.nextPart.withoutSpans = r.withoutSpans.nextPart := by
  obtain ⟨done, pending⟩ := r
  cases pending with
  | nil => rfl
  | cons e outer =>
    simpa [nextPart, withoutSpans, OpenExpression.withoutSpans, Forest.withoutSpans] using
      e.parts_withoutSpans.symm

/-- What the reading comes to in the end is the same when spans are forgotten. -/
theorem withoutSpans_finish (r : Reading) : r.finish.withoutSpans = r.withoutSpans.finish := by
  obtain ⟨done, pending⟩ := r
  induction pending with
  | nil => rfl
  | cons e outer ih =>
    have hfirst : withoutSpans ⟨done, e :: outer⟩ =
        ⟨done.withoutSpans, e.withoutSpans :: outer.map OpenExpression.withoutSpans⟩ := rfl
    rw [finish_cons, withoutSpans_extend, ih, hfirst, finish_cons, OpenExpression.spread_withoutSpans]
    rfl

/-- Where a character belongs does not depend on spans. -/
theorem place_withoutSpans (r : Reading) : r.withoutSpans.place = r.place := by
  obtain ⟨done, pending⟩ := r
  cases pending with
  | nil => rfl
  | cons e outer =>
    obtain ⟨start, finished, current⟩ := e
    cases finished with
    | nil => simp [place, withoutSpans, OpenExpression.withoutSpans, partsWithoutSpans]
    | cons part rest => simp [place, withoutSpans, OpenExpression.withoutSpans, partsWithoutSpans]

/-- Readings that differ in their spans read on alike, wherever the text stands. -/
theorem withoutSpans_read {r s : Reading} (h : r.withoutSpans = s.withoutSpans) (offset offset' : Nat)
    (t : Text) : (r.read offset t).withoutSpans = (s.read offset' t).withoutSpans := by
  induction t using Text.opening_induction generalizing r s offset offset' with
  | nil =>
    rw [read_nil, read_nil]
    exact h
  | opening rest ih =>
    rw [read_opening, read_opening]
    refine ih ?_ _ _
    obtain ⟨hdone, hpending⟩ := Reading.mk.inj h
    simp [withoutSpans, OpenExpression.withoutSpans, hdone, hpending]
  | char c rest hopen ih =>
    have hplace : s.place = r.place := by rw [← place_withoutSpans s, ← h, place_withoutSpans]
    rcases r.admits_or_mark c with hadmits | ⟨done, e, outer, rfl, hmark⟩
    · rw [read_cons r offset hadmits hopen, read_cons s offset' (hplace ▸ hadmits) hopen]
      exact ih (by rw [withoutSpans_push, withoutSpans_push, h]) _ _
    · -- The other reading has an expression open that differs from this one in its spans.
      obtain ⟨done', pending'⟩ := s
      obtain ⟨hdone, hpending⟩ := Reading.mk.inj h
      cases pending' with
      | nil => cases hpending
      | cons e' outer' =>
        obtain ⟨he, houter⟩ := List.cons.inj hpending
        have hmarks : e'.mark = e.mark := by
          rw [← e'.mark_withoutSpans, ← show e.withoutSpans = e'.withoutSpans from he,
            e.mark_withoutSpans]
        rcases hmark with rfl | rfl
        · rw [read_closing, read_closing]
          refine ih ?_ _ _
          have hclose : e.withoutSpans.close 0 = e'.withoutSpans.close 0 := congrArg (·.close 0) he
          rw [withoutSpans_push, withoutSpans_push, OpenExpression.nodeWithoutSpans_close,
            OpenExpression.nodeWithoutSpans_close, hclose]
          exact congrArg (push · _) (congrArg₂ Reading.mk hdone houter)
        · rw [← hmarks, read_mark, hmarks, read_mark]
          exact ih (by rw [withoutSpans_nextPart, withoutSpans_nextPart, h]) _ _

/-! ### What is there before -/

/-- What has been read, behind a forest. -/
def behind (forest : Forest) (r : Reading) : Reading := ⟨forest.extend r.done, r.pending⟩

/-- A node is pushed behind the forest where it is pushed without it. -/
theorem behind_push (forest : Forest) (r : Reading) (node : Node) :
    behind forest (r.push node) = (behind forest r).push node := by
  obtain ⟨done, pending⟩ := r
  cases pending with
  | nil => simp [behind, push, extend_push]
  | cons e outer => rfl

/-- Nothing that is read later depends on it. -/
theorem read_behind (forest : Forest) (r : Reading) (offset : Nat) (t : Text) :
    (behind forest r).read offset t = behind forest (r.read offset t) := by
  induction t using Text.opening_induction generalizing r offset with
  | nil => rw [read_nil, read_nil]
  | opening rest ih =>
    rw [read_opening, read_opening]
    exact ih { r with pending := ⟨offset, [], []⟩ :: r.pending } (offset + 2)
  | char c rest hopen ih =>
    rcases r.admits_or_mark c with hadmits | ⟨done, e, outer, rfl, rfl | rfl⟩
    · have hplace : (behind forest r).place.admits c = true := hadmits
      rw [read_cons r offset hadmits hopen, read_cons _ offset hplace hopen, ← behind_push]
      exact ih _ _
    · rw [behind, read_closing, read_closing, ← ih, behind_push]
      rfl
    · rw [behind, read_mark, read_mark, ← ih]
      rfl

/-- In the end, all that has been read is behind the forest. -/
theorem finish_behind (forest : Forest) (r : Reading) :
    (behind forest r).finish = forest.extend r.finish := by
  obtain ⟨done, pending⟩ := r
  induction pending with
  | nil => rfl
  | cons e outer ih =>
    rw [finish_cons, extend_extend, ← ih]
    rfl

/-- Reading two texts in a row is reading the second one on. -/
theorem read_append (r : Reading) (offset : Nat) {a b : Text} (hab : Text.Apart a b) :
    r.read offset (a ++ b) = (r.read offset a).read (offset + a.byteLength) b := by
  induction a using Text.opening_induction generalizing r offset with
  | nil => rw [read_nil]; rfl
  | opening rest ih =>
    have hread := ih { r with pending := ⟨offset, [], []⟩ :: r.pending } (offset + 2)
      hab.of_cons.of_cons
    have hlength : Text.byteLength ('$' :: '<' :: rest) = 2 + rest.byteLength :=
      Text.byteLength_append opening rest
    rw [read_opening, hlength, ← Nat.add_assoc, ← hread]
    exact read_opening r offset (rest ++ b)
  | char c rest hopen ih =>
    have hopen' := hab.not_opening hopen
    rw [List.cons_append, Text.byteLength_cons, ← Nat.add_assoc]
    rcases r.admits_or_mark c with hadmits | ⟨done, e, outer, rfl, rfl | rfl⟩
    · rw [read_cons r offset hadmits hopen', read_cons r offset hadmits hopen]
      exact ih _ _ hab.of_cons
    · rw [read_closing, read_closing]
      exact ih _ _ hab.of_cons
    · rw [read_mark, read_mark, OpenExpression.utf8Size_mark]
      exact ih _ _ hab.of_cons

end Reading

/-- Behind a closed text, a text has the nodes it has by itself, except for their spans. -/
theorem ofTokens_append {a b : Text} (ha : a.Closed) (hab : Text.Apart a b) :
    ∃ nodes, withoutSpans nodes = withoutSpans (ofTokens (Token.scan b)) ∧
      ofTokens (Token.scan (a ++ b)) = extend (ofTokens (Token.scan a)) nodes := by
  have hfirst : Reading.read {} 0 a = Reading.behind (ofTokens (Token.scan a)) {} := read_closed ha
  refine ⟨(Reading.read {} (0 + a.byteLength) b).finish, ?_, ?_⟩
  · rw [Reading.withoutSpans_finish, Reading.withoutSpans_read rfl (0 + a.byteLength) 0,
      ← Reading.withoutSpans_finish]
    rfl
  · change (Reading.read {} 0 (a ++ b)).finish = _
    rw [Reading.read_append {} 0 hab, hfirst, Reading.read_behind, Reading.finish_behind]

end Forest

end BuildExpr
