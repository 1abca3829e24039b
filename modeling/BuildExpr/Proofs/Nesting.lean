import BuildExpr.Proofs.Reading

/-!
# A forest nests no deeper than its text

Of the expressions of a text those that never end are no operations, so a forest may nest less deep
than its text; it never nests deeper (`Tree.nesting_nodes_parse`). While a text is read, the invariant
is the `height` of the reading: how deep the operations in it would nest if every open expression
ended here. Only an opening makes it greater, and then it is at most the number of open expressions.
-/

namespace BuildExpr

namespace Forest

/-! ## The nesting of forests put together -/

/-- The forest without nodes nests no operations. -/
@[simp] theorem nesting_nil : nesting [] = 0 := by simp [nesting]

/-- A forest nests as deep as the deepest of its nodes. -/
@[simp] theorem nesting_cons (node : Node) (rest : Forest) :
    nesting (node :: rest) = max (nodeNesting node) (nesting rest) := by simp [nesting]

/-- A text nests no operations. -/
@[simp] theorem nodeNesting_text (value : Text) : nodeNesting (.text value) = 0 := by
  simp [nodeNesting]

/-- No parameters nest no operations. -/
@[simp] theorem partsNesting_nil : partsNesting [] = 0 := by simp [partsNesting]

/-- Parameters nest as deep as the deepest of them. -/
@[simp] theorem partsNesting_cons (part : Forest) (rest : List Forest) :
    partsNesting (part :: rest) = max (nesting part) (partsNesting rest) := by simp [partsNesting]

/-- Two forests in a row nest as deep as the deeper one. -/
@[simp] theorem nesting_append (a b : Forest) : nesting (a ++ b) = max (nesting a) (nesting b) := by
  induction a with
  | nil => simp
  | cons node a ih => simp [ih, Nat.max_assoc]

/-- So do parameters in a row. -/
@[simp] theorem partsNesting_append (a b : List Forest) :
    partsNesting (a ++ b) = max (partsNesting a) (partsNesting b) := by
  induction a with
  | nil => simp
  | cons part a ih => simp [ih, Nat.max_assoc]

/-- A node pushed onto a forest counts like one behind it. -/
@[simp] theorem nesting_push (forest : Forest) (node : Node) :
    nesting (push forest node) = max (nesting forest) (nodeNesting node) := by
  fun_induction push forest node with
  | case1 => simp
  | case2 => simp
  | case3 => simp
  | case4 _ _ _ _ ih => simp [ih, Nat.max_assoc]

/-- So do the nodes of another forest. -/
@[simp] theorem nesting_extend (forest nodes : Forest) :
    nesting (extend forest nodes) = max (nesting forest) (nesting nodes) := by
  induction nodes generalizing forest with
  | nil => simp [extend]
  | cons node nodes ih =>
    rw [extend_cons, ih]
    simp [Nat.max_assoc]

/-- A node of a forest nests no deeper than the forest. -/
theorem nodeNesting_le_nesting {node : Node} {nodes : Forest} (h : node ∈ nodes) :
    nodeNesting node ≤ nesting nodes := by
  obtain ⟨before, after, rfl⟩ := List.append_of_mem h
  rw [nesting_append, nesting_cons]
  omega

/-- A parameter nests no deeper than all of them. -/
theorem nesting_le_partsNesting {part : Forest} {parts : List Forest} (h : part ∈ parts) :
    nesting part ≤ partsNesting parts := by
  obtain ⟨before, after, rfl⟩ := List.append_of_mem h
  rw [partsNesting_append, partsNesting_cons]
  omega

namespace OpenExpression

/-- The marks between parameters do not nest. -/
@[simp] theorem nesting_spreadParts (mark : Text) (parts : List Forest) :
    nesting (spreadParts mark parts) = partsNesting parts := by
  induction parts generalizing mark with
  | nil => simp [spreadParts]
  | cons part rest ih => simp [spreadParts, ih]

/-- The operations inside an expression stay when its end never comes. -/
theorem nesting_spread (e : OpenExpression) : nesting e.spread = partsNesting e.parts := by
  obtain ⟨name, parameters, hparts, hspread, -⟩ := e.exists_name
  simp [hspread, hparts]

/-- A closed expression nests one deeper than its parts. -/
theorem nodeNesting_close (e : OpenExpression) (stop : Nat) :
    nodeNesting (e.close stop) = 1 + partsNesting e.parts := by
  obtain ⟨name, parameters, hparts, -, hclose⟩ := e.exists_name
  simp [hclose, hparts, nodeNesting]

/-- A node that is pushed counts as one more part. -/
theorem partsNesting_push (e : OpenExpression) (node : Node) :
    partsNesting { e with current := e.current.push node }.parts =
      max (partsNesting e.parts) (nodeNesting node) := by
  simp [parts, Nat.max_assoc]

end OpenExpression

namespace Reading

/-! ## The nesting of what has been read -/

/-- How deep the operations in some open expressions nest if all of these end. -/
def openHeight : List OpenExpression → Nat
  | [] => 0
  | e :: outer => max (outer.length + 1 + partsNesting e.parts) (openHeight outer)

/-- How deep the operations nest in what has been read if all open expressions end. -/
def height (r : Reading) : Nat := max (nesting r.done) (openHeight r.pending)

/-- A text that is pushed does not count. -/
theorem height_push_text (r : Reading) (value : Text) :
    (r.push (.text value)).height = r.height := by
  obtain ⟨done, pending⟩ := r
  cases pending with
  | nil => simp [height, push]
  | cons e outer => simp [height, push, openHeight, OpenExpression.parts]

/-- Beginning the next part of an expression changes nothing. -/
theorem height_nextPart (r : Reading) : r.nextPart.height = r.height := by
  obtain ⟨done, pending⟩ := r
  cases pending with
  | nil => rfl
  | cons e outer => simp [height, nextPart, openHeight, OpenExpression.parts]

/-- Beginning an expression counts as much as expressions are open then. -/
theorem height_opening (r : Reading) (start : Nat) :
    height { r with pending := ⟨start, [], []⟩ :: r.pending } =
      max (r.pending.length + 1) r.height := by
  simp [height, openHeight, OpenExpression.parts, Nat.max_left_comm]

/-- Ending an expression was counted before. -/
theorem height_closing (done : Forest) (e : OpenExpression) (outer : List OpenExpression)
    (stop : Nat) : (push ⟨done, outer⟩ (e.close stop)).height ≤ height ⟨done, e :: outer⟩ := by
  -- The operation ends up outside all expressions or in the part that the next one is reading.
  cases outer with
  | nil =>
    simp only [height, push, nesting_push, OpenExpression.nodeNesting_close, openHeight,
      List.length_nil]
    omega
  | cons around outer =>
    simp only [height, push, openHeight, OpenExpression.partsNesting_push,
      OpenExpression.nodeNesting_close, List.length_cons]
    omega

/-- If an expression never ends, the operations in it nest less deep. -/
theorem nesting_finish (r : Reading) : nesting r.finish ≤ r.height := by
  obtain ⟨done, pending⟩ := r
  induction pending with
  | nil => exact Nat.le_max_left _ _
  | cons e outer ih =>
    rw [finish_cons, nesting_extend, OpenExpression.nesting_spread]
    simp only [height, openHeight] at ih ⊢
    omega

/-- A text that is read makes the height at most as great as the number of expressions that are open
at once in it. -/
theorem height_read (r : Reading) (offset : Nat) (t : Text) :
    (r.read offset t).height ≤ max r.height (Text.nestingFrom r.pending.length t) := by
  generalize hdepth : r.pending.length = depth
  fun_induction Text.nestingFrom depth t generalizing r offset with
  | case1 depth =>
    rw [read_nil]
    exact Nat.le_max_left _ _
  | case2 depth rest ih =>
    have hread := ih { r with pending := ⟨offset, [], []⟩ :: r.pending } (offset + 2)
      (congrArg (· + 1) hdepth)
    have hle := Text.le_nestingFrom (depth + 1) rest
    rw [height_opening] at hread
    rw [read_opening]
    omega
  | case3 depth rest ih =>
    -- Outside all expressions a `>` is text.
    obtain ⟨done, pending⟩ := r
    cases pending with
    | nil =>
      have hread := ih (push ⟨done, []⟩ (.text ['>'])) (offset + 1) (by
        rw [length_pending_push, ← hdepth]
        rfl)
      rw [height_push_text] at hread
      rw [read_cons ⟨done, []⟩ offset rfl (by simp)]
      exact hread.trans (by omega)
    | cons e outer =>
      have hread := ih (push ⟨done, outer⟩ (e.close (offset + 1))) (offset + 1) (by
        rw [length_pending_push, ← hdepth]
        rfl)
      have hclosing := height_closing done e outer (offset + 1)
      rw [read_closing]
      omega
  | case4 depth c rest hopen hclose ih =>
    rcases r.admits_or_mark c with hadmits | ⟨done, e, outer, rfl, rfl | rfl⟩
    · have hread := ih (r.push (.text [c])) (offset + c.utf8Size) (by
        rw [length_pending_push, hdepth])
      rw [height_push_text] at hread
      rw [read_cons r offset hadmits hopen]
      exact hread
    · exact absurd rfl hclose
    · have hread := ih (nextPart ⟨done, e :: outer⟩) (offset + 1) hdepth
      rw [height_nextPart] at hread
      rw [read_mark]
      exact hread

end Reading

end Forest

namespace Tree

/-- A text that nests within the limit is read. -/
theorem overflow?_parse {limit : Nat} {source : Text} (h : source.nesting ≤ limit) :
    (parse limit source).overflow? = none := by
  unfold parse
  dsimp only
  rw [Token.deepest_scan, if_neg (Nat.not_lt.2 h)]
  split
  · rfl
  · rfl

/-- The operations of a text that is read nest at most as deep as the text. -/
theorem nesting_nodes_parse {limit : Nat} {source : Text} (h : source.nesting ≤ limit) :
    Forest.nesting (parse limit source).nodes ≤ source.nesting := by
  have hread := Forest.Reading.height_read {} 0 source
  have hfinish := (({} : Forest.Reading).read 0 source).nesting_finish
  have hempty : Forest.Reading.height {} = 0 := by
    simp [Forest.Reading.height, Forest.Reading.openHeight]
  rw [hempty, Nat.zero_max] at hread
  rw [nodes_parse h]
  exact hfinish.trans hread

end Tree

end BuildExpr
