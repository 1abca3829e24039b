import BuildExpr.Proofs.Formed

/-!
# Where operations stand

An operation that is read remembers where it stands, and so do the operations inside it. All of them
stand where they are written: the forest of a text is the one with the spans that its rendering gives it
(`standsAt_scan`). While the text is read, this holds of what is outside all expressions and of the
parts of each open expression, counted from where that was opened (`Reading.Standing`). So it makes no
difference whether an expression around an operation ends.
-/

namespace BuildExpr

namespace Forest

open Text (byteLength byteLength_append byteLength_cons)

/-! ## Forests at an offset -/

/-- A node that has the spans it has where it is written at an offset. -/
def NodeStandsAt (offset : Nat) (node : Node) : Prop := nodeAt offset node = node

/-- A forest that has the spans it has where it is written at an offset. -/
def StandsAt (offset : Nat) (forest : Forest) : Prop := located offset forest = forest

/-- Parameters that have the spans they have where they are written at an offset, each after its mark. -/
def PartsStandAt (offset : Nat) (parts : List Forest) : Prop := partsAt offset parts = parts

/-- A text stands anywhere, as it has no span. -/
theorem NodeStandsAt.text (offset : Nat) (value : Text) : NodeStandsAt offset (.text value) := by
  rw [NodeStandsAt, nodeAt]

/-- An operation stands where it is written if its name and its parameters do. -/
theorem nodeStandsAt_operation {offset : Nat} {name : Forest} {parameters : List Forest}
    {span : Span} :
    NodeStandsAt offset (.operation name parameters span) ↔
      StandsAt (offset + 2) name ∧
        PartsStandAt (offset + 2 + (render name).byteLength) parameters ∧
        span = ⟨offset, offset + (renderNode (.operation name parameters span)).byteLength⟩ := by
  rw [NodeStandsAt, nodeAt, Node.operation.injEq]
  exact and_congr_right fun _ => and_congr_right fun _ => eq_comm

/-- The forest without nodes stands anywhere. -/
theorem StandsAt.nil (offset : Nat) : StandsAt offset [] := by rw [StandsAt, located]

/-- A forest stands somewhere if its first node does and the others stand behind it. -/
theorem standsAt_cons {offset : Nat} {node : Node} {rest : Forest} :
    StandsAt offset (node :: rest) ↔
      NodeStandsAt offset node ∧ StandsAt (offset + (renderNode node).byteLength) rest := by
  rw [StandsAt, located, List.cons.injEq]
  exact Iff.rfl

/-- So do two forests in a row. -/
theorem standsAt_append {offset : Nat} {a b : Forest} :
    StandsAt offset (a ++ b) ↔
      StandsAt offset a ∧ StandsAt (offset + (render a).byteLength) b := by
  induction a generalizing offset with
  | nil => exact (and_iff_right (StandsAt.nil offset)).symm
  | cons node a ih =>
    rw [List.cons_append, standsAt_cons, standsAt_cons, ih, render_cons, byteLength_append, and_assoc,
      Nat.add_assoc]

/-- Texts that are joined stay where they are written. -/
theorem StandsAt.push {offset : Nat} {forest : Forest} {node : Node} (h : StandsAt offset forest)
    (hnode : NodeStandsAt (offset + (render forest).byteLength) node) :
    StandsAt offset (push forest node) := by
  fun_induction Forest.push forest node generalizing offset with
  | case1 => exact h
  | case2 node => exact standsAt_cons.2 ⟨hnode, .nil _⟩
  | case3 before value => exact standsAt_cons.2 ⟨.text _ _, .nil _⟩
  | case4 first rest node hsingle ih =>
    rw [standsAt_cons] at h ⊢
    rw [render_cons, byteLength_append, ← Nat.add_assoc] at hnode
    exact ⟨h.1, ih h.2 hnode⟩

/-- Pushing the nodes of a forest that stands behind another one leaves all of them where they
stand. -/
theorem StandsAt.extend {offset : Nat} {forest nodes : Forest} (h : StandsAt offset forest)
    (hnodes : StandsAt (offset + (render forest).byteLength) nodes) :
    StandsAt offset (extend forest nodes) := by
  induction nodes generalizing forest with
  | nil => exact h
  | cons node rest ih =>
    rw [standsAt_cons] at hnodes
    rw [extend_cons]
    refine ih (h.push hnodes.1) ?_
    rw [render_push, byteLength_append, ← Nat.add_assoc]
    exact hnodes.2

/-- No parameters stand anywhere. -/
theorem PartsStandAt.nil (offset : Nat) : PartsStandAt offset [] := by rw [PartsStandAt, partsAt]

/-- Parameters stand somewhere if the first does behind its mark and the others stand behind it. -/
theorem partsStandAt_cons {offset : Nat} {part : Forest} {rest : List Forest} :
    PartsStandAt offset (part :: rest) ↔
      StandsAt (offset + 1) part ∧
        PartsStandAt (offset + 1 + (render part).byteLength) rest := by
  rw [PartsStandAt, partsAt, List.cons.injEq]
  exact Iff.rfl

/-- Which mark the first of some parameters has makes no difference to their length. -/
theorem byteLength_renderParts {mark : Char} (hmark : mark.utf8Size = 1) (parts : List Forest) :
    (renderParts mark parts).byteLength = (renderParts ',' parts).byteLength := by
  cases parts with
  | nil => simp [renderParts]
  | cons part rest =>
    rw [renderParts, renderParts, byteLength_append, byteLength_append, byteLength_cons,
      byteLength_cons, hmark]
    rfl

/-- Parameters are as long as the first with its mark and the others. -/
theorem byteLength_renderParts_cons (part : Forest) (rest : List Forest) :
    (renderParts ',' (part :: rest)).byteLength =
      1 + (render part).byteLength + (renderParts ',' rest).byteLength := by
  rw [renderParts, byteLength_append, byteLength_cons]
  rfl

/-- Parameters in a row are as long as the first and the others. -/
theorem byteLength_renderParts_append (a b : List Forest) :
    (renderParts ',' (a ++ b)).byteLength =
      (renderParts ',' a).byteLength + (renderParts ',' b).byteLength := by
  induction a with
  | nil => simp [renderParts]
  | cons part a ih =>
    rw [List.cons_append, byteLength_renderParts_cons, byteLength_renderParts_cons, ih]
    omega

/-- They stand somewhere if the first do and the others stand behind them. -/
theorem partsStandAt_append {offset : Nat} {a b : List Forest} :
    PartsStandAt offset (a ++ b) ↔
      PartsStandAt offset a ∧ PartsStandAt (offset + (renderParts ',' a).byteLength) b := by
  induction a generalizing offset with
  | nil =>
    rw [renderParts]
    exact (and_iff_right (PartsStandAt.nil offset)).symm
  | cons part a ih =>
    have hlength : offset + (renderParts ',' (part :: a)).byteLength =
        offset + 1 + (render part).byteLength + (renderParts ',' a).byteLength := by
      rw [byteLength_renderParts_cons]
      omega
    rw [List.cons_append, partsStandAt_cons, partsStandAt_cons, ih, hlength, and_assoc]

namespace OpenExpression

/-- Marks that are text again leave the parameters where they are written. -/
theorem standsAt_spreadParts {offset : Nat} {parts : List Forest} (h : PartsStandAt offset parts)
    {mark : Text} (hmark : mark.byteLength = 1) : StandsAt offset (spreadParts mark parts) := by
  induction parts generalizing offset mark with
  | nil => exact .nil offset
  | cons part rest ih =>
    rw [partsStandAt_cons] at h
    rw [spreadParts, List.cons_append, standsAt_cons, standsAt_append, renderNode_text, hmark]
    exact ⟨.text _ _, h.1, ih h.2 rfl⟩

/-- An expression is as long as its parts, each with a mark before it, and one more for the `$`. -/
theorem byteLength_spread (e : OpenExpression) :
    (render e.spread).byteLength = 1 + (renderParts ',' e.parts).byteLength := by
  obtain ⟨name, parameters, hparts, hspread, -⟩ := e.exists_name
  have hopening : opening.byteLength = 2 := rfl
  rw [hspread, hparts, render_cons, renderNode_text, render_append, render_spreadParts,
    byteLength_append, byteLength_append, byteLength_renderParts rfl, byteLength_renderParts_cons,
    hopening]
  omega

/-- The parts of an open expression stand where they are written, the first after the `<`. -/
def Standing (e : OpenExpression) : Prop := PartsStandAt (e.start + 1) e.parts

/-- They stay there if it never ends. -/
theorem Standing.spread {e : OpenExpression} (h : e.Standing) : StandsAt e.start e.spread := by
  obtain ⟨name, parameters, hparts, hspread, -⟩ := e.exists_name
  rw [Standing, hparts, partsStandAt_cons] at h
  rw [hspread, standsAt_cons, standsAt_append, renderNode_text]
  exact ⟨.text _ _, h.1, standsAt_spreadParts h.2 rfl⟩

/-- If it ends, it stands where it was opened. -/
theorem Standing.close {e : OpenExpression} (h : e.Standing) :
    NodeStandsAt e.start (e.close (e.start + (render e.spread).byteLength + 1)) := by
  have hrender := e.renderNode_close (e.start + (render e.spread).byteLength + 1)
  obtain ⟨name, parameters, hparts, -, hclose⟩ := e.exists_name
  rw [Standing, hparts, partsStandAt_cons] at h
  rw [hclose] at hrender ⊢
  rw [nodeStandsAt_operation, hrender, byteLength_append]
  exact ⟨h.1, h.2, rfl⟩

/-- A node that is pushed stands where it is written if that is where the expression was over. -/
theorem Standing.push {e : OpenExpression} (h : e.Standing) {node : Node}
    (hnode : NodeStandsAt (e.start + (render e.spread).byteLength) node) :
    Standing { e with current := e.current.push node } := by
  have hlength := e.byteLength_spread
  unfold Standing parts at h ⊢
  rw [partsStandAt_append, partsStandAt_cons] at h ⊢
  refine ⟨h.1, h.2.1.push ?_, .nil _⟩
  rw [parts, byteLength_renderParts_append, byteLength_renderParts_cons, renderParts,
    Text.byteLength_nil] at hlength
  rw [hlength] at hnode
  convert hnode using 1
  omega

/-- The next part has nothing in it yet. -/
theorem Standing.nextPart {e : OpenExpression} (h : e.Standing) :
    Standing { e with finished := e.parts, current := [] } :=
  partsStandAt_append.2 ⟨h, partsStandAt_cons.2 ⟨.nil _, .nil _⟩⟩

end OpenExpression

/-! ## What has been read -/

namespace Reading

/-- Each open expression was opened where what is around it ends. -/
def Begun (done : Forest) : List OpenExpression → Prop
  | [] => True
  | e :: outer => e.start = (render (finish ⟨done, outer⟩)).byteLength ∧ Begun done outer

/-- What has been read stands where it is written. -/
structure Standing (r : Reading) : Prop where
  /-- What is outside all expressions does. -/
  done : StandsAt 0 r.done
  /-- So do the parts of open expressions, as seen from where these were opened. -/
  pending : ∀ e ∈ r.pending, e.Standing
  /-- That is where they stand. -/
  begun : Begun r.done r.pending

/-- A node that stands where the reading has come to may be pushed. -/
theorem standing_push {r : Reading} (h : r.Standing) {node : Node}
    (hnode : NodeStandsAt (render r.finish).byteLength node) : (r.push node).Standing := by
  obtain ⟨done, pending⟩ := r
  obtain ⟨hdone, hpending, hbegun⟩ := h
  cases pending with
  | nil =>
    have hpushed : StandsAt 0 (done.push node) := hdone.push (by
      rw [Nat.zero_add]
      exact hnode)
    exact ⟨hpushed, List.forall_mem_nil _, trivial⟩
  | cons e outer =>
    rw [List.forall_mem_cons] at hpending
    rw [render_finish_cons, byteLength_append, ← hbegun.1] at hnode
    exact ⟨hdone, List.forall_mem_cons.2 ⟨hpending.1.push hnode, hpending.2⟩, hbegun⟩

/-- The next part is begun where the mark behind the last one stands. -/
theorem standing_nextPart {r : Reading} (h : r.Standing) : r.nextPart.Standing := by
  obtain ⟨done, pending⟩ := r
  obtain ⟨hdone, hpending, hbegun⟩ := h
  cases pending with
  | nil => exact ⟨hdone, hpending, hbegun⟩
  | cons e outer =>
    rw [List.forall_mem_cons] at hpending
    exact ⟨hdone, List.forall_mem_cons.2 ⟨hpending.1.nextPart, hpending.2⟩, hbegun⟩

/-- An expression is opened where the reading has come to. -/
theorem standing_opening {r : Reading} (h : r.Standing) :
    Standing { r with pending := ⟨(render r.finish).byteLength, [], []⟩ :: r.pending } :=
  ⟨h.done, List.forall_mem_cons.2 ⟨partsStandAt_cons.2 ⟨.nil _, .nil _⟩, h.pending⟩, rfl, h.begun⟩

/-- An expression that ends stands where what is around it was over. -/
theorem standing_closing {done : Forest} {e : OpenExpression} {outer : List OpenExpression}
    (h : Standing ⟨done, e :: outer⟩) :
    (push ⟨done, outer⟩
      (e.close ((render (finish ⟨done, e :: outer⟩)).byteLength + 1))).Standing := by
  obtain ⟨hdone, hpending, hstart, hbegun⟩ := h
  rw [List.forall_mem_cons] at hpending
  have hclosed := hpending.1.close
  rw [render_finish_cons, byteLength_append, ← hstart]
  have houter : Standing ⟨done, outer⟩ := ⟨hdone, hpending.2, hbegun⟩
  refine standing_push houter ?_
  rw [← hstart]
  exact hclosed

/-- A text that is read on where the text so far ends stands there. -/
theorem standing_read {r : Reading} (h : r.Standing) (t : Text) :
    (r.read (render r.finish).byteLength t).Standing := by
  -- The offset is the length of what has been read so far, which grows along the text.
  generalize hoffset : (render r.finish).byteLength = offset
  induction t using Text.opening_induction generalizing r offset with
  | nil =>
    rw [read_nil]
    exact h
  | opening rest ih =>
    subst hoffset
    rw [read_opening]
    refine ih (standing_opening h) _ ?_
    rw [render_finish_cons, OpenExpression.render_spread, byteLength_append]
    rfl
  | char c rest hopen ih =>
    rcases r.admits_or_mark c with hadmits | ⟨done, e, outer, rfl, rfl | rfl⟩
    · rw [read_cons r offset hadmits hopen]
      refine ih (standing_push h (.text _ [c])) _ ?_
      rw [render_finish_push, renderNode_text, byteLength_append, hoffset]
      rfl
    · subst hoffset
      rw [read_closing]
      refine ih (standing_closing h) _ ?_
      rw [render_finish_push, OpenExpression.renderNode_close, render_finish_cons, byteLength_append,
        byteLength_append, byteLength_append, Nat.add_assoc]
      rfl
    · have hnext := render_finish_nextPart done e outer
      rw [show (if e.finished.isEmpty then ':' else ',') = e.mark from rfl] at hnext
      rw [read_mark]
      refine ih (standing_nextPart h) _ ?_
      rw [hnext, byteLength_append, hoffset, byteLength_cons, OpenExpression.utf8Size_mark]
      rfl

/-- What is left of expressions that never end stands where they were opened. -/
theorem standsAt_finish {r : Reading} (h : r.Standing) : StandsAt 0 r.finish := by
  obtain ⟨done, pending⟩ := r
  obtain ⟨hdone, hpending, hbegun⟩ := h
  induction pending with
  | nil => exact hdone
  | cons e outer ih =>
    rw [List.forall_mem_cons] at hpending
    rw [finish_cons]
    refine (ih hdone hpending.2 hbegun.2).extend ?_
    rw [Nat.zero_add, ← hbegun.1]
    exact hpending.1.spread

end Reading

/-- The forest of any text stands where it is written. -/
theorem standsAt_scan (source : Text) : StandsAt 0 (ofTokens (Token.scan source)) := by
  have hempty : Reading.Standing {} := ⟨.nil 0, List.forall_mem_nil _, trivial⟩
  exact Reading.standsAt_finish (Reading.standing_read hempty source)

end Forest

end BuildExpr
