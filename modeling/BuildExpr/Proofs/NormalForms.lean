import BuildExpr.Proofs.Closings
import BuildExpr.Proofs.Grammar

/-!
# Every forest is in normal form

Text comes into a forest from several sides: from text tokens, from marks that separate nothing, and
from expressions that never end, with their names and parameters. It is joined wherever it meets, so
that no text is empty and none follows another, at any depth (`Forest.Normal`). That holds of tokens
of any kinds in any order, spelled in any way. Nothing of them is left out: the forest renders to what
the tokens say, and its operations are the expressions among them (`Forest.normal_ofTokens`).

The invariant is that all forests of a reading are in normal form, the parts of open expressions
included (`Reading.Normal`). It needs nothing to be known about the tokens, since a push joins texts
itself (`Normal.push`).
-/

namespace BuildExpr

namespace Forest

/-! ## Normal forms -/

/-- A forest in which no text is empty and none follows another. The same holds of all names and
parameters in it, and a name that is no literal has an operation in it. -/
inductive Normal : Forest → Prop
  | nil : Normal []
  | text {value : Text} {rest : Forest} (hvalue : value ≠ []) (hnext : startsWithText rest = false)
    (hrest : Normal rest) : Normal (.text value :: rest)
  | operation {name : Forest} {parameters : List Forest} {span : Span} {rest : Forest}
    (hname : Normal name)
    (hcomputed : literal? name = none → ∃ node ∈ name, node.isText = false)
    (hparameters : ∀ part ∈ parameters, Normal part) (hrest : Normal rest) :
    Normal (.operation name parameters span :: rest)

/-- Two nodes in normal form are not both texts. -/
theorem Normal.exists_operation {name : Forest} (h : Normal name)
    (hliteral : literal? name = none) : ∃ node ∈ name, node.isText = false := by
  cases h with
  | nil => cases hliteral
  | @text value rest hvalue hnext hrest =>
    cases rest with
    | nil => cases hliteral
    | cons next others => exact ⟨next, by simp, hnext⟩
  | operation hname hcomputed hparameters hrest => exact ⟨_, List.mem_cons_self, rfl⟩

/-- Each node of a normal form is one by itself. -/
theorem Normal.singleton_of_mem {forest : Forest} (h : Normal forest) {node : Node}
    (hmem : node ∈ forest) : Normal [node] := by
  induction h with
  | nil => cases hmem
  | text hvalue _ _ ih =>
    rcases List.mem_cons.1 hmem with rfl | hmem
    · exact .text hvalue rfl .nil
    · exact ih hmem
  | operation hname hcomputed hparameters _ _ _ ih =>
    rcases List.mem_cons.1 hmem with rfl | hmem
    · exact .operation hname hcomputed hparameters .nil
    · exact ih hmem

/-! ## Pushes -/

/-- A push leaves the first node a text or an operation. -/
theorem startsWithText_push {forest : Forest} (h : forest ≠ []) (node : Node) :
    startsWithText (push forest node) = startsWithText forest := by
  fun_cases push forest node with
  | case1 => exact absurd rfl h
  | case2 => exact absurd rfl h
  | case3 => rfl
  | case4 => rfl

/-- Any text may be pushed, even if it is empty or follows another, and so may an operation that is in
normal form. -/
theorem Normal.push {forest : Forest} (h : Normal forest) {node : Node}
    (hnode : node.isText = false → Normal [node]) : Normal (push forest node) := by
  induction h with
  | nil =>
    cases node with
    | text value =>
      cases value with
      | nil => exact .nil
      | cons c value => exact .text (List.cons_ne_nil c value) rfl .nil
    | operation name parameters span => exact hnode rfl
  | @text before rest hbefore hnext hrest ih =>
    cases rest with
    | nil =>
      -- This is the only seam at which two texts meet, and they become one.
      cases node with
      | text value =>
        exact .text (List.append_ne_nil_of_left_ne_nil hbefore value) rfl .nil
      | operation name parameters span => exact .text hbefore rfl (hnode rfl)
    | cons next others =>
      rw [push_cons fun _ _ => List.cons_ne_nil next others]
      refine .text hbefore ?_ ih
      rw [startsWithText_push (List.cons_ne_nil next others), hnext]
  | @operation name parameters span rest hname hcomputed hparameters _ _ _ ih =>
    have hpush : Forest.push (.operation name parameters span :: rest) node =
        .operation name parameters span :: Forest.push rest node := push_cons (by simp) node
    rw [hpush]
    exact .operation hname hcomputed hparameters ih

/-- Pushing the nodes of a forest keeps the normal form if its operations are in it. -/
theorem Normal.extend {forest nodes : Forest} (h : Normal forest)
    (hnodes : ∀ node ∈ nodes, node.isText = false → Normal [node]) :
    Normal (extend forest nodes) := by
  induction nodes generalizing forest with
  | nil => exact h
  | cons node rest ih =>
    rw [List.forall_mem_cons] at hnodes
    rw [extend_cons]
    exact ih (h.push hnodes.1) hnodes.2

/-! ## Reading -/

namespace OpenExpression

/-- Spread parameters are marks and the nodes of the parameters. -/
theorem isText_or_mem_of_mem_spreadParts {mark : Text} {parts : List Forest} {node : Node}
    (h : node ∈ spreadParts mark parts) : node.isText = true ∨ ∃ part ∈ parts, node ∈ part := by
  induction parts generalizing mark with
  | nil => cases h
  | cons part rest ih =>
    simp only [spreadParts, List.mem_cons, List.mem_append] at h
    rcases h with (rfl | hpart) | hrest
    · exact .inl rfl
    · exact .inr ⟨part, List.mem_cons_self, hpart⟩
    · obtain htext | ⟨other, hother, hmem⟩ := ih hrest
      · exact .inl htext
      · exact .inr ⟨other, List.mem_cons_of_mem part hother, hmem⟩

/-- What an open expression leaves behind is text and the nodes of its parts. -/
theorem isText_or_mem_of_mem_spread {e : OpenExpression} {node : Node} (h : node ∈ e.spread) :
    node.isText = true ∨ ∃ part ∈ e.parts, node ∈ part := by
  obtain ⟨name, parameters, hparts, hspread, -⟩ := e.exists_name
  rw [hspread, List.mem_cons, List.mem_append] at h
  rw [hparts]
  rcases h with rfl | hname | hparameters
  · exact .inl rfl
  · exact .inr ⟨name, List.mem_cons_self, hname⟩
  · obtain htext | ⟨part, hpart, hmem⟩ := isText_or_mem_of_mem_spreadParts hparameters
    · exact .inl htext
    · exact .inr ⟨part, List.mem_cons_of_mem name hpart, hmem⟩

/-- An expression whose parts are in normal form becomes an operation in normal form. -/
theorem normal_close {e : OpenExpression} (h : ∀ part ∈ e.parts, Normal part) (stop : Nat) :
    Normal [e.close stop] := by
  obtain ⟨name, parameters, hparts, -, hclose⟩ := e.exists_name
  rw [hparts, List.forall_mem_cons] at h
  rw [hclose]
  exact .operation h.1 h.1.exists_operation h.2 .nil

end OpenExpression

namespace Reading

/-- A reading all of whose forests are in normal form. -/
structure Normal (r : Reading) : Prop where
  /-- The nodes outside all open expressions. -/
  done : Forest.Normal r.done
  /-- The parts of the open expressions. -/
  pending : ∀ e ∈ r.pending, ∀ part ∈ e.parts, Forest.Normal part

variable {r : Reading}

/-- Pushing a node keeps all forests in normal form, if it is a text or in normal form. -/
theorem Normal.push (h : r.Normal) {node : Node}
    (hnode : node.isText = false → Forest.Normal [node]) : (r.push node).Normal := by
  obtain ⟨done, pending⟩ := r
  obtain ⟨hdone, hpending⟩ := h
  cases pending with
  | nil => exact ⟨hdone.push hnode, List.forall_mem_nil _⟩
  | cons e outer =>
    obtain ⟨he, houter⟩ := List.forall_mem_cons.1 hpending
    obtain ⟨hfinished, hcurrent⟩ := List.forall_mem_append.1 he
    refine ⟨hdone, List.forall_mem_cons.2 ⟨List.forall_mem_append.2 ⟨hfinished, ?_⟩, houter⟩⟩
    rw [List.forall_mem_singleton] at hcurrent ⊢
    exact hcurrent.push hnode

/-- So does going on to the next part, in which there is nothing yet. -/
theorem Normal.nextPart (h : r.Normal) : r.nextPart.Normal := by
  obtain ⟨done, pending⟩ := r
  obtain ⟨hdone, hpending⟩ := h
  cases pending with
  | nil => exact ⟨hdone, hpending⟩
  | cons e outer =>
    obtain ⟨he, houter⟩ := List.forall_mem_cons.1 hpending
    have hempty : ∀ part ∈ [([] : Forest)], Forest.Normal part := by
      rw [List.forall_mem_singleton]
      exact .nil
    exact ⟨hdone, List.forall_mem_cons.2 ⟨List.forall_mem_append.2 ⟨he, hempty⟩, houter⟩⟩

/-- A token of any kind that is read keeps all forests in normal form. -/
theorem Normal.step (h : r.Normal) (token : Token) : (r.step token).Normal := by
  obtain ⟨-, hstep⟩ | ⟨done, e, outer, rfl, -, hstep⟩ | ⟨done, e, outer, rfl, -, hstep⟩ |
    ⟨-, -, hstep⟩ := r.step_cases token
  · -- An expression that is opened has one part, with nothing in it.
    rw [hstep]
    refine ⟨h.done, List.forall_mem_cons.2 ⟨fun part hpart => ?_, h.pending⟩⟩
    obtain rfl := List.mem_singleton.1 hpart
    exact .nil
  · -- The operation goes to whatever is around the expression that ends.
    obtain ⟨he, houter⟩ := List.forall_mem_cons.1 h.pending
    have hrest : Normal ⟨done, outer⟩ := ⟨h.done, houter⟩
    rw [hstep]
    exact hrest.push fun _ => e.normal_close he token.span.stop
  · rw [hstep]
    exact h.nextPart
  · rw [hstep]
    exact h.push nofun

/-- So do any tokens that are read. -/
theorem Normal.foldl_step (h : r.Normal) (tokens : List Token) :
    (tokens.foldl Reading.step r).Normal := by
  induction tokens generalizing r with
  | nil => exact h
  | cons token rest ih => exact ih (h.step token)

/-- What is left of expressions that never end is joined to what is around it. -/
theorem Normal.finish (h : r.Normal) : Forest.Normal r.finish := by
  obtain ⟨done, pending⟩ := r
  obtain ⟨hdone, hpending⟩ := h
  induction pending with
  | nil => exact hdone
  | cons e outer ih =>
    obtain ⟨he, houter⟩ := List.forall_mem_cons.1 hpending
    rw [finish_cons]
    refine (ih hdone houter).extend fun node hnode hoperation => ?_
    rcases OpenExpression.isText_or_mem_of_mem_spread hnode with htext | ⟨part, hpart, hmem⟩
    · rw [htext] at hoperation
      cases hoperation
    · exact (he part hpart).singleton_of_mem hmem

end Reading

/-- Tokens of any kinds in any order, with any spans and spellings, are all read, into a forest in
normal form: it renders to what the tokens say one after the other, and its operations are the
expressions among them, so there are as many as there are openings with a closing of their own. -/
theorem normal_ofTokens (tokens : List Token) :
    Normal (ofTokens tokens) ∧
      render (ofTokens tokens) = Token.saidFrom 0 tokens ∧
      spans (ofTokens tokens) = (Token.expressions tokens).map Token.expressionSpan ∧
      operationCount (ofTokens tokens) =
        {position | Token.ExpressionAt tokens position}.encard := by
  have hempty : Reading.Normal {} := ⟨.nil, List.forall_mem_nil _⟩
  have hspans := spans_ofTokens tokens
  refine ⟨(hempty.foldl_step tokens).finish, render_ofTokens_eq_saidFrom tokens, hspans, ?_⟩
  rw [Token.encard_expressionAt, ← length_spans, hspans, List.length_map]

/-- Tokens that no text has: an end and a mark outside all expressions, an empty text, and marks that
are spelled in their own way. -/
example : ofTokens [⟨.closing, ⟨9, 3⟩, "a"⟩, ⟨.text, ⟨0, 0⟩, ""⟩, ⟨.colon, ⟨0, 1⟩, "b"⟩,
    ⟨.opening, ⟨5, 5⟩, "c"⟩, ⟨.comma, ⟨1, 0⟩, "d"⟩, ⟨.colon, ⟨2, 2⟩, "e"⟩, ⟨.text, ⟨4, 4⟩, ""⟩,
    ⟨.opening, ⟨7, 2⟩, "f"⟩, ⟨.closing, ⟨1, 4⟩, "g"⟩, ⟨.comma, ⟨3, 3⟩, "h"⟩] =
      [.text "ab$<,:", .operation [] [] ⟨7, 4⟩, .text ","] := rfl

end Forest

end BuildExpr
