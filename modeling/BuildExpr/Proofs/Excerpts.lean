import BuildExpr.Proofs.Spelling

/-!
# The text of an operation says that operation

In a failure or in the steps of a cycle an operation is shown by the text that its span cuts out of the
source. That text is enough to tell which operation it is: read by itself, it is one node, which is the
operation with all spans counted from its own start (`Tree.nodes_parse_cut`). Neither the expressions
around the operation nor whether they end make a difference, however deep it is inside them.
-/

namespace BuildExpr

namespace Forest

/-! ## Inside a forest -/

/-- A node that is one of a forest or, however deep, inside one of its operations. -/
inductive Inside (node : Node) : Forest → Prop
  /-- One of the nodes themselves. -/
  | here {forest : Forest} (h : node ∈ forest) : Inside node forest
  /-- One inside the name of an operation. -/
  | name {forest name : Forest} {parameters : List Forest} {span : Span}
    (hoperation : .operation name parameters span ∈ forest) (h : Inside node name) :
    Inside node forest
  /-- One inside a parameter. -/
  | parameter {forest name part : Forest} {parameters : List Forest} {span : Span}
    (hoperation : .operation name parameters span ∈ forest) (hpart : part ∈ parameters)
    (h : Inside node part) : Inside node forest

/-- What holds of the nodes of a forest and is handed down to names and parameters holds of everything
inside. -/
theorem Inside.elim {P : Forest → Prop} {Q : Node → Prop}
    (hmem : ∀ forest, P forest → ∀ node ∈ forest, Q node)
    (hname : ∀ name parameters span, Q (.operation name parameters span) → P name)
    (hparameters : ∀ name parameters span, Q (.operation name parameters span) →
      ∀ part ∈ parameters, P part)
    {node : Node} {forest : Forest} (h : Inside node forest) (hforest : P forest) : Q node := by
  induction h with
  | here hnode => exact hmem _ hforest node hnode
  | name hoperation _ ih => exact ih (hname _ _ _ (hmem _ hforest _ hoperation))
  | parameter hoperation hpart _ ih =>
    exact ih (hparameters _ _ _ (hmem _ hforest _ hoperation) _ hpart)

variable {node : Node} {forest : Forest}

/-- A node inside a forest that is spelled in a text is spelled in it too. -/
theorem Inside.nodeSpelledIn {source : Text} (h : Inside node forest)
    (hforest : SpelledIn source forest) : NodeSpelledIn source node := by
  refine h.elim (P := SpelledIn source) (fun forest hforest node hnode => ?_)
    (fun name parameters span hoperation => ?_)
    (fun name parameters span hoperation part hpart => ?_) hforest
  · obtain ⟨before, after, rfl⟩ := List.append_of_mem hnode
    rw [spelledIn_append, SpelledIn] at hforest
    exact hforest.2.1
  · rw [NodeSpelledIn] at hoperation
    exact hoperation.2.1
  · rw [NodeSpelledIn] at hoperation
    obtain ⟨before, after, rfl⟩ := List.append_of_mem hpart
    have hparts := hoperation.2.2
    rw [partsSpelledIn_append, PartsSpelledIn] at hparts
    exact hparts.2.1

/-- A node inside a forest that stands somewhere stands somewhere in it. -/
theorem Inside.nodeStandsAt (h : Inside node forest) (hforest : ∃ offset, StandsAt offset forest) :
    ∃ offset, NodeStandsAt offset node := by
  refine h.elim (P := fun forest => ∃ offset, StandsAt offset forest)
    (Q := fun node => ∃ offset, NodeStandsAt offset node) (fun forest hforest node hnode => ?_)
    (fun name parameters span hoperation => ?_)
    (fun name parameters span hoperation part hpart => ?_) hforest
  · obtain ⟨offset, hforest⟩ := hforest
    obtain ⟨before, after, rfl⟩ := List.append_of_mem hnode
    rw [standsAt_append, standsAt_cons] at hforest
    exact ⟨_, hforest.2.1⟩
  · obtain ⟨offset, hoperation⟩ := hoperation
    exact ⟨_, (nodeStandsAt_operation.1 hoperation).1⟩
  · obtain ⟨offset, hoperation⟩ := hoperation
    obtain ⟨-, hparts, -⟩ := nodeStandsAt_operation.1 hoperation
    obtain ⟨before, after, rfl⟩ := List.append_of_mem hpart
    rw [partsStandAt_append, partsStandAt_cons] at hparts
    exact ⟨_, hparts.2.1⟩

/-- A node inside a forest is nested no deeper than the forest. -/
theorem Inside.nodeNesting_le (h : Inside node forest) : nodeNesting node ≤ nesting forest := by
  refine h.elim (P := fun inner => nesting inner ≤ nesting forest)
    (fun forest hforest node hnode => (nodeNesting_le_nesting hnode).trans hforest)
    (fun name parameters span hoperation => ?_)
    (fun name parameters span hoperation part hpart => ?_) (Nat.le_refl _)
  · rw [nodeNesting] at hoperation
    omega
  · have hle := nesting_le_partsNesting hpart
    rw [nodeNesting] at hoperation
    omega

/-! ## Operations that can be read back -/

/-- A text, or an operation that is well formed wherever it stands. -/
def Proper : Node → Prop
  | .text _ => True
  | .operation name parameters _ => WellFormed .name name ∧ PartsWellFormed parameters

/-- The operations of a well-formed forest can be read back. -/
theorem WellFormed.proper {place : Place} (h : WellFormed place forest) :
    ∀ node ∈ forest, Proper node := by
  induction forest with
  | nil => nofun
  | cons node rest ih =>
    rw [WellFormed] at h
    refine List.forall_mem_cons.2 ⟨?_, ih h.2.2⟩
    cases node with
    | text value => trivial
    | operation name parameters span =>
      have hnode := h.1
      rw [NodeWellFormed] at hnode
      exact hnode

/-- Of well-formed parameters, each is a well-formed forest. -/
theorem PartsWellFormed.of_mem {parts : List Forest} (h : PartsWellFormed parts) {part : Forest}
    (hpart : part ∈ parts) : WellFormed .parameter part := by
  induction parts with
  | nil => cases hpart
  | cons first rest ih =>
    rw [PartsWellFormed] at h
    rcases List.mem_cons.1 hpart with rfl | hrest
    · exact h.1
    · exact ih h.2 hrest

/-- What holds of the operations of a forest holds of those inside them. -/
theorem Inside.proper (h : Inside node forest) (hforest : ∀ node ∈ forest, Proper node) :
    Proper node :=
  h.elim (P := fun forest => ∀ node ∈ forest, Proper node) (fun _ hforest => hforest)
    (fun _ _ _ hoperation => hoperation.1.proper)
    (fun _ _ _ hoperation _ hpart => (hoperation.2.of_mem hpart).proper) hforest

/-- Pushing a node keeps all operations readable. -/
theorem proper_push (hforest : ∀ node ∈ forest, Proper node) (hnode : Proper node) :
    ∀ other ∈ push forest node, Proper other := by
  fun_induction push forest node with
  | case1 => exact hforest
  | case2 node => exact List.forall_mem_singleton.2 hnode
  | case3 before value => exact List.forall_mem_singleton.2 trivial
  | case4 first rest node hsingle ih =>
    rw [List.forall_mem_cons] at hforest
    exact List.forall_mem_cons.2 ⟨hforest.1, ih hforest.2 hnode⟩

/-- So does pushing any number of nodes. -/
theorem proper_extend {nodes : Forest} (hforest : ∀ node ∈ forest, Proper node)
    (hnodes : ∀ node ∈ nodes, Proper node) : ∀ node ∈ extend forest nodes, Proper node := by
  induction nodes generalizing forest with
  | nil => exact hforest
  | cons node rest ih =>
    rw [List.forall_mem_cons] at hnodes
    exact ih (proper_push hforest hnodes.1) hnodes.2

/-- What is left of an expression that never ends may be no well-formed forest, but its operations are
well formed. -/
theorem OpenExpression.Formed.proper_spread {e : OpenExpression} (h : e.Formed) :
    ∀ node ∈ e.spread, Proper node := by
  have hspread {parts : List Forest} (hparts : PartsWellFormed parts) (mark : Text) :
      ∀ node ∈ spreadParts mark parts, Proper node := by
    induction parts generalizing mark with
    | nil => nofun
    | cons part rest ih =>
      rw [PartsWellFormed] at hparts
      rw [spreadParts, List.cons_append, List.forall_mem_cons, List.forall_mem_append]
      exact ⟨trivial, hparts.1.proper, ih hparts.2 _⟩
  obtain ⟨name, parameters, hname, hparameters, heq⟩ := exists_parts h
  rw [heq, List.cons_append, List.forall_mem_cons, List.forall_mem_append]
  exact ⟨trivial, hname.proper, hspread hparameters _⟩

/-- All operations read from a text can be read back. -/
theorem proper_scan (source : Text) : ∀ node ∈ ofTokens (Token.scan source), Proper node := by
  obtain ⟨hdone, hpending, -⟩ := Reading.formed_read source
  change ∀ node ∈ (Reading.read {} 0 source).finish, Proper node
  generalize Reading.read {} 0 source = r at hdone hpending
  obtain ⟨done, pending⟩ := r
  induction pending with
  | nil => exact hdone.proper
  | cons e outer ih =>
    rw [List.forall_mem_cons] at hpending
    rw [Reading.finish_cons]
    exact proper_extend (ih hdone hpending.2) hpending.1.proper_spread

/-! ## Spans counted from elsewhere -/

mutual

/-- A node with all spans moved on by some bytes. -/
def nodeMoved (bytes : Nat) : Node → Node
  | .text value => .text value
  | .operation name parameters span =>
    .operation (moved bytes name) (partsMoved bytes parameters)
      ⟨span.start + bytes, span.stop + bytes⟩

/-- A forest with all spans moved on by some bytes. -/
def moved (bytes : Nat) : Forest → Forest
  | [] => []
  | node :: rest => nodeMoved bytes node :: moved bytes rest

/-- Parameters with all spans moved on by some bytes. -/
def partsMoved (bytes : Nat) : List Forest → List Forest
  | [] => []
  | part :: rest => moved bytes part :: partsMoved bytes rest

end

mutual

/-- A node that is moved stands where it would if it had been put there. -/
theorem nodeMoved_nodeAt (bytes offset : Nat) (node : Node) :
    nodeMoved bytes (nodeAt offset node) = nodeAt (offset + bytes) node := by
  cases node with
  | text value => rw [nodeAt, nodeAt, nodeMoved]
  | operation name parameters span =>
    have hname := moved_located bytes (offset + 2) name
    have hparameters := partsMoved_partsAt bytes (offset + 2 + (render name).byteLength) parameters
    rw [nodeAt, nodeAt, nodeMoved, hname, hparameters]
    simp only [Nat.add_right_comm _ bytes]

/-- A forest written further on is the same forest moved on. -/
theorem moved_located (bytes offset : Nat) (forest : Forest) :
    moved bytes (located offset forest) = located (offset + bytes) forest := by
  cases forest with
  | nil => rw [located, located, moved]
  | cons node rest =>
    rw [located, located, moved, nodeMoved_nodeAt bytes offset node,
      moved_located bytes (offset + (renderNode node).byteLength) rest, Nat.add_right_comm]

/-- So do parameters that are moved. -/
theorem partsMoved_partsAt (bytes offset : Nat) (parts : List Forest) :
    partsMoved bytes (partsAt offset parts) = partsAt (offset + bytes) parts := by
  cases parts with
  | nil => rw [partsAt, partsAt, partsMoved]
  | cons part rest =>
    have hrest := partsMoved_partsAt bytes (offset + 1 + (render part).byteLength) rest
    rw [partsAt, partsAt, partsMoved, moved_located bytes (offset + 1) part, hrest]
    simp only [Nat.add_right_comm _ bytes]

end

end Forest

/-! ## Excerpts -/

open Forest (Inside nodeMoved)

namespace Tree

/-- What is written at the span of an operation, at whatever depth in the tree of a text, is read as one
node: the operation with its spans, and all spans inside it, counted from where it stands. -/
theorem nodes_parse_cut (limit : Nat) (source : Text) {name : Forest} {parameters : List Forest}
    {span : Span} (h : Inside (.operation name parameters span) (parse limit source).nodes) :
    ∃ node, (parse limit (source.cut span)).nodes = [node] ∧
      nodeMoved span.start node = .operation name parameters span := by
  let operation : Node := .operation name parameters span
  have hlimit : source.nesting ≤ limit := by
    -- The tree of a text that nests too deep has no operations.
    refine Nat.le_of_not_lt fun hdeep => ?_
    have hle := h.nodeNesting_le
    rw [parse_of_lt hdeep, nodes, Forest.nesting_push, Forest.nodeNesting_text, Forest.nesting_nil,
      Forest.nodeNesting] at hle
    omega
  have hnesting : Forest.nesting [operation] ≤ limit := by
    have hle := h.nodeNesting_le.trans ((nesting_nodes_parse hlimit).trans hlimit)
    simpa using hle
  rw [nodes_parse hlimit] at h
  have hproper : Forest.Proper operation := h.proper (Forest.proper_scan source)
  have hwell : Forest.WellFormed .outside [operation] := by
    rw [Forest.WellFormed, Forest.NodeWellFormed]
    exact ⟨hproper, nofun, .nil _⟩
  have hspelled := h.nodeSpelledIn (Forest.spelledIn_scan source)
  have hcut : source.cut span = Forest.render [operation] := by
    rw [Forest.NodeSpelledIn] at hspelled
    rw [hspelled.1, Forest.render_cons, Forest.render_nil, List.append_nil]
  obtain ⟨offset, hstands⟩ := h.nodeStandsAt ⟨0, Forest.standsAt_scan source⟩
  have hstart : span.start = offset := by rw [(Forest.nodeStandsAt_operation.1 hstands).2.2]
  refine ⟨Forest.nodeAt 0 operation, ?_, ?_⟩
  · rw [hcut, nodes_parse_render hwell hnesting, Forest.located, Forest.located]
  · rw [Forest.nodeMoved_nodeAt, Nat.zero_add, hstart]
    exact hstands

/-- An operation in the parameter of another one, around both of which there is an expression that does
not end. -/
theorem nodes_parse_cut_unterminated :
    let source : Text := "a$<b:$<N:x,$<c>>"
    let operation : Node := .operation [.text "c"] [] ⟨11, 15⟩
    Inside operation (parse 3 source).nodes ∧ source.cut ⟨11, 15⟩ = "$<c>" ∧
      ∃ node, (parse 3 (source.cut ⟨11, 15⟩)).nodes = [node] ∧ nodeMoved 11 node = operation := by
  intro source operation
  have hnodes : (parse 3 source).nodes =
      [.text "a$<b:", .operation [.text "N"] [[.text "x"], [operation]] ⟨5, 16⟩] := by rfl
  have hinside : Inside operation (parse 3 source).nodes := by
    rw [hnodes]
    exact .parameter (List.mem_cons_of_mem _ List.mem_cons_self)
      (List.mem_cons_of_mem _ List.mem_cons_self) (.here List.mem_cons_self)
  exact ⟨hinside, by decide, nodes_parse_cut 3 source hinside⟩

end Tree

end BuildExpr
