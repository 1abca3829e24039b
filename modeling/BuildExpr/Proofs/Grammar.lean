import BuildExpr.Proofs.Reading

/-!
# Every well-formed forest is read back

A forest is well formed if it can be told from its rendering: its texts are not empty, do not touch,
and hold no opening and no mark of the place they stand in. Reading the rendering of such a forest
gives the forest again, with the spans it has there (`Tree.nodes_parse_render`), so no two well-formed
forests that differ in more than their spans are written alike (`Tree.parse_render`).

The proof follows the forest, from any reading on and with any text behind: a rendered node is read as
a push of that node (`read_renderNode`). What must not happen is that a `$` at the end of a text and a
`<` behind it meet; behind a text there is always an opening, a mark or the end.
-/

namespace BuildExpr

/-! ## Well-formed forests -/

/-- Whether a node is literal text. -/
def Node.isText : Node → Bool
  | .text _ => true
  | .operation _ _ _ => false

namespace Forest

/-- Whether the first node is literal text. -/
def startsWithText : Forest → Bool
  | [] => false
  | node :: _ => node.isText

mutual

/-- A node that may stand in a place: a text that is not empty and holds no opening and no mark of the
place, or an operation with a well-formed name and well-formed parameters. -/
def NodeWellFormed (place : Place) : Node → Prop
  | .text value => value ≠ [] ∧ ¬ opening <:+: value ∧ ∀ c ∈ value, place.admits c = true
  | .operation name parameters _ => WellFormed .name name ∧ PartsWellFormed parameters

/-- A forest of such nodes, in which no text follows a text. -/
def WellFormed (place : Place) : Forest → Prop
  | [] => True
  | node :: rest =>
    NodeWellFormed place node ∧ (node.isText = true → startsWithText rest = false) ∧
      WellFormed place rest

/-- Well-formed parameters. -/
def PartsWellFormed : List Forest → Prop
  | [] => True
  | part :: rest => WellFormed .parameter part ∧ PartsWellFormed rest

end

mutual

instance decidableNodeWellFormed (place : Place) : ∀ node, Decidable (NodeWellFormed place node)
  | .text value => decidable_of_iff
      (value ≠ [] ∧ ¬ opening <:+: value ∧ value.all place.admits = true)
      (by rw [NodeWellFormed, List.all_eq_true])
  | .operation name parameters _ =>
    have := decidableWellFormed .name name
    have := decidablePartsWellFormed parameters
    decidable_of_iff (WellFormed .name name ∧ PartsWellFormed parameters) (by rw [NodeWellFormed])

instance decidableWellFormed (place : Place) : ∀ forest, Decidable (WellFormed place forest)
  | [] => .isTrue (by simp only [WellFormed])
  | node :: rest =>
    have := decidableNodeWellFormed place node
    have := decidableWellFormed place rest
    decidable_of_iff
      (NodeWellFormed place node ∧ (node.isText = true → startsWithText rest = false) ∧
        WellFormed place rest)
      (by rw [WellFormed])

instance decidablePartsWellFormed : ∀ parts, Decidable (PartsWellFormed parts)
  | [] => .isTrue (by simp only [PartsWellFormed])
  | part :: rest =>
    have := decidableWellFormed .parameter part
    have := decidablePartsWellFormed rest
    decidable_of_iff (WellFormed .parameter part ∧ PartsWellFormed rest) (by rw [PartsWellFormed])

end

mutual

/-- A node with all spans forgotten. -/
def nodeWithoutSpans : Node → Node
  | .text value => .text value
  | .operation name parameters _ =>
    .operation (withoutSpans name) (partsWithoutSpans parameters) ⟨0, 0⟩

/-- A forest with all spans forgotten. -/
def withoutSpans : Forest → Forest
  | [] => []
  | node :: rest => nodeWithoutSpans node :: withoutSpans rest

/-- Parameters with all spans forgotten. -/
def partsWithoutSpans : List Forest → List Forest
  | [] => []
  | part :: rest => withoutSpans part :: partsWithoutSpans rest

end

mutual

/-- A node with the spans it has where it is written at `offset`. -/
def nodeAt (offset : Nat) : Node → Node
  | .text value => .text value
  | .operation name parameters span =>
    .operation (located (offset + 2) name)
      (partsAt (offset + 2 + (render name).byteLength) parameters)
      ⟨offset, offset + (renderNode (.operation name parameters span)).byteLength⟩

/-- A forest with the spans it has where it is written at `offset`. -/
def located (offset : Nat) : Forest → Forest
  | [] => []
  | node :: rest => nodeAt offset node :: located (offset + (renderNode node).byteLength) rest

/-- Parameters with the spans they have where they are written at `offset`, each after its mark. -/
def partsAt (offset : Nat) : List Forest → List Forest
  | [] => []
  | part :: rest =>
    located (offset + 1) part :: partsAt (offset + 1 + (render part).byteLength) rest

end

mutual

/-- Where a node is put makes no difference but for its spans. -/
theorem nodeWithoutSpans_nodeAt (offset : Nat) (node : Node) :
    nodeWithoutSpans (nodeAt offset node) = nodeWithoutSpans node := by
  cases node with
  | text value => simp [nodeAt, nodeWithoutSpans]
  | operation name parameters span =>
    have hname := withoutSpans_located (offset + 2) name
    have hparameters :=
      partsWithoutSpans_partsAt (offset + 2 + (render name).byteLength) parameters
    simp only [nodeAt, nodeWithoutSpans, hname, hparameters]

/-- Where a forest is written makes no difference to anything but its spans. -/
theorem withoutSpans_located (offset : Nat) (forest : Forest) :
    withoutSpans (located offset forest) = withoutSpans forest := by
  cases forest with
  | nil => simp [located]
  | cons node rest =>
    have hnode := nodeWithoutSpans_nodeAt offset node
    have hrest := withoutSpans_located (offset + (renderNode node).byteLength) rest
    simp only [located, withoutSpans, hnode, hrest]

/-- So it is with parameters. -/
theorem partsWithoutSpans_partsAt (offset : Nat) (parts : List Forest) :
    partsWithoutSpans (partsAt offset parts) = partsWithoutSpans parts := by
  cases parts with
  | nil => simp [partsAt]
  | cons part rest =>
    have hpart := withoutSpans_located (offset + 1) part
    have hrest := partsWithoutSpans_partsAt (offset + 1 + (render part).byteLength) rest
    simp only [partsAt, partsWithoutSpans, hpart, hrest]

end

/-! ## Nodes put together -/

/-- A node that is no text after a text goes to the end as it is. -/
theorem push_eq_append {forest : Forest} {node : Node} (hnode : node ≠ .text [])
    (hlast : node.isText = true → ∀ last, forest.getLast? = some last → last.isText = false) :
    push forest node = forest ++ [node] := by
  fun_induction push forest node with
  | case1 => exact absurd rfl hnode
  | case2 => rfl
  | case3 before value =>
    have hbefore : (Node.text before).isText = false := hlast rfl _ rfl
    cases hbefore
  | case4 first rest node hsingle ih =>
    rw [List.cons_append, ih hnode]
    intro htext last hrest
    refine hlast htext last ?_
    rw [List.getLast?_cons, hrest]
    rfl

/-- A text node is one wherever it is put. -/
theorem nodeAt_isText (offset : Nat) (node : Node) : (nodeAt offset node).isText = node.isText := by
  cases node with
  | text value => simp [nodeAt]
  | operation name parameters span => simp [nodeAt, Node.isText]

/-- The nodes of a well-formed forest stay apart when they are put together. -/
theorem extend_located {place : Place} {nodes : Forest} (h : WellFormed place nodes) (offset : Nat)
    {forest : Forest}
    (hlast : startsWithText nodes = true → ∀ last, forest.getLast? = some last →
      last.isText = false) :
    extend forest (located offset nodes) = forest ++ located offset nodes := by
  induction nodes generalizing forest offset with
  | nil => simp [located, extend]
  | cons node rest ih =>
    rw [WellFormed] at h
    obtain ⟨hnode, hrest, hwell⟩ := h
    -- No two texts are neighbours, so nothing is joined with what stands before it.
    have hpush : push forest (nodeAt offset node) = forest ++ [nodeAt offset node] := by
      apply push_eq_append
      · cases node with
        | text value =>
          simp only [NodeWellFormed] at hnode
          simp only [nodeAt, ne_eq, Node.text.injEq]
          exact hnode.1
        | operation name parameters span => simp [nodeAt]
      · rw [nodeAt_isText]
        exact hlast
    have hnext : startsWithText rest = true → ∀ last,
        (forest ++ [nodeAt offset node]).getLast? = some last → last.isText = false := by
      intro hstart last heq
      rw [List.getLast?_concat, Option.some.injEq] at heq
      rw [← heq, nodeAt_isText]
      cases htext : node.isText with
      | false => rfl
      | true => rw [hrest htext] at hstart; cases hstart
    have htail := ih hwell (offset + (renderNode node).byteLength) hnext
    simp only [extend, located, List.foldl_cons] at htail ⊢
    rw [hpush, htail, List.append_assoc, List.singleton_append]

/-- Put together from nothing, a well-formed forest is itself. -/
theorem extend_nil_located {place : Place} {nodes : Forest} (h : WellFormed place nodes)
    (offset : Nat) : extend [] (located offset nodes) = located offset nodes :=
  extend_located h offset fun _ _ hnone => nomatch hnone

open Text (byteLength byteLength_cons byteLength_append)

namespace Reading

/-- Some nodes put at the end of what is being read. -/
def pushAll (r : Reading) (nodes : Forest) : Reading := nodes.foldl push r

/-- Outside all expressions the nodes are done. -/
theorem pushAll_outside (done nodes : Forest) :
    pushAll ⟨done, []⟩ nodes = ⟨done.extend nodes, []⟩ := by
  induction nodes generalizing done with
  | nil => rfl
  | cons node rest ih => exact ih _

/-- In an expression they go into the part being read. -/
theorem pushAll_inside (done : Forest) (e : OpenExpression) (outer : List OpenExpression)
    (nodes : Forest) :
    pushAll ⟨done, e :: outer⟩ nodes =
      ⟨done, { e with current := e.current.extend nodes } :: outer⟩ := by
  induction nodes generalizing e with
  | nil => rfl
  | cons node rest ih => exact ih _

/-! ## Reading a rendering -/

/-- Behind a text there is an operation or nothing. -/
theorem eq_nil_or_head?_render_append {forest : Forest} (h : startsWithText forest = false)
    (rest : Text) : forest = [] ∨ (render forest ++ rest).head? = some '$' := by
  cases forest with
  | nil => exact .inl rfl
  | cons node others =>
    cases node with
    | text value => cases h
    | operation name parameters span => simp [renderNode, opening]

/-- So there is never a `<`. -/
theorem head?_render_append {forest : Forest} {rest : Text} (h : startsWithText forest = false)
    (hrest : forest = [] → rest.head? ≠ some '<') : (render forest ++ rest).head? ≠ some '<' := by
  rcases eq_nil_or_head?_render_append h rest with rfl | hhead
  · simpa using hrest rfl
  · rw [hhead]
    decide

/-- What parameters with a rest behind them start with is their mark or what the rest starts
with. -/
theorem head?_renderParts_append {mark c : Char} (hmark : mark ≠ c) (parts : List Forest)
    {rest : Text} (hrest : rest.head? ≠ some c) :
    (renderParts mark parts ++ rest).head? ≠ some c := by
  cases parts with
  | nil => simpa [renderParts] using hrest
  | cons part others => simpa [renderParts] using hmark

/-- Parameters with their closing do not start with `<`. -/
theorem head?_renderParts_closing {mark : Char} (hmark : mark ≠ '<') (parts : List Forest)
    (rest : Text) : (renderParts mark parts ++ '>' :: rest).head? ≠ some '<' :=
  head?_renderParts_append hmark parts (by simp)

mutual

/-- The rendering of a well-formed node is read as a push of the node. -/
theorem read_renderNode (node : Node) {r : Reading} (h : NodeWellFormed r.place node)
    (offset : Nat) {rest : Text} (hrest : node.isText = true → rest.head? ≠ some '<') :
    r.read offset (renderNode node ++ rest) =
      (r.push (nodeAt offset node)).read (offset + (renderNode node).byteLength) rest := by
  cases node with
  | text value =>
    rw [NodeWellFormed] at h
    rw [renderNode_text, nodeAt]
    exact read_text r offset h.2.1 h.2.2 (hrest rfl)
  | operation name parameters span =>
    rw [NodeWellFormed] at h
    obtain ⟨hname, hparameters⟩ := h
    obtain ⟨done, pending⟩ := r
    have hrender : renderNode (.operation name parameters span) ++ rest =
        '$' :: '<' :: (render name ++ (renderParts ':' parameters ++ '>' :: rest)) := by
      simp [renderNode, opening]
    have hread := read_render name (r := ⟨done, ⟨offset, [], []⟩ :: pending⟩) hname (offset + 2)
      (head?_renderParts_closing (show ':' ≠ '<' by decide) parameters rest)
    have hparts := read_renderParts parameters hparameters done
      ⟨offset, [], located (offset + 2) name⟩ pending (offset + 2 + (render name).byteLength) rest
      rfl
    have hstop : offset + 2 + (render name).byteLength +
        (renderParts ':' parameters).byteLength + 1 =
          offset + (renderNode (.operation name parameters span)).byteLength := by
      have hopening : byteLength opening = 2 := rfl
      have hclosing : byteLength ['>'] = 1 := rfl
      simp only [renderNode, byteLength_append, hopening, hclosing]
      omega
    -- What has been read of the name when the first mark comes is the whole name.
    rw [hrender, read_opening, hread, pushAll_inside, extend_nil_located hname, nodeAt, ← hstop]
    exact hparts

/-- The rendering of a well-formed forest is read as pushes of its nodes. -/
theorem read_render (forest : Forest) {r : Reading} (h : WellFormed r.place forest) (offset : Nat)
    {rest : Text} (hrest : rest.head? ≠ some '<') :
    r.read offset (render forest ++ rest) =
      (r.pushAll (located offset forest)).read (offset + (render forest).byteLength) rest := by
  cases forest with
  | nil => simp [located, pushAll]
  | cons node others =>
    rw [WellFormed] at h
    obtain ⟨hnode, hothers, hwell⟩ := h
    have hnext : node.isText = true → (render others ++ rest).head? ≠ some '<' :=
      fun htext => head?_render_append (hothers htext) fun _ => hrest
    have hwell' : WellFormed (r.push (nodeAt offset node)).place others := by
      rw [place_push]
      exact hwell
    rw [render_cons, List.append_assoc, read_renderNode node hnode offset hnext,
      read_render others hwell' _ hrest]
    simp [located, pushAll, Nat.add_assoc]

/-- The rendering of the remaining parameters of an expression, up to its `>`, completes the
operation. -/
theorem read_renderParts (parts : List Forest) (h : PartsWellFormed parts) (done : Forest)
    (e : OpenExpression) (outer : List OpenExpression) (offset : Nat) (rest : Text)
    {name : Forest} {before : List Forest} (hbefore : e.parts = name :: before) :
    read ⟨done, e :: outer⟩ offset (renderParts e.mark parts ++ '>' :: rest) =
      (push ⟨done, outer⟩ (.operation name (before ++ partsAt offset parts)
        ⟨e.start, offset + (renderParts e.mark parts).byteLength + 1⟩)).read
        (offset + (renderParts e.mark parts).byteLength + 1) rest := by
  cases parts with
  | nil =>
    have hclose (stop : Nat) : e.close stop = .operation name before ⟨e.start, stop⟩ := by
      rw [OpenExpression.close, hbefore]
    simp only [renderParts, List.nil_append, read_closing, hclose]
    simp [partsAt]
  | cons part others =>
    rw [PartsWellFormed] at h
    obtain ⟨hpart, hothers⟩ := h
    -- The mark ends the part before and begins this one.
    have hnext : nextPart ⟨done, e :: outer⟩ =
        ⟨done, ⟨e.start, name :: before, []⟩ :: outer⟩ := by
      rw [← hbefore]
      rfl
    have hrender : renderParts e.mark (part :: others) ++ '>' :: rest =
        e.mark :: (render part ++ (renderParts ',' others ++ '>' :: rest)) := by
      simp [renderParts]
    have hread := read_render part
      (r := ⟨done, ⟨e.start, name :: before, []⟩ :: outer⟩) hpart (offset + 1)
      (head?_renderParts_closing (show ',' ≠ '<' by decide) others rest)
    have hparts := read_renderParts others hothers done
      ⟨e.start, name :: before, located (offset + 1) part⟩ outer
      (offset + 1 + (render part).byteLength) rest rfl
    have hstop : offset + 1 + (render part).byteLength + (renderParts ',' others).byteLength =
        offset + (renderParts e.mark (part :: others)).byteLength := by
      simp only [renderParts, List.cons_append, byteLength_cons, byteLength_append,
        OpenExpression.utf8Size_mark]
      omega
    have hbefore' : before ++ partsAt offset (part :: others) =
        before ++ [located (offset + 1) part] ++
          partsAt (offset + 1 + (render part).byteLength) others := by
      simp [partsAt]
    rw [hrender, read_mark, hnext, hread, pushAll_inside, extend_nil_located hpart, ← hstop,
      hbefore']
    exact hparts

end

end Reading

/-! ## The nesting of a rendering -/

/-- A text without delimiters does not count. Outside all expressions it may have a `>` in it. -/
theorem nestingFrom_text_append {value rest : Text} (depth : Nat)
    (hopening : ¬ opening <:+: value) (hclosing : depth = 0 ∨ ∀ c ∈ value, c ≠ '>')
    (hrest : rest.head? ≠ some '<') :
    Text.nestingFrom depth (value ++ rest) = Text.nestingFrom depth rest := by
  induction value with
  | nil => rfl
  | cons c value ih =>
    have hopen := not_opening_of_text hopening hrest
    have hvalue := Text.no_opening_of_cons hopening
    rcases hclosing with rfl | hclosing
    · rw [List.cons_append, Text.nestingFrom_zero_cons hopen]
      exact ih hvalue (.inl rfl)
    · rw [List.cons_append, Text.nestingFrom_cons depth (hclosing c List.mem_cons_self) hopen]
      exact ih hvalue (.inr fun d hd => hclosing d (List.mem_cons_of_mem c hd))

/-- Only outside all expressions is a `>` text. -/
theorem ne_closing_of_admits {place : Place} (hplace : place ≠ .outside) {c : Char}
    (h : place.admits c = true) : c ≠ '>' := by
  rintro rfl
  cases place with
  | outside => exact hplace rfl
  | name => exact absurd h (by decide)
  | parameter => exact absurd h (by decide)

mutual

/-- A node written inside `depth` expressions is as deep inside as it nests itself. -/
theorem nestingFrom_renderNode (node : Node) {place : Place} (h : NodeWellFormed place node)
    (depth : Nat) (hdepth : place = .outside → depth = 0) {rest : Text}
    (hrest : node.isText = true → rest.head? ≠ some '<') :
    Text.nestingFrom depth (renderNode node ++ rest) =
      max (depth + nodeNesting node) (Text.nestingFrom depth rest) := by
  have hle := Text.le_nestingFrom depth rest
  cases node with
  | text value =>
    rw [NodeWellFormed] at h
    have hclosing : depth = 0 ∨ ∀ c ∈ value, c ≠ '>' := by
      by_cases hplace : place = .outside
      · exact .inl (hdepth hplace)
      · exact .inr fun c hc => ne_closing_of_admits hplace (h.2.2 c hc)
    -- A `>` in a text is outside all expressions, where it closes nothing.
    rw [renderNode_text, nestingFrom_text_append depth h.2.1 hclosing (hrest rfl), nodeNesting]
    omega
  | operation name parameters span =>
    rw [NodeWellFormed] at h
    have hname := nestingFrom_render name h.1 (depth + 1) nofun
      (Reading.head?_renderParts_closing (show ':' ≠ '<' by decide) parameters rest)
    have hparts := nestingFrom_renderParts parameters h.2 (.inl rfl) depth rest
    have hrender : renderNode (.operation name parameters span) ++ rest =
        '$' :: '<' :: (render name ++ (renderParts ':' parameters ++ '>' :: rest)) := by
      simp [renderNode, opening]
    rw [hrender, Text.nestingFrom_opening, hname, hparts, nodeNesting]
    omega

/-- A written forest nests as deep as it does inside the expressions around it. -/
theorem nestingFrom_render (forest : Forest) {place : Place} (h : WellFormed place forest)
    (depth : Nat) (hdepth : place = .outside → depth = 0) {rest : Text}
    (hrest : rest.head? ≠ some '<') :
    Text.nestingFrom depth (render forest ++ rest) =
      max (depth + nesting forest) (Text.nestingFrom depth rest) := by
  cases forest with
  | nil =>
    have hle := Text.le_nestingFrom depth rest
    rw [render_nil, List.nil_append, nesting]
    omega
  | cons node others =>
    rw [WellFormed] at h
    obtain ⟨hnode, hothers, hwell⟩ := h
    have hnext : node.isText = true → (render others ++ rest).head? ≠ some '<' :=
      fun htext => Reading.head?_render_append (hothers htext) fun _ => hrest
    rw [render_cons, List.append_assoc, nestingFrom_renderNode node hnode depth hdepth hnext,
      nestingFrom_render others hwell depth hdepth hrest, nesting]
    omega

/-- So do written parameters, up to the closing of their expression. -/
theorem nestingFrom_renderParts (parts : List Forest) (h : PartsWellFormed parts) {mark : Char}
    (hmark : mark = ':' ∨ mark = ',') (depth : Nat) (rest : Text) :
    Text.nestingFrom (depth + 1) (renderParts mark parts ++ '>' :: rest) =
      max (depth + 1 + partsNesting parts) (Text.nestingFrom depth rest) := by
  cases parts with
  | nil =>
    simp only [renderParts, List.nil_append, Text.nestingFrom_closing, partsNesting,
      Nat.add_sub_cancel, Nat.add_zero]
  | cons part others =>
    rw [PartsWellFormed] at h
    have hpart := nestingFrom_render part h.1 (depth + 1) nofun
      (Reading.head?_renderParts_closing (show ',' ≠ '<' by decide) others rest)
    have hparts := nestingFrom_renderParts others h.2 (.inr rfl) depth rest
    have hrender : renderParts mark (part :: others) ++ '>' :: rest =
        mark :: (render part ++ (renderParts ',' others ++ '>' :: rest)) := by
      simp [renderParts]
    -- The mark in front of a part neither opens nor closes anything.
    have hskip (t : Text) :
        Text.nestingFrom (depth + 1) (mark :: t) = Text.nestingFrom (depth + 1) t := by
      rcases hmark with rfl | rfl
      · exact Text.nestingFrom_cons _ (by decide) (by simp)
      · exact Text.nestingFrom_cons _ (by decide) (by simp)
    rw [hrender, hskip, hpart, hparts, partsNesting]
    omega

end

/-- A well-formed forest nests as deep as its rendering. -/
theorem nesting_render {forest : Forest} (h : WellFormed .outside forest) :
    (render forest).nesting = nesting forest := by
  have hend : ([] : Text).head? ≠ some '<' := by simp
  have hread := nestingFrom_render forest h 0 (fun _ => rfl) hend
  rw [List.append_nil, Text.nestingFrom_nil, Nat.zero_add, Nat.max_zero] at hread
  exact hread

end Forest

/-! ## Reading back -/

namespace Tree

/-- Reading the rendering of a well-formed forest gives the forest with the spans it has there. -/
theorem nodes_parse_render {limit : Nat} {forest : Forest} (h : forest.WellFormed .outside)
    (hnesting : forest.nesting ≤ limit) :
    (parse limit forest.render).nodes = forest.located 0 := by
  have hlimit : forest.render.nesting ≤ limit := by
    rw [Forest.nesting_render h]
    exact hnesting
  have hend : ([] : Text).head? ≠ some '<' := by simp
  have hread := Forest.Reading.read_render forest (r := {}) h 0 hend
  rw [List.append_nil, Forest.Reading.read_nil, Forest.Reading.pushAll_outside,
    Forest.extend_nil_located h] at hread
  rw [nodes_parse hlimit, hread]
  rfl

/-- The rendering of a well-formed forest that nests within the limit is read as that forest, apart
from the spans, which say where in the rendering the operations stand. -/
theorem parse_render (limit : Nat) (forest : Forest) (h : forest.WellFormed .outside)
    (hnesting : forest.nesting ≤ limit) :
    (parse limit forest.render).nodes.withoutSpans = forest.withoutSpans := by
  rw [nodes_parse_render h hnesting, Forest.withoutSpans_located]

/-- Texts that begin or end like half an opening, an empty name, no parameters and one empty
parameter, marks where they are none, and a name that is computed. -/
theorem parse_render_mixed :
    let span : Span := ⟨0, 0⟩
    let forest : Forest := [.text "<>:$", .operation [] [] span, .operation [.text "N"] [] span,
      .operation [.text "N"] [[]] span, .text ",",
      .operation [.text "a,b$", .operation [.text "N"] [] span] [[.text "x:<"], []] span]
    forest.render = "<>:$$<>$<N>$<N:>,$<a,b$$<N>:x:<,>" ∧ forest.WellFormed .outside ∧
      forest.nesting ≤ 2 ∧
      (parse 2 "<>:$$<>$<N>$<N:>,$<a,b$$<N>:x:<,>").nodes.withoutSpans = forest := by
  intro span forest
  have hrender : forest.render = "<>:$$<>$<N>$<N:>,$<a,b$$<N>:x:<,>" := by decide
  have hwell : forest.WellFormed .outside := by decide
  have hnesting : forest.nesting ≤ 2 := by decide
  refine ⟨hrender, hwell, hnesting, ?_⟩
  rw [← hrender, parse_render 2 forest hwell hnesting]
  rfl

end Tree

end BuildExpr
