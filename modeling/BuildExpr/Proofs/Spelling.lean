import Mathlib.Data.List.Forall2
import BuildExpr.Proofs.Nesting
import BuildExpr.Proofs.Places
import BuildExpr.Proofs.Runs

/-!
# Evaluation sees spellings, not places

An operation remembers where in its text it stands. All that an evaluation does with that is to cut
the spelling of the operation out of the text. So if every span cuts out what its operation is written
as (`Forest.SpelledIn`), it does not matter in which text a forest stands, nor where in it
(`Engine.evaluateForest_respelled`). Forests that are read from texts are of this kind
(`Forest.spelledIn_scan`), also where expressions do not end, because they stand where they are written.
Nor does it matter whether texts that touch are one node or several (`Engine.evaluateForest_extend`).
-/

namespace BuildExpr

namespace Forest

/-! ## Spans that cut out spellings -/

mutual

/-- A node of which every span cuts out of a text what its operation is written as. -/
def NodeSpelledIn (source : Text) : Node → Prop
  | .text _ => True
  | .operation name parameters span =>
    source.cut span = renderNode (.operation name parameters span) ∧
      SpelledIn source name ∧ PartsSpelledIn source parameters

/-- A forest of such nodes. -/
def SpelledIn (source : Text) : Forest → Prop
  | [] => True
  | node :: rest => NodeSpelledIn source node ∧ SpelledIn source rest

/-- Parameters of such nodes. -/
def PartsSpelledIn (source : Text) : List Forest → Prop
  | [] => True
  | part :: rest => SpelledIn source part ∧ PartsSpelledIn source rest

end

/-- The forest without nodes is spelled anywhere. -/
theorem SpelledIn.nil (source : Text) : SpelledIn source [] := by rw [SpelledIn]; trivial

/-- So is a text, as it has no span. -/
theorem NodeSpelledIn.text (source value : Text) : NodeSpelledIn source (.text value) := by
  rw [NodeSpelledIn]
  trivial

/-- Forests in a row are spelled in a text if each of them is. -/
theorem spelledIn_append {source : Text} {a b : Forest} :
    SpelledIn source (a ++ b) ↔ SpelledIn source a ∧ SpelledIn source b := by
  induction a with
  | nil =>
    rw [List.nil_append, and_iff_right (SpelledIn.nil source)]
  | cons node a ih =>
    rw [List.cons_append, SpelledIn, SpelledIn, ih, and_assoc]

/-- So are parameters in a row. -/
theorem partsSpelledIn_append {source : Text} {a b : List Forest} :
    PartsSpelledIn source (a ++ b) ↔ PartsSpelledIn source a ∧ PartsSpelledIn source b := by
  induction a with
  | nil => simp [PartsSpelledIn]
  | cons part a ih => rw [List.cons_append, PartsSpelledIn, PartsSpelledIn, ih, and_assoc]

/-- Joining texts changes no spans. -/
theorem spelledIn_push {source : Text} {forest : Forest} {node : Node} :
    SpelledIn source (push forest node) ↔ SpelledIn source (forest ++ [node]) := by
  fun_induction push forest node with
  | case1 => simp [SpelledIn, NodeSpelledIn]
  | case2 => rfl
  | case3 before value => simp [SpelledIn, NodeSpelledIn]
  | case4 first rest node hsingle ih => rw [List.cons_append, SpelledIn, SpelledIn, ih]

/-- Joining texts makes no difference to that. -/
theorem spelledIn_extend {source : Text} {forest nodes : Forest} :
    SpelledIn source (extend forest nodes) ↔ SpelledIn source (forest ++ nodes) := by
  induction nodes generalizing forest with
  | nil =>
    rw [List.append_nil]
    rfl
  | cons node rest ih =>
    rw [extend_cons, ih, spelledIn_append, spelledIn_push, ← spelledIn_append, List.append_assoc,
      List.singleton_append]

/-- Nor does spreading parameters with their marks. -/
theorem spelledIn_spreadParts {source : Text} {parts : List Forest}
    (h : PartsSpelledIn source parts) (mark : Text) :
    SpelledIn source (OpenExpression.spreadParts mark parts) := by
  induction parts generalizing mark with
  | nil => exact .nil source
  | cons part rest ih =>
    rw [PartsSpelledIn] at h
    rw [OpenExpression.spreadParts, List.cons_append, SpelledIn, spelledIn_append]
    exact ⟨.text source mark, h.1, ih h.2 _⟩

mutual

/-- A node is written in the same way without spans. -/
theorem renderNode_withoutSpans (node : Node) :
    renderNode (nodeWithoutSpans node) = renderNode node := by
  cases node with
  | text value => rw [nodeWithoutSpans]
  | operation name parameters span =>
    have hname := render_withoutSpans name
    have hparts := renderParts_withoutSpans ':' parameters
    rw [nodeWithoutSpans, renderNode, renderNode, hname, hparts]

/-- Spans are not written. -/
theorem render_withoutSpans (forest : Forest) : render (withoutSpans forest) = render forest := by
  cases forest with
  | nil => rw [withoutSpans]
  | cons node rest =>
    rw [withoutSpans, render_cons, render_cons, renderNode_withoutSpans node,
      render_withoutSpans rest]

/-- So are parameters. -/
theorem renderParts_withoutSpans (mark : Char) (parts : List Forest) :
    renderParts mark (partsWithoutSpans parts) = renderParts mark parts := by
  cases parts with
  | nil => rw [partsWithoutSpans]
  | cons part rest =>
    rw [partsWithoutSpans, renderParts, renderParts, render_withoutSpans part,
      renderParts_withoutSpans ',' rest]

end

open Text (byteLength_append)

/-! ## Any text -/

mutual

/-- A node that stands where it is written is spelled there. -/
theorem nodeSpelledIn_of_standsAt (node : Node) {source : Text} (before after : Text)
    (hsource : source = before ++ renderNode node ++ after)
    (h : NodeStandsAt before.byteLength node) : NodeSpelledIn source node := by
  cases node with
  | text value => exact .text source value
  | operation name parameters span =>
    -- The parts of an operation stand where its opening, its name and the marks between them put them.
    have hcut := Text.slice_append before (renderNode (.operation name parameters span)) after
    have hname : source = before ++ opening ++ render name ++
        (renderParts ':' parameters ++ '>' :: after) := by
      rw [hsource, renderNode]
      simp
    have hparameters : source = before ++ opening ++ render name ++ renderParts ':' parameters ++
        '>' :: after := by
      rw [hname, List.append_assoc _ _ ('>' :: after)]
    rw [nodeStandsAt_operation] at h
    rw [← hsource] at hcut
    rw [NodeSpelledIn]
    refine ⟨(congrArg source.cut h.2.2).trans hcut, ?_, ?_⟩
    · refine spelledIn_of_standsAt name _ _ hname ?_
      rw [byteLength_append]
      exact h.1
    · refine partsSpelledIn_of_standAt parameters (show (':' : Char).utf8Size = 1 from rfl) _ _
        hparameters ?_
      rw [byteLength_append, byteLength_append]
      exact h.2.1

/-- A forest that stands where it is written in a text is spelled in it. -/
theorem spelledIn_of_standsAt (forest : Forest) {source : Text} (before after : Text)
    (hsource : source = before ++ render forest ++ after) (h : StandsAt before.byteLength forest) :
    SpelledIn source forest := by
  cases forest with
  | nil => exact .nil source
  | cons node rest =>
    have hnode : source = before ++ renderNode node ++ (render rest ++ after) := by
      rw [hsource, render_cons]
      simp
    have hrest : source = before ++ renderNode node ++ render rest ++ after := by
      rw [hnode, List.append_assoc _ _ after]
    rw [standsAt_cons, ← byteLength_append] at h
    rw [SpelledIn]
    exact ⟨nodeSpelledIn_of_standsAt node _ _ hnode h.1, spelledIn_of_standsAt rest _ _ hrest h.2⟩

/-- So are parameters. -/
theorem partsSpelledIn_of_standAt (parts : List Forest) {mark : Char} (hmark : mark.utf8Size = 1)
    {source : Text} (before after : Text) (hsource : source = before ++ renderParts mark parts ++ after)
    (h : PartsStandAt before.byteLength parts) : PartsSpelledIn source parts := by
  cases parts with
  | nil => trivial
  | cons part rest =>
    have hpart : source = before ++ [mark] ++ render part ++ (renderParts ',' rest ++ after) := by
      rw [hsource, renderParts]
      simp
    have hrest : source = before ++ [mark] ++ render part ++ renderParts ',' rest ++ after := by
      rw [hpart, List.append_assoc _ _ after]
    have hbefore : (before ++ [mark]).byteLength = before.byteLength + 1 := by
      rw [byteLength_append, Text.byteLength_cons, hmark]
      rfl
    rw [partsStandAt_cons, ← hbefore, ← byteLength_append] at h
    rw [PartsSpelledIn]
    exact ⟨spelledIn_of_standsAt part _ _ hpart h.1,
      partsSpelledIn_of_standAt rest (show (',' : Char).utf8Size = 1 from rfl) _ _ hrest h.2⟩

end

/-- The forest of any text is spelled in it. -/
theorem spelledIn_scan (source : Text) : SpelledIn source (ofTokens (Token.scan source)) := by
  have hwritten : source = [] ++ render (ofTokens (Token.scan source)) ++ [] := by
    rw [render_ofTokens_scan, List.nil_append, List.append_nil]
  exact spelledIn_of_standsAt _ [] [] hwritten (standsAt_scan source)

/-! ## Closed texts -/

namespace Reading

/-- As many expressions are open at the end of what has been read as in the text. -/
theorem length_pending_read (r : Reading) (offset : Nat) (t : Text) :
    (r.read offset t).pending.length = Text.openAfter r.pending.length t := by
  induction t using Text.opening_induction generalizing r offset with
  | nil => rw [read_nil, Text.openAfter_nil]
  | opening rest ih =>
    rw [read_opening, ih, Text.openAfter_opening]
    rfl
  | char c rest hopen ih =>
    rcases r.admits_or_mark c with hadmits | ⟨done, e, outer, rfl, rfl | rfl⟩
    · rw [read_cons r offset hadmits hopen, ih, length_pending_push]
      by_cases hclose : c = '>'
      · -- A `>` is text outside all expressions only, where it closes nothing.
        subst hclose
        rw [pending_eq_nil_of_admits hadmits, Text.openAfter_closing]
        rfl
      · rw [Text.openAfter_cons _ hclose hopen]
    · rw [read_closing, ih, length_pending_push, Text.openAfter_closing]
      rfl
    · rw [read_mark, ih, Text.openAfter_cons _ e.mark_ne_closing hopen]
      rfl

end Reading

/-- Nothing is open when a closed text has been read. -/
theorem read_closed {source : Text} (h : source.Closed) :
    Reading.read {} 0 source = ⟨ofTokens (Token.scan source), []⟩ := by
  have hpending : (Reading.read {} 0 source).pending = [] := by
    rw [← List.length_eq_zero_iff, Reading.length_pending_read]
    exact h.openAfter_eq_zero
  have hdone : ofTokens (Token.scan source) = (Reading.read {} 0 source).done := by
    change (Reading.read {} 0 source).finish = _
    rw [Reading.finish, hpending, List.foldr_nil]
  rw [hdone]
  exact congrArg (Reading.mk _) hpending

/-- All forests read from a closed text are well formed. -/
theorem wellFormed_ofTokens {source : Text} (h : source.Closed) :
    WellFormed .outside (ofTokens (Token.scan source)) := by
  have hformed : (Reading.read {} 0 source).Formed [] := Reading.formed_read source
  rw [read_closed h] at hformed
  exact hformed.done

/-- What is read from the rendering of a well-formed forest is the forest as it is written there. -/
theorem ofTokens_scan_render {forest : Forest} (h : WellFormed .outside forest) :
    ofTokens (Token.scan forest.render) = located 0 forest := by
  have hnesting : forest.render.nesting ≤ forest.nesting := Nat.le_of_eq (nesting_render h)
  rw [← Tree.nodes_parse_render h (Nat.le_refl _), Tree.nodes_parse hnesting]
  rfl

/-! ## Evaluation along a forest -/

section

variable (operation : Forest → List Forest → Span → Eval Text)

/-- A forest is evaluated node by node. -/
theorem evaluateWith_append (a b : Forest) :
    evaluateWith operation (a ++ b) = (do
      let first ← evaluateWith operation a
      let second ← evaluateWith operation b
      return first ++ second) := by
  induction a with
  | nil => simp only [evaluateWith, List.nil_append, pure_bind, bind_pure]
  | cons node a ih =>
    cases node with
    | text value =>
      simp only [List.cons_append, evaluateWith, ih, bind_assoc, pure_bind, List.append_assoc]
    | operation name parameters span =>
      simp only [List.cons_append, evaluateWith, ih, bind_assoc, pure_bind, List.append_assoc]

/-- Joining texts makes no difference. -/
theorem evaluateWith_push (forest : Forest) (node : Node) :
    evaluateWith operation (push forest node) = evaluateWith operation (forest ++ [node]) := by
  fun_induction push forest node with
  | case1 => simp only [List.nil_append, evaluateWith, pure_bind]
  | case2 => rfl
  | case3 before value =>
    simp only [List.cons_append, List.nil_append, evaluateWith, pure_bind, List.append_nil]
  | case4 first rest node hsingle ih =>
    cases first with
    | text value => rw [List.cons_append, evaluateWith, evaluateWith, ih]
    | operation name parameters span => rw [List.cons_append, evaluateWith, evaluateWith, ih]

/-- Nor does it when the nodes of a forest are pushed. -/
theorem evaluateWith_extend (forest nodes : Forest) :
    evaluateWith operation (extend forest nodes) = evaluateWith operation (forest ++ nodes) := by
  induction nodes generalizing forest with
  | nil =>
    rw [List.append_nil]
    rfl
  | cons node rest ih =>
    rw [extend_cons, ih, evaluateWith_append, evaluateWith_push, ← evaluateWith_append,
      List.append_assoc, List.singleton_append]

end

end Forest

namespace Operation

variable (op : Operation) {evaluate evaluate' : Forest → Eval Text}
  {parameters parameters' : List Forest}
  (h : List.Forall₂ (fun part part' => evaluate part = evaluate' part') parameters parameters')

include h

/-- Parameters that are evaluated alike one by one are so together. -/
theorem evaluateRest_congr (joinedFrom index : Nat) (values : List Text) :
    op.evaluateRest evaluate joinedFrom index values parameters =
      op.evaluateRest evaluate' joinedFrom index values parameters' := by
  induction h generalizing index values with
  | nil => rfl
  | cons hpart _ ih =>
    rw [evaluateRest, evaluateRest, hpart]
    simp only [ih]

/-- Carrying out an operation makes no use of its parameters but for evaluating them. -/
theorem carryOut_congr (call : List Text → Call) :
    op.carryOut evaluate parameters call = op.carryOut evaluate' parameters' call := by
  unfold carryOut evaluateParameters
  rw [h.length_eq]
  simp only [evaluateRest_congr op h]

end Operation

namespace Engine

/-- Forests are evaluated one after the other. -/
theorem evaluateForest_append (engine : Engine) (m : Model) (remaining : Nat) (scope : Scope)
    (chain : Chain) (source : Text) (a b : Forest) :
    engine.evaluateForest m remaining scope chain source (a ++ b) = (do
      let first ← engine.evaluateForest m remaining scope chain source a
      let second ← engine.evaluateForest m remaining scope chain source b
      return first ++ second) := by
  obtain ⟨operation, heq⟩ := engine.evaluateForest_eq m remaining scope chain source
  rw [heq]
  exact Forest.evaluateWith_append operation a b

/-- Joining texts makes no difference to an engine either. -/
theorem evaluateForest_extend (engine : Engine) (m : Model) (remaining : Nat) (scope : Scope)
    (chain : Chain) (source : Text) (forest nodes : Forest) :
    engine.evaluateForest m remaining scope chain source (forest.extend nodes) =
      engine.evaluateForest m remaining scope chain source (forest ++ nodes) := by
  obtain ⟨operation, heq⟩ := engine.evaluateForest_eq m remaining scope chain source
  rw [heq]
  exact Forest.evaluateWith_extend operation forest nodes

end Engine

/-! ## Forests that differ in their spans -/

section

variable {source source' : Text}

namespace Forest

/-- Operations that differ in their spans only are spelled alike. -/
theorem cut_eq_of_respelled {name name' : Forest} {parameters parameters' : List Forest}
    {span span' : Span} (hspelled : NodeSpelledIn source (.operation name parameters span))
    (hspelled' : NodeSpelledIn source' (.operation name' parameters' span'))
    (hsame : nodeWithoutSpans (.operation name parameters span) =
      nodeWithoutSpans (.operation name' parameters' span')) :
    source.cut span = source'.cut span' := by
  rw [NodeSpelledIn] at hspelled hspelled'
  calc source.cut span
    _ = renderNode (.operation name parameters span) := hspelled.1
    _ = renderNode (nodeWithoutSpans (.operation name parameters span)) :=
      (renderNode_withoutSpans _).symm
    _ = renderNode (.operation name' parameters' span') := by
      rw [hsame, renderNode_withoutSpans]
    _ = source'.cut span' := hspelled'.1.symm

/-- Such forests have the same value if such operations have. -/
theorem evaluateWith_respelled {operation operation' : Forest → List Forest → Span → Eval Text}
    (h : ∀ name parameters span name' parameters' span',
      NodeSpelledIn source (.operation name parameters span) →
      NodeSpelledIn source' (.operation name' parameters' span') →
      nodeWithoutSpans (.operation name parameters span) =
        nodeWithoutSpans (.operation name' parameters' span') →
      operation name parameters span = operation' name' parameters' span')
    {nodes nodes' : Forest} (hspelled : SpelledIn source nodes)
    (hspelled' : SpelledIn source' nodes') (hsame : withoutSpans nodes = withoutSpans nodes') :
    nodes.evaluateWith operation = nodes'.evaluateWith operation' := by
  -- Forests that are equal but for spans have the same shape, so the other cases do not occur.
  induction nodes generalizing nodes' with
  | nil =>
    cases nodes' with
    | nil => rfl
    | cons node' rest' =>
      rw [withoutSpans, withoutSpans] at hsame
      cases hsame
  | cons node rest ih =>
    cases nodes' with
    | nil =>
      rw [withoutSpans, withoutSpans] at hsame
      cases hsame
    | cons node' rest' =>
      rw [SpelledIn] at hspelled hspelled'
      rw [withoutSpans, withoutSpans, List.cons.injEq] at hsame
      have hrest := ih hspelled.2 hspelled'.2 hsame.2
      cases node with
      | text value =>
        cases node' with
        | text value' =>
          obtain ⟨hvalue, -⟩ := hsame
          rw [nodeWithoutSpans, nodeWithoutSpans, Node.text.injEq] at hvalue
          rw [evaluateWith, evaluateWith, hvalue, hrest]
        | operation name' parameters' span' =>
          obtain ⟨hnode, -⟩ := hsame
          rw [nodeWithoutSpans, nodeWithoutSpans] at hnode
          cases hnode
      | operation name parameters span =>
        cases node' with
        | text value' =>
          obtain ⟨hnode, -⟩ := hsame
          rw [nodeWithoutSpans, nodeWithoutSpans] at hnode
          cases hnode
        | operation name' parameters' span' =>
          have hoperation := h _ _ _ _ _ _ hspelled.1 hspelled'.1 hsame.1
          rw [evaluateWith, evaluateWith, hoperation, hrest]

/-- So have such parameters if such forests have. -/
theorem forall₂_of_respelled {evaluate evaluate' : Forest → Eval Text}
    (h : ∀ nodes nodes', SpelledIn source nodes → SpelledIn source' nodes' →
      withoutSpans nodes = withoutSpans nodes' → evaluate nodes = evaluate' nodes')
    {parameters parameters' : List Forest} (hspelled : PartsSpelledIn source parameters)
    (hspelled' : PartsSpelledIn source' parameters')
    (hsame : partsWithoutSpans parameters = partsWithoutSpans parameters') :
    List.Forall₂ (fun part part' => evaluate part = evaluate' part') parameters parameters' := by
  induction parameters generalizing parameters' with
  | nil =>
    cases parameters' with
    | nil => exact .nil
    | cons part' rest' =>
      rw [partsWithoutSpans, partsWithoutSpans] at hsame
      cases hsame
  | cons part rest ih =>
    cases parameters' with
    | nil =>
      rw [partsWithoutSpans, partsWithoutSpans] at hsame
      cases hsame
    | cons part' rest' =>
      rw [PartsSpelledIn] at hspelled hspelled'
      rw [partsWithoutSpans, partsWithoutSpans, List.cons.injEq] at hsame
      exact .cons (h part part' hspelled.1 hspelled'.1 hsame.1)
        (ih hspelled.2 hspelled'.2 hsame.2)

end Forest

open Forest (SpelledIn withoutSpans)

/-- Forests that differ in their spans only have the same value, each in the text that it is spelled
in. -/
theorem Engine.evaluateForest_respelled (engine : Engine) (m : Model) (remaining : Nat)
    (scope : Scope) (chain : Chain) {nodes nodes' : Forest} (hspelled : SpelledIn source nodes)
    (hspelled' : SpelledIn source' nodes') (hsame : withoutSpans nodes = withoutSpans nodes') :
    engine.evaluateForest m remaining scope chain source nodes =
      engine.evaluateForest m remaining scope chain source' nodes' := by
  induction remaining generalizing nodes nodes' with
  | zero =>
    -- Not even one operation may be opened, but a failure quotes the text of the first.
    refine Forest.evaluateWith_respelled ?_ hspelled hspelled' hsame
    intro name parameters span name' parameters' span' hnode hnode' hnodes
    rw [Forest.cut_eq_of_respelled hnode hnode' hnodes]
  | succ remaining ih =>
    refine Forest.evaluateWith_respelled ?_ hspelled hspelled' hsame
    intro name parameters span name' parameters' span' hnode hnode' hnodes
    have hcut := Forest.cut_eq_of_respelled hnode hnode' hnodes
    rw [Forest.NodeSpelledIn] at hnode hnode'
    rw [Forest.nodeWithoutSpans, Forest.nodeWithoutSpans, Node.operation.injEq] at hnodes
    obtain ⟨hnames, hparts, -⟩ := hnodes
    -- The name and the parameters are spelled alike themselves, and so is the quoted text.
    have hname := ih hnode.2.1 hnode'.2.1 hnames
    have hparameters := Forest.forall₂_of_respelled
      (fun nodes nodes' hnodes hnodes' heq => ih hnodes hnodes' heq) hnode.2.2 hnode'.2.2 hparts
    unfold evaluateOperation
    simp only [hcut, hname, Operation.carryOut_congr _ hparameters]

end

/-- Evaluating the tree of a text that nests within the limit is evaluating its forest. -/
theorem Engine.evaluateTree_parse (engine : Engine) (m : Model) (remaining : Nat) (scope : Scope)
    (chain : Chain) {limit : Nat} {source : Text} (h : source.nesting ≤ limit) :
    engine.evaluateTree m remaining scope chain (Tree.parse limit source) =
      engine.evaluateForest m remaining scope chain source
        (Forest.ofTokens (Token.scan source)) := by
  have hnodes : (Tree.parse limit source).nodes = Forest.ofTokens (Token.scan source) :=
    Tree.nodes_parse h
  have hoverflow := Tree.overflow?_parse h
  have hsource := Tree.source_parse limit source
  cases htree : Tree.parse limit source with
  | plain text =>
    -- A plain text is read as one text node, unless it is empty.
    rw [htree] at hnodes hsource
    have hliteral : (Forest.push [] (.text text)).literal? = some text := by
      cases text with
      | nil => rfl
      | cons c text => rfl
    have hvalue := engine.evaluateForest_literal m remaining scope chain source hliteral
    rw [← hnodes]
    exact hvalue.symm
  | forest text nodes =>
    rw [htree] at hnodes hsource
    rw [← hnodes, ← hsource]
    rfl
  | tooDeep text depth bound =>
    rw [htree] at hoverflow
    cases hoverflow

end BuildExpr
