import BuildExpr.Interface
import BuildExpr.Proofs.EmptyElements
import BuildExpr.Proofs.Seams
import BuildExpr.Proofs.Selecting

/-!
# Dropping empty elements tidies expressions

The empty elements of an exported list are dropped at the end, in the text as a whole. What this does to
an expression is to reduce every run of separators in it to a single one, wherever the expression stands
in the list. So an export that has no content for a side to select changes expressions in this way and in
no other (`operations_exported`).

An expression has neither an opening nor a close more or less afterwards (`Text.Thinned`), so that texts
nest as before. In the forest of a text the change is one to the literal texts: in an expression no text
starts right behind a separator, and a run of separators never goes on past the end of a text
(`dropRepeated_render`).
-/

namespace BuildExpr

open Elements (separator dropRepeated clean dropFinal dropEmpty)

namespace Text

/-! ## Texts without some of their separators -/

/-- The second text is the first without some of its separators, and has no further opening. -/
inductive Thinned : Text → Text → Prop where
  | nil : Thinned [] []
  | opening {t u : Text} : Thinned t u → Thinned ('$' :: '<' :: t) ('$' :: '<' :: u)
  | separator {t u : Text} : Thinned t u → Thinned (separator :: t) u
  | char {c : Char} {t u : Text} : (∀ tail, c = '$' → t = '<' :: tail → False) →
      (∀ tail, c = '$' → u = '<' :: tail → False) → Thinned t u → Thinned (c :: t) (c :: u)

/-- A text without its repeated separators has no further opening. -/
theorem thinned_dropRepeated (after : Bool) (t : Text) : Thinned t (dropRepeated after t) := by
  induction t using opening_induction generalizing after with
  | nil =>
    rw [Elements.dropRepeated_nil]
    exact .nil
  | opening rest ih =>
    rw [Elements.dropRepeated_cons (by decide), Elements.dropRepeated_cons (by decide)]
    exact .opening (ih false)
  | char c rest hopen ih =>
    by_cases hc : c = ';'
    · subst hc
      cases after with
      | true =>
        rw [Elements.dropRepeated_repeated]
        exact .separator (ih true)
      | false =>
        rw [Elements.dropRepeated_separator]
        exact .char hopen (fun _ h => absurd h (by decide)) (ih true)
    · -- No opening comes about, since what is left of the rest starts as the rest does.
      rw [Elements.dropRepeated_cons hc]
      refine .char hopen (fun tail hdollar htail => ?_) (ih false)
      have hhead := Elements.head?_dropRepeated_false rest
      rw [htail] at hhead
      obtain ⟨others, rfl⟩ := List.head?_eq_some_iff.1 hhead.symm
      exact hopen others hdollar rfl

variable {t u : Text}

/-- A separator at the end may go as well. -/
theorem Thinned.of_concat (h : Thinned t (u ++ [';'])) : Thinned t u := by
  -- The separator at the end may be one that both texts have or the last that is kept.
  generalize hw : u ++ [';'] = w at h
  induction h generalizing u with
  | nil => simp at hw
  | opening _ ih =>
    cases u with
    | nil => exact absurd (List.cons.inj hw).1 (by decide)
    | cons d u =>
      obtain ⟨rfl, htail⟩ := List.cons.inj hw
      cases u with
      | nil => exact absurd (List.cons.inj htail).1 (by decide)
      | cons e u =>
        obtain ⟨rfl, hrest⟩ := List.cons.inj htail
        exact .opening (ih hrest)
  | separator _ ih => exact .separator (ih hw)
  | @char c t v hopen hopen' ht ih =>
    cases u with
    | nil =>
      obtain ⟨rfl, rfl⟩ := List.cons.inj hw
      exact .separator ht
    | cons d u =>
      obtain ⟨rfl, rfl⟩ := List.cons.inj hw
      refine .char hopen (fun tail hdollar hu => ?_) (ih rfl)
      exact hopen' (tail ++ [';']) hdollar (by rw [hu]; rfl)

/-- Nor has a list without its empty elements. -/
theorem thinned_dropEmpty (t : Text) : Thinned t (dropEmpty t) := by
  have ht := thinned_dropRepeated true t
  rcases Elements.dropFinal_eq_or (dropRepeated true t) with hkept | hfinal
  · rw [dropEmpty, hkept]
    exact ht
  · rw [hfinal] at ht
    exact ht.of_concat

/-- Without some separators, a text nests as deep as before. -/
theorem Thinned.nestingFrom_eq (h : Thinned t u) (depth : Nat) :
    nestingFrom depth u = nestingFrom depth t := by
  induction h generalizing depth with
  | nil => rfl
  | opening _ ih => rw [nestingFrom_opening, nestingFrom_opening, ih]
  | separator _ ih => rw [nestingFrom_cons depth (by decide) (fun _ h => absurd h (by decide)), ih]
  | @char c t u hopen hopen' _ ih =>
    by_cases hclose : c = '>'
    · rw [hclose, nestingFrom_closing, nestingFrom_closing, ih]
    · rw [nestingFrom_cons depth hclose hopen, nestingFrom_cons depth hclose hopen', ih]

/-- As many expressions are open at its end. -/
theorem Thinned.openAfter_eq (h : Thinned t u) (depth : Nat) :
    openAfter depth u = openAfter depth t := by
  induction h generalizing depth with
  | nil => rfl
  | opening _ ih => rw [openAfter_opening, openAfter_opening, ih]
  | separator _ ih => rw [openAfter_cons depth (by decide) (fun _ h => absurd h (by decide)), ih]
  | @char c t u hopen hopen' _ ih =>
    by_cases hclose : c = '>'
    · rw [hclose, openAfter_closing, openAfter_closing, ih]
    · rw [openAfter_cons depth hclose hopen, openAfter_cons depth hclose hopen', ih]

/-- A text without some of its separators is closed if the text is. -/
theorem Thinned.closed_iff (h : Thinned t u) : Closed u ↔ Closed t := by
  rw [Text.closed_iff, Text.closed_iff, h.openAfter_eq]

/-- A text nests exactly if there is an opening in it. -/
theorem nesting_pos_iff : 0 < nesting t ↔ BuildExpr.opening <:+: t := by
  constructor
  · intro h
    by_contra hnone
    rw [nesting_of_no_opening hnone] at h
    exact Nat.lt_irrefl 0 h
  · rintro ⟨before, after, rfl⟩
    have hapart : Apart before (BuildExpr.opening ++ after) :=
      apart_of_head? (by simp [BuildExpr.opening])
    have hle := le_nestingFrom (openAfter 0 before + 1) after
    have hopening := nestingFrom_opening (openAfter 0 before) after
    rw [nesting, List.append_assoc, nestingFrom_append 0 hapart]
    refine Nat.lt_of_lt_of_le ?_ (Nat.le_max_right _ _)
    exact Nat.lt_of_lt_of_le (Nat.succ_pos _) (hopening ▸ hle)

/-- Dropping separators makes and breaks no opening. -/
theorem Thinned.opening_infix_iff (h : Thinned t u) :
    BuildExpr.opening <:+: u ↔ BuildExpr.opening <:+: t := by
  rw [← nesting_pos_iff, ← nesting_pos_iff, nesting, nesting, h.nestingFrom_eq]

end Text

namespace Forest

/-! ## Tidied forests -/

mutual

/-- A node in whose texts every run of separators is reduced to one. -/
def nodeTidied : Node → Node
  | .text value => .text (dropRepeated false value)
  | .operation name parameters span =>
    .operation (tidied name) (partsTidied parameters) span

/-- A forest of such nodes. -/
def tidied : Forest → Forest
  | [] => []
  | node :: rest => nodeTidied node :: tidied rest

/-- Parameters of such nodes. -/
def partsTidied : List Forest → List Forest
  | [] => []
  | part :: rest => tidied part :: partsTidied rest

end

/-- A text stays one when it is tidied. -/
theorem isText_nodeTidied (node : Node) : (nodeTidied node).isText = node.isText := by
  cases node with
  | text value => rw [nodeTidied]; rfl
  | operation name parameters span => rw [nodeTidied]; rfl

/-- So a forest starts with a text as before. -/
theorem startsWithText_tidied (forest : Forest) :
    startsWithText (tidied forest) = startsWithText forest := by
  cases forest with
  | nil => rw [tidied]
  | cons node rest =>
    rw [tidied]
    exact isText_nodeTidied node

mutual

/-- A well-formed node is well formed when it is tidied. -/
theorem nodeWellFormed_tidied (node : Node) {place : Place} (h : NodeWellFormed place node) :
    NodeWellFormed place (nodeTidied node) := by
  cases node with
  | text value =>
    rw [NodeWellFormed] at h
    obtain ⟨hne, hopening, hadmits⟩ := h
    have hthin := Text.thinned_dropRepeated false value
    rw [nodeTidied, NodeWellFormed]
    refine ⟨fun hnil => hne ?_, ?_, fun c hc => hadmits c ?_⟩
    · have hhead := Elements.head?_dropRepeated_false value
      rw [hnil] at hhead
      exact List.head?_eq_none_iff.1 hhead.symm
    · rw [hthin.opening_infix_iff]
      exact hopening
    · exact (Elements.dropRepeated_sublist false value).subset hc
  | operation name parameters span =>
    rw [NodeWellFormed] at h
    rw [nodeTidied, NodeWellFormed]
    exact ⟨wellFormed_tidied name h.1, partsWellFormed_tidied parameters h.2⟩

/-- A tidied forest is as well formed as it was. -/
theorem wellFormed_tidied (forest : Forest) {place : Place} (h : WellFormed place forest) :
    WellFormed place (tidied forest) := by
  cases forest with
  | nil =>
    rw [tidied]
    exact h
  | cons node rest =>
    rw [WellFormed] at h
    rw [tidied, WellFormed, isText_nodeTidied, startsWithText_tidied]
    exact ⟨nodeWellFormed_tidied node h.1, h.2.1, wellFormed_tidied rest h.2.2⟩

/-- So are well-formed parameters. -/
theorem partsWellFormed_tidied (parts : List Forest) (h : PartsWellFormed parts) :
    PartsWellFormed (partsTidied parts) := by
  cases parts with
  | nil =>
    rw [partsTidied]
    exact h
  | cons part rest =>
    rw [PartsWellFormed] at h
    rw [partsTidied, PartsWellFormed]
    exact ⟨wellFormed_tidied part h.1, partsWellFormed_tidied rest h.2⟩

end

mutual

/-- Behind something else than a separator, what is left of a node is the tidied node. -/
theorem dropRepeated_renderNode (node : Node) {place : Place} (h : NodeWellFormed place node)
    {rest : Text} (hrest : node.isText = true → rest.head? ≠ some ';') :
    dropRepeated false (renderNode node ++ rest) =
      renderNode (nodeTidied node) ++ dropRepeated false rest := by
  cases node with
  | text value =>
    rw [nodeTidied, renderNode_text, renderNode_text]
    exact Elements.dropRepeated_append fun _ => hrest rfl
  | operation name parameters span =>
    rw [NodeWellFormed] at h
    have hrender : renderNode (.operation name parameters span) ++ rest =
        '$' :: '<' :: (render name ++ (renderParts ':' parameters ++ '>' :: rest)) := by
      simp [renderNode, opening]
    -- What follows the name starts with `:` or `>`, so no run of separators goes on there.
    have hcolon : (renderParts ':' parameters ++ '>' :: rest).head? ≠ some ';' :=
      Reading.head?_renderParts_append (by decide) parameters (by simp)
    have hname := dropRepeated_render name h.1 hcolon
    have hparts := dropRepeated_renderParts parameters h.2 (show ':' ≠ ';' by decide) rest
    rw [hrender, Elements.dropRepeated_cons (by decide), Elements.dropRepeated_cons (by decide), hname,
      hparts, nodeTidied]
    simp [renderNode, opening]

/-- So it is with a forest in which no text follows a text. -/
theorem dropRepeated_render (forest : Forest) {place : Place} (h : WellFormed place forest)
    {rest : Text} (hrest : rest.head? ≠ some ';') :
    dropRepeated false (render forest ++ rest) =
      render (tidied forest) ++ dropRepeated false rest := by
  cases forest with
  | nil => rw [tidied, render_nil, List.nil_append, List.nil_append]
  | cons node others =>
    rw [WellFormed] at h
    obtain ⟨hnode, hothers, hwell⟩ := h
    -- Behind a text there is an operation, which starts with `$`, or the end of the forest.
    have hnext : node.isText = true → (render others ++ rest).head? ≠ some ';' := by
      intro htext
      rcases Reading.eq_nil_or_head?_render_append (hothers htext) rest with rfl | hhead
      · simpa using hrest
      · rw [hhead]
        decide
    rw [render_cons, List.append_assoc, dropRepeated_renderNode node hnode hnext,
      dropRepeated_render others hwell hrest, tidied, render_cons, List.append_assoc]

/-- Dropping the repeated separators of written parameters leaves what the tidied ones are written
as. -/
theorem dropRepeated_renderParts (parts : List Forest) (h : PartsWellFormed parts) {mark : Char}
    (hmark : mark ≠ ';') (rest : Text) :
    dropRepeated false (renderParts mark parts ++ '>' :: rest) =
      renderParts mark (partsTidied parts) ++ '>' :: dropRepeated false rest := by
  cases parts with
  | nil =>
    rw [partsTidied, renderParts, List.nil_append, List.nil_append,
      Elements.dropRepeated_cons (by decide)]
  | cons part others =>
    rw [PartsWellFormed] at h
    have hcomma : (renderParts ',' others ++ '>' :: rest).head? ≠ some ';' :=
      Reading.head?_renderParts_append (by decide) others (by simp)
    have hpart := dropRepeated_render part h.1 hcomma
    have hothers := dropRepeated_renderParts others h.2 (show ',' ≠ ';' by decide) rest
    have hrender : renderParts mark (part :: others) ++ '>' :: rest =
        mark :: (render part ++ (renderParts ',' others ++ '>' :: rest)) := by
      simp [renderParts]
    rw [hrender, Elements.dropRepeated_cons hmark, hpart, hothers, partsTidied]
    simp [renderParts]

end

/-! ## What is tidied already -/

mutual

/-- A node is tidied if there is no repeated separator in its text. -/
theorem nodeTidied_eq_self (node : Node) (h : ¬ [separator, separator] <:+: renderNode node) :
    nodeTidied node = node := by
  cases node with
  | text value =>
    rw [renderNode_text] at h
    rw [nodeTidied, Elements.dropRepeated_eq_self h]
  | operation name parameters span =>
    rw [renderNode] at h
    have hname : ¬ [separator, separator] <:+: render name := fun hin =>
      h (hin.trans ⟨opening, renderParts ':' parameters ++ ['>'], by simp⟩)
    have hparts : ¬ [separator, separator] <:+: renderParts ':' parameters := fun hin =>
      h (hin.trans ⟨opening ++ render name, ['>'], rfl⟩)
    rw [nodeTidied, tidied_eq_self name hname, partsTidied_eq_self parameters hparts]

/-- A forest that is written without repeated separators is tidied already. -/
theorem tidied_eq_self (forest : Forest) (h : ¬ [separator, separator] <:+: render forest) :
    tidied forest = forest := by
  cases forest with
  | nil => rw [tidied]
  | cons node rest =>
    rw [render_cons] at h
    have hnode : ¬ [separator, separator] <:+: renderNode node := fun hin =>
      h (hin.trans (List.prefix_append _ _).isInfix)
    have hrest : ¬ [separator, separator] <:+: render rest := fun hin =>
      h (hin.trans (List.suffix_append _ _).isInfix)
    rw [tidied, nodeTidied_eq_self node hnode, tidied_eq_self rest hrest]

/-- So are parameters. -/
theorem partsTidied_eq_self (parts : List Forest) {mark : Char}
    (h : ¬ [separator, separator] <:+: renderParts mark parts) : partsTidied parts = parts := by
  cases parts with
  | nil => rw [partsTidied]
  | cons part rest =>
    rw [renderParts] at h
    have hpart : ¬ [separator, separator] <:+: render part := fun hin =>
      h (hin.trans ⟨[mark], renderParts ',' rest, rfl⟩)
    have hrest : ¬ [separator, separator] <:+: renderParts ',' rest := fun hin =>
      h (hin.trans (List.suffix_append _ _).isInfix)
    rw [partsTidied, tidied_eq_self part hpart, partsTidied_eq_self rest hrest]

end

/-- There is none in a tidied node. -/
theorem not_repeated_renderNode_tidied {node : Node} {place : Place} (h : NodeWellFormed place node) :
    ¬ [separator, separator] <:+: renderNode (nodeTidied node) := by
  have hend : node.isText = true → ([] : Text).head? ≠ some ';' := by simp
  have hdrop := dropRepeated_renderNode node h hend
  rw [List.append_nil, Elements.dropRepeated_nil, List.append_nil] at hdrop
  rw [← hdrop]
  exact Elements.not_repeated_dropRepeated false _

/-! ## Operations -/

/-- The operations of a forest that are inside no other, in order. -/
def operations (forest : Forest) : Forest := forest.filter fun node => !node.isText

/-- Pushing a node adds it to the operations, if it is one. -/
theorem operations_push (forest : Forest) (node : Node) :
    operations (push forest node) = operations forest ++ operations [node] := by
  unfold operations
  rw [← List.filter_append]
  fun_induction push forest node with
  | case1 => rfl
  | case2 node => rfl
  | case3 before value => rfl
  | case4 node first rest _ ih => rw [List.filter_cons, List.cons_append, List.filter_cons, ih]

/-- So does pushing the nodes of a forest. -/
theorem operations_extend (forest nodes : Forest) :
    operations (extend forest nodes) = operations forest ++ operations nodes := by
  induction nodes generalizing forest with
  | nil => exact (List.append_nil _).symm
  | cons node rest ih =>
    have hnodes : operations (node :: rest) = operations [node] ++ operations rest :=
      List.filter_append [node] rest
    rw [extend_cons, ih, operations_push, hnodes, List.append_assoc]

/-- The operations are the same when spans are forgotten. -/
theorem operations_withoutSpans (forest : Forest) :
    operations (withoutSpans forest) = withoutSpans (operations forest) := by
  induction forest with
  | nil => simp [operations, withoutSpans]
  | cons node rest ih =>
    unfold operations at ih ⊢
    cases node with
    | text value => simpa [withoutSpans, nodeWithoutSpans, Node.isText] using ih
    | operation name parameters span => simpa [withoutSpans, nodeWithoutSpans, Node.isText] using ih

/-- The operations of a tidied forest are its operations tidied. -/
theorem operations_tidied (forest : Forest) : operations (tidied forest) = tidied (operations forest) := by
  induction forest with
  | nil => simp [operations, tidied]
  | cons node rest ih =>
    unfold operations at ih ⊢
    rw [tidied, List.filter_cons, List.filter_cons, isText_nodeTidied, ih]
    cases hnode : node.isText with
    | true => rfl
    | false => rw [Bool.not_false, if_pos rfl, if_pos rfl, tidied]

mutual

/-- A node may be tidied before or after its spans are forgotten. -/
theorem nodeTidied_nodeWithoutSpans (node : Node) :
    nodeTidied (nodeWithoutSpans node) = nodeWithoutSpans (nodeTidied node) := by
  cases node with
  | text value => simp only [nodeWithoutSpans, nodeTidied]
  | operation name parameters span =>
    rw [nodeWithoutSpans, nodeTidied, nodeTidied, nodeWithoutSpans, tidied_withoutSpans name,
      partsTidied_partsWithoutSpans parameters]

/-- Spans make no difference to what is tidied. -/
theorem tidied_withoutSpans (forest : Forest) :
    tidied (withoutSpans forest) = withoutSpans (tidied forest) := by
  cases forest with
  | nil => simp only [withoutSpans, tidied]
  | cons node rest =>
    rw [withoutSpans, tidied, tidied, withoutSpans, nodeTidied_nodeWithoutSpans node,
      tidied_withoutSpans rest]

/-- So may parameters. -/
theorem partsTidied_partsWithoutSpans (parts : List Forest) :
    partsTidied (partsWithoutSpans parts) = partsWithoutSpans (partsTidied parts) := by
  cases parts with
  | nil => simp only [partsWithoutSpans, partsTidied]
  | cons part rest =>
    rw [partsWithoutSpans, partsTidied, partsTidied, partsWithoutSpans, tidied_withoutSpans part,
      partsTidied_partsWithoutSpans rest]

end

/-- The operations of a well-formed forest are tidied exactly if no separator is repeated in them. -/
theorem tidied_operations_eq_self_iff {forest : Forest} {place : Place} (h : WellFormed place forest) :
    tidied (withoutSpans (operations forest)) = withoutSpans (operations forest) ↔
      ∀ node ∈ withoutSpans (operations forest), ¬ [separator, separator] <:+: renderNode node := by
  induction forest with
  | nil => simp [operations, withoutSpans, tidied]
  | cons node rest ih =>
    rw [WellFormed] at h
    have hrest := ih h.2.2
    cases hnode : node.isText with
    | true =>
      have hoperations : operations (node :: rest) = operations rest :=
        List.filter_cons_of_neg (by simp [hnode])
      rw [hoperations]
      exact hrest
    | false =>
      have hoperations : operations (node :: rest) = node :: operations rest :=
        List.filter_cons_of_pos (by simp [hnode])
      -- A node is changed exactly if there are repeated separators in what it is rendered to.
      have hfirst : nodeTidied (nodeWithoutSpans node) = nodeWithoutSpans node ↔
          ¬ [separator, separator] <:+: renderNode (nodeWithoutSpans node) := by
        refine ⟨fun htidied => ?_, nodeTidied_eq_self _⟩
        rw [← htidied, nodeTidied_nodeWithoutSpans, renderNode_withoutSpans]
        exact not_repeated_renderNode_tidied h.1
      rw [hoperations, withoutSpans, tidied, List.cons.injEq, hfirst, hrest, List.forall_mem_cons]

end Forest

namespace Text

/-! ## What a text without some separators says -/

/-- The operations that a text says and that are inside no other, whatever their spans. -/
def operations (t : Text) : Forest :=
  Forest.withoutSpans (Forest.operations (Forest.ofTokens (Token.scan t)))

/-- Behind a closed text, a text says the operations that it says by itself. -/
theorem operations_append {a b : Text} (ha : Closed a) (hab : Apart a b) :
    operations (a ++ b) = operations a ++ operations b := by
  obtain ⟨nodes, hnodes, hread⟩ := Forest.ofTokens_append ha hab
  unfold operations
  rw [hread, Forest.operations_extend, Forest.withoutSpans_append, ← Forest.operations_withoutSpans nodes,
    hnodes, Forest.operations_withoutSpans]

/-- A text without openings says no operations. -/
theorem operations_of_no_opening {t : Text} (h : ¬ BuildExpr.opening <:+: t) : operations t = [] := by
  have hread : Forest.Reading.read {} 0 t = Forest.Reading.push {} (.text t) := by
    have hend : ([] : Text).head? ≠ some '<' := by simp
    have htext := Forest.Reading.read_text {} 0 h (fun c _ => rfl) hend
    rwa [List.append_nil, Forest.Reading.read_nil] at htext
  have hnodes : Forest.ofTokens (Token.scan t) = Forest.push [] (.text t) :=
    congrArg Forest.Reading.finish hread
  rw [operations, hnodes, Forest.operations_push]
  rfl

/-- What is written from a well-formed forest says the operations of the forest. -/
theorem operations_render {forest : Forest} (h : forest.WellFormed .outside) :
    operations forest.render = Forest.withoutSpans (Forest.operations forest) := by
  rw [operations, Forest.ofTokens_scan_render h, ← Forest.operations_withoutSpans,
    Forest.withoutSpans_located, Forest.operations_withoutSpans]

variable {t : Text}

/-- Without repeated separators a text says the operations it said, tidied. -/
theorem operations_dropRepeated (h : Closed t) :
    operations (dropRepeated false t) = Forest.tidied (operations t) := by
  have hwell := Forest.wellFormed_ofTokens h
  have hend : ([] : Text).head? ≠ some ';' := by simp
  have hdrop := Forest.dropRepeated_render _ hwell hend
  rw [List.append_nil, Forest.render_ofTokens_scan, Elements.dropRepeated_nil, List.append_nil] at hdrop
  rw [hdrop, operations_render (Forest.wellFormed_tidied _ hwell), Forest.operations_tidied,
    ← Forest.tidied_withoutSpans, operations]

/-- A separator in front of a text is in no operation. -/
theorem operations_separator (t : Text) : operations (';' :: t) = operations t := by
  have hplain : ¬ BuildExpr.opening <:+: [';'] := by decide
  have hapart : Apart [';'] t := fun hlast => absurd hlast (by decide)
  have happend := operations_append (closed_of_no_opening hplain) hapart
  rw [operations_of_no_opening hplain, List.nil_append] at happend
  exact happend

/-- So it does without leading ones. -/
theorem operations_dropRepeated_true (h : Closed t) :
    operations (dropRepeated true t) = Forest.tidied (operations t) := by
  induction t with
  | nil => exact operations_dropRepeated h
  | cons c rest ih =>
    by_cases hc : c = ';'
    · subst hc
      have hrest : Closed rest := Closed.of_append (a := [';']) h
      rw [Elements.dropRepeated_repeated, ih hrest, operations_separator]
    · rw [Elements.dropRepeated_cons hc, ← Elements.dropRepeated_cons hc false]
      exact operations_dropRepeated h

/-- And so it does without empty elements. -/
theorem operations_dropEmpty (h : Closed t) :
    operations (dropEmpty t) = Forest.tidied (operations t) := by
  have hclosed : Closed (dropEmpty t) := (thinned_dropEmpty t).closed_iff.2 h
  have hseparator : operations [';'] = [] := operations_of_no_opening (by decide)
  rw [← operations_dropRepeated_true h]
  rcases Elements.dropFinal_eq_or (dropRepeated true t) with hkept | hfinal
  · rw [dropEmpty, hkept]
  · rw [hfinal, ← dropEmpty, operations_append hclosed (apart_of_head? (by decide)), hseparator,
      List.append_nil]

end Text

namespace Tree

/-- The operations of a tree that are inside no other, whatever their spans. -/
def operations (tree : Tree) : Forest := (Forest.operations tree.nodes).withoutSpans

/-- The tree of a text within the limit has the operations that the text says. -/
theorem operations_parse {limit : Nat} {t : Text} (h : t.nesting ≤ limit) :
    (parse limit t).operations = t.operations := by
  rw [operations, nodes_parse h]
  rfl

/-- A tree of a text that nests too deep has none. -/
theorem operations_parse_of_lt {limit : Nat} {t : Text} (h : limit < t.nesting) :
    (parse limit t).operations = [] := by
  rw [operations, parse_of_lt h, nodes, Forest.operations_push]
  simp [Forest.operations, Forest.withoutSpans, Node.isText]

end Tree

namespace Interface

/-! ## Exports without content for a side -/

/-- A text without markers has nothing to select. -/
theorem select_eq_self (keep : Side → Text → Text) {t : Text}
    (h : ∀ marked : Side, ¬ marked.marker <:+: t) : select keep t = t := by
  induction t with
  | nil => rw [select_nil]
  | cons c rest ih =>
    rw [select_cons keep fun marked hmarked => h marked hmarked.isInfix, ih]
    exact fun marked hmarked => h marked (hmarked.trans (List.suffix_cons c rest).isInfix)

/-- The operations of a list in which nothing is written for a side are exported with every run of
separators reduced to one, and as they are exactly if there is no run in them. -/
theorem operations_exported (side : Side) (root : Option Text) (limit : Nat) {t : Text}
    (h : t.Closed) (hmarkers : ∀ marked : Side, ¬ marked.marker <:+: t) :
    (Tree.parse limit (exported (.keep side) root t)).operations =
        Forest.tidied (Tree.parse limit t).operations ∧
      ((Tree.parse limit (exported (.keep side) root t)).operations =
          (Tree.parse limit t).operations ↔
        ∀ node ∈ (Tree.parse limit t).operations,
          ¬ [separator, separator] <:+: Forest.renderNode node) := by
  have hexported : exported (.keep side) root t = dropEmpty t := by
    rw [exported, select_eq_self _ hmarkers]
  have hnesting : (dropEmpty t).nesting = t.nesting := (Text.thinned_dropEmpty t).nestingFrom_eq 0
  rw [hexported]
  rcases Nat.lt_or_ge limit t.nesting with hdeep | hlimit
  · -- A text that nests too deep has no operations, before and after.
    rw [Tree.operations_parse_of_lt hdeep, Tree.operations_parse_of_lt (hnesting.symm ▸ hdeep)]
    simp [Forest.tidied]
  · rw [Tree.operations_parse hlimit, Tree.operations_parse (hnesting.symm ▸ hlimit),
      Text.operations_dropEmpty h]
    exact ⟨rfl, Forest.tidied_operations_eq_self_iff (Forest.wellFormed_ofTokens h)⟩

/-- A run inside an expression inside another one, and separators around them. -/
theorem operations_exported_nested :
    let t : Text := ";a;;$<X:$<Y:b;;c>>;"
    t.Closed ∧ (∀ marked : Side, ¬ marked.marker <:+: t) ∧
      (Tree.parse 2 (exported (.keep .install) (some defaultRoot) t)).operations =
        Forest.tidied (Tree.parse 2 t).operations ∧
      exported (.keep .install) (some defaultRoot) t = "a;$<X:$<Y:b;c>>" := by
  intro t
  have hclosed : t.Closed := by decide
  have hmarkers : ∀ marked : Side, ¬ marked.marker <:+: t := by
    intro marked
    cases marked <;> decide
  refine ⟨hclosed, hmarkers, (operations_exported .install (some defaultRoot) 2 hclosed hmarkers).1, ?_⟩
  rw [exported, select_eq_self _ hmarkers]
  decide

/-- An expression with a run in its parameter says something else afterwards. -/
theorem operations_exported_ne :
    let t : Text := "$<X:a;;b>"
    t.Closed ∧ (∀ marked : Side, ¬ marked.marker <:+: t) ∧
      (Tree.parse 1 (exported (.keep .build) none t)).operations ≠ (Tree.parse 1 t).operations := by
  intro t
  have hmarkers : ∀ marked : Side, ¬ marked.marker <:+: t := by
    intro marked
    cases marked <;> decide
  let written (parameter : Text) : Forest := [.operation [.text "X"] [[.text parameter]] ⟨0, 0⟩]
  have hbefore : t = (written "a;;b").render := by decide
  have hafter : dropEmpty t = (written "a;b").render := by decide
  refine ⟨by decide, hmarkers, ?_⟩
  rw [exported, select_eq_self _ hmarkers, hafter, hbefore, Tree.operations_parse (by decide),
    Tree.operations_parse (by decide), Text.operations_render (by decide),
    Text.operations_render (by decide)]
  simp [written, Forest.operations, Forest.withoutSpans, Forest.nodeWithoutSpans,
    Forest.partsWithoutSpans, Node.isText]

end Interface

end BuildExpr
