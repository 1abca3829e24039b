import BuildExpr.Proofs.References
import BuildExpr.Proofs.Selecting
import BuildExpr.Proofs.Spelling

/-!
# What a text says once its build side is kept

Keeping the build side of a text takes content out of the operation that it is written in. There the
commas between its parameters are text, and texts that come to touch are one text. Nothing else changes
if the cuts do no harm to the rest: if every `$` opens an expression, all of these end, and no selector
stands inside an operation that is kept (`Text.Selectable`). Then the text that is left says what the
text said, with the nodes of their content in the places of selectors
(`Text.Selectable.ofTokens_scan_select`), and it nests no deeper.

What must not happen is that two texts meet in an opening. The invariant is that what has been put
together does not end in a `$`; then any node without a `$` in its text may follow (`Forest.Pushable`).
-/

namespace BuildExpr

/-! ## Openings -/

namespace Text

/-- Every `$` of a text is the start of an opening. -/
def DollarsOpen (t : Text) : Prop := ∀ rest, '$' :: rest <:+ t → rest.head? = some '<'

/-- Whether every `$` opens an expression is seen along a text. -/
theorem dollarsOpen_cons {c : Char} {t : Text} :
    DollarsOpen (c :: t) ↔ (c = '$' → t.head? = some '<') ∧ DollarsOpen t := by
  constructor
  · intro h
    refine ⟨?_, fun rest hrest => h rest (hrest.trans (List.suffix_cons c t))⟩
    rintro rfl
    exact h t (List.suffix_refl _)
  · rintro ⟨hfirst, ht⟩ rest hrest
    rcases List.suffix_cons_iff.1 hrest with heq | hrest
    · obtain ⟨rfl, rfl⟩ := List.cons.inj heq
      exact hfirst rfl
    · exact ht rest hrest

instance decidableDollarsOpen : ∀ t : Text, Decidable (DollarsOpen t)
  | [] => .isTrue fun _ h => nomatch List.suffix_nil.1 h
  | c :: t =>
    have := decidableDollarsOpen t
    decidable_of_iff ((c = '$' → t.head? = some '<') ∧ DollarsOpen t) dollarsOpen_cons.symm

/-- If every `$` of two texts in a row opens an expression, so does every one of the second. -/
theorem DollarsOpen.of_append {a b : Text} (h : DollarsOpen (a ++ b)) : DollarsOpen b :=
  fun rest hrest => h rest (hrest.trans (List.suffix_append a b))

/-- There is no `$` in a text without openings that does not meet a `<` behind it. -/
theorem DollarsOpen.not_mem {value rest : Text} (h : DollarsOpen (value ++ rest))
    (hopening : ¬ opening <:+: value) (hrest : rest.head? ≠ some '<') : '$' ∉ value := by
  intro hmem
  obtain ⟨before, after, rfl⟩ := List.append_of_mem hmem
  have hhead : (after ++ rest).head? = some '<' := h (after ++ rest) ⟨before, by simp⟩
  cases after with
  | nil => exact hrest hhead
  | cons c after =>
    obtain rfl : c = '<' := by simpa using hhead
    exact hopening ⟨before, after, by simp [opening]⟩

end Text

namespace Forest

/-! ## Selectors and their content -/

/-- The side whose content an operation holds, if it is a selector: its name is literally that of one,
and there are parameters. -/
def side? (name : Forest) (parameters : List Forest) : Option Side :=
  match literal? name, parameters with
  | some text, _ :: _ =>
    if text = Side.build.selector then some .build
    else if text = Side.install.selector then some .install
    else none
  | _, _ => none

/-- The nodes that a selector comes to on the build side: those of its parameters with commas between
them, or none. -/
def buildNodes : Side → List Forest → Forest
  | .build, part :: rest => part ++ OpenExpression.spreadParts [','] rest
  | _, _ => []

/-- A node, or the content of one that is a selector. -/
def inlineNode : Node → Forest
  | .text value => [.text value]
  | .operation name parameters span =>
    match side? name parameters with
    | some side => buildNodes side parameters
    | none => [.operation name parameters span]

/-- A forest with the content of its selectors in their places; inside other operations nothing is
changed. -/
def inlined (forest : Forest) : Forest := forest.flatMap inlineNode

/-- Whether a node is a selector. -/
def isSelector : Node → Bool
  | .text _ => false
  | .operation name parameters _ => (side? name parameters).isSome

/-- A forest in which each selector is a node of the forest itself or stands inside a selector. -/
def SelectsOutermost (forest : Forest) : Prop :=
  ∀ node ∈ forest, isSelector node = true ∨
    ∀ operation ∈ nodeWritten node, side? operation.1 operation.2 = none

instance (forest : Forest) : Decidable forest.SelectsOutermost :=
  inferInstanceAs (Decidable (∀ node ∈ forest, _ ∨ ∀ operation ∈ nodeWritten node, _))

/-- A selector is named as one of a side and has parameters. -/
theorem side?_eq_some {name : Forest} {parameters : List Forest} {side : Side}
    (h : side? name parameters = some side) :
    literal? name = some side.selector ∧ parameters ≠ [] := by
  unfold side? at h
  split at h
  · next text first rest hname =>
    split_ifs at h with hbuild hinstall
    · cases h
      exact ⟨hbuild ▸ hname, nofun⟩
    · cases h
      exact ⟨hinstall ▸ hname, nofun⟩
  · cases h

/-- A selector is what the scan for markers replaces. -/
theorem standIn_build (name : Forest) (parameters : List Forest) :
    standIn .build name parameters =
      (side? name parameters).map fun side =>
        if side = .build then [.text (content parameters)] else [] := by
  unfold standIn side?
  cases literal? name with
  | none => rfl
  | some text =>
    cases parameters with
    | nil => rfl
    | cons part rest =>
      have hother : Side.build.other = .install := rfl
      dsimp only
      rw [hother]
      split_ifs
      · rfl
      · rfl
      · rfl

/-- The nodes that a selector comes to are written as its content, or as nothing. -/
theorem render_buildNodes (side : Side) (parameters : List Forest) :
    render (buildNodes side parameters) = if side = .build then content parameters else [] := by
  cases side with
  | install => simp [buildNodes]
  | build =>
    cases parameters with
    | nil => rfl
    | cons part rest => simp [buildNodes, OpenExpression.render_spreadParts, content_cons]

/-- They nest no deeper than its parameters. -/
theorem nesting_buildNodes_le (side : Side) (parameters : List Forest) :
    nesting (buildNodes side parameters) ≤ partsNesting parameters := by
  cases side with
  | install => simp [buildNodes]
  | build =>
    cases parameters with
    | nil => simp [buildNodes]
    | cons part rest => simp [buildNodes, OpenExpression.nesting_spreadParts]

/-- They are spelled where its parameters are. -/
theorem spelledIn_buildNodes {source : Text} {parameters : List Forest}
    (h : PartsSpelledIn source parameters) (side : Side) :
    SpelledIn source (buildNodes side parameters) := by
  cases side with
  | install => exact .nil source
  | build =>
    cases parameters with
    | nil => exact .nil source
    | cons part rest =>
      rw [PartsSpelledIn] at h
      exact spelledIn_append.2 ⟨h.1, spelledIn_spreadParts h.2 _⟩

/-- The nodes of a forest are inlined one by one. -/
theorem inlined_cons (node : Node) (rest : Forest) :
    inlined (node :: rest) = inlineNode node ++ inlined rest := rfl

/-- A node is a selector or stays as it is. -/
theorem inlineNode_cases (node : Node) :
    inlineNode node = [node] ∨ ∃ name parameters span side, node = .operation name parameters span ∧
      side? name parameters = some side ∧ inlineNode node = buildNodes side parameters := by
  cases node with
  | text value => exact .inl rfl
  | operation name parameters span =>
    cases hside : side? name parameters with
    | none =>
      left
      rw [inlineNode, hside]
    | some side =>
      refine .inr ⟨name, parameters, span, side, rfl, hside, ?_⟩
      rw [inlineNode, hside]

/-- A forest nests no deeper with the content of its selectors in their places. -/
theorem nesting_inlined_le (forest : Forest) : nesting (inlined forest) ≤ nesting forest := by
  induction forest with
  | nil => exact Nat.le_refl _
  | cons node rest ih =>
    have hnode : nesting (inlineNode node) ≤ nodeNesting node := by
      rcases inlineNode_cases node with heq | ⟨name, parameters, span, side, rfl, -, heq⟩
      · simp [heq]
      · have hcontent := nesting_buildNodes_le side parameters
        rw [heq, nodeNesting]
        omega
    rw [inlined_cons, nesting_append, nesting_cons]
    omega

/-- And it is spelled in the same text. -/
theorem spelledIn_inlined {source : Text} {forest : Forest} (h : SpelledIn source forest) :
    SpelledIn source (inlined forest) := by
  induction forest with
  | nil => exact .nil source
  | cons node rest ih =>
    rw [SpelledIn] at h
    rw [inlined_cons, spelledIn_append]
    refine ⟨?_, ih h.2⟩
    rcases inlineNode_cases node with heq | ⟨name, parameters, span, side, rfl, -, heq⟩
    · rw [heq, SpelledIn]
      exact ⟨h.1, .nil source⟩
    · rw [NodeSpelledIn] at h
      rw [heq]
      exact spelledIn_buildNodes h.1.2.2 side

/-! ## What the scan leaves -/

mutual

/-- A node with nothing to replace in it is left as it is. -/
theorem replaceNode_of_eq_none {stand : Forest → List Forest → Option Forest} (node : Node)
    (h : ∀ operation ∈ nodeWritten node, stand operation.1 operation.2 = none) :
    replaceNode stand node = [node] := by
  cases node with
  | text value => rw [replaceNode]
  | operation name parameters span =>
    rw [nodeWritten, List.forall_mem_cons, List.forall_mem_append] at h
    obtain ⟨hstand, hname, hparameters⟩ := h
    rw [replaceNode, hstand, replace_of_eq_none name hname,
      replaceParts_of_eq_none parameters hparameters]

/-- Where there is nothing to replace, nothing is replaced. -/
theorem replace_of_eq_none {stand : Forest → List Forest → Option Forest} (forest : Forest)
    (h : ∀ operation ∈ written forest, stand operation.1 operation.2 = none) :
    replace stand forest = forest := by
  cases forest with
  | nil => rw [replace]
  | cons node rest =>
    rw [written, List.forall_mem_append] at h
    rw [replace, replaceNode_of_eq_none node h.1, replace_of_eq_none rest h.2,
      List.singleton_append]

/-- So are parameters. -/
theorem replaceParts_of_eq_none {stand : Forest → List Forest → Option Forest}
    (parts : List Forest)
    (h : ∀ operation ∈ partsWritten parts, stand operation.1 operation.2 = none) :
    replaceParts stand parts = parts := by
  cases parts with
  | nil => rw [replaceParts]
  | cons part rest =>
    rw [partsWritten, List.forall_mem_append] at h
    rw [replaceParts, replace_of_eq_none part h.1, replaceParts_of_eq_none rest h.2]

end

/-- The text of its content that replaces a selector is written like the nodes of its content. -/
theorem render_replaceNode_selector {name : Forest} {parameters : List Forest} {side : Side}
    (h : side? name parameters = some side) (span : Span) :
    render (replaceNode (standIn .build) (.operation name parameters span)) =
      render (buildNodes side parameters) := by
  rw [replaceNode, standIn_build, h]
  dsimp only [Option.map_some]
  rw [render_buildNodes]
  split_ifs
  · simp
  · rfl

/-- A node without selectors stays as it is either way. -/
theorem replaceNode_eq_inlineNode {node : Node}
    (h : ∀ operation ∈ nodeWritten node, side? operation.1 operation.2 = none) :
    replaceNode (standIn .build) node = inlineNode node := by
  have hnone : ∀ operation ∈ nodeWritten node, standIn .build operation.1 operation.2 = none := by
    intro operation hoperation
    rw [standIn_build, h operation hoperation]
    rfl
  rw [replaceNode_of_eq_none node hnone]
  rcases inlineNode_cases node with heq | ⟨name, parameters, span, side, rfl, hside, -⟩
  · exact heq.symm
  · have hown := h (name, parameters) (by rw [nodeWritten]; exact List.mem_cons_self)
    rw [hside] at hown
    cases hown

/-- If all selectors are outermost, replacing them is written like putting their content in their
places. -/
theorem render_replace_eq_render_inlined {forest : Forest} (h : forest.SelectsOutermost) :
    render (replace (standIn .build) forest) = render (inlined forest) := by
  induction forest with
  | nil =>
    rw [replace_nil]
    rfl
  | cons node rest ih =>
    obtain ⟨hnode, hrest⟩ := List.forall_mem_cons.1 h
    have heq : render (replaceNode (standIn .build) node) = render (inlineNode node) := by
      rcases hnode with hselector | hwritten
      · cases node with
        | text value => cases hselector
        | operation name parameters span =>
          obtain ⟨side, hside⟩ := Option.isSome_iff_exists.1 hselector
          rw [render_replaceNode_selector hside, inlineNode, hside]
      · rw [replaceNode_eq_inlineNode hwritten]
    rw [replace_cons, inlined_cons, render_append, render_append, heq, ih hrest]

/-! ## Putting nodes together -/

/-- A node that may be put behind any well-formed forest that does not end in a `$`. -/
def Pushable : Node → Prop
  | .text value => '$' ∉ value
  | .operation name parameters _ => WellFormed .name name ∧ PartsWellFormed parameters

/-- Pushing such a node keeps the forest well formed, and no `$` comes to stand at its end. -/
theorem WellFormed.push_pushable {forest : Forest} (h : WellFormed .outside forest)
    (hlast : (render forest).getLast? ≠ some '$') {node : Node} (hnode : Pushable node) :
    WellFormed .outside (push forest node) ∧ (render (push forest node)).getLast? ≠ some '$' := by
  cases node with
  | operation name parameters span =>
    refine ⟨h.push_operation hnode.1 hnode.2 span, ?_⟩
    rw [render_push, renderNode, ← List.append_assoc, List.getLast?_concat]
    decide
  | text value =>
    -- A text is pushed character by character.
    rw [Pushable] at hnode
    induction value generalizing forest with
    | nil =>
      rw [push_text_nil]
      exact ⟨h, hlast⟩
    | cons c value ih =>
      rw [List.mem_cons, not_or] at hnode
      have hpush : push forest (.text (c :: value)) =
          push (push forest (.text [c])) (.text value) := (push_push_text forest [c] value).symm
      rw [hpush]
      refine ih (h.push_char rfl fun hdollar => absurd hdollar hlast) ?_ hnode.2
      rw [render_push, renderNode_text, List.getLast?_concat]
      exact fun heq => hnode.1 (Option.some.inj heq).symm

/-- So any number of such nodes may be pushed. -/
theorem WellFormed.extend_pushable {forest nodes : Forest} (h : WellFormed .outside forest)
    (hlast : (render forest).getLast? ≠ some '$') (hnodes : ∀ node ∈ nodes, Pushable node) :
    WellFormed .outside (extend forest nodes) := by
  induction nodes generalizing forest with
  | nil => exact h
  | cons node rest ih =>
    rw [List.forall_mem_cons] at hnodes
    obtain ⟨hwell, hlast'⟩ := h.push_pushable hlast hnodes.1
    exact ih hwell hlast' hnodes.2

section

variable {rest : Text} (hrest : rest.head? ≠ some '<')

include hrest

/-- Where every `$` opens an expression, no text node has one. -/
theorem pushable_of_mem {place : Place} {forest : Forest} (h : WellFormed place forest)
    (hdollars : Text.DollarsOpen (render forest ++ rest)) : ∀ node ∈ forest, Pushable node := by
  induction forest with
  | nil => nofun
  | cons node others ih =>
    rw [WellFormed] at h
    obtain ⟨hnode, hothers, hwell⟩ := h
    rw [render_cons, List.append_assoc] at hdollars
    rw [List.forall_mem_cons]
    refine ⟨?_, ih hwell hdollars.of_append⟩
    rw [NodeWellFormed.eq_def] at hnode
    cases node with
    | text value =>
      rw [renderNode_text] at hdollars
      exact hdollars.not_mem hnode.2.1 (Reading.head?_render_append (hothers rfl) fun _ => hrest)
    | operation name parameters span => exact hnode

/-- So it is with the nodes of parameters. -/
theorem pushable_of_mem_parts {parts : List Forest} (h : PartsWellFormed parts) {mark : Char}
    (hdollars : Text.DollarsOpen (renderParts mark parts ++ rest)) :
    ∀ part ∈ parts, ∀ node ∈ part, Pushable node := by
  induction parts generalizing mark with
  | nil => nofun
  | cons part others ih =>
    rw [PartsWellFormed] at h
    rw [renderParts, List.append_assoc, ← List.singleton_append, List.append_assoc] at hdollars
    have hnext : (renderParts ',' others ++ rest).head? ≠ some '<' :=
      Reading.head?_renderParts_append (by decide) others hrest
    rw [List.forall_mem_cons]
    exact ⟨pushable_of_mem hnext h.1 hdollars.of_append, ih h.2 hdollars.of_append.of_append⟩

end

/-- What stands between parameters holds no `$`. -/
theorem pushable_of_mem_buildNodes {parameters : List Forest}
    (h : ∀ part ∈ parameters, ∀ node ∈ part, Pushable node) (side : Side) :
    ∀ node ∈ buildNodes side parameters, Pushable node := by
  have hspread (parts : List Forest) (hparts : ∀ part ∈ parts, ∀ node ∈ part, Pushable node) :
      ∀ node ∈ OpenExpression.spreadParts [','] parts, Pushable node := by
    induction parts with
    | nil => exact List.forall_mem_nil _
    | cons part rest ih =>
      rw [List.forall_mem_cons] at hparts
      rw [OpenExpression.spreadParts, List.cons_append, List.forall_mem_cons,
        List.forall_mem_append]
      exact ⟨show '$' ∉ [','] by decide, hparts.1, ih hparts.2⟩
  cases side with
  | install => exact List.forall_mem_nil _
  | build =>
    cases parameters with
    | nil => exact List.forall_mem_nil _
    | cons part rest =>
      rw [List.forall_mem_cons] at h
      rw [buildNodes, List.forall_mem_append]
      exact ⟨h.1, hspread rest h.2⟩

/-- With the content of selectors in their places all nodes may be put together. -/
theorem pushable_of_mem_inlined {forest : Forest} (h : WellFormed .outside forest)
    (hdollars : Text.DollarsOpen (render forest)) : ∀ node ∈ inlined forest, Pushable node := by
  intro node hnode
  obtain ⟨outer, houter, hmem⟩ := List.mem_flatMap.1 hnode
  have hend : ([] : Text).head? ≠ some '<' := nofun
  have hpushable : Pushable outer := pushable_of_mem hend h (by simpa using hdollars) outer houter
  rcases inlineNode_cases outer with heq | ⟨name, parameters, span, side, rfl, -, heq⟩
  · rw [heq, List.mem_singleton] at hmem
    exact hmem ▸ hpushable
  · -- The parameters are written somewhere in the text.
    obtain ⟨before, after, rfl⟩ := List.append_of_mem houter
    have hwritten : render (before ++ .operation name parameters span :: after) =
        (render before ++ opening ++ render name) ++
          (renderParts ':' parameters ++ '>' :: render after) := by
      simp [renderNode]
    rw [hwritten] at hdollars
    rw [heq] at hmem
    exact pushable_of_mem_buildNodes
      (pushable_of_mem_parts (by simp) hpushable.2 hdollars.of_append) side node hmem

end Forest

/-! ## The text that is left -/

open Forest (inlined withoutSpans)
open Interface (select kept)

/-- A text whose selectors can be read on the build side before or while it is evaluated: all its
expressions end, there is no other use of `$`, and its selectors are outermost. -/
structure Text.Selectable (source : Text) : Prop where
  /-- Every `$<` has the `>` that closes it. -/
  closed : source.Closed
  /-- Every `$` is the start of a `$<`. -/
  dollars : DollarsOpen source
  /-- Each selector is an outermost operation or stands inside a selector. -/
  outermost : (Forest.ofTokens (Token.scan source)).SelectsOutermost

namespace Text.Selectable

variable {source : Text} (h : source.Selectable)

include h

/-- What the text says with the content of selectors in their places is well formed. -/
theorem wellFormed_inlined :
    (Forest.extend [] (inlined (Forest.ofTokens (Token.scan source)))).WellFormed .outside := by
  refine Forest.WellFormed.extend_pushable (.nil _) (by simp) ?_
  refine Forest.pushable_of_mem_inlined (Forest.wellFormed_ofTokens h.closed) ?_
  rw [Forest.render_ofTokens_scan]
  exact h.dollars

/-- The scan leaves what the text says with the content of selectors in their places. -/
theorem select_build (root : Option Text) :
    select (kept .build root) source =
      (Forest.extend [] (inlined (Forest.ofTokens (Token.scan source)))).render := by
  -- A root is for the content of the other side.
  have hkept : kept .build root = kept .build none := by
    funext side content
    cases side with
    | build => rfl
    | install => rfl
  have hend : ([] : Text).head? ≠ some '<' := nofun
  have hselect := Forest.select_render .build _ (Forest.wellFormed_ofTokens h.closed) hend
  rw [List.append_nil, Forest.render_ofTokens_scan, Interface.select_nil, List.append_nil] at hselect
  rw [hkept, hselect, Forest.render_replace_eq_render_inlined h.outermost, Forest.render_extend]
  rfl

/-- And it is read as saying that. -/
theorem ofTokens_scan_select (root : Option Text) :
    withoutSpans (Forest.ofTokens (Token.scan (select (kept .build root) source))) =
      withoutSpans (Forest.extend [] (inlined (Forest.ofTokens (Token.scan source)))) := by
  rw [h.select_build root, Forest.ofTokens_scan_render h.wellFormed_inlined,
    Forest.withoutSpans_located]

/-- The operations of what is left are spelled in it. -/
theorem spelledIn_select (root : Option Text) :
    Forest.SpelledIn (select (kept .build root) source)
      (Forest.ofTokens (Token.scan (select (kept .build root) source))) := by
  rw [h.select_build root]
  exact Forest.spelledIn_scan _

/-- What is left nests no deeper than the text. -/
theorem nesting_select_le (root : Option Text) :
    (select (kept .build root) source).nesting ≤ source.nesting := by
  have hsource := Forest.nesting_render (Forest.wellFormed_ofTokens h.closed)
  rw [Forest.render_ofTokens_scan] at hsource
  rw [h.select_build root, Forest.nesting_render h.wellFormed_inlined, hsource,
    Forest.nesting_extend, Forest.nesting_nil, Nat.zero_max]
  exact Forest.nesting_inlined_le _

end Text.Selectable

end BuildExpr
