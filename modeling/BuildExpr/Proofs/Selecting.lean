import BuildExpr.Interface
import BuildExpr.Proofs.Balanced
import BuildExpr.Proofs.Formed

/-!
# Keeping one side is a change to the forest

Content for one side is selected by a scan of the text that knows nothing of structure: it looks for
markers and for the places where the expressions they start end. All the same it does what one would
do to the forest of the text (`exported_eq_replaced`): an operation whose name is literally that of
a selector, and which has parameters, is replaced by the text of its parameters or by nothing, and
in all other operations this is done in the name and in the parameters.

A marker starts exactly where such an operation does (`marker_prefix_iff`), and the `>` that the
scan finds is the one that ends it, because its parameters are balanced. So the scan goes along the
forest, node by node (`select_renderNode`). What is left of expressions that never end are no
operations, but a marker that is not terminated is the only thing there that would stop the scan.
-/

namespace BuildExpr

namespace Side

/-- The other side. -/
def other : Side → Side
  | .build => .install
  | .install => .build

/-- There are two sides. -/
theorem eq_or_eq_other (side marked : Side) : marked = side ∨ marked = side.other := by
  cases side <;> cases marked <;> decide

/-- The other side is another one. -/
theorem other_ne (side : Side) : side.other ≠ side := by
  cases side <;> decide

/-- There is nothing in the name of a selector that has a meaning in expressions. -/
theorem selector_plain (side : Side) : ∀ c ∈ side.selector, c ≠ ':' ∧ c ≠ '>' ∧ c ≠ '$' := by
  have hall : side.selector.all (fun c => c ≠ ':' && c ≠ '>' && c ≠ '$') = true := by
    cases side <;> decide
  simpa [and_assoc] using hall

end Side

namespace Forest

/-! ## Replacing operations -/

mutual

/-- What stands for a node when some operations are replaced: those for which `stand` gives a
forest. In all other operations this is done inside. -/
def replaceNode (stand : Forest → List Forest → Option Forest) : Node → Forest
  | .text value => [.text value]
  | .operation name parameters span =>
    match stand name parameters with
    | some forest => forest
    | none => [.operation (replace stand name) (replaceParts stand parameters) span]

/-- A forest with some operations replaced. -/
def replace (stand : Forest → List Forest → Option Forest) : Forest → Forest
  | [] => []
  | node :: rest => replaceNode stand node ++ replace stand rest

/-- Parameters with some operations in them replaced. -/
def replaceParts (stand : Forest → List Forest → Option Forest) : List Forest → List Forest
  | [] => []
  | part :: rest => replace stand part :: replaceParts stand rest

end

/-- The text of parameters, with commas between them. -/
def content (parameters : List Forest) : Text := Text.join [','] (parameters.map render)

/-- What stands for an operation when the content for a side is kept: the text of its parameters if
it is a selector of that side with parameters, nothing if it is one of the other side. -/
def standIn (side : Side) (name : Forest) (parameters : List Forest) : Option Forest :=
  match literal? name, parameters with
  | some text, _ :: _ =>
    if text = side.selector then some [.text (content parameters)]
    else if text = side.other.selector then some []
    else none
  | _, _ => none

/-- What is replaced is a selector with parameters, by its content or by nothing. -/
theorem standIn_eq_some {side : Side} {name : Forest} {parameters : List Forest} {forest : Forest}
    (h : standIn side name parameters = some forest) :
    ∃ marked : Side, literal? name = some marked.selector ∧ parameters ≠ [] ∧
      render forest = if marked = side then content parameters else [] := by
  unfold standIn at h
  split at h
  · next text first rest hname =>
    split_ifs at h with hside hother
    · obtain rfl := Option.some.inj h
      exact ⟨side, hside ▸ hname, nofun, by simp⟩
    · obtain rfl := Option.some.inj h
      exact ⟨side.other, hother ▸ hname, nofun, by simp [side.other_ne]⟩
  · cases h

/-- What is not replaced is no such selector. -/
theorem standIn_eq_none {side : Side} {name : Forest} {parameters : List Forest}
    (h : standIn side name parameters = none) (marked : Side) :
    ¬ (literal? name = some marked.selector ∧ parameters ≠ []) := by
  rintro ⟨hname, hparameters⟩
  obtain ⟨first, rest, rfl⟩ := List.exists_cons_of_ne_nil hparameters
  unfold standIn at h
  rw [hname] at h
  dsimp only at h
  split_ifs at h with hside hother
  rcases side.eq_or_eq_other marked with rfl | rfl
  · exact hside rfl
  · exact hother rfl

section

variable (stand : Forest → List Forest → Option Forest)

/-- In the forest without nodes nothing is replaced. -/
@[simp] theorem replace_nil : replace stand [] = [] := by rw [replace]

/-- In a forest what is to be replaced is replaced node by node. -/
@[simp] theorem replace_cons (node : Node) (rest : Forest) :
    replace stand (node :: rest) = replaceNode stand node ++ replace stand rest := by rw [replace]

/-- A text is not replaced. -/
@[simp] theorem replaceNode_text (value : Text) :
    replaceNode stand (.text value) = [.text value] := by rw [replaceNode]

/-- In forests in a row all is replaced as in each of them. -/
@[simp] theorem replace_append (a b : Forest) :
    replace stand (a ++ b) = replace stand a ++ replace stand b := by
  induction a with
  | nil => simp
  | cons node a ih => simp [ih]

/-- Texts that are joined by a push stay joined. -/
theorem render_replace_push (forest : Forest) (node : Node) :
    render (replace stand (push forest node)) =
      render (replace stand forest) ++ render (replaceNode stand node) := by
  fun_induction push forest node <;> simp_all

/-- So do those that are joined when the nodes of a forest are pushed. -/
@[simp] theorem render_replace_extend (forest nodes : Forest) :
    render (replace stand (extend forest nodes)) =
      render (replace stand forest) ++ render (replace stand nodes) := by
  induction nodes generalizing forest with
  | nil => simp [extend]
  | cons node nodes ih =>
    have hrest := ih (push forest node)
    rw [extend] at hrest ⊢
    rw [List.foldl_cons, hrest, render_replace_push]
    simp

/-- Parameters that are spread with their marks are replaced as parameters. -/
theorem render_replace_spreadParts (mark : Char) (parts : List Forest) :
    render (replace stand (OpenExpression.spreadParts [mark] parts)) =
      renderParts mark (replaceParts stand parts) := by
  induction parts generalizing mark with
  | nil => simp [OpenExpression.spreadParts, replaceParts, renderParts]
  | cons part rest ih => simp [OpenExpression.spreadParts, replaceParts, renderParts, ih]

end

/-- The content is the first parameter, and the others after commas. -/
theorem content_cons (part : Forest) (rest : List Forest) :
    content (part :: rest) = render part ++ renderParts ',' rest := by
  induction rest generalizing part with
  | nil => simp [renderParts, content, Text.join]
  | cons next rest ih =>
    rw [renderParts, List.cons_append, ← ih next]
    simp [content, Text.join, List.intercalate]

/-- The text of well-formed parameters is balanced. -/
theorem balanced_content {parameters : List Forest} (h : PartsWellFormed parameters) :
    Text.Balanced (content parameters) := by
  cases parameters with
  | nil => exact Text.balanced_nil
  | cons part rest =>
    rw [PartsWellFormed] at h
    rw [content_cons]
    exact (balanced_render part (show Place.parameter ≠ .outside by decide) h.1).append
      (balanced_renderParts rest h.2 (by decide) (by decide)) (apart_renderParts (by decide) _ rest)

/-- A name that is plain text is written as that text. -/
theorem render_of_literal? {name : Forest} {text : Text} (h : literal? name = some text) :
    render name = text := by
  unfold literal? at h
  split at h
  · simpa using h
  · simpa using h
  · cases h

/-! ## Markers -/

/-- A word with a mark behind it starts a text if the word is all there is before the mark. -/
theorem prefix_mark_iff {word value rest : Text} {mark : Char} (hword : mark ∉ word)
    (hvalue : mark ∉ value) (hrest : ∀ c, rest.head? = some c → c ∉ word) :
    word ++ [mark] <+: value ++ rest ↔ word = value ∧ rest.head? = some mark := by
  induction word generalizing value with
  | nil =>
    cases value with
    | nil =>
      cases rest with
      | nil => simp
      | cons c rest => simp [eq_comm]
    | cons d value =>
      have hd : mark ≠ d := fun h => hvalue (h ▸ List.mem_cons_self)
      simp [hd]
  | cons c word ih =>
    cases value with
    | nil =>
      cases rest with
      | nil => simp
      | cons d rest =>
        have hd : c ≠ d := fun h => hrest d rfl (h ▸ List.mem_cons_self)
        simp [hd]
    | cons d value =>
      -- Both go on, so their first characters must agree.
      have hword' : mark ∉ word := fun h => hword (List.mem_cons_of_mem c h)
      have hvalue' : mark ∉ value := fun h => hvalue (List.mem_cons_of_mem d h)
      have hrest' : ∀ d, rest.head? = some d → d ∉ word :=
        fun d hd hmem => hrest d hd (List.mem_cons_of_mem c hmem)
      rw [List.cons_append, List.cons_append, List.cons_prefix_cons, ih hword' hvalue' hrest']
      simp [and_assoc]

/-- What may follow the name of an expression: its parameters, its end, or another expression. -/
theorem head?_renderParts_eq (parameters : List Forest) {rest : Text}
    (hrest : ∀ c, rest.head? = some c → c = '>' ∨ c = '$') :
    (renderParts ':' parameters ++ rest).head? = some ':' ∧ parameters ≠ [] ∨
      (∀ c, (renderParts ':' parameters ++ rest).head? = some c → c = '>' ∨ c = '$') ∧
        parameters = [] := by
  cases parameters with
  | nil => exact .inr ⟨by simpa [renderParts] using hrest, rfl⟩
  | cons part others => exact .inl ⟨by simp [renderParts], nofun⟩

/-- An opening starts a marker exactly if the name is literally that of the selector and there are
parameters. -/
theorem marker_prefix_iff (side : Side) {name : Forest} (hname : WellFormed .name name)
    (parameters : List Forest) {rest : Text}
    (hrest : ∀ c, rest.head? = some c → c = '>' ∨ c = '$') :
    side.marker <+: opening ++ (render name ++ (renderParts ':' parameters ++ rest)) ↔
      literal? name = some side.selector ∧ parameters ≠ [] := by
  have hplain := side.selector_plain
  have hcolon : ':' ∉ side.selector := fun h => (hplain _ h).1 rfl
  have hdollar : '$' ∉ side.selector := fun h => (hplain _ h).2.2 rfl
  unfold Side.marker
  rw [List.append_assoc, List.prefix_append_right_inj]
  -- An operation in the name begins with a `$`, which is neither in the selector nor the mark.
  have hoperation (value : Text) (hvalue : ':' ∉ value) (inner : Forest) (parts : List Forest)
      (span : Span) (others : Forest) (tail : Text) :
      ¬ side.selector ++ [':'] <+:
        value ++ (render (.operation inner parts span :: others) ++ tail) := by
    have hhead : (render (.operation inner parts span :: others) ++ tail).head? = some '$' := by
      simp [renderNode, opening]
    rw [prefix_mark_iff hcolon hvalue (fun c hc => by
      rw [hhead] at hc
      exact Option.some.inj hc ▸ hdollar), hhead]
    simp
  -- After a literal name there are the parameters.
  have hliteral (value : Text) (hvalue : ':' ∉ value) :
      side.selector ++ [':'] <+: value ++ (renderParts ':' parameters ++ rest) ↔
        some value = some side.selector ∧ parameters ≠ [] := by
    rcases head?_renderParts_eq parameters hrest with ⟨hhead, hparameters⟩ | ⟨hend, hparameters⟩
    · rw [prefix_mark_iff hcolon hvalue (fun c hc => by
        rw [hhead] at hc
        exact Option.some.inj hc ▸ hcolon), hhead, Option.some.injEq, eq_comm]
      simp [hparameters]
    · rw [prefix_mark_iff hcolon hvalue (fun c hc hmem => by
        rcases hend c hc with rfl | rfl
        · exact (hplain _ hmem).2.1 rfl
        · exact hdollar hmem)]
      constructor
      · rintro ⟨-, hhead⟩
        exact absurd (hend ':' hhead) (by decide)
      · rintro ⟨-, hne⟩
        exact absurd hparameters hne
  match name with
  | [] =>
    rw [render_nil, List.nil_append]
    exact hliteral [] nofun
  | [.text value] =>
    rw [WellFormed, NodeWellFormed] at hname
    have hvalue : ':' ∉ value := fun h => absurd (hname.1.2.2 ':' h) (by decide)
    rw [render_cons, renderNode_text, render_nil, List.append_nil]
    exact hliteral value hvalue
  | .operation inner parts span :: others =>
    exact iff_of_false (hoperation [] nofun inner parts span others _) nofun
  | .text value :: .operation inner parts span :: others =>
    rw [WellFormed, NodeWellFormed] at hname
    have hvalue : ':' ∉ value := fun h => absurd (hname.1.2.2 ':' h) (by decide)
    rw [render_cons, renderNode_text, List.append_assoc]
    exact iff_of_false (hoperation value hvalue inner parts span others _) nofun
  | .text value :: .text next :: others =>
    rw [WellFormed] at hname
    exact absurd (hname.2.1 rfl) nofun

end Forest

namespace Interface

/-- What starts with a marker is content of its side. -/
theorem startsSide?_marker (side : Side) (body : Text) :
    startsSide? (side.marker ++ body) = some (side, body) := by
  cases side <;> rfl

/-- Without a marker at its start, a text starts no content. -/
theorem startsSide?_eq_none {t : Text} (h : ∀ side : Side, ¬ side.marker <+: t) :
    startsSide? t = none := by
  unfold startsSide?
  rw [if_neg (by simpa using h .build), if_neg (by simpa using h .install)]

section

variable (keep : Side → Text → Text)

/-- From the empty text nothing is selected. -/
@[simp] theorem select_nil : select keep [] = [] := by rw [select]

/-- Where no marker starts, the scan goes on with the next character. -/
theorem select_cons {c : Char} {rest : Text} (h : ∀ side : Side, ¬ side.marker <+: c :: rest) :
    select keep (c :: rest) = c :: select keep rest := by
  rw [select]
  split
  · rfl
  · next side body hside =>
    rw [startsSide?_eq_none h] at hside
    cases hside

/-- At a marker the content takes the place of the whole expression. -/
theorem select_marker (side : Side) {body inside after : Text}
    (h : body.splitAtClosing 0 = some (inside, after)) :
    select keep (side.marker ++ body) = keep side inside ++ select keep after := by
  have hcons : side.marker ++ body = '$' :: ('<' :: side.selector ++ [':'] ++ body) := by
    simp [Side.marker, opening]
  have hside := startsSide?_marker side body
  rw [hcons] at hside ⊢
  rw [select]
  split
  · next hnone =>
    rw [hside] at hnone
    cases hnone
  · next marked rest hsome =>
    obtain ⟨rfl, rfl⟩ := Prod.mk.inj (Option.some.inj (hside.symm.trans hsome))
    split
    · next hnone =>
      rw [h] at hnone
      cases hnone
    · next content rest hsplit =>
      obtain ⟨rfl, rfl⟩ := Prod.mk.inj (Option.some.inj (h.symm.trans hsplit))
      rfl

/-- A marker starts with an opening. -/
theorem select_char {c : Char} {rest : Text}
    (hopen : ∀ tail, c = '$' → rest = '<' :: tail → False) :
    select keep (c :: rest) = c :: select keep rest := by
  refine select_cons keep fun side => ?_
  rintro ⟨tail, htail⟩
  obtain ⟨hc, hrest⟩ := List.cons.inj htail
  exact hopen _ hc.symm hrest.symm

/-- Text without openings is kept. -/
theorem select_text {value rest : Text} (hopening : ¬ opening <:+: value)
    (hrest : rest.head? ≠ some '<') : select keep (value ++ rest) = value ++ select keep rest := by
  induction value with
  | nil => rfl
  | cons c value ih =>
    rw [List.cons_append, select_char keep (Forest.not_opening_of_text hopening hrest),
      ih (Text.no_opening_of_cons hopening)]
    rfl

/-- An opening that starts no marker is passed. -/
theorem select_opening {rest : Text} (h : ∀ side : Side, ¬ side.marker <+: opening ++ rest) :
    select keep (opening ++ rest) = opening ++ select keep rest := by
  have hsecond : select keep ('<' :: rest) = '<' :: select keep rest :=
    select_char keep fun tail hc => absurd hc (by decide)
  have hfirst : select keep (opening ++ rest) = '$' :: select keep ('<' :: rest) :=
    select_cons keep h
  rw [hfirst, hsecond]
  rfl

end

/-- Without a root, the content of the side is kept as it is, and that of the other side is
dropped. -/
theorem kept_none (side marked : Side) (content : Text) :
    kept side none marked content = if marked = side then content else [] := by
  cases side <;> cases marked <;> rfl

end Interface

namespace Forest

open Interface (select kept)

/-! ## The scan along a forest -/

/-- What starts a selector with parameters is the marker of its side, and its content and its end
follow. -/
theorem eq_marker {side : Side} {name : Forest} (hname : literal? name = some side.selector)
    {parameters : List Forest} (hparameters : parameters ≠ []) (rest : Text) :
    opening ++ (render name ++ (renderParts ':' parameters ++ rest)) =
      side.marker ++ (content parameters ++ rest) := by
  obtain ⟨part, others, rfl⟩ := List.exists_cons_of_ne_nil hparameters
  rw [render_of_literal? hname, renderParts, content_cons]
  simp [Side.marker]

mutual

/-- Going past a well-formed node, the scan leaves what the node is replaced by. -/
theorem select_renderNode (side : Side) (node : Node) {place : Place}
    (h : NodeWellFormed place node) {rest : Text}
    (hrest : node.isText = true → rest.head? ≠ some '<') :
    select (kept side none) (renderNode node ++ rest) =
      render (replaceNode (standIn side) node) ++ select (kept side none) rest := by
  cases node with
  | text value =>
    rw [NodeWellFormed] at h
    rw [renderNode_text, Interface.select_text _ h.2.1 (hrest rfl)]
    simp
  | operation name parameters span =>
    rw [NodeWellFormed] at h
    obtain ⟨hname, hparameters⟩ := h
    have hrender : renderNode (.operation name parameters span) ++ rest =
        opening ++ (render name ++ (renderParts ':' parameters ++ '>' :: rest)) := by
      simp [renderNode]
    rw [hrender, replaceNode]
    cases hstand : standIn side name parameters with
    | some forest =>
      -- The operation is a marked one, and what stands in for it is kept or not as a whole.
      obtain ⟨marked, hmarked, hne, hforest⟩ := standIn_eq_some hstand
      have hclosing := (balanced_content hparameters).splitAtClosing_zero rest
      rw [eq_marker hmarked hne, Interface.select_marker _ marked hclosing, Interface.kept_none]
      dsimp only
      rw [hforest]
    | none =>
      -- No marker starts here, so the text between the parts is kept and the parts are gone through.
      have hunmarked (marked : Side) : ¬ marked.marker <+:
          opening ++ (render name ++ (renderParts ':' parameters ++ '>' :: rest)) := by
        rw [marker_prefix_iff marked hname parameters (by simp)]
        exact standIn_eq_none hstand marked
      have hclosing : select (kept side none) ('>' :: rest) = '>' :: select (kept side none) rest :=
        Interface.select_char _ fun tail hc => absurd hc (by decide)
      rw [Interface.select_opening _ hunmarked, select_render side name hname
          (Reading.head?_renderParts_closing (by decide) parameters rest),
        select_renderParts side parameters hparameters (by decide) (by simp), hclosing]
      simp [renderNode]

/-- Selecting from a written forest leaves what the forest with its selectors replaced is written
as. -/
theorem select_render (side : Side) (forest : Forest) {place : Place} (h : WellFormed place forest)
    {rest : Text} (hrest : rest.head? ≠ some '<') :
    select (kept side none) (render forest ++ rest) =
      render (replace (standIn side) forest) ++ select (kept side none) rest := by
  cases forest with
  | nil => simp
  | cons node others =>
    rw [WellFormed] at h
    obtain ⟨hnode, hothers, hwell⟩ := h
    have hnext : node.isText = true → (render others ++ rest).head? ≠ some '<' :=
      fun htext => Reading.head?_render_append (hothers htext) fun _ => hrest
    rw [render_cons, List.append_assoc, select_renderNode side node hnode hnext,
      select_render side others hwell hrest]
    simp

/-- So it is with written parameters. -/
theorem select_renderParts (side : Side) (parts : List Forest) (h : PartsWellFormed parts)
    {mark : Char} (hmark : mark ≠ '$') {rest : Text} (hrest : rest.head? ≠ some '<') :
    select (kept side none) (renderParts mark parts ++ rest) =
      renderParts mark (replaceParts (standIn side) parts) ++ select (kept side none) rest := by
  cases parts with
  | nil => simp [renderParts, replaceParts]
  | cons part others =>
    rw [PartsWellFormed] at h
    have hnext : (renderParts ',' others ++ rest).head? ≠ some '<' :=
      Reading.head?_renderParts_append (by decide) others hrest
    have hrender : renderParts mark (part :: others) ++ rest =
        mark :: (render part ++ (renderParts ',' others ++ rest)) := by
      simp [renderParts]
    rw [hrender, Interface.select_char _ fun tail hc => absurd hc hmark,
      select_render side part h.1 hnext, select_renderParts side others h.2 (by decide) hrest]
    simp [renderParts, replaceParts]

end

/-! ## Expressions that never end -/

namespace OpenExpression

variable {e : OpenExpression} (h : e.Formed) {rest : Text}
  (hrest : ∀ c, rest.head? = some c → c = '$')

include h hrest

/-- It closes nothing. -/
theorem splitAtClosing_spread (hopen : ∀ depth, Text.splitAtClosing depth rest = none)
    (depth : Nat) : Text.splitAtClosing depth (render e.spread ++ rest) = none := by
  obtain ⟨name, parameters, hname, hparameters, hspread⟩ := exists_parts h
  have hbalanced : Text.Balanced (render name ++ renderParts ':' parameters) :=
    (balanced_render name (show Place.name ≠ .outside by decide) hname).append
      (balanced_renderParts parameters hparameters (by decide) (by decide))
      (apart_renderParts (by decide) _ parameters)
  have hapart : Text.Apart (render name ++ renderParts ':' parameters) rest :=
    Text.apart_of_head? fun hhead => absurd (hrest _ hhead) (by decide)
  have hrender : render e.spread ++ rest =
      '$' :: '<' :: (render name ++ renderParts ':' parameters ++ rest) := by
    rw [hspread]
    simp [render_spreadParts, opening]
  rw [hrender, Text.splitAtClosing, hbalanced _ _ hapart, hopen]
  rfl

/-- The scan goes past it unless it starts with a marker. -/
theorem select_spread (side : Side)
    (hunmarked : ∀ (marked : Side) after, render e.spread ++ rest = marked.marker ++ after →
      (Text.splitAtClosing 0 after).isSome)
    (hopen : ∀ depth, Text.splitAtClosing depth rest = none) :
    select (kept side none) (render e.spread ++ rest) =
      render (replace (standIn side) e.spread) ++ select (kept side none) rest := by
  obtain ⟨name, parameters, hname, hparameters, hspread⟩ := exists_parts h
  have hhead : rest.head? ≠ some '<' := fun hhead => absurd (hrest _ hhead) (by decide)
  have hrender : render e.spread ++ rest =
      opening ++ (render name ++ (renderParts ':' parameters ++ rest)) := by
    rw [hspread]
    simp [render_spreadParts]
  rw [hrender] at hunmarked ⊢
  have hpassed (marked : Side) :
      ¬ marked.marker <+: opening ++ (render name ++ (renderParts ':' parameters ++ rest)) := by
    rw [marker_prefix_iff marked hname parameters fun c hc => .inr (hrest c hc)]
    rintro ⟨hmarked, hne⟩
    -- Behind the marker there is only what closes nothing.
    have hclosed := hunmarked marked _ (eq_marker hmarked hne rest)
    have hapart : Text.Apart (content parameters) rest := Text.apart_of_head? hhead
    rw [balanced_content hparameters 0 rest hapart, hopen] at hclosed
    cases hclosed
  have hnext : (renderParts ':' parameters ++ rest).head? ≠ some '<' :=
    Reading.head?_renderParts_append (by decide) parameters hhead
  rw [Interface.select_opening _ hpassed, select_render side name hname hnext,
    select_renderParts side parameters hparameters (by decide) hhead, hspread]
  simp [render_replace_spreadParts]

end OpenExpression

/-- The scan along all that has been read. -/
theorem Reading.select_finish (side : Side) (done : Forest) (pending : List OpenExpression)
    (hdone : WellFormed .outside done) (hpending : ∀ e ∈ pending, e.Formed) {rest : Text}
    (hrest : ∀ c, rest.head? = some c → c = '$')
    (hopen : ∀ depth, Text.splitAtClosing depth rest = none)
    (hmarkers : ∀ (marked : Side) before after,
      render (finish ⟨done, pending⟩) ++ rest = before ++ marked.marker ++ after →
        (Text.splitAtClosing 0 after).isSome) :
    select (kept side none) (render (finish ⟨done, pending⟩) ++ rest) =
      render (replace (standIn side) (finish ⟨done, pending⟩)) ++ select (kept side none) rest := by
  -- From the innermost open expression outwards, each one becomes part of the text behind the next.
  induction pending generalizing rest with
  | nil =>
    exact select_render side done hdone fun hhead => absurd (hrest _ hhead) (by decide)
  | cons e outer ih =>
    have he : e.Formed := hpending e List.mem_cons_self
    have hhead : ∀ c, (render e.spread ++ rest).head? = some c → c = '$' := by
      obtain ⟨name, parameters, -, -, hspread⟩ := OpenExpression.exists_parts he
      rw [hspread]
      simp [opening]
    have hwhole : render (finish ⟨done, e :: outer⟩) ++ rest =
        render (finish ⟨done, outer⟩) ++ (render e.spread ++ rest) := by
      rw [render_finish_cons, List.append_assoc]
    have hreplaced : render (replace (standIn side) (finish ⟨done, e :: outer⟩)) =
        render (replace (standIn side) (finish ⟨done, outer⟩)) ++
          render (replace (standIn side) e.spread) :=
      render_replace_extend _ _ _
    rw [hwhole] at hmarkers ⊢
    have houter := ih (fun f hf => hpending f (List.mem_cons_of_mem e hf)) hhead
      (OpenExpression.splitAtClosing_spread he hrest hopen) hmarkers
    have hmarkers' (marked : Side) (after : Text)
        (hafter : render e.spread ++ rest = marked.marker ++ after) :
        (Text.splitAtClosing 0 after).isSome :=
      hmarkers marked (render (finish ⟨done, outer⟩)) after (by rw [hafter, List.append_assoc])
    have hspread := OpenExpression.select_spread he hrest side hmarkers' hopen
    rw [houter, hspread, hreplaced, List.append_assoc]

end Forest

/-- A property of which one side is kept, without relative elements being resolved, is the text of
its forest with the selectors replaced: each operation whose name is literally the selector of that
side, if it has parameters, by the text of its parameters, and each such operation of the other side
by nothing. All that is asked of the property is that no marker is unterminated and that it can be
read. -/
theorem exported_eq_replaced (side : Side) (limit : Nat) (source : Text)
    (hnesting : source.nesting ≤ limit)
    (hmarkers : ∀ (marked : Side) before after, source = before ++ marked.marker ++ after →
      (Text.splitAtClosing 0 after).isSome) :
    Interface.exported (.keep side) none source =
      Elements.dropEmpty
        (Forest.render (Forest.replace (Forest.standIn side) (Tree.parse limit source).nodes)) := by
  let r : Forest.Reading := ({} : Forest.Reading).read 0 source
  have hformed : r.Formed [] := Forest.Reading.formed_read source
  have hrender : Forest.render r.finish ++ [] = source := by
    rw [List.append_nil, Forest.Reading.render_finish_read]
    rfl
  have hend : ∀ c, ([] : Text).head? = some c → c = '$' := nofun
  have hselect := Forest.Reading.select_finish side r.done r.pending hformed.done hformed.pending
    hend (fun _ => rfl) (hrender.symm ▸ hmarkers)
  rw [show Forest.render (Forest.Reading.finish ⟨r.done, r.pending⟩) ++ [] = source from hrender,
    Interface.select_nil, List.append_nil] at hselect
  unfold Interface.exported
  dsimp only
  rw [hselect, Tree.nodes_parse hnesting]

/-- A selector in a name and one in an expression that never ends. -/
theorem exported_eq_replaced_nested :
    let source : Text := "$<$<BUILD_INTERFACE:a,$<C:>>>$<X:$<INSTALL_INTERFACE:b>"
    source.nesting ≤ 3 ∧
      (∀ (marked : Side) before after, source = before ++ marked.marker ++ after →
        (Text.splitAtClosing 0 after).isSome) ∧
      Interface.exported (.keep .build) none source = "$<a,$<C:>>$<X:" := by
  intro source
  have hnesting : source.nesting ≤ 3 := by decide +kernel
  have htails : ∀ tail ∈ source.tails, ∀ marked ∈ [Side.build, .install],
      marked.marker <+: tail →
        (Text.splitAtClosing 0 (tail.drop marked.marker.length)).isSome := by decide +kernel
  have hmarkers : ∀ (marked : Side) before after, source = before ++ marked.marker ++ after →
      (Text.splitAtClosing 0 after).isSome := by
    intro marked before after hsource
    have htail : marked.marker ++ after ∈ source.tails :=
      (List.mem_tails _ _).2 ⟨before, by rw [hsource, List.append_assoc]⟩
    have hclosed := htails _ htail marked (by cases marked <;> simp) (List.prefix_append _ _)
    rwa [List.drop_left] at hclosed
  exact ⟨hnesting, hmarkers,
    (exported_eq_replaced .build 3 source hnesting hmarkers).trans (by decide +kernel)⟩

/-- A selector without parameters has no marker. So it is not removed with the content of its side.
-/
theorem exported_keeps_bare_selector :
    let stand (name : Forest) (parameters : List Forest) : Option Forest :=
      if Forest.literal? name = some Side.build.selector ∧ parameters ≠ [] then
        some [.text (Forest.content parameters)]
      else if Forest.literal? name = some Side.install.selector then some []
      else none
    ¬ ∀ (limit : Nat) (source : Text), source.nesting ≤ limit →
      (∀ (marked : Side) before after, source = before ++ marked.marker ++ after →
        (Text.splitAtClosing 0 after).isSome) →
      Interface.exported (.keep .build) none source =
        Elements.dropEmpty
          (Forest.render (Forest.replace stand (Tree.parse limit source).nodes)) := by
  intro stand h
  have hmarkers : ∀ (marked : Side) before after,
      ("$<INSTALL_INTERFACE>" : Text) = before ++ marked.marker ++ after →
        (Text.splitAtClosing 0 after).isSome := by
    -- The marker has a colon, which the text has not, so there is no marker to be closed.
    intro marked before after hsource
    have hcolon : ':' ∈ ("$<INSTALL_INTERFACE>" : Text) := by
      rw [hsource]
      simp [Side.marker]
    exact absurd hcolon (by decide)
  have hremoved := h 1 "$<INSTALL_INTERFACE>" (by decide) hmarkers
  exact absurd hremoved (by decide +kernel)

end BuildExpr
