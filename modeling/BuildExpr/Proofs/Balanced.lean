import BuildExpr.Proofs.Grammar

/-!
# Balanced texts

A text is balanced if the search for a `>` that closes an expression opened before the text goes
past it: all that is opened in the text is closed in it, and nothing else is. Unlike a closed text
it may not have a `>` that closes nothing. Inside an expression, what a well-formed forest renders
to is balanced (`Forest.balanced_render`), so the `>` behind it is the one that is found
(`Balanced.splitAtClosing_zero`).
-/

namespace BuildExpr

namespace Text

/-- Whatever follows the text, a `>` that is looked for from its start on is found behind it. -/
def Balanced (a : Text) : Prop :=
  ∀ depth b, Apart a b →
    splitAtClosing depth (a ++ b) =
      (splitAtClosing depth b).map fun (before, after) => (a ++ before, after)

/-- The empty text is balanced. -/
theorem balanced_nil : Balanced [] := by
  intro depth b _
  cases h : splitAtClosing depth b with
  | none => simpa using h
  | some parts => simpa using h

/-- A text without delimiters is balanced. -/
theorem balanced_of_no_delimiter {t : Text} (hopening : ¬ opening <:+: t) (hclosing : '>' ∉ t) :
    Balanced t := by
  induction t with
  | nil => exact balanced_nil
  | cons c rest ih =>
    intro depth b hb
    have hc : c ≠ '>' := fun h => hclosing (h ▸ List.mem_cons_self)
    -- No opening comes about where the text ends and what follows it starts.
    have hopen : ∀ tail, c = '$' → rest ++ b = '<' :: tail → False := by
      rintro tail rfl htail
      cases rest with
      | nil =>
        rw [List.nil_append] at htail
        exact hb rfl (by rw [htail]; rfl)
      | cons d rest =>
        obtain ⟨rfl, -⟩ := List.cons.inj htail
        exact hopening ⟨[], rest, rfl⟩
    rw [List.cons_append, splitAtClosing_cons depth hc hopen,
      ih (no_opening_of_cons hopening) (fun h => hclosing (List.mem_cons_of_mem c h)) depth b
        hb.of_cons,
      Option.map_map]
    rfl

namespace Balanced

variable {a b : Text}

/-- Balanced texts that do not meet in an opening are balanced together. -/
theorem append (ha : Balanced a) (hb : Balanced b) (hab : Apart a b) : Balanced (a ++ b) := by
  intro depth c hc
  have habc : Apart a (b ++ c) := by
    cases b with
    | nil => simpa using hc
    | cons d b => exact fun hlast => hab hlast
  rw [List.append_assoc, ha depth (b ++ c) habc, hb depth c hc.of_append_left, Option.map_map]
  simp [Function.comp_def]

/-- An expression with a balanced inside is balanced. -/
theorem expression (ha : Balanced a) : Balanced (opening ++ a ++ ['>']) := by
  intro depth c _
  have hinside := ha (depth + 1) ('>' :: c) (apart_of_head? (by simp))
  have hwhole : opening ++ a ++ ['>'] ++ c = '$' :: '<' :: (a ++ '>' :: c) := by simp [opening]
  rw [hwhole, splitAtClosing, hinside, splitAtClosing]
  simp [Function.comp_def, opening]

/-- The `>` behind a balanced text closes the expression that the text stands in. -/
theorem splitAtClosing_zero (ha : Balanced a) (rest : Text) :
    splitAtClosing 0 (a ++ '>' :: rest) = some (a, rest) := by
  rw [ha 0 ('>' :: rest) (apart_of_head? (by simp)), splitAtClosing]
  simp

end Balanced

end Text

namespace Forest

open Text (Balanced Apart)

/-- An operation does not meet what follows it in an opening, nor does a text that is followed by
one or by nothing. -/
theorem apart_renderNode {node : Node} {rest : Text}
    (h : node.isText = true → rest.head? ≠ some '<') : Apart (renderNode node) rest := by
  cases node with
  | text value => exact Text.apart_of_head? (h rfl)
  | operation name parameters span =>
    intro hlast
    rw [renderNode, List.getLast?_concat] at hlast
    cases hlast

/-- Nor does anything that is followed by parameters. -/
theorem apart_renderParts {mark : Char} (hmark : mark ≠ '<') (a : Text) (parts : List Forest) :
    Apart a (renderParts mark parts) := by
  refine Text.apart_of_head? ?_
  cases parts with
  | nil => simp [renderParts]
  | cons part others => simpa [renderParts] using hmark

mutual

/-- What a well-formed node inside an expression renders to is balanced. -/
theorem balanced_renderNode (node : Node) {place : Place} (hplace : place ≠ .outside)
    (h : NodeWellFormed place node) : Balanced (renderNode node) := by
  cases node with
  | text value =>
    rw [NodeWellFormed] at h
    rw [renderNode_text]
    exact Text.balanced_of_no_delimiter h.2.1
      fun hmem => ne_closing_of_admits hplace (h.2.2 _ hmem) rfl
  | operation name parameters span =>
    rw [NodeWellFormed] at h
    have hname := balanced_render name (show Place.name ≠ .outside by decide) h.1
    have hparts := balanced_renderParts parameters h.2 (show ':' ≠ '$' by decide) (by decide)
    rw [renderNode, List.append_assoc opening]
    exact (hname.append hparts (apart_renderParts (by decide) _ parameters)).expression

/-- A well-formed forest inside an expression is written as a balanced text. -/
theorem balanced_render (forest : Forest) {place : Place} (hplace : place ≠ .outside)
    (h : WellFormed place forest) : Balanced (render forest) := by
  cases forest with
  | nil =>
    rw [render_nil]
    exact Text.balanced_nil
  | cons node others =>
    rw [WellFormed] at h
    obtain ⟨hnode, hothers, hwell⟩ := h
    have hapart : Apart (renderNode node) (render others) := apart_renderNode fun htext => by
      have hhead : (render others ++ []).head? ≠ some '<' :=
        Reading.head?_render_append (hothers htext) fun _ => by simp
      simpa using hhead
    rw [render_cons]
    exact (balanced_renderNode node hplace hnode).append (balanced_render others hplace hwell)
      hapart

/-- So are well-formed parameters, whose marks open and close nothing. -/
theorem balanced_renderParts (parts : List Forest) (h : PartsWellFormed parts) {mark : Char}
    (hopening : mark ≠ '$') (hclosing : mark ≠ '>') : Balanced (renderParts mark parts) := by
  cases parts with
  | nil =>
    rw [renderParts]
    exact Text.balanced_nil
  | cons part others =>
    rw [PartsWellFormed] at h
    have hpart := balanced_render part (show Place.parameter ≠ .outside by decide) h.1
    have hothers := balanced_renderParts others h.2 (show ',' ≠ '$' by decide) (by decide)
    have hmark : Balanced [mark] := by
      refine Text.balanced_of_no_delimiter (fun hinfix => ?_) (by simpa using hclosing.symm)
      have hlength := hinfix.length_le
      simp [opening] at hlength
    have hapart : Apart [mark] (render part ++ renderParts ',' others) := fun hlast =>
      absurd (Option.some.inj hlast) hopening
    rw [renderParts, List.cons_append]
    exact hmark.append (hpart.append hothers (apart_renderParts (by decide) _ others)) hapart

end

end Forest

end BuildExpr
