import BuildExpr.Proofs.Grammar
import BuildExpr.Proofs.Rendering

/-!
# What is read is well formed

Reading takes a text apart as far as it can be taken apart: no text node holds an opening or a mark
of its place, and no two of them are next to each other. So all forests that a reading is made of
are well formed, at every moment (`Reading.Formed`): those of finished nodes as well as the parts of
the expressions that are still open. Between two characters it has to be known that the text so far
and the text ahead do not meet in an opening; that is why the invariant looks at the text ahead.
-/

namespace BuildExpr

namespace Forest

open Text (Apart)

/-! ## Pushes -/

/-- The forest without nodes is well formed anywhere. -/
theorem WellFormed.nil (place : Place) : WellFormed place [] := by rw [WellFormed]; trivial

/-- No parameters are parameters that are well formed. -/
theorem PartsWellFormed.nil : PartsWellFormed [] := by rw [PartsWellFormed]; trivial

/-- A character that is no mark may be pushed as text. -/
theorem WellFormed.push_char {place : Place} {forest : Forest} {c : Char}
    (h : WellFormed place forest) (hc : place.admits c = true)
    (hapart : Apart (render forest) [c]) : WellFormed place (push forest (.text [c])) := by
  induction forest with
  | nil =>
    have hopening : ¬ opening <:+: [c] :=
      Text.no_opening_concat (t := []) (by decide) (Text.apart_nil _)
    simpa [push, WellFormed, NodeWellFormed, startsWithText, hc] using hopening
  | cons first rest ih =>
    rw [render_cons] at hapart
    rw [WellFormed] at h
    obtain ⟨hfirst, hnext, hrest⟩ := h
    by_cases hlast : ∀ before, first = .text before → rest ≠ []
    · rw [push_cons hlast, WellFormed]
      refine ⟨hfirst, fun htext => ?_, ih hrest hapart.of_append_left⟩
      -- A text is followed by an operation, which stays where it is.
      have hstart := hnext htext
      cases rest with
      | nil =>
        cases first with
        | text before => exact absurd rfl (hlast before rfl)
        | operation name parameters span => cases htext
      | cons next others =>
        cases next with
        | text value => cases hstart
        | operation name parameters span => rfl
    · push Not at hlast
      obtain ⟨before, rfl, rfl⟩ := hlast
      rw [NodeWellFormed] at hfirst
      obtain ⟨-, hopening, hadmits⟩ := hfirst
      rw [renderNode_text, render_nil, List.append_nil] at hapart
      have hopening' := Text.no_opening_concat hopening hapart
      have hadmits' : ∀ d ∈ before ++ [c], place.admits d = true := by
        simpa [or_imp, forall_and, hc] using hadmits
      rw [push, WellFormed, NodeWellFormed]
      exact ⟨⟨by simp, hopening', hadmits'⟩, fun _ => rfl, .nil place⟩

/-- So may an operation whose parts are well formed. -/
theorem WellFormed.push_operation {place : Place} {forest : Forest} (h : WellFormed place forest)
    {name : Forest} {parameters : List Forest} (hname : WellFormed .name name)
    (hparameters : PartsWellFormed parameters) (span : Span) :
    WellFormed place (push forest (.operation name parameters span)) := by
  have hpush : push forest (.operation name parameters span) =
      forest ++ [.operation name parameters span] := push_eq_append nofun nofun
  rw [hpush]
  induction forest with
  | nil =>
    rw [List.nil_append, WellFormed, NodeWellFormed]
    exact ⟨⟨hname, hparameters⟩, nofun, .nil place⟩
  | cons first rest ih =>
    rw [WellFormed] at h
    obtain ⟨hfirst, hnext, hrest⟩ := h
    rw [List.cons_append, WellFormed]
    refine ⟨hfirst, fun htext => ?_, ih hrest (push_eq_append nofun nofun)⟩
    cases rest with
    | nil => rfl
    | cons next others => exact hnext htext

/-- A well-formed parameter may be added to well-formed ones. -/
theorem PartsWellFormed.concat {parts : List Forest} (h : PartsWellFormed parts) {part : Forest}
    (hpart : WellFormed .parameter part) : PartsWellFormed (parts ++ [part]) := by
  induction parts with
  | nil =>
    rw [List.nil_append, PartsWellFormed]
    exact ⟨hpart, .nil⟩
  | cons first rest ih =>
    rw [PartsWellFormed] at h
    rw [List.cons_append, PartsWellFormed]
    exact ⟨h.1, ih h.2⟩

/-! ## The invariant of reading -/

namespace OpenExpression

/-- The place of the part being read. -/
def place (e : OpenExpression) : Place := if e.finished.isEmpty then .name else .parameter

/-- A name and parameters that are well formed, as far as there are any. -/
def PartsFormed : List Forest → Prop
  | [] => True
  | name :: parameters => WellFormed .name name ∧ PartsWellFormed parameters

/-- An open expression whose parts are well formed, the one being read included. -/
structure Formed (e : OpenExpression) : Prop where
  /-- The parts that are complete. -/
  finished : PartsFormed e.finished
  /-- The part being read. -/
  current : WellFormed e.place e.current

/-- All parts of a well-formed open expression are well formed, the one being read included. -/
theorem Formed.parts {e : OpenExpression} (h : e.Formed) : PartsFormed e.parts := by
  obtain ⟨start, finished, current⟩ := e
  obtain ⟨hfinished, hcurrent⟩ := h
  cases finished with
  | nil => exact ⟨hcurrent, .nil⟩
  | cons name parameters => exact ⟨hfinished.1, hfinished.2.concat hcurrent⟩

/-- What an open expression leaves behind, in terms of its name and its parameters. -/
theorem exists_parts {e : OpenExpression} (h : e.Formed) :
    ∃ name parameters, WellFormed .name name ∧ PartsWellFormed parameters ∧
      e.spread = .text opening :: name ++ spreadParts [':'] parameters := by
  have hparts := h.parts
  obtain ⟨name, parameters, hsplit, hspread, -⟩ := e.exists_name
  rw [hsplit] at hparts
  exact ⟨name, parameters, hparts.1, hparts.2, hspread⟩

end OpenExpression

namespace Reading

/-- The forest that the next node is pushed to. -/
def current (r : Reading) : Forest :=
  match r.pending with
  | [] => r.done
  | e :: _ => e.current

/-- A reading with a text ahead, all of whose forests are well formed. -/
structure Formed (r : Reading) (t : Text) : Prop where
  /-- The nodes outside all open expressions. -/
  done : WellFormed .outside r.done
  /-- The open expressions. -/
  pending : ∀ e ∈ r.pending, e.Formed
  /-- The part being read and the text ahead do not meet in an opening. -/
  apart : Apart (render r.current) t

variable {r : Reading} {t t' : Text}

/-- The forest that the next node is pushed to is well formed. -/
theorem Formed.current_wellFormed (h : r.Formed t) : WellFormed r.place r.current := by
  obtain ⟨done, pending⟩ := r
  cases pending with
  | nil => exact h.done
  | cons e outer => exact (h.pending e List.mem_cons_self).current

/-- A node is pushed to that forest. -/
theorem current_push (r : Reading) (node : Node) :
    (r.push node).current = Forest.push r.current node := by
  obtain ⟨done, pending⟩ := r
  cases pending with
  | nil => rfl
  | cons e outer => rfl

/-- A node may be pushed if that leaves the part being read well formed. -/
theorem Formed.push (h : r.Formed t) {node : Node}
    (hnode : WellFormed r.place (Forest.push r.current node))
    (hapart : Apart (render r.current ++ renderNode node) t') : (r.push node).Formed t' := by
  have hapart' : Apart (render (r.push node).current) t' := by
    rw [current_push, render_push]
    exact hapart
  obtain ⟨done, pending⟩ := r
  cases pending with
  | nil => exact ⟨hnode, nofun, hapart'⟩
  | cons e outer =>
    refine ⟨h.done, fun f hf => ?_, hapart'⟩
    rcases List.mem_cons.1 hf with rfl | hf
    · exact ⟨(h.pending e List.mem_cons_self).finished, hnode⟩
    · exact h.pending f (List.mem_cons_of_mem e hf)

/-- An expression that is opened has nothing in it yet. -/
theorem Formed.opening (h : r.Formed t) (start : Nat) :
    Formed { r with pending := ⟨start, [], []⟩ :: r.pending } t' where
  done := h.done
  pending e he := by
    rcases List.mem_cons.1 he with rfl | he
    · exact ⟨trivial, .nil _⟩
    · exact h.pending e he
  apart := Text.apart_nil t'

/-- Nor has the next part of an expression. -/
theorem Formed.nextPart {done : Forest} {e : OpenExpression} {outer : List OpenExpression}
    (h : Formed ⟨done, e :: outer⟩ t) : (nextPart ⟨done, e :: outer⟩).Formed t' where
  done := h.done
  pending f hf := by
    rcases List.mem_cons.1 hf with rfl | hf
    · exact ⟨(h.pending e List.mem_cons_self).parts, .nil _⟩
    · exact h.pending f (List.mem_cons_of_mem e hf)
  apart := Text.apart_nil t'

/-- An expression that ends is a well-formed operation. -/
theorem Formed.closing {done : Forest} {e : OpenExpression} {outer : List OpenExpression}
    (h : Formed ⟨done, e :: outer⟩ t) (stop : Nat) :
    (Reading.push ⟨done, outer⟩ (e.close stop)).Formed t' := by
  have houter : Formed ⟨done, outer⟩ [] :=
    ⟨h.done, fun f hf => h.pending f (List.mem_cons_of_mem e hf), Text.apart_of_head? (by simp)⟩
  refine houter.push ?_ ?_
  · have hparts := (h.pending e List.mem_cons_self).parts
    obtain ⟨name, parameters, hsplit, -, hclose⟩ := e.exists_name
    rw [hsplit] at hparts
    rw [hclose]
    exact houter.current_wellFormed.push_operation hparts.1 hparts.2 _
  · rw [OpenExpression.renderNode_close, ← List.append_assoc]
    intro hlast
    rw [List.getLast?_concat] at hlast
    cases hlast

/-- Reading any text keeps all forests well formed. -/
theorem Formed.read (h : r.Formed t) (offset : Nat) : (r.read offset t).Formed [] := by
  -- The reading so far is any, since the induction is on what is still to be read.
  induction t using Text.opening_induction generalizing r offset with
  | nil =>
    rw [read_nil]
    exact h
  | opening rest ih =>
    rw [read_opening]
    exact ih (h.opening offset) (offset + 2)
  | char c rest hopen ih =>
    rcases r.admits_or_mark c with hadmits | ⟨done, e, outer, rfl, rfl | rfl⟩
    · rw [read_cons r offset hadmits hopen]
      refine ih (h.push (h.current_wellFormed.push_char hadmits ?_) ?_) _
      · exact (h.apart.of_append (b := [c]) (c := rest))
      · -- A `$` with a `<` behind it would be an opening, which this character is not.
        rw [renderNode_text]
        intro hlast hhead
        rw [List.getLast?_concat, Option.some.injEq] at hlast
        obtain ⟨tail, rfl⟩ := List.head?_eq_some_iff.1 hhead
        exact hopen tail hlast rfl
    · rw [read_closing]
      exact ih (h.closing (offset + 1)) (offset + 1)
    · rw [read_mark]
      exact ih h.nextPart (offset + 1)

/-- At the end of a text all that has been read is well formed. -/
theorem formed_read (source : Text) : (({} : Reading).read 0 source).Formed [] := by
  have hempty : Formed {} source := ⟨.nil .outside, nofun, Text.apart_nil source⟩
  exact hempty.read 0

end Reading

end Forest

end BuildExpr
