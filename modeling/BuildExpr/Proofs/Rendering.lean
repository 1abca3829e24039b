import BuildExpr.Proofs.Reading

/-!
# A forest says all of its text

Rendering the forest that was read from a text gives the text back. While tokens are read,
`Reading.finish` tells at every moment which forest there would be if the text ended here, so the
invariant is stated about the rendering of that forest: each token read adds what it says at the end
(`render_finish_step`), which is how it is spelled if it comes from a text. An open expression is
written as its *lead*, which ends with the mark before the part being read, followed by that part; a
push changes the part, a separator makes it a part of the lead, and a `>` closes both.
-/

namespace BuildExpr

namespace Token

/-- The spelling that all tokens of a kind have; a text can be spelled in any way. -/
def Kind.spelling? : Kind → Option Text
  | .text => none
  | .opening => some BuildExpr.opening
  | .colon => some [':']
  | .comma => some [',']
  | .closing => some ['>']

/-- A token that is spelled as its kind demands. -/
def Spelled (token : Token) : Prop :=
  ∀ spelling, token.kind.spelling? = some spelling → token.text = spelling

/-- How many expressions are open behind a token, with `depth` of them open in front of it. -/
def Kind.depthAfter (depth : Nat) : Kind → Nat
  | .opening => depth + 1
  | .closing => depth - 1
  | .text | .colon | .comma => depth

/-- Only an opening changes how many are open, and a closing where some are. -/
theorem Kind.depthAfter_eq {kind : Kind} {depth : Nat} (hopening : kind ≠ .opening)
    (hclosing : kind = .closing → depth = 0) : kind.depthAfter depth = depth := by
  cases kind with
  | opening => exact absurd rfl hopening
  | closing => rw [hclosing rfl, depthAfter]
  | text | colon | comma => rfl

/-- What a token says inside `depth` open expressions. Outside all expressions any token but an
opening says what it is spelled as; elsewhere an opening and a mark say what their kind demands. -/
def said (depth : Nat) (token : Token) : Text :=
  if depth = 0 ∧ token.kind ≠ .opening then token.text
  else token.kind.spelling?.getD token.text

/-- What tokens say in order, the first of them inside `depth` open expressions. -/
def saidFrom : Nat → List Token → Text
  | _, [] => []
  | depth, token :: rest => token.said depth ++ saidFrom (token.kind.depthAfter depth) rest

/-- Tokens that are spelled as their kinds demand say what they are spelled as. -/
theorem saidFrom_of_spelled {tokens : List Token} (h : ∀ token ∈ tokens, token.Spelled)
    (depth : Nat) : saidFrom depth tokens = spell tokens := by
  induction tokens generalizing depth with
  | nil => rfl
  | cons token rest ih =>
    obtain ⟨htoken, hrest⟩ := List.forall_mem_cons.1 h
    have hsaid : token.said depth = token.text := by
      unfold said
      split
      · rfl
      · cases hspelling : token.kind.spelling? with
        | none => rfl
        | some spelling => exact (htoken spelling hspelling).symm
    rw [saidFrom, hsaid, ih hrest]
    rfl

/-- A text token may be spelled in any way. -/
theorem spelled_text (span : Span) (text : Text) : Spelled ⟨.text, span, text⟩ := by
  simp [Spelled, Kind.spelling?]

/-- A character in front goes into a text token, which may be spelled in any way. -/
theorem spelled_of_mem_consChar {offset : Nat} {c : Char} {tokens : List Token}
    (h : ∀ token ∈ tokens, token.Spelled) : ∀ token ∈ consChar offset c tokens, token.Spelled := by
  fun_cases consChar offset c tokens with
  | case1 span text rest =>
    intro token hmem
    rcases List.mem_cons.mp hmem with rfl | hmem
    · exact spelled_text _ _
    · exact h token (List.mem_cons_of_mem _ hmem)
  | case2 =>
    intro token hmem
    rcases List.mem_cons.mp hmem with rfl | hmem
    · exact spelled_text _ _
    · exact h token hmem

/-- Every token of a text is spelled as its kind says. -/
theorem spelled_of_mem_scanFrom (depth offset : Nat) (t : Text) :
    ∀ token ∈ scanFrom depth offset t, token.Spelled := by
  fun_induction scanFrom depth offset t with
  | case1 => simp
  | case2 _ _ _ ih | case3 _ _ _ ih | case4 _ _ _ ih | case5 _ _ _ ih =>
    intro token hmem
    rcases List.mem_cons.mp hmem with rfl | hmem
    · simp [Spelled, Kind.spelling?]
    · exact ih token hmem
  | case6 _ _ _ _ _ _ _ _ ih => exact spelled_of_mem_consChar ih

/-- The tokens of a text are spelled as their kinds demand. -/
theorem spelled_of_mem_scan {t : Text} : ∀ token ∈ scan t, token.Spelled :=
  spelled_of_mem_scanFrom 0 0 t

end Token

namespace Forest

/-! ## Parameters with their marks -/

/-- The mark in front of a part when `before` parameters are complete. -/
def markAfter (mark : Char) (before : List Forest) : Char := if before.isEmpty then mark else ','

/-- The first part has the mark it is given. -/
@[simp] theorem markAfter_nil (mark : Char) : markAfter mark [] = mark := rfl

/-- All others have a comma. -/
@[simp] theorem markAfter_cons (mark : Char) (part : Forest) (rest : List Forest) :
    markAfter mark (part :: rest) = ',' := rfl

/-- A further parameter is written after its mark. -/
theorem renderParts_concat (mark : Char) (parts : List Forest) (part : Forest) :
    renderParts mark (parts ++ [part]) =
      renderParts mark parts ++ markAfter mark parts :: render part := by
  induction parts generalizing mark with
  | nil => simp [renderParts]
  | cons first rest ih =>
    have hmark : markAfter ',' rest = ',' := by cases rest <;> rfl
    simp [renderParts, ih, hmark]

namespace OpenExpression

/-- Spread parameters are written as the parameters of an operation are. -/
theorem render_spreadParts (mark : Char) (parts : List Forest) :
    render (spreadParts [mark] parts) = renderParts mark parts := by
  induction parts generalizing mark with
  | nil => simp [spreadParts, renderParts]
  | cons part rest ih => simp [spreadParts, renderParts, ih]

/-- What stands before the part being read: the opening and the complete parts, each with the mark
that ends it. -/
def lead : List Forest → Text
  | [] => opening
  | name :: parameters =>
    opening ++ render name ++ renderParts ':' parameters ++ [markAfter ':' parameters]

/-- An open expression is written as what stands before its current part and then that part. -/
theorem render_spread (e : OpenExpression) :
    render e.spread = lead e.finished ++ render e.current := by
  obtain ⟨start, finished, current⟩ := e
  cases finished with
  | nil => simp [spread, parts, spreadParts, lead]
  | cons name parameters =>
    simp [spread, parts, lead, render_spreadParts, renderParts_concat]

/-- Ending a part puts it and the mark after it into what stands before the next one. -/
theorem lead_parts (e : OpenExpression) :
    lead e.parts = render e.spread ++ [if e.finished.isEmpty then ':' else ','] := by
  rw [render_spread]
  obtain ⟨start, finished, current⟩ := e
  cases finished with
  | nil => simp [parts, lead, renderParts]
  | cons name parameters =>
    have hmark : markAfter ':' (parameters ++ [current]) = ',' := by
      cases parameters <;> rfl
    simp [parts, lead, renderParts_concat, hmark]

/-- A closed expression is written like the open one with its `>`. -/
theorem renderNode_close (e : OpenExpression) (stop : Nat) :
    renderNode (e.close stop) = render e.spread ++ ['>'] := by
  rw [render_spread]
  obtain ⟨start, finished, current⟩ := e
  cases finished with
  | nil => simp [close, parts, renderNode, renderParts, lead]
  | cons name parameters => simp [close, parts, renderNode, lead, renderParts_concat]

/-- The kind of token that ends the part being read. -/
def separator (e : OpenExpression) : Token.Kind := if e.finished.isEmpty then .colon else .comma

/-- It is spelled as the mark that ends it. -/
theorem spelling?_separator (e : OpenExpression) : e.separator.spelling? = some [e.mark] := by
  unfold separator mark
  split
  · rfl
  · rfl

/-- What separates the parts of an open expression opens nothing. -/
theorem separator_ne_opening (e : OpenExpression) : e.separator ≠ .opening := by
  unfold separator
  split
  · nofun
  · nofun

/-- Nor does it close anything. -/
theorem separator_ne_closing (e : OpenExpression) : e.separator ≠ .closing := by
  unfold separator
  split
  · nofun
  · nofun

end OpenExpression

/-! ## What each token adds -/

namespace Reading

/-- An open expression is spread at the end of what is around it. -/
theorem render_finish_cons (done : Forest) (e : OpenExpression) (outer : List OpenExpression) :
    render (finish ⟨done, e :: outer⟩) = render (finish ⟨done, outer⟩) ++ render e.spread := by
  simp [finish]

/-- A node that is pushed is written at the end. -/
theorem render_finish_push (r : Reading) (node : Node) :
    render (r.push node).finish = render r.finish ++ renderNode node := by
  obtain ⟨done, pending⟩ := r
  cases pending with
  | nil => simp [push, finish]
  | cons e outer =>
    rw [push, render_finish_cons, render_finish_cons]
    simp [OpenExpression.render_spread]

/-- Beginning the next part of an expression adds the mark between the parts. -/
theorem render_finish_nextPart (done : Forest) (e : OpenExpression) (outer : List OpenExpression) :
    render (nextPart ⟨done, e :: outer⟩).finish =
      render (finish ⟨done, e :: outer⟩) ++ [if e.finished.isEmpty then ':' else ','] := by
  rw [nextPart, render_finish_cons, render_finish_cons, OpenExpression.render_spread,
    OpenExpression.lead_parts]
  simp

/-- What a token does to a reading: it opens an expression, ends the innermost one or a part of it,
or becomes text at the end of what is being read. -/
theorem step_cases (r : Reading) (token : Token) :
    (token.kind = .opening ∧
      r.step token = { r with pending := ⟨token.span.start, [], []⟩ :: r.pending }) ∨
    (∃ done e outer, r = ⟨done, e :: outer⟩ ∧ token.kind = .closing ∧
      r.step token = push ⟨done, outer⟩ (e.close token.span.stop)) ∨
    (∃ done e outer, r = ⟨done, e :: outer⟩ ∧ token.kind = e.separator ∧
      r.step token = nextPart ⟨done, e :: outer⟩) ∨
    (token.kind ≠ .opening ∧ (token.kind = .closing → r.pending = []) ∧
      r.step token = r.push (.text (token.said r.pending.length))) := by
  obtain ⟨done, pending⟩ := r
  obtain ⟨kind, span, text⟩ := token
  cases kind with
  | opening => exact .inl ⟨rfl, rfl⟩
  | text =>
    have hsaid : Token.said pending.length ⟨.text, span, text⟩ = text := by
      simp [Token.said, Token.Kind.spelling?]
    rw [hsaid]
    exact .inr (.inr (.inr ⟨nofun, nofun, rfl⟩))
  | closing =>
    cases pending with
    | nil => exact .inr (.inr (.inr ⟨nofun, fun _ => rfl, rfl⟩))
    | cons e outer => exact .inr (.inl ⟨done, e, outer, rfl, rfl, rfl⟩)
  | colon =>
    -- A colon ends the name and only the name; a comma ends a parameter and never the name.
    cases pending with
    | nil => exact .inr (.inr (.inr ⟨nofun, nofun, rfl⟩))
    | cons e outer =>
      by_cases hname : e.finished.isEmpty = true
      · refine .inr (.inr (.inl ⟨done, e, outer, rfl, ?_, if_pos hname⟩))
        rw [OpenExpression.separator, if_pos hname]
      · exact .inr (.inr (.inr ⟨nofun, nofun, if_neg hname⟩))
  | comma =>
    cases pending with
    | nil => exact .inr (.inr (.inr ⟨nofun, nofun, rfl⟩))
    | cons e outer =>
      by_cases hname : e.finished.isEmpty = true
      · exact .inr (.inr (.inr ⟨nofun, nofun, if_pos hname⟩))
      · refine .inr (.inr (.inl ⟨done, e, outer, rfl, ?_, if_neg hname⟩))
        rw [OpenExpression.separator, if_neg hname]

/-- A token opens or closes as many expressions as its kind says. -/
theorem length_pending_step (r : Reading) (token : Token) :
    (r.step token).pending.length = token.kind.depthAfter r.pending.length := by
  obtain ⟨hkind, hstep⟩ | ⟨done, e, outer, rfl, hkind, hstep⟩ | ⟨done, e, outer, rfl, hkind, hstep⟩ |
    ⟨hopening, hclosing, hstep⟩ := r.step_cases token
  · rw [hstep, hkind]
    rfl
  · rw [hstep, hkind, length_pending_push]
    rfl
  · rw [hstep, hkind, Token.Kind.depthAfter_eq e.separator_ne_opening
      fun h => absurd h e.separator_ne_closing]
    rfl
  · have hdepth : token.kind = .closing → r.pending.length = 0 := fun h =>
      List.length_eq_zero_iff.2 (hclosing h)
    rw [hstep, length_pending_push, Token.Kind.depthAfter_eq hopening hdepth]

/-- A token that is read adds what it says. -/
theorem render_finish_step (r : Reading) (token : Token) :
    render (r.step token).finish = render r.finish ++ token.said r.pending.length := by
  obtain ⟨hkind, hstep⟩ | ⟨done, e, outer, rfl, hkind, hstep⟩ | ⟨done, e, outer, rfl, hkind, hstep⟩ |
    ⟨-, -, hstep⟩ := r.step_cases token
  · rw [hstep, render_finish_cons, OpenExpression.render_spread]
    simp [OpenExpression.lead, Token.said, hkind, Token.Kind.spelling?]
  · rw [hstep, render_finish_push, OpenExpression.renderNode_close, render_finish_cons,
      List.append_assoc]
    simp [Token.said, hkind, Token.Kind.spelling?]
  · rw [hstep, render_finish_nextPart]
    simp [Token.said, hkind, e.spelling?_separator, OpenExpression.mark]
  · rw [hstep, render_finish_push, renderNode_text]

/-- Tokens that are read add what they say, one after the other. -/
theorem render_finish_foldl_step (tokens : List Token) (r : Reading) :
    render (tokens.foldl step r).finish =
      render r.finish ++ Token.saidFrom r.pending.length tokens := by
  induction tokens generalizing r with
  | nil => simp [Token.saidFrom]
  | cons token rest ih =>
    rw [List.foldl_cons, ih, render_finish_step, length_pending_step, List.append_assoc]
    rfl

/-- What has been read after a further text renders to what it rendered to before and that text. -/
theorem render_finish_read (r : Reading) (offset : Nat) (t : Text) :
    render (r.read offset t).finish = render r.finish ++ t := by
  rw [read, render_finish_foldl_step,
    Token.saidFrom_of_spelled (Token.spelled_of_mem_scanFrom _ offset t), Token.spell_scanFrom]

end Reading

/-- The forest of any tokens renders to what they say. -/
theorem render_ofTokens_eq_saidFrom (tokens : List Token) :
    render (ofTokens tokens) = Token.saidFrom 0 tokens := by
  rw [ofTokens, Reading.render_finish_foldl_step]
  simp [Reading.finish]

/-- The forest of spelled tokens renders to what they spell. -/
theorem render_ofTokens {tokens : List Token} (h : ∀ token ∈ tokens, token.Spelled) :
    render (ofTokens tokens) = Token.spell tokens := by
  rw [render_ofTokens_eq_saidFrom, Token.saidFrom_of_spelled h]

/-- What is read from a text is written as that text. -/
theorem render_ofTokens_scan (source : Text) : render (ofTokens (Token.scan source)) = source := by
  rw [render_ofTokens Token.spelled_of_mem_scan, Token.spell_scan]

end Forest

/-- The forest read from a text, under any nesting limit and whether or not all of its expressions
end, renders to that text. -/
theorem Tree.render_nodes_parse (limit : Nat) (source : Text) :
    Forest.render (Tree.parse limit source).nodes = source := by
  have hread : Forest.render (Forest.ofTokens (Token.scan source)) = source := by
    rw [Forest.render_ofTokens Token.spelled_of_mem_scan, Token.spell_scan]
  have hwhole : Forest.render (Forest.push [] (.text source)) = source := by
    simp
  simp only [Tree.parse]
  split
  · split
    · exact hwhole
    · exact hread
  · exact hwhole

end BuildExpr
