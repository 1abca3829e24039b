import Mathlib.Data.Set.Card
import BuildExpr.Proofs.Matching
import BuildExpr.Proofs.Rendering

/-!
# Which tokens become operations

Tokens that are not those of a text may be of any kinds in any order, with any spans. An opening among
them becomes an operation exactly if a later token closes it, and the operation spans what lies from
the one to the other (`spans_ofTokens`).

Which token closes an expression is found by counting what is open (`Token.closing?`). Said without
counting, it is the closing up to which all that is opened is closed again and nothing else is
(`closing?_zero_eq_some_iff`), so the operations can be counted by the positions of such openings
(`encard_expressionAt`).
-/

namespace BuildExpr

namespace Token

/-! ## The token that closes an expression -/

/-- The token that closes the outermost of `depth + 1` open expressions. -/
def closing? : Nat → List Token → Option Token
  | _, [] => none
  | depth, token :: rest =>
    if token.kind = .closing ∧ depth = 0 then some token
    else closing? (token.kind.depthAfter depth) rest

/-- Tokens among which all that is opened is closed, and nothing else is. -/
inductive Balanced : List Token → Prop
  | nil : Balanced []
  | cons {token : Token} {rest : List Token} (hopening : token.kind ≠ .opening)
    (hclosing : token.kind ≠ .closing) (hrest : Balanced rest) : Balanced (token :: rest)
  | expression {first last : Token} {inside after : List Token} (hfirst : first.kind = .opening)
    (hinside : Balanced inside) (hlast : last.kind = .closing) (hafter : Balanced after) :
    Balanced (first :: (inside ++ last :: after))

section

variable {token : Token} (depth : Nat) (rest : List Token)

/-- Behind an opening, one more expression has to be closed first. -/
theorem closing?_opening (h : token.kind = .opening) :
    closing? depth (token :: rest) = closing? (depth + 1) rest := by
  simp [closing?, h, Kind.depthAfter]

/-- With one expression open, the first closing closes it. -/
theorem closing?_zero_closing (h : token.kind = .closing) :
    closing? 0 (token :: rest) = some token := by
  simp [closing?, h]

/-- With more of them open, it closes an inner one. -/
theorem closing?_succ_closing (h : token.kind = .closing) :
    closing? (depth + 1) (token :: rest) = closing? depth rest := by
  simp [closing?, h, Kind.depthAfter]

/-- A token that neither opens nor closes is passed over. -/
theorem closing?_cons (hopening : token.kind ≠ .opening) (hclosing : token.kind ≠ .closing) :
    closing? depth (token :: rest) = closing? depth rest := by
  rw [closing?, if_neg fun h => hclosing h.1,
    Kind.depthAfter_eq hopening fun h => absurd h hclosing]

end

/-- Balanced tokens are passed over. -/
theorem Balanced.closing?_append {inside : List Token} (h : Balanced inside) (depth : Nat)
    (rest : List Token) : closing? depth (inside ++ rest) = closing? depth rest := by
  induction h generalizing depth rest with
  | nil => rfl
  | cons hopening hclosing _ ih => rw [List.cons_append, closing?_cons _ _ hopening hclosing, ih]
  | expression hfirst _ hlast _ hinside hafter =>
    rw [List.cons_append, List.append_assoc, closing?_opening _ _ hfirst, hinside,
      List.cons_append, closing?_succ_closing _ _ hlast, hafter]

/-- Where some expression is closed, the innermost one is, behind balanced tokens. -/
theorem exists_balanced_of_closing? {depth : Nat} (tokens : List Token)
    (h : (closing? depth tokens).isSome) :
    ∃ inside last after,
      tokens = inside ++ last :: after ∧ last.kind = .closing ∧ Balanced inside := by
  cases tokens with
  | nil => cases h
  | cons token rest =>
    by_cases hclosing : token.kind = .closing
    · exact ⟨[], token, rest, rfl, hclosing, .nil⟩
    by_cases hopening : token.kind = .opening
    · -- The expression that the token opens is closed first, and then those around it.
      rw [closing?_opening _ _ hopening] at h
      obtain ⟨inner, closer, behind, rfl, hcloser, hinner⟩ := exists_balanced_of_closing? rest h
      rw [hinner.closing?_append, closing?_succ_closing _ _ hcloser] at h
      obtain ⟨between, last, after, rfl, hlast, hbetween⟩ := exists_balanced_of_closing? behind h
      exact ⟨token :: (inner ++ closer :: between), last, after, by simp, hlast,
        .expression hopening hinner hcloser hbetween⟩
    · rw [closing?_cons _ _ hopening hclosing] at h
      obtain ⟨inside, last, after, rfl, hlast, hinside⟩ := exists_balanced_of_closing? rest h
      exact ⟨token :: inside, last, after, rfl, hlast, .cons hopening hclosing hinside⟩
  termination_by tokens.length

/-- An expression is closed by the closing that comes behind balanced tokens. -/
theorem closing?_zero_eq_some_iff {tokens : List Token} {last : Token} :
    closing? 0 tokens = some last ↔
      ∃ inside after, tokens = inside ++ last :: after ∧ last.kind = .closing ∧ Balanced inside := by
  constructor
  · intro h
    obtain ⟨inside, closer, after, rfl, hcloser, hinside⟩ :=
      exists_balanced_of_closing? tokens (by rw [h]; rfl)
    rw [hinside.closing?_append, closing?_zero_closing _ hcloser] at h
    cases h
    exact ⟨inside, after, rfl, hcloser, hinside⟩
  · rintro ⟨inside, after, rfl, hlast, hinside⟩
    rw [hinside.closing?_append, closing?_zero_closing _ hlast]

/-! ## The expressions among some tokens -/

/-- The expression that a token opens, as that token and the one that closes it. -/
def expression? (token : Token) (rest : List Token) : Option (Token × Token) :=
  if token.kind = .opening then (closing? 0 rest).map fun last => (token, last) else none

/-- The expressions among some tokens, in the order in which they are opened. -/
def expressions : List Token → List (Token × Token)
  | [] => []
  | token :: rest => (expression? token rest).toList ++ expressions rest

/-- At a position of some tokens stands an opening that has its closing: what lies between the two is
balanced. -/
def ExpressionAt (tokens : List Token) (position : Nat) : Prop :=
  ∃ before first inside last after, tokens = before ++ first :: (inside ++ last :: after) ∧
    before.length = position ∧ first.kind = .opening ∧ last.kind = .closing ∧ Balanced inside

/-- An expression is at the first position exactly if the first token opens one. -/
theorem expressionAt_zero_iff {token : Token} {rest : List Token} :
    ExpressionAt (token :: rest) 0 ↔ (expression? token rest).isSome := by
  constructor
  · rintro ⟨before, first, inside, last, after, htokens, hbefore, hfirst, hlast, hinside⟩
    obtain rfl := List.eq_nil_of_length_eq_zero hbefore
    obtain ⟨rfl, rfl⟩ := List.cons.inj htokens
    rw [expression?, if_pos hfirst, closing?_zero_eq_some_iff.2 ⟨inside, after, rfl, hlast, hinside⟩]
    rfl
  · unfold expression?
    split
    · next hfirst =>
      rw [Option.isSome_map]
      intro h
      obtain ⟨last, hclosing⟩ := Option.isSome_iff_exists.1 h
      obtain ⟨inside, after, rfl, hlast, hinside⟩ := closing?_zero_eq_some_iff.1 hclosing
      exact ⟨[], token, inside, last, after, rfl, rfl, hfirst, hlast, hinside⟩
    · exact fun h => nomatch h

/-- Later positions are those of the tokens behind the first. -/
theorem expressionAt_succ_iff {token : Token} {rest : List Token} {position : Nat} :
    ExpressionAt (token :: rest) (position + 1) ↔ ExpressionAt rest position := by
  constructor
  · rintro ⟨before, first, inside, last, after, htokens, hbefore, hexpression⟩
    cases before with
    | nil => cases hbefore
    | cons other before =>
      obtain ⟨-, rfl⟩ := List.cons.inj htokens
      exact ⟨before, first, inside, last, after, rfl, Nat.succ.inj hbefore, hexpression⟩
  · rintro ⟨before, first, inside, last, after, rfl, rfl, hexpression⟩
    exact ⟨token :: before, first, inside, last, after, rfl, rfl, hexpression⟩

/-- There is no expression among no tokens. -/
theorem not_expressionAt_nil (position : Nat) : ¬ ExpressionAt [] position := by
  rintro ⟨before, first, inside, last, after, htokens, -⟩
  cases before with
  | nil => cases htokens
  | cons other before => cases htokens

/-- The positions of expressions are the first, if there is one, and those behind it. -/
theorem setOf_expressionAt_cons (token : Token) (rest : List Token) :
    {position | ExpressionAt (token :: rest) position} =
      {position | position = 0 ∧ (expression? token rest).isSome} ∪
        Nat.succ '' {position | ExpressionAt rest position} := by
  ext position
  cases position with
  | zero => simp [expressionAt_zero_iff]
  | succ position => simp [expressionAt_succ_iff]

/-- There are as many expressions as openings that have their closing. -/
theorem encard_expressionAt (tokens : List Token) :
    {position | ExpressionAt tokens position}.encard = (expressions tokens).length := by
  induction tokens with
  | nil => simp [not_expressionAt_nil, expressions]
  | cons token rest ih =>
    have hfirst : {position | position = 0 ∧ (expression? token rest).isSome}.encard =
        (expression? token rest).toList.length := by
      cases expression? token rest with
      | none => simp
      | some pair => simp
    have hdisjoint : Disjoint {position | position = 0 ∧ (expression? token rest).isSome}
        (Nat.succ '' {position | ExpressionAt rest position}) := by
      rw [Set.disjoint_left]
      rintro position ⟨rfl, -⟩ ⟨other, -, hother⟩
      cases hother
    rw [setOf_expressionAt_cons, Set.encard_union_eq hdisjoint, hfirst,
      Nat.succ_injective.encard_image, ih, expressions, List.length_append, Nat.cast_add]

/-- The span from an opening to its closing. -/
def expressionSpan (pair : Token × Token) : Span := ⟨pair.1.span.start, pair.2.span.stop⟩

end Token

namespace Forest

namespace Reading

/-! ## The spans of the forest to come -/

/-- The spans that open expressions will have left behind, from the outermost expression to the
innermost, if `last?` is the token that will close one inside which so many others are open. -/
def pendingSpans : (Nat → Option Token) → List OpenExpression → List Span
  | _, [] => []
  | last?, e :: outer =>
    pendingSpans (fun depth => last? (depth + 1)) outer ++
      ((last? 0).map fun last => ⟨e.start, last.span.stop⟩).toList ++ partsSpans e.parts

/-- The spans that what has been read will have left behind after some tokens. -/
def spansAhead (r : Reading) (tokens : List Token) : List Span :=
  spans r.done ++ pendingSpans (fun depth => Token.closing? depth tokens) r.pending

/-- A node that is pushed adds its spans at the end. -/
theorem spansAhead_push (r : Reading) (node : Node) (tokens : List Token) :
    (r.push node).spansAhead tokens = r.spansAhead tokens ++ nodeSpans node := by
  obtain ⟨done, pending⟩ := r
  cases pending with
  | nil => simp [spansAhead, push, pendingSpans]
  | cons e outer => simp [spansAhead, push, pendingSpans, OpenExpression.parts]

/-- Beginning the next part adds no spans. -/
theorem spansAhead_nextPart (r : Reading) (tokens : List Token) :
    r.nextPart.spansAhead tokens = r.spansAhead tokens := by
  obtain ⟨done, pending⟩ := r
  cases pending with
  | nil => rfl
  | cons e outer => simp [spansAhead, nextPart, pendingSpans, OpenExpression.parts]

/-- When no tokens are left, nothing is closed any more. -/
theorem spans_finish_eq_spansAhead (r : Reading) : spans r.finish = r.spansAhead [] := by
  obtain ⟨done, pending⟩ := r
  have hfinish : spans (finish ⟨done, pending⟩) =
      spans done ++ pendingSpans (fun _ => none) pending := by
    induction pending with
    | nil => simp [finish, pendingSpans]
    | cons e outer ih =>
      rw [finish_cons, spans_extend, ih, OpenExpression.spans_spread, pendingSpans]
      simp
  exact hfinish

/-- A token that neither opens nor closes an expression leaves those that are open to the tokens behind
it. -/
theorem spansAhead_cons {r : Reading} {token : Token} (hopening : token.kind ≠ .opening)
    (hclosing : token.kind = .closing → r.pending = []) (rest : List Token) :
    r.spansAhead (token :: rest) = r.spansAhead rest := by
  unfold spansAhead
  by_cases hkind : token.kind = .closing
  · rw [hclosing hkind]
    rfl
  · simp only [Token.closing?_cons _ _ hopening hkind]

/-- A token that is read makes known the span of the expression that it opens. -/
theorem spansAhead_step (r : Reading) (token : Token) (rest : List Token) :
    (r.step token).spansAhead rest =
      r.spansAhead (token :: rest) ++
        (Token.expression? token rest).toList.map Token.expressionSpan := by
  obtain ⟨hkind, hstep⟩ | ⟨done, e, outer, rfl, hkind, hstep⟩ | ⟨done, e, outer, rfl, hkind, hstep⟩ |
    ⟨hopening, hclosing, hstep⟩ := r.step_cases token
  · -- The new expression is the innermost: those around it are one level further out from now on.
    rw [hstep]
    cases hlast : Token.closing? 0 rest with
    | none => simp [spansAhead, pendingSpans, OpenExpression.parts, Token.closing?_opening,
        Token.expression?, hkind, hlast]
    | some last => simp [spansAhead, pendingSpans, OpenExpression.parts, Token.closing?_opening,
        Token.expression?, Token.expressionSpan, hkind, hlast]
  · -- The span that was foreseen for the expression is that of the operation it has become.
    rw [hstep, spansAhead_push, OpenExpression.nodeSpans_close]
    simp [spansAhead, pendingSpans, Token.closing?_zero_closing, Token.closing?_succ_closing,
      Token.expression?, hkind]
  · have hopening : token.kind ≠ .opening := hkind ▸ e.separator_ne_opening
    have hclosing : token.kind ≠ .closing := hkind ▸ e.separator_ne_closing
    rw [hstep, spansAhead_nextPart, spansAhead_cons hopening fun h => absurd h hclosing]
    simp [Token.expression?, hopening]
  · rw [hstep, spansAhead_push, spansAhead_cons hopening hclosing]
    simp [Token.expression?, hopening]

/-- At the end the forest has the spans that were known before the tokens and those of the expressions
among them. -/
theorem spans_finish_foldl_step (tokens : List Token) (r : Reading) :
    spans (tokens.foldl step r).finish =
      r.spansAhead tokens ++ (Token.expressions tokens).map Token.expressionSpan := by
  induction tokens generalizing r with
  | nil =>
    rw [List.foldl_nil, spans_finish_eq_spansAhead]
    simp [Token.expressions]
  | cons token rest ih =>
    rw [List.foldl_cons, ih, spansAhead_step, Token.expressions, List.map_append, List.append_assoc]

end Reading

/-- The operations of a forest are the expressions among its tokens, in the same order. -/
theorem spans_ofTokens (tokens : List Token) :
    spans (ofTokens tokens) = (Token.expressions tokens).map Token.expressionSpan := by
  rw [ofTokens, Reading.spans_finish_foldl_step]
  simp [Reading.spansAhead, Reading.pendingSpans]

end Forest

end BuildExpr
