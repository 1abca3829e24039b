import BuildExpr.Text.Span
import BuildExpr.Delimiter

/-!
# Tokens

A text falls into tokens: `$<` always opens an expression, while `:`, `,` and `>` are marks of
their own only inside an open one, and everything else is text. The tokens lie end to end, so that
together they spell the text they come from, and no two text tokens touch.
-/

namespace BuildExpr

/-- What a token is. -/
inductive Token.Kind where
  /-- A run of literal text. -/
  | text
  /-- `$<`. -/
  | opening
  /-- `:` inside an expression. -/
  | colon
  /-- `,` inside an expression. -/
  | comma
  /-- `>`, which ends an expression. -/
  | closing
deriving DecidableEq, Repr

/-- A piece of a text, with its place and its spelling. -/
structure Token where
  /-- What it is. -/
  kind : Token.Kind
  /-- Where it stands. -/
  span : Span
  /-- How it is spelled. -/
  text : Text
deriving DecidableEq, Repr

namespace Token

/-- Whether a token separates or ends the parts of an expression. -/
def Kind.isStructural : Kind → Bool
  | .colon | .comma | .closing => true
  | .text | .opening => false

/-- How the kind is named in a listing. -/
def Kind.name : Kind → Text
  | .text => "text"
  | .opening => "`$<`"
  | .colon => "`:`"
  | .comma => "`,`"
  | .closing => "`>`"

/-- The token that a span cuts out of a text. -/
def ofSpan (source : Text) (kind : Kind) (span : Span) : Token := ⟨kind, span, source.cut span⟩

/-- The tokens of a text that starts at `offset`, with one character put in front. A text token at
the front takes it in; before any other token it becomes a text token. -/
def consChar (offset : Nat) (c : Char) : List Token → List Token
  | ⟨.text, span, text⟩ :: rest => ⟨.text, ⟨offset, span.stop⟩, c :: text⟩ :: rest
  | tokens => ⟨.text, ⟨offset, offset + c.utf8Size⟩, [c]⟩ :: tokens

/-- The tokens of a text that starts at `offset` inside `depth` open expressions. -/
def scanFrom : Nat → Nat → Text → List Token
  | _, _, [] => []
  | depth, offset, '$' :: '<' :: rest =>
    ⟨.opening, ⟨offset, offset + 2⟩, opening⟩ :: scanFrom (depth + 1) (offset + 2) rest
  | depth + 1, offset, '>' :: rest =>
    ⟨.closing, ⟨offset, offset + 1⟩, ['>']⟩ :: scanFrom depth (offset + 1) rest
  | depth + 1, offset, ':' :: rest =>
    ⟨.colon, ⟨offset, offset + 1⟩, [':']⟩ :: scanFrom (depth + 1) (offset + 1) rest
  | depth + 1, offset, ',' :: rest =>
    ⟨.comma, ⟨offset, offset + 1⟩, [',']⟩ :: scanFrom (depth + 1) (offset + 1) rest
  -- Anything else is text, the marks outside all expressions included.
  | depth, offset, c :: rest => consChar offset c (scanFrom depth (offset + c.utf8Size) rest)

/-- The tokens of a text. -/
def scan (t : Text) : List Token := scanFrom 0 0 t

/-- Whether some expression is opened. -/
def anyOpening (tokens : List Token) : Bool := tokens.any fun token => token.kind == .opening

/-- The greatest number of expressions open at once, with `depth` open at the start. -/
def deepestFrom : Nat → List Token → Nat
  | depth, [] => depth
  | depth, token :: rest =>
    match token.kind with
    | .opening => deepestFrom (depth + 1) rest
    | .closing => max depth (deepestFrom (depth - 1) rest)
    | .text | .colon | .comma => deepestFrom depth rest

/-- The greatest number of expressions open at once. -/
def deepest (tokens : List Token) : Nat := deepestFrom 0 tokens

/-- The spelling of all tokens in order. -/
def spell (tokens : List Token) : Text := tokens.flatMap Token.text

/-- A character put in front of tokens is spelled in front of them. -/
theorem spell_consChar (offset : Nat) (c : Char) (tokens : List Token) :
    spell (consChar offset c tokens) = c :: spell tokens := by
  fun_cases consChar offset c tokens <;> simp [spell]

/-- The tokens of a text spell it. -/
theorem spell_scanFrom (depth offset : Nat) (t : Text) : spell (scanFrom depth offset t) = t := by
  fun_induction scanFrom depth offset t with
  | case1 => rfl
  | case2 _ _ _ ih | case3 _ _ _ ih | case4 _ _ _ ih | case5 _ _ _ ih =>
    simpa [spell, opening] using ih
  | case6 _ _ _ _ _ _ _ _ ih => rw [spell_consChar, ih]

/-- The tokens of a text spell it. -/
theorem spell_scan (t : Text) : spell (scan t) = t := spell_scanFrom 0 0 t

end Token

end BuildExpr
