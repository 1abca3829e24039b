import BuildExpr.Forest
import BuildExpr.Token

/-!
# Reading a forest

Tokens are read from left to right. The state is the forest finished so far and the expressions
that are open around the next token, innermost first. Inside an expression the name runs up to the
first colon, commas included; after it commas separate parameters and further colons are text.

An expression that is still open when the tokens end is no operation: what was read of it becomes
text again, while the operations completed inside it stay. So every list of tokens has a forest,
and reading never fails.
-/

namespace BuildExpr.Forest

/-- An expression whose end has not been read. -/
structure OpenExpression where
  /-- The offset of its `$<`. -/
  start : Nat
  /-- The parts that are complete: the name, then parameters. Empty while the name is read. -/
  finished : List Forest
  /-- The part being read. -/
  current : Forest
deriving Repr

/-- What has been read. -/
structure Reading where
  /-- The nodes outside all open expressions. -/
  done : Forest := []
  /-- The open expressions, innermost first. -/
  pending : List OpenExpression := []
deriving Repr

namespace OpenExpression

/-- All parts, the one being read included. -/
def parts (e : OpenExpression) : List Forest := e.finished ++ [e.current]

/-- The operation it becomes when its end is read. -/
def close (e : OpenExpression) (stop : Nat) : Node :=
  match e.parts with
  | [] => .operation [] [] ⟨e.start, stop⟩
  | name :: parameters => .operation name parameters ⟨e.start, stop⟩

/-- Parameters with the marks that set them apart, as nodes. -/
def spreadParts : Text → List Forest → Forest
  | _, [] => []
  | mark, part :: rest => .text mark :: part ++ spreadParts [','] rest

/-- The nodes it leaves behind when its end never comes. -/
def spread (e : OpenExpression) : Forest :=
  match e.parts with
  | [] => [.text opening]
  | name :: parameters => .text opening :: name ++ spreadParts [':'] parameters

end OpenExpression

namespace Reading

/-- A node put at the end of what is being read. -/
def push (r : Reading) (node : Node) : Reading :=
  match r.pending with
  | [] => { r with done := r.done.push node }
  | e :: outer => { r with pending := { e with current := e.current.push node } :: outer }

/-- The current part ended and a new one begun. -/
def nextPart (r : Reading) : Reading :=
  match r.pending with
  | [] => r
  | e :: outer => { r with pending := { e with finished := e.parts, current := [] } :: outer }

/-- One token read. -/
def step (r : Reading) (token : Token) : Reading :=
  match token.kind, r.pending with
  | .opening, outer => { r with pending := ⟨token.span.start, [], []⟩ :: outer }
  -- Outside all expressions a mark is text, spelled as it is.
  | .text, _ | _, [] => r.push (.text token.text)
  | .closing, e :: outer => push { r with pending := outer } (e.close token.span.stop)
  -- Nothing is finished while the name is read: there a colon ends it and a comma is part of it.
  | .colon, e :: _ => if e.finished.isEmpty then r.nextPart else r.push (.text [':'])
  | .comma, e :: _ => if e.finished.isEmpty then r.push (.text [',']) else r.nextPart

/-- The forest when no tokens are left: open expressions become text, outermost first. -/
def finish (r : Reading) : Forest :=
  r.pending.foldr (fun e forest => forest.extend e.spread) r.done

end Reading

/-- The forest of a list of tokens. -/
def ofTokens (tokens : List Token) : Forest := (tokens.foldl Reading.step {}).finish

end BuildExpr.Forest
