import BuildExpr.Text

/-!
# Spans

A span is a range of byte offsets in a text, from its start up to but not including its stop.
Every pair of offsets is a span; one whose start is past its stop covers nothing.
-/

namespace BuildExpr

/-- A range of byte offsets. -/
structure Span where
  /-- The first offset inside. -/
  start : Nat
  /-- The first offset past the end. -/
  stop : Nat
deriving DecidableEq, Repr

namespace Span

/-- The number of bytes covered. -/
def length (s : Span) : Nat := s.stop - s.start

/-- Whether nothing is covered. -/
def isEmpty (s : Span) : Bool := s.stop ≤ s.start

/-- Whether an offset lies inside. -/
def contains (s : Span) (offset : Nat) : Bool := s.start ≤ offset && offset < s.stop

/-- The span from the earlier start to the later stop. -/
def merge (s t : Span) : Span := ⟨min s.start t.start, max s.stop t.stop⟩

/-- What a range of offsets that runs backwards is refused with. -/
structure Inverted where
  /-- The start asked for. -/
  start : Nat
  /-- The stop asked for, which lies before the start. -/
  stop : Nat

/-- The wording of the refusal. -/
def Inverted.message (e : Inverted) : Text :=
  List.flatten ["span start ", Text.ofNat e.start, " is past span end ", Text.ofNat e.stop]

/-- The span of a range that does not run backwards. -/
def ofRange (start stop : Nat) : Except Inverted Span :=
  if stop < start then .error ⟨start, stop⟩ else .ok ⟨start, stop⟩

/-- The written form: the two offsets with two dots between them. -/
def toText (s : Span) : Text := List.flatten [Text.ofNat s.start, "..", Text.ofNat s.stop]

end Span

/-- The text a span covers, empty when the span does not fit the text. -/
def Text.cut (t : Text) (s : Span) : Text := Text.slice s.start s.stop t

end BuildExpr
