import BuildExpr.Text

/-!
# Expression delimiters

An expression opens with `$<` and closes with the `>` that balances it: every `$<` in between asks
for a `>` of its own first. A `$<` whose `>` never comes is *unterminated*. The functions here find
these delimiters in a plain text, without reading what the expressions say.

`splitAtOpening` and `splitAtClosing` cut a text at a delimiter and hand over both sides;
`firstOpeningFrom` and `closingFrom` name the same places by their byte offset.
-/

namespace BuildExpr

/-- What opens an expression. -/
def opening : Text := ['$', '<']

namespace Text

/-- Whether the text starts with an expression. -/
def startsWithOpening (t : Text) : Bool := opening.isPrefixOf t

/-- The text before the first `$<` and the text after it. -/
def splitAtOpening : Text → Option (Text × Text)
  | [] => none
  | '$' :: '<' :: rest => some ([], rest)
  | c :: rest => (splitAtOpening rest).map fun (before, after) => (c :: before, after)

/-- With `depth + 1` expressions open, the text before the `>` that closes the outermost of them
and the text after it. -/
def splitAtClosing : Nat → Text → Option (Text × Text)
  | _, [] => none
  | depth, '$' :: '<' :: rest =>
    (splitAtClosing (depth + 1) rest).map fun (before, after) => ('$' :: '<' :: before, after)
  | 0, '>' :: rest => some ([], rest)
  | depth + 1, '>' :: rest =>
    (splitAtClosing depth rest).map fun (before, after) => ('>' :: before, after)
  | depth, c :: rest =>
    (splitAtClosing depth rest).map fun (before, after) => (c :: before, after)

/-- Nothing is lost at an opening. -/
theorem append_of_splitAtOpening {t before after : Text}
    (h : splitAtOpening t = some (before, after)) : t = before ++ opening ++ after := by
  fun_induction splitAtOpening t generalizing before with
  | case1 => simp at h
  | case2 rest => simp at h; obtain ⟨rfl, rfl⟩ := h; rfl
  | case3 c rest _ ih =>
    obtain ⟨⟨b, a⟩, hsplit, heq⟩ := Option.map_eq_some_iff.1 h
    simp only [Prod.mk.injEq] at heq
    obtain ⟨rfl, rfl⟩ := heq
    simp [ih hsplit]

/-- Nothing is lost at a close. -/
theorem append_of_splitAtClosing {depth : Nat} {t before after : Text}
    (h : splitAtClosing depth t = some (before, after)) : t = before ++ '>' :: after := by
  fun_induction splitAtClosing depth t generalizing before with
  | case1 => simp at h
  | case3 rest => simp at h; obtain ⟨rfl, rfl⟩ := h; rfl
  | case2 _ _ ih | case4 _ _ ih | case5 _ _ _ _ _ _ ih =>
    obtain ⟨⟨b, a⟩, hsplit, heq⟩ := Option.map_eq_some_iff.1 h
    simp only [Prod.mk.injEq] at heq
    obtain ⟨rfl, rfl⟩ := heq
    simp [ih hsplit]

/-- What follows an opening is shorter than the text. -/
theorem length_lt_of_splitAtOpening {t before after : Text}
    (h : splitAtOpening t = some (before, after)) : after.length < t.length := by
  rw [append_of_splitAtOpening h]
  simp [opening]
  omega

/-- What follows a close is shorter than the text. -/
theorem length_lt_of_splitAtClosing {depth : Nat} {t before after : Text}
    (h : splitAtClosing depth t = some (before, after)) : after.length < t.length := by
  rw [append_of_splitAtClosing h]
  simp
  omega

/-! ## Offsets -/

/-- The byte offsets of the occurrences of `$<`, with `offset` that of the start of the text. -/
def openingsAt : Nat → Text → List Nat
  | _, [] => []
  | offset, '$' :: '<' :: rest => offset :: openingsAt (offset + 2) rest
  | offset, c :: rest => openingsAt (offset + c.utf8Size) rest

/-- The byte offsets of the occurrences of `$<`. -/
def openings (t : Text) : List Nat := openingsAt 0 t

/-- The offset of the first `$<` at or after `start`. -/
def firstOpeningFrom (t : Text) (start : Nat) : Option Nat := (openings t).find? (start ≤ ·)

/-- The offset of the first `$<`, if a `>` stands anywhere after it: the text may then hold a whole
expression. -/
def firstExpression (t : Text) : Option Nat :=
  match splitAtOpening t with
  | some (before, after) => if after.contains '>' then some (byteLength before) else none
  | none => none

/-- The offset of the first character at or after `start`, with the text from there on. -/
def dropToByte (start : Nat) : Nat → Text → Nat × Text
  | offset, [] => (offset, [])
  | offset, c :: rest =>
    if start ≤ offset then (offset, c :: rest) else dropToByte start (offset + c.utf8Size) rest

/-- The offset of the `>` that closes an expression whose `$<` ends at `start`. -/
def closingFrom (t : Text) (start : Nat) : Option Nat :=
  let (offset, rest) := dropToByte start 0 t
  (splitAtClosing 0 rest).map fun (before, _) => offset + byteLength before

end Text

end BuildExpr
