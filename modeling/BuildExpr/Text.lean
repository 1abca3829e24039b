/-!
# Text

A text is the list of its characters. Offsets into a text are byte offsets of its UTF-8 form, so
that a place in a text has the same name whether one counts along the characters or along the
bytes; `splitAtByte` finds the place an offset names, if it falls between two characters.

The case maps and character classes are those of ASCII: letters outside it have no case here and
belong to no class.
-/

namespace BuildExpr

/-- A text, as the list of its characters. -/
abbrev Text := List Char

/-- A string literal may stand where a text is expected. -/
instance : Coe String Text := ⟨String.toList⟩

namespace Text

/-! ## Byte offsets -/

/-- The number of bytes of the UTF-8 form. -/
def byteLength : Text → Nat
  | [] => 0
  | c :: rest => c.utf8Size + byteLength rest

/-- The empty text has no length. -/
@[simp] theorem byteLength_nil : byteLength [] = 0 := rfl

/-- A text is as long as its first character and the rest. -/
@[simp] theorem byteLength_cons (c : Char) (t : Text) :
    byteLength (c :: t) = c.utf8Size + byteLength t := rfl

/-- Byte lengths add up along a concatenation. -/
@[simp] theorem byteLength_append (a b : Text) :
    byteLength (a ++ b) = byteLength a + byteLength b := by
  induction a with
  | nil => simp
  | cons c a ih => simp [ih, Nat.add_assoc]

/-- The text before and after a byte offset, or nothing when the offset is past the end or inside
a character. -/
def splitAtByte : Nat → Text → Option (Text × Text)
  | 0, t => some ([], t)
  | _ + 1, [] => none
  | n + 1, c :: rest =>
    if c.utf8Size ≤ n + 1 then
      (splitAtByte (n + 1 - c.utf8Size) rest).map fun (before, after) => (c :: before, after)
    else none

/-- Splitting at the byte length of a first part gives the two parts back. -/
theorem splitAtByte_append (a b : Text) : splitAtByte (byteLength a) (a ++ b) = some (a, b) := by
  induction a with
  | nil => simp [splitAtByte]
  | cons c a ih =>
    have hc : 0 < c.utf8Size := Char.utf8Size_pos c
    -- Every character has a byte, so the offset of the second part is a successor.
    obtain ⟨n, hn⟩ : ∃ n, c.utf8Size + byteLength a = n + 1 :=
      ⟨c.utf8Size + byteLength a - 1, by omega⟩
    have hle : c.utf8Size ≤ n + 1 := by omega
    have hsub : n + 1 - c.utf8Size = byteLength a := by omega
    rw [byteLength_cons, hn, List.cons_append, splitAtByte, if_pos hle, hsub, ih]
    rfl

/-- A split loses nothing, and its first part ends at the offset asked for. -/
theorem append_of_splitAtByte {n : Nat} {t a b : Text} (h : splitAtByte n t = some (a, b)) :
    a ++ b = t ∧ byteLength a = n := by
  fun_induction splitAtByte n t generalizing a with
  | case1 t => simp at h; obtain ⟨rfl, rfl⟩ := h; simp
  | case2 => simp at h
  | case3 n c rest hc ih =>
    obtain ⟨⟨before, after⟩, hsplit, heq⟩ := Option.map_eq_some_iff.1 h
    simp only [Prod.mk.injEq] at heq
    obtain ⟨rfl, rfl⟩ := heq
    obtain ⟨rfl, hlen⟩ := ih hsplit
    refine ⟨rfl, ?_⟩
    rw [byteLength_cons, hlen]
    omega
  | case4 => simp at h

/-- The text between two byte offsets, empty when they are out of order or do not both fall
between characters of the text. -/
def slice (start stop : Nat) (t : Text) : Text :=
  if stop < start then [] else
    match splitAtByte start t with
    | none => []
    | some (_, rest) => ((splitAtByte (stop - start) rest).map Prod.fst).getD []

/-- The slice between the ends of a middle part is that part. -/
theorem slice_append (a b c : Text) :
    slice (byteLength a) (byteLength a + byteLength b) (a ++ b ++ c) = b := by
  have hge : ¬ byteLength a + byteLength b < byteLength a := by omega
  rw [slice, if_neg hge, List.append_assoc, splitAtByte_append, Nat.add_sub_cancel_left]
  simp [splitAtByte_append]

/-! ## Letters and digits -/

/-- The text with every ASCII letter in upper case. -/
def upper (t : Text) : Text := t.map Char.toUpper

/-- The text with every ASCII letter in lower case. -/
def lower (t : Text) : Text := t.map Char.toLower

/-- Whether two texts are equal up to the case of ASCII letters. -/
def eqIgnoringCase (a b : Text) : Bool := lower a == lower b

/-- Whether every character is an ASCII letter, an ASCII digit or an underscore. -/
def isWord (t : Text) : Bool := t.all fun c => c.isAlphanum || c == '_'

/-- A number in decimal. -/
def ofNat (n : Nat) : Text := Nat.toDigits 10 n

/-! ## Pieces -/

/-- The pieces with `glue` between every two of them. -/
def join (glue : Text) (pieces : List Text) : Text := glue.intercalate pieces

/-- The text before and after the first place where `mark` occurs. -/
def splitAround (mark : Text) : Text → Option (Text × Text)
  | [] => if mark.isEmpty then some ([], []) else none
  | c :: rest =>
    if mark.isPrefixOf (c :: rest) then some ([], (c :: rest).drop mark.length)
    else (splitAround mark rest).map fun (before, after) => (c :: before, after)

/-- The order of the code points at the first difference, a text coming after its own beginnings. -/
def le : Text → Text → Bool
  | [], _ => true
  | _ :: _, [] => false
  | a :: as, b :: bs => if a = b then le as bs else decide (a.toNat < b.toNat)

/-- The texts in increasing order. -/
def sort (texts : List Text) : List Text := texts.mergeSort le

end Text

end BuildExpr
