import Mathlib.Data.List.Infix
import BuildExpr.Text

/-!
# Texts as bytes

The UTF-8 form of a text gives each character one byte or several. A character below 128 is its own byte, and
the bytes of all others are 128 or more, so a byte below 128 tells what character it belongs to and that the
character starts and ends there (`Ahead.getElem?_iff`). That is why a search for such bytes ends between two
characters wherever it has begun (`Ahead.prefix_iff`).
-/

namespace BuildExpr

namespace Text

/-- A text with a character in it has a byte. -/
theorem byteLength_pos {t : Text} (h : t ≠ []) : 0 < byteLength t := by
  cases t with
  | nil => exact absurd rfl h
  | cons c rest => exact Nat.add_pos_left (Char.utf8Size_pos c) _

/-- An offset at which a text can be cut in two. -/
def IsBoundary (t : Text) (offset : Nat) : Prop :=
  ∃ before after, t = before ++ after ∧ byteLength before = offset

/-- A text can be split at a byte exactly if a character starts or the text ends there. -/
theorem isSome_splitAtByte_iff {t : Text} {offset : Nat} :
    (splitAtByte offset t).isSome = true ↔ t.IsBoundary offset := by
  rw [Option.isSome_iff_exists]
  constructor
  · rintro ⟨⟨before, after⟩, h⟩
    obtain ⟨ht, hlength⟩ := append_of_splitAtByte h
    exact ⟨before, after, ht.symm, hlength⟩
  · rintro ⟨before, after, rfl, rfl⟩
    exact ⟨_, splitAtByte_append before after⟩

instance (t : Text) (offset : Nat) : Decidable (t.IsBoundary offset) :=
  decidable_of_iff _ isSome_splitAtByte_iff

/-- The bytes of the UTF-8 form. -/
def bytes (t : Text) : List UInt8 := t.flatMap String.utf8EncodeChar

/-- The empty text has no bytes. -/
@[simp] theorem bytes_nil : bytes [] = [] := rfl

/-- The bytes of a text are those of its first character and those of the rest. -/
@[simp] theorem bytes_cons (c : Char) (t : Text) : bytes (c :: t) = String.utf8EncodeChar c ++ bytes t :=
  List.flatMap_cons

/-- The bytes of two texts in a row are those of the one and then of the other. -/
@[simp] theorem bytes_append (a b : Text) : bytes (a ++ b) = bytes a ++ bytes b := List.flatMap_append

/-- A text has as many bytes as it is long in bytes. -/
@[simp] theorem length_bytes (t : Text) : (bytes t).length = byteLength t := by
  induction t with
  | nil => rfl
  | cons c t ih => rw [bytes_cons, List.length_append, ih, String.length_utf8EncodeChar, byteLength_cons]

/-- Behind the bytes of the first of two texts are those of the second. -/
theorem drop_bytes_append (a b : Text) : (bytes (a ++ b)).drop (byteLength a) = bytes b := by
  rw [bytes_append, ← length_bytes, List.drop_left]

/-! ## Characters and their bytes -/

/-- A character below 128 is its own byte. -/
theorem utf8EncodeChar_of_lt {c : Char} (h : c.toNat < 128) : String.utf8EncodeChar c = [c.toUInt8] := by
  have hle : c.val.toNat ≤ 127 := Nat.le_of_lt_succ h
  unfold String.utf8EncodeChar
  rw [if_pos hle]
  rfl

/-- All bytes of any other character are 128 or more. -/
theorem le_of_mem_utf8EncodeChar {c : Char} (h : 128 ≤ c.toNat) {b : UInt8}
    (hb : b ∈ String.utf8EncodeChar c) : 128 ≤ b.toNat := by
  have hle : ¬ c.val.toNat ≤ 127 := Nat.not_le.2 h
  unfold String.utf8EncodeChar at hb
  rw [if_neg hle] at hb
  split at hb
  · simp only [List.mem_cons, List.not_mem_nil, or_false] at hb
    rcases hb with rfl | rfl <;> rw [UInt8.toNat_ofNat'] <;> omega
  · split at hb
    · simp only [List.mem_cons, List.not_mem_nil, or_false] at hb
      rcases hb with rfl | rfl | rfl <;> rw [UInt8.toNat_ofNat'] <;> omega
    · simp only [List.mem_cons, List.not_mem_nil, or_false] at hb
      rcases hb with rfl | rfl | rfl | rfl <;> rw [UInt8.toNat_ofNat'] <;> omega

/-- An ASCII character is its own byte. -/
theorem toNat_toUInt8 {c : Char} (h : c.toNat < 128) : c.toUInt8.toNat = c.toNat := by
  change c.toNat % 256 = c.toNat
  omega

/-- Different ASCII characters are different bytes. -/
theorem toUInt8_inj {c d : Char} (hc : c.toNat < 128) (hd : d.toNat < 128) :
    c.toUInt8 = d.toUInt8 ↔ c = d := by
  rw [← UInt8.toNat_inj, toNat_toUInt8 hc, toNat_toUInt8 hd, Char.toNat_inj]

/-- The first byte of a character says whether it is a given one below 128. -/
theorem head?_utf8EncodeChar {c d : Char} (hd : d.toNat < 128) :
    (String.utf8EncodeChar c).head? = some d.toUInt8 ↔ c = d := by
  by_cases hc : c.toNat < 128
  · rw [utf8EncodeChar_of_lt hc, List.head?_cons, Option.some.injEq, toUInt8_inj hc hd]
  · have hne : c ≠ d := fun h => hc (h ▸ hd)
    refine iff_of_false (fun h => ?_) hne
    have hhigh := le_of_mem_utf8EncodeChar (Nat.not_lt.1 hc) (List.mem_of_head? h)
    rw [toNat_toUInt8 hd] at hhigh
    omega

/-- All bytes but the first one of a character are 128 or more. -/
theorem le_of_mem_tail_utf8EncodeChar {c : Char} {b : UInt8}
    (hb : b ∈ (String.utf8EncodeChar c).tail) : 128 ≤ b.toNat := by
  by_cases hc : c.toNat < 128
  · rw [utf8EncodeChar_of_lt hc] at hb
    cases hb
  · exact le_of_mem_utf8EncodeChar (Nat.not_lt.1 hc) (List.mem_of_mem_tail hb)

/-! ## From an offset on -/

/-- The characters that start at an offset or after it are `rest`, and `before` is in front of them. -/
structure Ahead (t : Text) (offset : Nat) (before rest : Text) : Prop where
  /-- Together they are the text. -/
  text : t = before ++ rest
  /-- The offset is not behind the place where they meet. -/
  le : offset ≤ byteLength before
  /-- If it is in front of it, it is inside a character. -/
  inside : ∀ b ∈ before.bytes.drop offset, 128 ≤ b.toNat

/-- Behind the first of two texts a cursor has the second one ahead. -/
theorem ahead_append (a b : Text) : Ahead (a ++ b) (byteLength a) a b where
  text := rfl
  le := Nat.le_refl _
  inside := by
    rw [← length_bytes, List.drop_length]
    nofun

namespace Ahead

variable {t before rest : Text} {offset : Nat}

/-- Inside a character the next byte belongs to the same one. -/
theorem next_inside (h : Ahead t offset before rest) (hlt : offset < byteLength before) :
    Ahead t (offset + 1) before rest where
  text := h.text
  le := hlt
  inside b hb := h.inside b (by
    rw [← List.drop_drop] at hb
    exact List.mem_of_mem_drop hb)

/-- After the first byte of a character there are the others. -/
theorem next {c : Char} (h : Ahead t offset before (c :: rest)) (hstart : offset = byteLength before) :
    Ahead t (offset + 1) (before ++ [c]) rest where
  text := by rw [h.text, List.append_assoc]; rfl
  le := by
    have hsize : 0 < c.utf8Size := Char.utf8Size_pos c
    rw [byteLength_append, byteLength_cons]
    omega
  inside b hb := by
    rw [hstart, ← List.drop_drop, drop_bytes_append, bytes_cons, bytes_nil, List.append_nil, List.drop_one] at hb
    exact le_of_mem_tail_utf8EncodeChar hb

/-- A byte below 128 is that of a character which starts there. -/
theorem getElem?_iff (h : Ahead t offset before rest) {c : Char} (hc : c.toNat < 128) :
    t.bytes[offset]? = some c.toUInt8 ↔ offset = byteLength before ∧ rest.head? = some c := by
  rw [h.text, bytes_append]
  rcases Nat.lt_or_eq_of_le h.le with hlt | rfl
  · refine iff_of_false (fun hbyte => ?_) fun hstart => absurd hstart.1 (Nat.ne_of_lt hlt)
    rw [List.getElem?_append_left (by rwa [length_bytes])] at hbyte
    have hmem : c.toUInt8 ∈ before.bytes.drop offset := by
      refine List.mem_of_getElem? (i := 0) ?_
      rw [List.getElem?_drop, Nat.add_zero, hbyte]
    have hhigh := h.inside _ hmem
    rw [toNat_toUInt8 hc] at hhigh
    omega
  · rw [List.getElem?_append_right (Nat.le_of_eq (length_bytes before)), length_bytes, Nat.sub_self]
    cases rest with
    | nil => simp
    | cons d rest =>
      rw [bytes_cons, ← List.head?_eq_getElem?, List.head?_append_of_ne_nil _ String.utf8EncodeChar_ne_nil,
        head?_utf8EncodeChar hc]
      simp

/-- There is a byte at an offset before the end, which says what character starts there if it is below 128. -/
theorem exists_byte (h : Ahead t offset before rest) (hlt : offset < byteLength t) :
    ∃ b, t.bytes[offset]? = some b ∧ ∀ c : Char, c.toNat < 128 →
      (b = c.toUInt8 ↔ offset = byteLength before ∧ rest.head? = some c) := by
  rw [← length_bytes] at hlt
  refine ⟨t.bytes[offset], List.getElem?_eq_getElem hlt, fun c hc => ?_⟩
  rw [← h.getElem?_iff hc, List.getElem?_eq_getElem hlt, Option.some.injEq]

/-- A text is as long as what a cursor has passed and what it has ahead. -/
theorem byteLength_eq (h : Ahead t offset before rest) :
    byteLength t = byteLength before + byteLength rest := by
  rw [h.text, byteLength_append]

/-- A cursor stays within its text. -/
theorem le_byteLength (h : Ahead t offset before rest) : offset ≤ byteLength t := by
  rw [h.byteLength_eq]
  exact Nat.le_add_right_of_le h.le

/-- Where no character is ahead, there is no byte either. -/
theorem getElem?_eq_none (h : Ahead t offset before []) (hstart : offset = byteLength before) :
    t.bytes[offset]? = none := by
  rw [List.getElem?_eq_none_iff, length_bytes, h.byteLength_eq, hstart]
  exact Nat.le_refl _

/-- Where a character starts, the text goes on. -/
theorem lt_of_cons {c : Char} (h : Ahead t offset before (c :: rest)) : offset < byteLength t := by
  have hpos := byteLength_pos (List.cons_ne_nil c rest)
  have hle := h.le
  rw [h.byteLength_eq]
  omega

end Ahead

/-- Some character is the first from an offset on, unless the text ends before. -/
theorem exists_ahead {t : Text} {offset : Nat} (h : offset ≤ byteLength t) :
    ∃ before rest, Ahead t offset before rest := by
  induction offset with
  | zero => exact ⟨[], t, ahead_append [] t⟩
  | succ offset ih =>
    obtain ⟨before, rest, hahead⟩ := ih (Nat.le_of_succ_le h)
    rcases Nat.lt_or_eq_of_le hahead.le with hlt | rfl
    · exact ⟨before, rest, hahead.next_inside hlt⟩
    · cases rest with
      | nil =>
        rw [hahead.text, List.append_nil] at h
        omega
      | cons c rest => exact ⟨before ++ [c], rest, hahead.next rfl⟩

/-! ## Searching -/

/-- Each character is below 128. -/
def isAscii (t : Text) : Bool := t.all fun c => c.toNat < 128

/-- A text is ASCII exactly if its first character and the rest are. -/
theorem isAscii_cons {c : Char} {t : Text} :
    isAscii (c :: t) = true ↔ c.toNat < 128 ∧ isAscii t = true := by
  rw [isAscii, List.all_cons, Bool.and_eq_true, decide_eq_true_iff]
  rfl

/-- Bytes below 128 are at the start of the UTF-8 form if their characters are at the start of the text. -/
theorem bytes_prefix_bytes_iff {mark t : Text} (hmark : mark.isAscii = true) :
    mark.bytes <+: t.bytes ↔ mark <+: t := by
  induction mark generalizing t with
  | nil => simp
  | cons c mark ih =>
    obtain ⟨hc, hrest⟩ := isAscii_cons.1 hmark
    rw [bytes_cons, utf8EncodeChar_of_lt hc]
    cases t with
    | nil => simp
    | cons d t =>
      by_cases hd : d = c
      · subst hd
        rw [bytes_cons, utf8EncodeChar_of_lt hc, List.singleton_append, List.singleton_append,
          List.cons_prefix_cons, List.cons_prefix_cons, ih hrest]
        simp
      · -- Another character starts with another byte, however many bytes it takes.
        refine iff_of_false (fun h => hd ?_) fun h => hd (List.cons_prefix_cons.1 h).1.symm
        obtain ⟨more, hmore⟩ := h
        have hhead : (bytes (d :: t)).head? = some c.toUInt8 := by
          rw [← hmore]
          rfl
        rw [bytes_cons, List.head?_append_of_ne_nil _ String.utf8EncodeChar_ne_nil] at hhead
        exact (head?_utf8EncodeChar hc).1 hhead

/-- Bytes below 128 stand at an offset if it is the start of their characters. -/
theorem Ahead.prefix_iff {t before rest mark : Text} {offset : Nat} (h : Ahead t offset before rest)
    (hmark : mark.isAscii = true) (hne : mark ≠ []) :
    mark.bytes <+: t.bytes.drop offset ↔ offset = byteLength before ∧ mark <+: rest := by
  rcases Nat.lt_or_eq_of_le h.le with hlt | rfl
  · refine iff_of_false (fun hprefix => ?_) fun hstart => absurd hstart.1 (Nat.ne_of_lt hlt)
    obtain ⟨c, mark, rfl⟩ := List.exists_cons_of_ne_nil hne
    have hc : c.toNat < 128 := (isAscii_cons.1 hmark).1
    obtain ⟨more, hmore⟩ := hprefix
    have hbyte : t.bytes[offset]? = some c.toUInt8 := by
      rw [← Nat.add_zero offset, ← List.getElem?_drop, ← hmore, bytes_cons, utf8EncodeChar_of_lt hc]
      rfl
    exact absurd ((h.getElem?_iff hc).1 hbyte).1 (Nat.ne_of_lt hlt)
  · rw [h.text, drop_bytes_append, bytes_prefix_bytes_iff hmark]
    simp

/-- The offset at which some bytes first stand among others. -/
def firstOffset (mark bytes : List UInt8) : Option Nat :=
  (List.range (bytes.length + 1)).find? fun offset => mark.isPrefixOf (bytes.drop offset)

/-- Nothing is lost where a text is split. -/
theorem append_of_splitAround {mark t before after : Text}
    (h : splitAround mark t = some (before, after)) : t = before ++ mark ++ after := by
  induction t generalizing before with
  | nil =>
    unfold splitAround at h
    split at h
    · next hmark =>
      cases h
      rw [List.isEmpty_iff.1 hmark]
      rfl
    · cases h
  | cons c t ih =>
    unfold splitAround at h
    split at h
    · next hmark =>
      cases h
      exact (List.prefix_append_drop (List.isPrefixOf_iff_prefix.1 hmark))
    · obtain ⟨⟨front, behind⟩, hsplit, heq⟩ := Option.map_eq_some_iff.1 h
      cases heq
      rw [ih hsplit]
      rfl

/-- A text is split around the first place where the mark stands. -/
theorem splitAround_first (before : Text) {mark rest : Text} (h : mark <+: rest) :
    ∃ front behind, splitAround mark (before ++ rest) = some (front, behind) ∧
      byteLength front ≤ byteLength before := by
  induction before with
  | nil =>
    cases rest with
    | nil =>
      rw [List.prefix_nil.1 h]
      exact ⟨[], [], rfl, Nat.le_refl 0⟩
    | cons c rest =>
      refine ⟨[], (c :: rest).drop mark.length, ?_, Nat.le_refl 0⟩
      rw [List.nil_append, splitAround, if_pos (List.isPrefixOf_iff_prefix.2 h)]
  | cons c before ih =>
    rw [List.cons_append, splitAround]
    split
    · exact ⟨[], _, rfl, Nat.zero_le _⟩
    · obtain ⟨front, behind, hsplit, hle⟩ := ih
      rw [hsplit]
      exact ⟨c :: front, behind, rfl, Nat.add_le_add_left hle _⟩

/-- A search for bytes below 128 finds the place at which the text is split around their characters. -/
theorem firstOffset_bytes {mark : Text} (hmark : mark.isAscii = true) (hne : mark ≠ []) (t : Text) :
    firstOffset mark.bytes t.bytes =
      (splitAround mark t).map fun parts => byteLength parts.1 := by
  -- Wherever the bytes stand, the text is split there or before.
  have hfound {offset : Nat} (hoffset : offset ≤ byteLength t)
      (h : mark.bytes <+: t.bytes.drop offset) :
      ∃ front behind, splitAround mark t = some (front, behind) ∧ byteLength front ≤ offset := by
    obtain ⟨before, rest, hahead⟩ := exists_ahead hoffset
    obtain ⟨rfl, hprefix⟩ := (hahead.prefix_iff hmark hne).1 h
    rw [hahead.text]
    exact splitAround_first before hprefix
  unfold firstOffset
  cases hsplit : splitAround mark t with
  | none =>
    refine List.find?_eq_none.2 fun offset hoffset hprefix => ?_
    rw [List.mem_range, length_bytes] at hoffset
    obtain ⟨front, behind, hsome, -⟩ :=
      hfound (Nat.le_of_lt_succ hoffset) (List.isPrefixOf_iff_prefix.1 hprefix)
    rw [hsplit] at hsome
    cases hsome
  | some parts =>
    obtain ⟨before, after⟩ := parts
    have htext : t = before ++ (mark ++ after) :=
      (append_of_splitAround hsplit).trans (List.append_assoc ..)
    have hlength : byteLength t = byteLength before + byteLength (mark ++ after) := by
      rw [htext, byteLength_append]
    rw [Option.map_some, List.find?_range_eq_some]
    refine ⟨?_, ?_, fun offset hoffset => ?_⟩
    · dsimp only
      rw [htext, drop_bytes_append, bytes_append, List.isPrefixOf_iff_prefix]
      exact List.prefix_append _ _
    · rw [List.mem_range, length_bytes, hlength]
      exact Nat.lt_succ_of_le (Nat.le_add_right _ _)
    · rw [Bool.not_eq_true', Bool.eq_false_iff]
      intro hprefix
      have hle : offset ≤ byteLength t := by
        rw [hlength]
        exact Nat.le_trans (Nat.le_of_lt hoffset) (Nat.le_add_right _ _)
      obtain ⟨front, behind, hsome, hbefore⟩ := hfound hle (List.isPrefixOf_iff_prefix.1 hprefix)
      rw [hsplit] at hsome
      cases hsome
      exact Nat.not_lt.2 hbefore hoffset

/-- The offset of the last of the bytes before an offset that is a given one, searching backwards. -/
def lastOffset (mark : UInt8) (bytes : List UInt8) : Nat → Option Nat
  | 0 => none
  | offset + 1 => if bytes[offset]? = some mark then some offset else lastOffset mark bytes offset

/-- A search backwards passes over other bytes. -/
theorem lastOffset_skip {mark : UInt8} {bytes : List UInt8} {start stop : Nat} (hle : start ≤ stop)
    (h : ∀ offset, start ≤ offset → offset < stop → bytes[offset]? ≠ some mark) :
    lastOffset mark bytes stop = lastOffset mark bytes start := by
  induction stop with
  | zero => rw [Nat.le_zero.1 hle]
  | succ stop ih =>
    rcases Nat.lt_or_eq_of_le hle with hlt | rfl
    · have hstart : start ≤ stop := Nat.le_of_lt_succ hlt
      rw [lastOffset, if_neg (h stop hstart (Nat.lt_succ_self stop))]
      exact ih hstart fun offset hoffset hbefore => h offset hoffset (Nat.lt_succ_of_lt hbefore)
    · rfl

/-- The byte of a character below 128 is not in a text that does not have the character. -/
theorem getElem?_bytes_ne {c : Char} (hc : c.toNat < 128) {t : Text} (h : c ∉ t) (offset : Nat) :
    t.bytes[offset]? ≠ some c.toUInt8 := by
  intro hbyte
  have hlt : offset < byteLength t := by
    rw [← length_bytes]
    exact (List.getElem?_eq_some_iff.1 hbyte).1
  obtain ⟨before, rest, hahead⟩ := exists_ahead (Nat.le_of_lt hlt)
  obtain ⟨-, hhead⟩ := (hahead.getElem?_iff hc).1 hbyte
  rw [hahead.text, List.mem_append] at h
  exact h (.inr (List.mem_of_head? hhead))

/-- An ASCII character that is not in a text is not found among its bytes. -/
theorem lastOffset_bytes_eq_none {c : Char} (hc : c.toNat < 128) {t : Text} (h : c ∉ t) :
    lastOffset c.toUInt8 t.bytes (byteLength t) = none :=
  lastOffset_skip (Nat.zero_le _) fun offset _ _ => getElem?_bytes_ne hc h offset

/-- A search backwards finds the character behind which there is no other one of its kind. -/
theorem lastOffset_bytes_append {c : Char} (hc : c.toNat < 128) (before : Text) {after : Text}
    (h : c ∉ after) :
    lastOffset c.toUInt8 (bytes (before ++ c :: after)) (byteLength (before ++ c :: after)) =
      some (byteLength before) := by
  have hsize : (String.utf8EncodeChar c).length = 1 := by
    rw [utf8EncodeChar_of_lt hc, List.length_singleton]
  rw [String.length_utf8EncodeChar] at hsize
  have hlength : byteLength (before ++ c :: after) = byteLength before + 1 + byteLength after := by
    rw [byteLength_append, byteLength_cons, hsize, Nat.add_assoc]
  rw [hlength, lastOffset_skip (Nat.le_add_right (byteLength before + 1) (byteLength after)), lastOffset,
    if_pos (((ahead_append before (c :: after)).getElem?_iff hc).2 ⟨rfl, rfl⟩)]
  -- None of the bytes behind the character is that of the character.
  intro offset hoffset _ hbyte
  have hafter : (bytes (before ++ c :: after))[offset]? = after.bytes[offset - (byteLength before + 1)]? := by
    have hsplit : bytes (before ++ c :: after) = bytes (before ++ [c]) ++ bytes after := by
      rw [← bytes_append, List.append_assoc]
      rfl
    have hfront : (bytes (before ++ [c])).length = byteLength before + 1 := by
      rw [length_bytes, byteLength_append, byteLength_cons, hsize]
      rfl
    rw [hsplit, List.getElem?_append_right (by omega), hfront]
  rw [hafter] at hbyte
  exact getElem?_bytes_ne hc h _ hbyte

end Text

end BuildExpr
