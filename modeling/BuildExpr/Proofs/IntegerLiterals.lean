import Mathlib.Data.Nat.Digits.Defs
import BuildExpr.Operation.Condition

/-!
# What integer literals denote

A literal is an optional sign and digits of some base, and it denotes an integer of any size (`IsLiteral`).
Its digits are read from the left with the number so far, which makes the number that they denote in their
base (`ofDigitsFrom_eq_some_iff`). The number is compared with `2 ^ 63` before the sign is looked at, so
`-2 ^ 63` is no value of a literal although it is an integer of 64 bits; every other one is
(`ofText?_eq_some_iff`).
-/

namespace BuildExpr.Integer

/-! ## Digits -/

/-- The characters for digits, in the order of their values. -/
def digitCharacters : Text := "0123456789abcdef"

/-- A character is the digit of a value; a letter is one in either case. -/
def IsDigit (value : Nat) (c : Char) : Prop := digitCharacters[value]? = some c.toLower

instance (value : Nat) (c : Char) : Decidable (IsDigit value c) :=
  inferInstanceAs (Decidable (digitCharacters[value]? = some c.toLower))

/-- The characters that numbers are made of are those of ASCII. -/
theorem toNat_lt_of_isAlphanum {c : Char} (h : c.isAlphanum = true) : c.toNat < 128 := by
  have hle (last : Char) (hlast : last.toNat < 128) (h : c.val ≤ last.val) : c.toNat < 128 :=
    Nat.lt_of_le_of_lt h hlast
  rcases Bool.or_eq_true_iff.1 h with hletter | hdigit
  · rcases Bool.or_eq_true_iff.1 hletter with hupper | hlower
    · exact hle 'Z' (by decide) (of_decide_eq_true hupper).2
    · exact hle 'z' (by decide) (of_decide_eq_true (Bool.and_eq_true_iff.1 hlower).2)
  · exact hle '9' (by decide) (of_decide_eq_true (Bool.and_eq_true_iff.1 hdigit).2)

/-- Digits are ASCII characters. -/
theorem IsDigit.toNat_lt {value : Nat} {c : Char} (h : IsDigit value c) : c.toNat < 128 := by
  by_contra hc
  -- A character that is no capital letter is its own lower case.
  have hlower : c.toLower = c := by
    refine dif_neg ?_
    rintro ⟨-, hle⟩
    exact hc (Nat.lt_of_le_of_lt hle (by decide))
  have hmem : c ∈ digitCharacters := by
    rw [IsDigit, hlower] at h
    exact List.mem_of_getElem? h
  have hdigits : digitCharacters.all fun d => d.toNat < 128 := by decide
  exact hc (by simpa using List.all_eq_true.1 hdigits c hmem)

/-- The value of a digit is below sixteen. -/
theorem IsDigit.lt {value : Nat} {c : Char} (h : IsDigit value c) : value < 16 :=
  (List.getElem?_eq_some_iff.1 h).1

/-- A digit is a letter or a digit as characters go, and its value is the one that it is read with. -/
theorem isDigit_iff {value : Nat} {c : Char} :
    IsDigit value c ↔ c.isAlphanum = true ∧ digitValue c = value ∧ value < 16 := by
  -- Neither side holds of a character outside of ASCII, and there it is checked for every one.
  have hascii : ∀ n < 128, ∀ value < 16, IsDigit value (Char.ofNat n) ↔
      (Char.ofNat n).isAlphanum = true ∧ digitValue (Char.ofNat n) = value := by
    decide +kernel
  constructor
  · intro h
    have hc := hascii c.toNat h.toNat_lt value h.lt
    rw [Char.ofNat_toNat] at hc
    exact ⟨(hc.1 h).1, (hc.1 h).2, h.lt⟩
  · rintro ⟨halphanum, hvalue, hlt⟩
    have hc := hascii c.toNat (toNat_lt_of_isAlphanum halphanum) value hlt
    rw [Char.ofNat_toNat] at hc
    exact hc.2 ⟨halphanum, hvalue⟩

/-! ## Numerals -/

/-- Some digits of a base and their values. -/
structure Digits (base : Nat) (values : List Nat) (digits : Text) : Prop where
  /-- Each value is that of a digit. -/
  isDigit : List.Forall₂ IsDigit values digits
  /-- It is below the base. -/
  lt : ∀ value ∈ values, value < base

/-- No digits have no values. -/
theorem digits_nil_iff {base : Nat} {values : List Nat} : Digits base values [] ↔ values = [] := by
  constructor
  · rintro ⟨⟨⟩, -⟩
    rfl
  · rintro rfl
    exact ⟨.nil, List.forall_mem_nil _⟩

/-- A digit in front is read with its value. -/
theorem digits_cons_iff {base : Nat} (hbase : base ≤ 16) {values : List Nat} {c : Char} {rest : Text} :
    Digits base values (c :: rest) ↔
      (c.isAlphanum && digitValue c < base) = true ∧
        ∃ others, values = digitValue c :: others ∧ Digits base others rest := by
  rw [Bool.and_eq_true, decide_eq_true_eq]
  constructor
  · rintro ⟨hisDigit, hlt⟩
    cases hisDigit with
    | cons hdigit hothers =>
      obtain ⟨halphanum, rfl, -⟩ := isDigit_iff.1 hdigit
      obtain ⟨hfirst, hrest⟩ := List.forall_mem_cons.1 hlt
      exact ⟨⟨halphanum, hfirst⟩, _, rfl, hothers, hrest⟩
  · rintro ⟨⟨halphanum, hfirst⟩, others, rfl, hothers, hrest⟩
    have hdigit : IsDigit (digitValue c) c := isDigit_iff.2 ⟨halphanum, rfl, by omega⟩
    exact ⟨.cons hdigit hothers, List.forall_mem_cons.2 ⟨hfirst, hrest⟩⟩

/-- Digits are read from the left, each one making the number so far one place longer. -/
theorem ofDigitsFrom_eq_some_iff {base : Nat} (hbase : base ≤ 16) (value : Nat) (digits : Text) (n : Nat) :
    ofDigitsFrom base value digits = some n ↔
      ∃ values, Digits base values digits ∧
        n = value * base ^ values.length + Nat.ofDigits base values.reverse := by
  induction digits generalizing value with
  | nil => simp [ofDigitsFrom, digits_nil_iff, eq_comm]
  | cons c rest ih =>
    -- A digit in front counts as many times as there are numbers with the digits behind it.
    have hplace (others : List Nat) :
        value * base ^ (digitValue c :: others).length + Nat.ofDigits base (digitValue c :: others).reverse =
          (value * base + digitValue c) * base ^ others.length + Nat.ofDigits base others.reverse := by
      rw [List.reverse_cons, Nat.ofDigits_append, Nat.ofDigits_singleton, List.length_reverse,
        List.length_cons]
      ring
    rw [ofDigitsFrom]
    constructor
    · intro h
      split at h
      · rename_i hc
        obtain ⟨others, hothers, rfl⟩ := (ih _).1 h
        refine ⟨digitValue c :: others, ?_, (hplace others).symm⟩
        exact (digits_cons_iff hbase).2 ⟨hc, others, rfl, hothers⟩
      · cases h
    · rintro ⟨values, hvalues, rfl⟩
      obtain ⟨hc, others, rfl, hothers⟩ := (digits_cons_iff hbase).1 hvalues
      rw [if_pos hc]
      exact (ih _).2 ⟨others, hothers, hplace others⟩

/-- One or more digits of a base, the most significant first, and the number they denote. -/
def IsNumeral (base : Nat) (digits : Text) (n : Nat) : Prop :=
  digits ≠ [] ∧ ∃ values, Digits base values digits ∧ n = Nat.ofDigits base values.reverse

/-- The digits of a numeral are read as the number that it denotes, and nothing else is read. -/
theorem ofDigits_eq_some_iff {base : Nat} (hbase : base ≤ 16) (digits : Text) (n : Nat) :
    ofDigits base digits = some n ↔ IsNumeral base digits n := by
  cases digits with
  | nil => simp [ofDigits, IsNumeral]
  | cons c rest =>
    rw [ofDigits, if_neg (by simp), ofDigitsFrom_eq_some_iff hbase, IsNumeral]
    simp

/-- All characters of a numeral are digits of its base. -/
theorem IsNumeral.digitValue_lt {base : Nat} (hbase : base ≤ 16) {digits : Text} {n : Nat}
    (h : IsNumeral base digits n) {c : Char} (hmem : c ∈ digits) :
    c.isAlphanum = true ∧ digitValue c < base := by
  obtain ⟨-, values, hvalues, -⟩ := h
  induction digits generalizing values with
  | nil => cases hmem
  | cons first rest ih =>
    obtain ⟨hfirst, others, -, hothers⟩ := (digits_cons_iff hbase).1 hvalues
    rw [Bool.and_eq_true, decide_eq_true_eq] at hfirst
    rcases List.mem_cons.1 hmem with rfl | hrest
    · exact hfirst
    · exact ih hrest others hothers

/-! ## Literals -/

/-- The literals without a sign and the numbers they denote. -/
inductive IsUnsigned : Text → Nat → Prop where
  /-- Decimal digits. -/
  | decimal {digits : Text} {n : Nat} (h : IsNumeral 10 digits n) : IsUnsigned digits n
  /-- Hexadecimal digits after `0x`. -/
  | hexadecimal {mark : Char} {digits : Text} {n : Nat} (hmark : mark = 'x' ∨ mark = 'X')
      (h : IsNumeral 16 digits n) : IsUnsigned ('0' :: mark :: digits) n
  /-- Binary digits after `0b`. -/
  | binary {mark : Char} {digits : Text} {n : Nat} (hmark : mark = 'b' ∨ mark = 'B')
      (h : IsNumeral 2 digits n) : IsUnsigned ('0' :: mark :: digits) n

/-- The literals and the integers they denote. -/
inductive IsLiteral : Text → Int → Prop where
  /-- No sign. -/
  | unsigned {t : Text} {n : Nat} (h : IsUnsigned t n) : IsLiteral t n
  /-- A plus sign. -/
  | positive {t : Text} {n : Nat} (h : IsUnsigned t n) : IsLiteral ('+' :: t) n
  /-- A minus sign. -/
  | negative {t : Text} {n : Nat} (h : IsUnsigned t n) : IsLiteral ('-' :: t) (-n)

/-- The base is told by the first two characters. -/
theorem isUnsigned_iff (t : Text) (n : Nat) :
    IsUnsigned t n ↔ IsNumeral (baseAndDigits t).1 (baseAndDigits t).2 n := by
  constructor
  · intro h
    cases h with
    | decimal h =>
      -- The marks of the other bases are no decimal digits.
      have hdecimal (mark : Char) (digits : Text) (hmark : ¬ digitValue mark < 10)
          (ht : t = '0' :: mark :: digits) : False := by
        subst ht
        exact hmark (IsNumeral.digitValue_lt (by decide) h (by simp)).2
      fun_cases baseAndDigits t with
      | case1 digits => exact (hdecimal 'x' digits (by decide) rfl).elim
      | case2 digits => exact (hdecimal 'X' digits (by decide) rfl).elim
      | case3 digits => exact (hdecimal 'b' digits (by decide) rfl).elim
      | case4 digits => exact (hdecimal 'B' digits (by decide) rfl).elim
      | case5 => exact h
    | hexadecimal hmark h => rcases hmark with rfl | rfl <;> exact h
    | binary hmark h => rcases hmark with rfl | rfl <;> exact h
  · fun_cases baseAndDigits t with
    | case1 digits => exact .hexadecimal (.inl rfl)
    | case2 digits => exact .hexadecimal (.inr rfl)
    | case3 digits => exact .binary (.inl rfl)
    | case4 digits => exact .binary (.inr rfl)
    | case5 => exact .decimal

/-- The number of a literal without a sign is read if it is below `2 ^ 63`. -/
theorem magnitude_eq_some_iff (t : Text) (n : Nat) :
    magnitude t = some n ↔ IsUnsigned t n ∧ n < 2 ^ 63 := by
  have hbase : (baseAndDigits t).1 ≤ 16 := by
    fun_cases baseAndDigits t <;> simp
  have hmagnitude : magnitude t =
      (ofDigits (baseAndDigits t).1 (baseAndDigits t).2).filter (· < Nat.pow 2 63) := rfl
  rw [hmagnitude, Option.filter_eq_some_iff, ofDigits_eq_some_iff hbase, isUnsigned_iff, decide_eq_true_eq]
  rfl

/-- A literal without a sign starts with a digit. -/
theorem IsUnsigned.isAlphanum {c : Char} {rest : Text} {n : Nat} (h : IsUnsigned (c :: rest) n) :
    c.isAlphanum = true := by
  cases h with
  | decimal h => exact (IsNumeral.digitValue_lt (by decide) h List.mem_cons_self).1
  | hexadecimal hmark h => decide
  | binary hmark h => decide

/-- Behind a minus stands what denotes the negated number. -/
theorem isLiteral_negative_iff {rest : Text} {v : Int} :
    IsLiteral ('-' :: rest) v ↔ ∃ n : Nat, IsUnsigned rest n ∧ -(n : Int) = v := by
  constructor
  · intro h
    cases h with
    | unsigned h => exact absurd h.isAlphanum (by decide)
    | negative h => exact ⟨_, h, rfl⟩
  · rintro ⟨n, h, rfl⟩
    exact .negative h

/-- Behind a plus stands what denotes the number itself. -/
theorem isLiteral_positive_iff {rest : Text} {v : Int} :
    IsLiteral ('+' :: rest) v ↔ ∃ n : Nat, IsUnsigned rest n ∧ (n : Int) = v := by
  constructor
  · intro h
    cases h with
    | unsigned h => exact absurd h.isAlphanum (by decide)
    | positive h => exact ⟨_, h, rfl⟩
  · rintro ⟨n, h, rfl⟩
    exact .positive h

/-- Without a sign, a literal is an unsigned one. -/
theorem isLiteral_unsigned_iff {t : Text} (hminus : ∀ rest, t = '-' :: rest → False)
    (hplus : ∀ rest, t = '+' :: rest → False) {v : Int} :
    IsLiteral t v ↔ ∃ n : Nat, IsUnsigned t n ∧ (n : Int) = v := by
  constructor
  · intro h
    cases h with
    | unsigned h => exact ⟨_, h, rfl⟩
    | positive h => exact (hplus _ rfl).elim
    | negative h => exact (hminus _ rfl).elim
  · rintro ⟨n, h, rfl⟩
    exact .unsigned h

/-- The sign is put on the number of the text behind it. -/
theorem ofText?_cases (t : Text) :
    ∃ (rest : Text) (sign : Int), (sign = 1 ∨ sign = -1) ∧
      ofText? t = (magnitude rest).map (fun n : Nat => sign * n) ∧
      ∀ v, IsLiteral t v ↔ ∃ n : Nat, IsUnsigned rest n ∧ sign * n = v := by
  fun_cases ofText? t with
  | case1 rest =>
    refine ⟨rest, -1, .inr rfl, ?_, fun v => ?_⟩
    · cases magnitude rest <;> simp
    · simpa using isLiteral_negative_iff
  | case2 rest =>
    refine ⟨rest, 1, .inl rfl, ?_, fun v => ?_⟩
    · cases magnitude rest <;> simp
    · simpa using isLiteral_positive_iff
  | case3 =>
    rename_i hminus hplus
    refine ⟨t, 1, .inl rfl, ?_, fun v => ?_⟩
    · cases magnitude t <;> simp
    · simpa using isLiteral_unsigned_iff hminus hplus

/-- A text is the literal of an integer whose magnitude is below `2 ^ 63`. -/
structure Denotes (t : Text) (v : Int) : Prop where
  /-- It is a literal of the integer. -/
  literal : IsLiteral t v
  /-- The integer is not too small. -/
  lower : -2 ^ 63 < v
  /-- It is not too large. -/
  upper : v < 2 ^ 63

/-- A literal is read as the integer that it denotes, exactly if the magnitude of that is below `2 ^ 63`. -/
theorem ofText?_eq_some_iff (t : Text) (v : Int) : ofText? t = some v ↔ Denotes t v := by
  obtain ⟨rest, sign, hsign, hread, hliteral⟩ := ofText?_cases t
  have hbound (n : Nat) : n < 2 ^ 63 ↔ -2 ^ 63 < sign * n ∧ sign * n < 2 ^ 63 := by
    rcases hsign with rfl | rfl <;> omega
  rw [hread, Option.map_eq_some_iff]
  constructor
  · rintro ⟨n, hn, rfl⟩
    obtain ⟨hunsigned, hlt⟩ := (magnitude_eq_some_iff rest n).1 hn
    exact ⟨(hliteral _).2 ⟨n, hunsigned, rfl⟩, ((hbound n).1 hlt).1, ((hbound n).1 hlt).2⟩
  · rintro ⟨h, hlower, hupper⟩
    obtain ⟨n, hunsigned, rfl⟩ := (hliteral v).1 h
    exact ⟨n, (magnitude_eq_some_iff rest n).2 ⟨hunsigned, (hbound n).2 ⟨hlower, hupper⟩⟩, rfl⟩

/-- The least integer of 64 bits has a literal, which is not read. -/
theorem ofText?_least :
    IsLiteral "-9223372036854775808" (-2 ^ 63) ∧ ofText? "-9223372036854775808" = none := by
  have hnumeral : IsNumeral 10 "9223372036854775808" (2 ^ 63) :=
    (ofDigits_eq_some_iff (by decide) _ _).1 (by decide)
  exact ⟨.negative (.decimal hnumeral), by decide⟩

end BuildExpr.Integer

namespace BuildExpr

/-- Different results make different evaluations. -/
theorem Eval.ofExcept_inj {α : Type} {x y : Except Cause α} :
    Eval.ofExcept x = Eval.ofExcept y ↔ x = y := by
  constructor
  · intro h
    have hrun := congrFun h {}
    cases x <;> cases y <;> cases hrun <;> rfl
  · exact congrArg _

namespace Operation

open Integer (Denotes ofText?)

/-- What a comparison of two parameters comes to. -/
def compared (a b : Text) : Except Cause Text := do
  let v ← integer a
  let w ← integer b
  return .ofBool (v == w)

/-- The operation `EQUAL` gives what the comparison of its parameters comes to. -/
theorem evaluate_integerEqual (call : Call) (a b : Text) :
    integerEqual.evaluate { call with parameters := [a, b] } = Eval.ofExcept (compared a b) := by
  refine Eval.ofExcept_inj.2 ?_
  unfold compared
  cases ha : integer a with
  | error cause => simp [ha]
  | ok v => cases hb : integer b <;> simp [ha, hb]

/-- A parameter denotes one integer, or it is refused because it denotes none. -/
theorem integer_cases (t : Text) :
    (∃ v, integer t = .ok v ∧ ∀ w, Denotes t w ↔ w = v) ∨
      (∃ reason, integer t = .error (.invalidParameter "EQUAL" reason)) ∧ ∀ v, ¬ Denotes t v := by
  simp only [← Integer.ofText?_eq_some_iff]
  unfold integer
  cases ofText? t with
  | some v => exact .inl ⟨v, rfl, fun w => by simp [eq_comm]⟩
  | none => exact .inr ⟨⟨_, rfl⟩, nofun⟩

/-- Exactly the literals of integers whose magnitude is below `2 ^ 63` are read. Two of them are equal if they
denote the same integer, and not equal if they denote different ones; no other text may be compared. -/
theorem integerEqual_decides (call : Call) (a b : Text) :
    let result := integerEqual.evaluate { call with parameters := [a, b] }
    (∀ t v, ofText? t = some v ↔ Denotes t v) ∧
      (result = pure ['1'] ↔ ∃ v, Denotes a v ∧ Denotes b v) ∧
      (result = pure ['0'] ↔ ∃ v w, v ≠ w ∧ Denotes a v ∧ Denotes b w) ∧
      ((∃ reason, result = Eval.fail (.invalidParameter "EQUAL" reason)) ↔
        (¬ ∃ v, Denotes a v) ∨ ¬ ∃ v, Denotes b v) := by
  intro result
  refine ⟨Integer.ofText?_eq_some_iff, ?_⟩
  -- What is compared decides the outcome, and equal outcomes are equal comparisons.
  have hresult (x : Except Cause Text) : result = Eval.ofExcept x ↔ compared a b = x := by
    rw [← Eval.ofExcept_inj, ← evaluate_integerEqual call]
  change (result = Eval.ofExcept (.ok ['1']) ↔ _) ∧ (result = Eval.ofExcept (.ok ['0']) ↔ _) ∧
    ((∃ reason, result = Eval.ofExcept (.error _)) ↔ _)
  simp only [hresult]
  -- Four cases, by which of the texts is a literal; the first that is none is the one refused.
  rcases integer_cases a with ⟨v, ha, hv⟩ | ⟨⟨reason, ha⟩, hv⟩
  · rcases integer_cases b with ⟨w, hb, hw⟩ | ⟨⟨reason, hb⟩, hw⟩
    · have hcompared : compared a b = .ok (.ofBool (v == w)) := by
        rw [compared, ha, hb]
        rfl
      by_cases hvw : v = w
      · subst hvw
        simp [hcompared, Text.ofBool, hv, hw]
      · simp [hcompared, Text.ofBool, hv, hw, hvw]
    · have hcompared : compared a b = .error (.invalidParameter "EQUAL" reason) := by
        rw [compared, ha, hb]
        rfl
      simp [hcompared, hw]
  · have hcompared : compared a b = .error (.invalidParameter "EQUAL" reason) := by
      rw [compared, ha]
      rfl
    simp [hcompared, hv]

end Operation

end BuildExpr
