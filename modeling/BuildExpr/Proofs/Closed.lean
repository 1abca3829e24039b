import Mathlib.Data.List.Infix
import BuildExpr.Delimiter

/-!
# Closed texts

A text is closed when every `$<` in it has the `>` that closes it. `openAfter` counts the open
expressions along a text; a text is closed exactly when the count ends at zero (`closed_iff`), and the
count of a concatenation is that of its parts (`openAfter_append`), unless a `$` and a `<` of
different parts meet to form an opening. An expression is a closed text none of whose proper
beginnings is closed, except for a `$` alone (`IsExpression.not_closed_of_append`); that makes the
expressions at the start of a text unique.
-/

namespace BuildExpr.Text

/-! ## Openings -/

/-- Induction along a text in which an opening is one step. -/
@[elab_as_elim] theorem opening_induction {motive : Text → Prop} (nil : motive [])
    (opening : ∀ rest, motive rest → motive ('$' :: '<' :: rest))
    (char : ∀ c rest, (∀ tail, c = '$' → rest = '<' :: tail → False) → motive rest →
      motive (c :: rest))
    (t : Text) : motive t :=
  openingsAt.induct (fun _ => motive) (fun _ => nil) (fun _ => opening) (fun _ => char) 0 t

/-- A first opening is found unless there is none. -/
theorem splitAtOpening_eq_none_iff {t : Text} : splitAtOpening t = none ↔ ¬ opening <:+: t := by
  fun_induction splitAtOpening t with
  | case1 => simp [opening]
  | case2 rest =>
    have hin : opening <:+: '$' :: '<' :: rest := ⟨[], rest, rfl⟩
    simp [hin]
  | case3 c rest hopen ih =>
    have hpre : ¬ opening <+: c :: rest := by
      rintro ⟨tail, htail⟩
      obtain ⟨rfl, hrest⟩ := List.cons.inj htail
      exact hopen tail rfl hrest.symm
    rw [Option.map_eq_none_iff, ih, List.infix_cons_iff]
    simp [hpre]

/-- Nor is there an opening in the rest of a text without one. -/
theorem no_opening_of_cons {c : Char} {t : Text} (h : ¬ opening <:+: c :: t) : ¬ opening <:+: t :=
  fun ht => h (ht.trans (List.suffix_cons c t).isInfix)

/-- There is no opening before the first one. -/
theorem splitAtOpening_before {t before after : Text}
    (h : splitAtOpening t = some (before, after)) : splitAtOpening before = none := by
  fun_induction splitAtOpening t generalizing before with
  | case1 => simp at h
  | case2 rest =>
    obtain ⟨rfl, -⟩ := Prod.mk.inj (Option.some.inj h)
    rfl
  | case3 c rest hopen ih =>
    obtain ⟨⟨b, a⟩, hsplit, heq⟩ := Option.map_eq_some_iff.1 h
    obtain ⟨rfl, rfl⟩ := Prod.mk.inj heq
    rw [splitAtOpening, ih hsplit]
    · rfl
    · rintro tail hc rfl
      exact hopen _ hc (append_of_splitAtOpening hsplit)

/-! ## Counting open expressions -/

/-- The number of expressions open at the end of a text that starts inside `depth` of them. -/
def openAfter : Nat → Text → Nat
  | depth, [] => depth
  | depth, '$' :: '<' :: rest => openAfter (depth + 1) rest
  | depth, '>' :: rest => openAfter (depth - 1) rest
  | depth, _ :: rest => openAfter depth rest

/-- Nothing is opened or closed along the empty text. -/
@[simp] theorem openAfter_nil (depth : Nat) : openAfter depth [] = depth := by simp [openAfter]

/-- An opening opens one more expression. -/
@[simp] theorem openAfter_opening (depth : Nat) (t : Text) :
    openAfter depth ('$' :: '<' :: t) = openAfter (depth + 1) t := by simp [openAfter]

/-- A closing closes the innermost open expression, if there is one. -/
@[simp] theorem openAfter_closing (depth : Nat) (t : Text) :
    openAfter depth ('>' :: t) = openAfter (depth - 1) t := by simp [openAfter]

/-- A character that is no delimiter and starts none does not count. -/
theorem openAfter_cons {c : Char} {t : Text} (depth : Nat) (hclose : c ≠ '>')
    (hopen : ∀ rest, c = '$' → t = '<' :: rest → False) :
    openAfter depth (c :: t) = openAfter depth t := by
  rw [openAfter]
  · exact hopen
  · exact hclose

/-- Two texts do not meet in an opening. -/
def Apart (a b : Text) : Prop := a.getLast? = some '$' → b.head? ≠ some '<'

/-- A text that does not start with `<` stands apart from any text before it. -/
theorem apart_of_head? {a b : Text} (hb : b.head? ≠ some '<') : Apart a b := fun _ => hb

/-- Only the last character of the first text matters. -/
theorem Apart.of_cons {c : Char} {a b : Text} (h : Apart (c :: a) b) : Apart a b := by
  intro ha
  exact h (by simp [List.getLast?_cons, ha])

/-- Only the first character of the second text matters. -/
theorem Apart.of_append {a b c : Text} (h : Apart a (b ++ c)) : Apart a b := by
  intro ha hb
  exact h ha (by rw [List.head?_append, hb]; rfl)

/-- Texts that stand apart still do when the first is cut at its front. -/
theorem Apart.of_append_left {a b c : Text} (h : Apart (a ++ b) c) : Apart b c := by
  intro hb
  refine h ?_
  rw [List.getLast?_append, hb]
  rfl

/-- The empty text stands apart from any text after it. -/
theorem apart_nil (t : Text) : Apart [] t := nofun

/-- No opening begins at the character in front of the first text, unless one does without the second
text. -/
theorem Apart.not_opening {c : Char} {a b : Text} (h : Apart (c :: a) b)
    (hopen : ∀ tail, c = '$' → a = '<' :: tail → False) :
    ∀ tail, c = '$' → a ++ b = '<' :: tail → False := by
  intro tail hc htail
  -- The `<` would be the first character of one of the two texts.
  cases a with
  | nil =>
    have hhead : b = '<' :: tail := htail
    exact h (by rw [hc]; rfl) (by rw [hhead]; rfl)
  | cons d a =>
    obtain ⟨rfl, -⟩ := List.cons.inj htail
    exact hopen a hc rfl

/-- A further character does not make an opening unless it is the `<` after a `$`. -/
theorem no_opening_concat {t : Text} {c : Char} (ht : ¬ opening <:+: t) (hc : Apart t [c]) :
    ¬ opening <:+: t ++ [c] := by
  rw [List.infix_concat_iff, not_or]
  refine ⟨fun hsuffix => ?_, ht⟩
  rcases List.suffix_concat_iff.1 hsuffix with hnil | ⟨before, hopening, hbefore⟩
  · cases hnil
  · obtain ⟨rfl, hclose⟩ : before = ['$'] ∧ c = '<' := by
      have hinj := List.append_inj' (show ['$'] ++ ['<'] = before ++ [c] from hopening) rfl
      exact ⟨hinj.1.symm, (List.cons.inj hinj.2).1.symm⟩
    obtain ⟨first, rfl⟩ := hbefore
    exact hc (by simp) (by rw [hclose]; rfl)

/-- The count goes on where it stood. -/
theorem openAfter_append (depth : Nat) {a b : Text} (hab : Apart a b) :
    openAfter depth (a ++ b) = openAfter (openAfter depth a) b := by
  fun_induction openAfter depth a with
  | case1 => rfl
  | case2 depth rest ih =>
    rw [← ih hab.of_cons.of_cons]
    exact openAfter_opening depth (rest ++ b)
  | case3 depth rest ih =>
    rw [← ih hab.of_cons]
    exact openAfter_closing depth (rest ++ b)
  | case4 depth c rest hopen hclose ih =>
    rw [← ih hab.of_cons]
    exact openAfter_cons depth hclose (hab.not_opening hopen)

/-- A text without openings leaves nothing open. -/
theorem openAfter_of_splitAtOpening_none {t : Text} (h : splitAtOpening t = none) :
    openAfter 0 t = 0 := by
  fun_induction splitAtOpening t with
  | case1 => rfl
  | case2 => simp at h
  | case3 c rest hopen ih =>
    have hrest : openAfter 0 rest = 0 := ih (by simpa using h)
    by_cases hclose : c = '>'
    · subst hclose
      rw [openAfter_closing]
      exact hrest
    · rw [openAfter_cons 0 hclose hopen]
      exact hrest

/-- Nothing is open where the first opening stands. -/
theorem openAfter_of_splitAtOpening {t before after : Text}
    (h : splitAtOpening t = some (before, after)) : openAfter 0 before = 0 :=
  openAfter_of_splitAtOpening_none (splitAtOpening_before h)

/-! ## The delimiter that closes an expression -/

/-- A character that is no delimiter and starts none is passed over. -/
theorem splitAtClosing_cons {c : Char} {t : Text} (depth : Nat) (hclose : c ≠ '>')
    (hopen : ∀ rest, c = '$' → t = '<' :: rest → False) :
    splitAtClosing depth (c :: t) =
      (splitAtClosing depth t).map fun (before, after) => (c :: before, after) := by
  rw [splitAtClosing]
  · exact hopen
  · exact fun _ => hclose
  · exact fun _ _ => hclose

/-- After the `>` that closes the outermost of `depth + 1` expressions, as many are open as were
around them. -/
theorem openAfter_of_splitAtClosing {depth : Nat} {t before after : Text}
    (h : splitAtClosing depth t = some (before, after)) (around : Nat) :
    openAfter (depth + 1 + around) t = openAfter around after := by
  -- Along the scan `depth` counts what has been opened inside, and `around` stays what it is.
  fun_induction splitAtClosing depth t generalizing before with
  | case1 => simp at h
  | case2 depth rest ih =>
    obtain ⟨⟨b, a⟩, hsplit, heq⟩ := Option.map_eq_some_iff.1 h
    obtain ⟨-, rfl⟩ := Prod.mk.inj heq
    rw [openAfter_opening, ← ih hsplit]
    congr 1
    omega
  | case3 rest =>
    obtain ⟨-, rfl⟩ := Prod.mk.inj (Option.some.inj h)
    rw [openAfter_closing]
    congr 1
    omega
  | case4 depth rest ih =>
    obtain ⟨⟨b, a⟩, hsplit, heq⟩ := Option.map_eq_some_iff.1 h
    obtain ⟨-, rfl⟩ := Prod.mk.inj heq
    rw [openAfter_closing, ← ih hsplit]
    congr 1
    omega
  | case5 depth c rest hopen hzero hsucc ih =>
    obtain ⟨⟨b, a⟩, hsplit, heq⟩ := Option.map_eq_some_iff.1 h
    obtain ⟨-, rfl⟩ := Prod.mk.inj heq
    have hclose : c ≠ '>' := by
      cases depth with
      | zero => exact hzero rfl
      | succ depth => exact hsucc depth rfl
    rw [openAfter_cons _ hclose hopen, ih hsplit]

/-- Without the `>` that closes it, an expression is still open at the end. -/
theorem lt_openAfter_of_splitAtClosing_none {depth : Nat} {t : Text}
    (h : splitAtClosing depth t = none) (around : Nat) :
    around < openAfter (depth + 1 + around) t := by
  fun_induction splitAtClosing depth t with
  | case1 => rw [openAfter_nil]; omega
  | case2 depth rest ih =>
    have hrest := ih (by simpa using h)
    have hdepth : depth + 1 + around + 1 = depth + 1 + 1 + around := by omega
    rw [openAfter_opening, hdepth]
    exact hrest
  | case3 => simp at h
  | case4 depth rest ih =>
    have hrest := ih (by simpa using h)
    have hdepth : depth + 1 + 1 + around - 1 = depth + 1 + around := by omega
    rw [openAfter_closing, hdepth]
    exact hrest
  | case5 depth c rest hopen hzero hsucc ih =>
    have hclose : c ≠ '>' := by
      cases depth with
      | zero => exact hzero rfl
      | succ depth => exact hsucc depth rfl
    rw [openAfter_cons _ hclose hopen]
    exact ih (by simpa using h)

/-- What follows a close has no part in finding it. -/
theorem splitAtClosing_append {depth : Nat} {t before after : Text}
    (h : splitAtClosing depth t = some (before, after)) (more : Text) :
    splitAtClosing depth (t ++ more) = some (before, after ++ more) := by
  fun_induction splitAtClosing depth t generalizing before with
  | case1 => simp at h
  | case2 depth rest ih | case4 depth rest ih =>
    obtain ⟨⟨b, a⟩, hsplit, heq⟩ := Option.map_eq_some_iff.1 h
    obtain ⟨rfl, rfl⟩ := Prod.mk.inj heq
    simp [splitAtClosing, ih hsplit]
  | case3 rest =>
    obtain ⟨rfl, rfl⟩ := Prod.mk.inj (Option.some.inj h)
    simp [splitAtClosing]
  | case5 depth c rest hopen hzero hsucc ih =>
    obtain ⟨⟨b, a⟩, hsplit, heq⟩ := Option.map_eq_some_iff.1 h
    obtain ⟨rfl, rfl⟩ := Prod.mk.inj heq
    -- No opening comes about at the end of the text, since the `>` is still to come there.
    have hopen' : ∀ tail, c = '$' → rest ++ more = '<' :: tail → False := by
      intro tail hc htail
      cases rest with
      | nil => simp [splitAtClosing] at hsplit
      | cons d rest =>
        obtain ⟨rfl, -⟩ := List.cons.inj htail
        exact hopen rest hc rfl
    rw [List.cons_append, splitAtClosing]
    · rw [ih hsplit]; rfl
    · exact hopen'
    · exact hzero
    · exact hsucc

/-- Nothing after a close has a part in finding it. -/
theorem splitAtClosing_before {depth : Nat} {t before after : Text}
    (h : splitAtClosing depth t = some (before, after)) :
    splitAtClosing depth (before ++ ['>']) = some (before, []) := by
  fun_induction splitAtClosing depth t generalizing before with
  | case1 => simp at h
  | case2 depth rest ih | case4 depth rest ih =>
    obtain ⟨⟨b, a⟩, hsplit, heq⟩ := Option.map_eq_some_iff.1 h
    obtain ⟨rfl, rfl⟩ := Prod.mk.inj heq
    simp [splitAtClosing, ih hsplit]
  | case3 rest =>
    obtain ⟨rfl, rfl⟩ := Prod.mk.inj (Option.some.inj h)
    simp [splitAtClosing]
  | case5 depth c rest hopen hzero hsucc ih =>
    obtain ⟨⟨b, a⟩, hsplit, heq⟩ := Option.map_eq_some_iff.1 h
    obtain ⟨rfl, rfl⟩ := Prod.mk.inj heq
    have hrest : rest = b ++ '>' :: a := append_of_splitAtClosing hsplit
    -- The text behind the close starts with its `>`, so no opening is lost by leaving it out.
    have hopen' : ∀ tail, c = '$' → b ++ ['>'] = '<' :: tail → False := by
      intro tail hc htail
      cases b with
      | nil => simp at htail
      | cons d b =>
        obtain ⟨rfl, -⟩ := List.cons.inj htail
        exact hopen _ hc hrest
    rw [List.cons_append, splitAtClosing]
    · rw [ih hsplit]; rfl
    · exact hopen'
    · exact hzero
    · exact hsucc

/-- A close that is found only when more text follows lies past the text. -/
theorem exists_append_of_splitAtClosing {depth : Nat} {t more before after : Text}
    (hnone : splitAtClosing depth t = none)
    (h : splitAtClosing depth (t ++ more) = some (before, after)) :
    ∃ between, before = t ++ between ∧ more = between ++ '>' :: after := by
  have heq : t ++ more = before ++ '>' :: after := append_of_splitAtClosing h
  rcases List.append_eq_append_iff.1 heq with ⟨between, hbefore, hmore⟩ | ⟨extra, ht, hextra⟩
  · exact ⟨between, hbefore, hmore⟩
  · cases extra with
    | nil => exact ⟨[], by simpa using ht.symm, by simpa using hextra.symm⟩
    | cons c extra =>
      obtain ⟨rfl, -⟩ := List.cons.inj hextra
      have hfound := splitAtClosing_append (splitAtClosing_before h) extra
      have ht' : t = before ++ ['>'] ++ extra := by rw [ht]; simp
      rw [ht', hfound] at hnone
      cases hnone

/-! ## Closed texts -/

/-- Every `$<` in the text has the `>` that closes it. -/
def Closed (t : Text) : Prop :=
  ∀ before after, t = before ++ opening ++ after → (splitAtClosing 0 after).isSome

/-- The text after the first expression of a closed text is closed. -/
theorem Closed.after {before inside after rest : Text}
    (h : Closed (before ++ opening ++ inside))
    (hclose : splitAtClosing 0 inside = some (after, rest)) : Closed rest := by
  intro x y hxy
  refine h (before ++ opening ++ after ++ '>' :: x) y ?_
  rw [append_of_splitAtClosing hclose, hxy]
  simp

/-- An opening adds to what is open before it. -/
theorem openAfter_append_opening (before after : Text) :
    openAfter 0 (before ++ opening ++ after) = openAfter (openAfter 0 before + 1) after := by
  have hhead : (opening ++ after).head? ≠ some '<' := by simp [opening]
  rw [List.append_assoc, openAfter_append 0 (apart_of_head? hhead)]
  exact openAfter_opening _ after

/-- A text is closed when no expression is open at its end. -/
theorem closed_of_openAfter {t : Text} (h : openAfter 0 t = 0) : Closed t := by
  rintro before after rfl
  rw [openAfter_append_opening] at h
  cases hclose : splitAtClosing 0 after with
  | some _ => rfl
  | none =>
    have hlt := lt_openAfter_of_splitAtClosing_none hclose (openAfter 0 before)
    rw [Nat.zero_add, Nat.add_comm 1] at hlt
    omega

/-- No expression is open at the end of a closed text. -/
theorem Closed.openAfter_eq_zero {t : Text} (h : Closed t) : openAfter 0 t = 0 := by
  cases hopen : splitAtOpening t with
  | none => exact openAfter_of_splitAtOpening_none hopen
  | some parts =>
    obtain ⟨before, after⟩ := parts
    have ht : t = before ++ opening ++ after := append_of_splitAtOpening hopen
    obtain ⟨⟨inside, rest⟩, hclose⟩ := Option.isSome_iff_exists.1 (h before after ht)
    have hrest : Closed rest := (ht ▸ h).after hclose
    rw [ht, openAfter_append_opening, openAfter_of_splitAtOpening hopen]
    rw [openAfter_of_splitAtClosing hclose 0]
    exact hrest.openAfter_eq_zero
termination_by t.length
decreasing_by
  have hafter := length_lt_of_splitAtOpening hopen
  have hrest := length_lt_of_splitAtClosing hclose
  omega

/-- A text without openings is closed. -/
theorem closed_of_no_opening {t : Text} (h : ¬ opening <:+: t) : Closed t :=
  fun before after ht => absurd ⟨before, after, ht.symm⟩ h

/-- A text is closed exactly when no expression is open at its end. -/
theorem closed_iff {t : Text} : Closed t ↔ openAfter 0 t = 0 :=
  ⟨Closed.openAfter_eq_zero, closed_of_openAfter⟩

instance (t : Text) : Decidable (Closed t) := decidable_of_iff _ closed_iff.symm

/-- After a closed text, what follows is closed or not as if it stood alone. -/
theorem Closed.append_iff {a b : Text} (ha : Closed a) (hab : Apart a b) :
    Closed (a ++ b) ↔ Closed b := by
  rw [closed_iff, closed_iff, openAfter_append 0 hab, ha.openAfter_eq_zero]

/-! ## Expressions -/

/-- A text that is one expression: `$<`, a body, and the `>` that closes the `$<`. -/
def IsExpression (e : Text) : Prop :=
  ∃ body, e = opening ++ body ++ ['>'] ∧ splitAtClosing 0 (body ++ ['>']) = some (body, [])

/-- What stands between a `$<` and the `>` that closes it makes an expression. -/
theorem isExpression_of_splitAtClosing {after inside rest : Text}
    (h : splitAtClosing 0 after = some (inside, rest)) :
    IsExpression (opening ++ inside ++ ['>']) :=
  ⟨inside, rfl, splitAtClosing_before h⟩

namespace IsExpression

/-- An expression starts with a `$`. -/
theorem head?_eq {e : Text} (h : IsExpression e) : e.head? = some '$' := by
  obtain ⟨body, rfl, -⟩ := h
  rfl

/-- An expression is not empty. -/
theorem ne_nil {e : Text} (h : IsExpression e) : e ≠ [] := by
  rintro rfl
  cases h.head?_eq

/-- An expression is closed. -/
theorem closed {e : Text} (h : IsExpression e) : Closed e := by
  obtain ⟨body, rfl, hbody⟩ := h
  rw [closed_iff, List.append_assoc]
  exact openAfter_of_splitAtClosing hbody 0

/-- Whatever follows an expression does not meet it in an opening. -/
theorem apart {e : Text} (h : IsExpression e) (a b : Text) : Apart (a ++ e) b := by
  obtain ⟨body, rfl, -⟩ := h
  intro hlast
  simp at hlast

/-- After a closed text and an expression, what follows is closed or not as if it stood alone. -/
theorem closed_append_iff {a e : Text} (he : IsExpression e) (ha : Closed a) (b : Text) :
    Closed (a ++ e ++ b) ↔ Closed b := by
  have hhead : e.head? ≠ some '<' := by rw [he.head?_eq]; decide
  have hae : Closed (a ++ e) := (ha.append_iff (apart_of_head? hhead)).2 he.closed
  exact hae.append_iff (he.apart a b)

/-- A proper beginning of an expression is not closed, unless it cuts the opening apart. -/
theorem not_closed_of_append {a b : Text} (h : IsExpression (a ++ b)) (ha : a ≠ [])
    (hb : b ≠ []) (hab : Apart a b) : ¬ Closed a := by
  obtain ⟨body, heq, hbody⟩ := h
  obtain ⟨d, a, rfl⟩ := List.exists_cons_of_ne_nil ha
  obtain ⟨rfl, htail⟩ := List.cons.inj heq
  cases a with
  | nil =>
    have hb' : b = '<' :: (body ++ ['>']) := htail
    exact absurd (by rw [hb']; rfl) (hab rfl)
  | cons d c =>
    obtain ⟨rfl, hc⟩ := List.cons.inj htail
    intro hclosed
    rw [closed_iff, openAfter_opening] at hclosed
    cases hclose : splitAtClosing 0 c with
    | none =>
      have hlt := lt_openAfter_of_splitAtClosing_none hclose 0
      exact absurd hclosed (Nat.ne_of_gt hlt)
    | some parts =>
      obtain ⟨inside, rest⟩ := parts
      -- The expression would be closed inside `c`, with `b` left over.
      have hmore : splitAtClosing 0 (c ++ b) = some (inside, rest ++ b) :=
        splitAtClosing_append hclose b
      have hsame : c ++ b = body ++ ['>'] := hc
      rw [hsame, hbody] at hmore
      have hnil := (Prod.mk.inj (Option.some.inj hmore)).2
      exact hb (List.append_eq_nil_iff.1 hnil.symm).2

/-- A place with a closed text before it does not lie inside an expression with a closed text before
it. -/
theorem before_or_after {a e b p r : Text} (he : IsExpression e) (ha : Closed a) (hp : Closed p)
    (hpr : Apart p r) (h : p ++ r = a ++ e ++ b) :
    (∃ x, p = a ++ e ++ x ∧ b = x ++ r) ∨ ∃ x, a = p ++ x ∧ r = x ++ e ++ b := by
  rw [List.append_assoc] at h
  rcases List.append_eq_append_iff.1 h with ⟨x, hax, hr⟩ | ⟨x, hpx, heb⟩
  · exact .inr ⟨x, hax, by rw [hr, List.append_assoc]⟩
  · rcases List.append_eq_append_iff.1 heb with ⟨y, hx, hb⟩ | ⟨y, hex, hr⟩
    · exact .inl ⟨y, by rw [hpx, hx, List.append_assoc], hb⟩
    · cases x with
      | nil => exact .inr ⟨[], by simpa using hpx.symm, by rw [hr, hex]; rfl⟩
      | cons c x =>
        cases y with
        | nil => exact .inl ⟨[], by rw [hpx, hex]; simp, by rw [hr]; rfl⟩
        | cons d y =>
          -- The place would be inside, where the expression is open.
          have hc : c = '$' := by
            have := he.head?_eq
            rw [hex] at this
            exact Option.some.inj this
          have hxy : Apart (c :: x) (d :: y) := by
            intro hlast
            have hpd := hpr (by rw [hpx, List.getLast?_append, hlast]; rfl)
            rw [hr] at hpd
            exact hpd
          have hopen := (hex ▸ he).not_closed_of_append (by simp) (by simp) hxy
          have hax : Apart a (c :: x) := apart_of_head? (by simp [hc])
          exact absurd ((ha.append_iff hax).1 (hpx ▸ hp)) hopen

/-- At the start of a text there is at most one expression. -/
theorem append_inj {e f a b : Text} (he : IsExpression e) (hf : IsExpression f)
    (h : e ++ a = f ++ b) : e = f ∧ a = b := by
  obtain ⟨body, rfl, hbody⟩ := he
  obtain ⟨body', rfl, hbody'⟩ := hf
  have hsame : body ++ ['>'] ++ a = body' ++ ['>'] ++ b := by simpa [opening] using h
  have ha := splitAtClosing_append hbody a
  have hb := splitAtClosing_append hbody' b
  rw [hsame, hb] at ha
  obtain ⟨rfl, hab⟩ := Prod.mk.inj (Option.some.inj ha)
  exact ⟨rfl, by simpa using hab.symm⟩

end IsExpression

/-- A closed text is text without an opening or starts with such text, an expression and a closed rest. -/
theorem Closed.plain_or_expression {t : Text} (h : Closed t) :
    ¬ opening <:+: t ∨ ∃ before e rest, t = before ++ e ++ rest ∧ ¬ opening <:+: before ∧
      IsExpression e ∧ Closed rest := by
  cases hopen : splitAtOpening t with
  | none => exact .inl (splitAtOpening_eq_none_iff.1 hopen)
  | some parts =>
    obtain ⟨before, after⟩ := parts
    obtain rfl : t = before ++ opening ++ after := append_of_splitAtOpening hopen
    obtain ⟨⟨inside, rest⟩, hclose⟩ := Option.isSome_iff_exists.1 (h before after rfl)
    refine .inr ⟨before, opening ++ inside ++ ['>'], rest, ?_,
      splitAtOpening_eq_none_iff.1 (splitAtOpening_before hopen), isExpression_of_splitAtClosing hclose,
      h.after hclose⟩
    rw [append_of_splitAtClosing hclose]
    simp

/-- What a closed text ends with is closed. -/
theorem Closed.of_append {a b : Text} (h : Closed (a ++ b)) : Closed b :=
  fun before after hb => h (a ++ before) after (by rw [hb]; simp)

end BuildExpr.Text
