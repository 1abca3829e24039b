import BuildExpr.Proofs.Bytes
import BuildExpr.Proofs.Matching
import BuildExpr.Proofs.Rendering

/-!
# What the tokens of a text are

The scanner takes a text character by character and keeps count of the open expressions. What comes
out can be said without it: the tokens lie end to end in the text, no two texts touch, every `$<` is
an opening, and every `:`, `,` and `>` is a mark of its own exactly if more expressions are opened than
closed by the tokens before it (`Token.Lexed`). The last part is what ties the two counts together,
so the invariant of the scan is about a text that starts inside `depth` open expressions: a mark there
is one of its own if `depth` and what the tokens before it open exceed what they close
(`mark_scanFrom`).
-/

namespace BuildExpr

open Text (byteLength)

namespace Token

/-! ## The language of tokens -/

/-- Tokens that lie end to end in a text, from its start to its end. -/
structure Tiling (t : Text) (tokens : List Token) : Prop where
  /-- There are some unless the text is empty. -/
  exists_token : t ≠ [] → tokens ≠ []
  /-- The first one starts where the text does. -/
  first : ∀ token, tokens.head? = some token → token.span.start = 0
  /-- Each further one starts where the one before ends. -/
  next : tokens.IsChain fun token following => token.span.stop = following.span.start
  /-- The last one ends where the text does. -/
  last : ∀ token, tokens.getLast? = some token → token.span.stop = byteLength t
  /-- None is empty. -/
  nonempty : ∀ token ∈ tokens, token.span.start < token.span.stop
  /-- They start and end between characters. -/
  boundary : ∀ token ∈ tokens, t.IsBoundary token.span.start ∧ t.IsBoundary token.span.stop
  /-- Each is spelled as what it covers. -/
  text : ∀ token ∈ tokens, token.text = t.cut token.span

/-- The token that a mark is inside an expression. -/
def Kind.ofMark? : Char → Option Kind
  | ':' => some .colon
  | ',' => some .comma
  | '>' => some .closing
  | _ => none

/-- How many tokens of a kind end at or before an offset. -/
def countBefore (kind : Kind) (offset : Nat) (tokens : List Token) : Nat :=
  tokens.countP fun token => token.kind == kind && decide (token.span.stop ≤ offset)

/-- Before an offset, more expressions are opened than closed. -/
def OpenAt (tokens : List Token) (offset : Nat) : Prop :=
  countBefore .closing offset tokens < countBefore .opening offset tokens

/-- What stands at a span. -/
def At (tokens : List Token) (kind : Kind) (span : Span) : Prop :=
  ∃ token ∈ tokens, token.kind = kind ∧ token.span = span

/-- A character of literal text stands at an offset. -/
def TextAt (tokens : List Token) (offset : Nat) : Prop :=
  ∃ token ∈ tokens, token.kind = .text ∧ token.span.contains offset = true

/-- The tokens that the language of expressions has for a text. -/
structure Lexed (t : Text) (tokens : List Token) : Prop extends Tiling t tokens where
  /-- Each is spelled as its kind demands. -/
  spelled : ∀ token ∈ tokens, token.Spelled
  /-- No two texts touch. -/
  apart : tokens.IsChain fun token following => token.kind = .text → following.kind ≠ .text
  /-- The openings are the occurrences of `$<`. -/
  opening : ∀ span, At tokens .opening span ↔
    ∃ before after, t = before ++ opening ++ after ∧
      span = ⟨byteLength before, byteLength before + 2⟩
  /-- A mark is a token of its own exactly if an expression is open before it. -/
  mark : ∀ before c after kind, t = before ++ c :: after → Kind.ofMark? c = some kind →
    (At tokens kind ⟨byteLength before, byteLength before + 1⟩ ↔ OpenAt tokens (byteLength before))
  /-- Otherwise it is part of a text. -/
  text_of_not_open : ∀ before c after kind, t = before ++ c :: after → Kind.ofMark? c = some kind →
    ¬ OpenAt tokens (byteLength before) → TextAt tokens (byteLength before)

/-! ## Tokens that lie end to end -/

/-- Tokens that spell a text which starts at an offset, each at its place. -/
inductive Laid : Nat → Text → List Token → Prop where
  | nil (offset : Nat) : Laid offset [] []
  | cons (kind : Kind) (text : Text) {offset : Nat} {after : Text} {tokens : List Token}
    (hne : text ≠ []) (h : Laid (offset + byteLength text) after tokens) :
    Laid offset (text ++ after) (⟨kind, ⟨offset, offset + byteLength text⟩, text⟩ :: tokens)

/-- A character in front is laid before the others. -/
theorem laid_consChar {offset : Nat} {c : Char} {t : Text} {tokens : List Token}
    (h : Laid (offset + c.utf8Size) t tokens) : Laid offset (c :: t) (consChar offset c tokens) := by
  fun_cases consChar offset c tokens with
  | case1 span text rest =>
    cases h with
    | cons _ _ hne hrest =>
      rw [Nat.add_assoc] at hrest ⊢
      exact .cons .text (c :: text) (List.cons_ne_nil c text) hrest
  | case2 => exact .cons .text [c] (List.cons_ne_nil c []) h

/-- The tokens of a text are laid end to end. -/
theorem laid_scanFrom (depth offset : Nat) (t : Text) : Laid offset t (scanFrom depth offset t) := by
  fun_induction scanFrom depth offset t with
  | case1 depth offset => exact .nil offset
  | case2 depth offset rest ih => exact .cons .opening BuildExpr.opening (by decide) ih
  | case3 depth offset rest ih => exact .cons .closing ['>'] (by decide) ih
  | case4 depth offset rest ih => exact .cons .colon [':'] (by decide) ih
  | case5 depth offset rest ih => exact .cons .comma [','] (by decide) ih
  | case6 depth offset c rest _ _ _ _ ih => exact laid_consChar ih

namespace Laid

variable {offset : Nat} {t : Text} {tokens : List Token}

/-- The first token starts where the text does. -/
theorem start_of_head? (h : Laid offset t tokens) {token : Token}
    (hhead : tokens.head? = some token) : token.span.start = offset := by
  cases h with
  | nil => cases hhead
  | cons kind text hne hrest =>
    cases hhead
    rfl

/-- Each token starts where the one before it stops. -/
theorem isChain (h : Laid offset t tokens) :
    tokens.IsChain fun token following => token.span.stop = following.span.start := by
  induction h with
  | nil => exact .nil
  | cons kind text hne hrest ih =>
    rename_i rest
    cases rest with
    | nil => exact .singleton _
    | cons next rest => exact .cons_cons (hrest.start_of_head? rfl).symm ih

/-- The last token stops where the text does. -/
theorem stop_of_getLast? (h : Laid offset t tokens) {token : Token}
    (hlast : tokens.getLast? = some token) : token.span.stop = offset + byteLength t := by
  induction h with
  | nil => cases hlast
  | @cons kind text offset after rest hne hrest ih =>
    rw [Text.byteLength_append, ← Nat.add_assoc]
    cases rest with
    | nil =>
      cases hlast
      cases hrest
      rfl
    | cons next rest => exact ih (by simpa [List.getLast?_cons] using hlast)

/-- Where a token stands. -/
theorem exists_append (h : Laid offset t tokens) {token : Token} (hmem : token ∈ tokens) :
    ∃ before after, t = before ++ token.text ++ after ∧ token.text ≠ [] ∧
      token.span =
        ⟨offset + byteLength before, offset + byteLength before + byteLength token.text⟩ := by
  induction h with
  | nil => cases hmem
  | @cons kind text offset after rest hne hrest ih =>
    rcases List.mem_cons.1 hmem with rfl | hmem
    · exact ⟨[], after, rfl, hne, rfl⟩
    · obtain ⟨before, after, rfl, hne', hspan⟩ := ih hmem
      refine ⟨text ++ before, after, by simp, hne', ?_⟩
      rw [hspan, Text.byteLength_append, ← Nat.add_assoc]

/-- Tokens start at or after the offset of their text. -/
theorem le_start (h : Laid offset t tokens) {token : Token} (hmem : token ∈ tokens) :
    offset ≤ token.span.start := by
  obtain ⟨before, after, -, -, hspan⟩ := h.exists_append hmem
  rw [hspan]
  exact Nat.le_add_right _ _

/-- They end after it. -/
theorem lt_stop (h : Laid offset t tokens) {token : Token} (hmem : token ∈ tokens) :
    offset < token.span.stop := by
  obtain ⟨before, after, -, hne, hspan⟩ := h.exists_append hmem
  have hpos := Text.byteLength_pos hne
  rw [hspan]
  dsimp only
  omega

/-- No two tokens overlap. -/
theorem eq_of_contains (h : Laid offset t tokens) {a b : Token} (ha : a ∈ tokens)
    (hb : b ∈ tokens) {p : Nat} (hap : a.span.contains p = true) (hbp : b.span.contains p = true) :
    a = b := by
  simp only [Span.contains, Bool.and_eq_true, decide_eq_true_eq] at hap hbp
  induction h with
  | nil => cases ha
  | cons kind text hne hrest ih =>
    -- What comes after the first token starts where that ends.
    rcases List.mem_cons.1 ha with rfl | ha
    · rcases List.mem_cons.1 hb with rfl | hb
      · rfl
      · have hle := hrest.le_start hb
        dsimp only at hap
        omega
    · rcases List.mem_cons.1 hb with rfl | hb
      · have hle := hrest.le_start ha
        dsimp only at hbp
        omega
      · exact ih ha hb

/-- Tokens that spell a whole text tile it. -/
theorem tiling (h : Laid 0 t tokens) : Tiling t tokens where
  exists_token hne := by
    cases h with
    | nil => exact absurd rfl hne
    | cons kind text _ _ => exact List.cons_ne_nil _ _
  first _ hhead := h.start_of_head? hhead
  next := h.isChain
  last _ hlast := by rw [h.stop_of_getLast? hlast, Nat.zero_add]
  nonempty token hmem := by
    obtain ⟨before, after, -, hne, hspan⟩ := h.exists_append hmem
    have hpos := Text.byteLength_pos hne
    rw [hspan]
    dsimp only
    omega
  boundary token hmem := by
    obtain ⟨before, after, ht, -, hspan⟩ := h.exists_append hmem
    rw [hspan, Nat.zero_add]
    refine ⟨⟨before, token.text ++ after, by simpa using ht, rfl⟩, ?_⟩
    exact ⟨before ++ token.text, after, ht, Text.byteLength_append _ _⟩
  text token hmem := by
    obtain ⟨before, after, ht, -, hspan⟩ := h.exists_append hmem
    rw [hspan, Nat.zero_add, ht]
    exact (Text.slice_append before token.text after).symm

end Laid

/-! ## Texts do not touch -/

/-- A character in front becomes part of a text or a text of its own before something else. -/
theorem apart_consChar {offset : Nat} {c : Char} {tokens : List Token}
    (h : tokens.IsChain fun token following => token.kind = .text → following.kind ≠ .text) :
    (consChar offset c tokens).IsChain
      fun token following => token.kind = .text → following.kind ≠ .text := by
  fun_cases consChar offset c tokens with
  | case1 span text rest =>
    cases h with
    | singleton => exact .singleton _
    | cons_cons hfirst hrest => exact .cons_cons hfirst hrest
  | case2 =>
    rename_i hfirst
    cases tokens with
    | nil => exact .singleton _
    | cons token rest =>
      refine .cons_cons (fun _ hkind => ?_) h
      exact hfirst token.span token.text rest (by rw [← hkind])

/-- A token that is no text does not touch one with its own text. -/
theorem apart_cons {token : Token} {tokens : List Token} (hkind : token.kind ≠ .text)
    (h : tokens.IsChain fun token following => token.kind = .text → following.kind ≠ .text) :
    (token :: tokens).IsChain
      fun token following => token.kind = .text → following.kind ≠ .text := by
  cases tokens with
  | nil => exact .singleton _
  | cons next rest => exact .cons_cons (fun htext => absurd htext hkind) h

/-- No two texts among the tokens of a text touch. -/
theorem apart_scanFrom (depth offset : Nat) (t : Text) :
    (scanFrom depth offset t).IsChain
      fun token following => token.kind = .text → following.kind ≠ .text := by
  fun_induction scanFrom depth offset t with
  | case1 => exact .nil
  | case2 _ _ _ ih | case3 _ _ _ ih | case4 _ _ _ ih | case5 _ _ _ ih =>
    exact apart_cons Kind.noConfusion ih
  | case6 _ _ _ _ _ _ _ _ ih => exact apart_consChar ih

/-! ## Openings -/

/-- The spans of the openings among some tokens. -/
def openingSpans (tokens : List Token) : List Span :=
  (tokens.filter fun token => token.kind == .opening).map Token.span

/-- The spans of openings are those at which an opening stands. -/
theorem mem_openingSpans {tokens : List Token} {span : Span} :
    span ∈ openingSpans tokens ↔ At tokens .opening span := by
  simp [openingSpans, At, and_assoc]

/-- A character in front opens nothing. -/
theorem openingSpans_consChar (offset : Nat) (c : Char) (tokens : List Token) :
    openingSpans (consChar offset c tokens) = openingSpans tokens := by
  fun_cases consChar offset c tokens with
  | case1 => rfl
  | case2 => rfl

/-- The openings among the tokens are those of the text. -/
theorem openingSpans_scanFrom (depth offset : Nat) (t : Text) :
    openingSpans (scanFrom depth offset t) =
      (Text.openingsAt offset t).map fun start => ⟨start, start + 2⟩ := by
  fun_induction scanFrom depth offset t with
  | case1 => rfl
  | case2 depth offset rest ih =>
    rw [Text.openingsAt, List.map_cons, ← ih]
    rfl
  | case3 depth offset rest ih | case4 depth offset rest ih | case5 depth offset rest ih =>
    rw [Text.openingsAt]
    · exact ih
    · exact fun _ hc => by cases hc
  | case6 depth offset c rest hopen _ _ _ ih =>
    rw [openingSpans_consChar, ih, Text.openingsAt]
    exact hopen

/-! ## Marks -/

/-- The marks are the colon, the comma and the closing. -/
theorem Kind.eq_of_ofMark? {c : Char} {kind : Kind} (h : ofMark? c = some kind) :
    c = ':' ∧ kind = .colon ∨ c = ',' ∧ kind = .comma ∨ c = '>' ∧ kind = .closing := by
  unfold ofMark? at h
  split at h
  · exact .inl ⟨rfl, (Option.some.inj h).symm⟩
  · exact .inr (.inl ⟨rfl, (Option.some.inj h).symm⟩)
  · exact .inr (.inr ⟨rfl, (Option.some.inj h).symm⟩)
  · cases h

/-- A mark is no text. -/
theorem Kind.ne_text_of_ofMark? {c : Char} {kind : Kind} (h : ofMark? c = some kind) :
    kind ≠ .text := by
  rcases eq_of_ofMark? h with ⟨-, rfl⟩ | ⟨-, rfl⟩ | ⟨-, rfl⟩
  · exact Kind.noConfusion
  · exact Kind.noConfusion
  · exact Kind.noConfusion

/-- Nor is it an opening. -/
theorem Kind.ne_opening_of_ofMark? {c : Char} {kind : Kind} (h : ofMark? c = some kind) :
    kind ≠ .opening := by
  rcases eq_of_ofMark? h with ⟨-, rfl⟩ | ⟨-, rfl⟩ | ⟨-, rfl⟩
  · exact Kind.noConfusion
  · exact Kind.noConfusion
  · exact Kind.noConfusion

/-- No token ends at or before the offset of its text. -/
theorem Laid.countBefore_eq_zero {offset : Nat} {t : Text} {tokens : List Token}
    (h : Laid offset t tokens) (kind : Kind) : countBefore kind offset tokens = 0 := by
  rw [countBefore, List.countP_eq_zero]
  intro token hmem hends
  have hlt := h.lt_stop hmem
  simp only [Bool.and_eq_true, decide_eq_true_eq] at hends
  omega

/-- A token that ends at or before an offset counts for its kind. -/
theorem countBefore_cons {token : Token} {p : Nat} (hstop : token.span.stop ≤ p) (kind : Kind)
    (tokens : List Token) :
    countBefore kind p (token :: tokens) =
      countBefore kind p tokens + if token.kind = kind then 1 else 0 := by
  simp [countBefore, List.countP_cons, hstop]

/-- A character in front opens and closes nothing. -/
theorem countBefore_consChar {kind : Kind} (hkind : kind ≠ .text) (p offset : Nat) (c : Char)
    (tokens : List Token) :
    countBefore kind p (consChar offset c tokens) = countBefore kind p tokens := by
  fun_cases consChar offset c tokens with
  | case1 span text rest => simp [countBefore, hkind.symm]
  | case2 => simp [countBefore, hkind.symm]

/-- Among tokens inside `depth` open expressions, a mark is read as the language demands: as a token of
its own if an expression is open before it, and as part of a text otherwise. -/
def ReadsMark (depth : Nat) (kind : Kind) (p : Nat) (tokens : List Token) : Prop :=
  if countBefore .closing p tokens < depth + countBefore .opening p tokens then
    At tokens kind ⟨p, p + 1⟩
  else TextAt tokens p

/-- What stands among some tokens does so with one in front. -/
theorem At.cons {tokens : List Token} {kind : Kind} {span : Span} (h : At tokens kind span)
    (token : Token) : At (token :: tokens) kind span := by
  obtain ⟨found, hmem, hfound⟩ := h
  exact ⟨found, List.mem_cons_of_mem token hmem, hfound⟩

/-- So does a character of literal text. -/
theorem TextAt.cons {tokens : List Token} {p : Nat} (h : TextAt tokens p) (token : Token) :
    TextAt (token :: tokens) p := by
  obtain ⟨found, hmem, hfound⟩ := h
  exact ⟨found, List.mem_cons_of_mem token hmem, hfound⟩

/-- A token in front changes the number of open expressions by what it is. -/
theorem ReadsMark.cons {depth depth' p : Nat} {kind : Kind} {token : Token} {tokens : List Token}
    (h : ReadsMark depth' kind p tokens) (hstop : token.span.stop ≤ p)
    (hdepth : depth' + (if token.kind = .closing then 1 else 0) =
      depth + if token.kind = .opening then 1 else 0) :
    ReadsMark depth kind p (token :: tokens) := by
  have hopen : countBefore .closing p (token :: tokens) <
        depth + countBefore .opening p (token :: tokens) ↔
      countBefore .closing p tokens < depth' + countBefore .opening p tokens := by
    rw [countBefore_cons hstop, countBefore_cons hstop]
    omega
  unfold ReadsMark at h ⊢
  rw [if_congr hopen rfl rfl]
  split at h
  · next hlt => exact (if_pos hlt).mpr (h.cons token)
  · next hlt => exact (if_neg hlt).mpr (h.cons token)

/-- A character in front changes nothing about what stands behind it. -/
theorem ReadsMark.consChar {depth p offset : Nat} {kind : Kind} {c : Char} {tokens : List Token}
    (h : ReadsMark depth kind p tokens) (hkind : kind ≠ .text) (hoffset : offset ≤ p) :
    ReadsMark depth kind p (consChar offset c tokens) := by
  have hat : At tokens kind ⟨p, p + 1⟩ → At (Token.consChar offset c tokens) kind ⟨p, p + 1⟩ := by
    rintro ⟨found, hmem, hfound⟩
    fun_cases Token.consChar offset c tokens with
    | case1 span text rest =>
      rcases List.mem_cons.1 hmem with rfl | hmem
      · exact absurd hfound.1.symm hkind
      · exact ⟨found, List.mem_cons_of_mem _ hmem, hfound⟩
    | case2 => exact ⟨found, List.mem_cons_of_mem _ hmem, hfound⟩
  have htext : TextAt tokens p → TextAt (Token.consChar offset c tokens) p := by
    rintro ⟨found, hmem, hfound⟩
    fun_cases Token.consChar offset c tokens with
    | case1 span text rest =>
      rcases List.mem_cons.1 hmem with rfl | hmem
      · -- The text that takes the character in still covers what it covered.
        refine ⟨_, List.mem_cons_self, rfl, ?_⟩
        simp only [Span.contains, Bool.and_eq_true, decide_eq_true_eq] at hfound ⊢
        exact ⟨hoffset, hfound.2.2⟩
      · exact ⟨found, List.mem_cons_of_mem _ hmem, hfound⟩
    | case2 => exact ⟨found, List.mem_cons_of_mem _ hmem, hfound⟩
  unfold ReadsMark at h ⊢
  rw [countBefore_consChar (by decide), countBefore_consChar (by decide)]
  split at h
  · next hlt => exact (if_pos hlt).mpr (hat h)
  · next hlt => exact (if_neg hlt).mpr (htext h)

/-- A character in front is part of a text. -/
theorem textAt_consChar {offset : Nat} {c : Char} {t : Text} {tokens : List Token}
    (h : Laid offset t (consChar offset c tokens)) : TextAt (consChar offset c tokens) offset := by
  have hstop {token : Token} (hmem : token ∈ consChar offset c tokens) := h.lt_stop hmem
  revert hstop
  fun_cases consChar offset c tokens with
  | case1 span text rest =>
    intro hstop
    exact ⟨_, List.mem_cons_self, rfl, by simpa [Span.contains] using hstop List.mem_cons_self⟩
  | case2 =>
    intro hstop
    exact ⟨_, List.mem_cons_self, rfl, by simpa [Span.contains] using hstop List.mem_cons_self⟩

/-- A character that begins no opening and is no mark of its own is put in front of what follows. -/
theorem scanFrom_char {depth : Nat} (offset : Nat) {c : Char} {rest : Text}
    (hopen : ∀ tail, c = '$' → rest = '<' :: tail → False)
    (hmark : depth = 0 ∨ Kind.ofMark? c = none) :
    scanFrom depth offset (c :: rest) =
      consChar offset c (scanFrom depth (offset + c.utf8Size) rest) := by
  have hnot {d : Char} {kind : Kind} (hd : Kind.ofMark? d = some kind) (around : Nat)
      (hdepth : depth = around + 1) (hc : c = d) : False := by
    rcases hmark with hzero | hnone
    · omega
    · rw [hc, hd] at hnone
      cases hnone
  rw [scanFrom]
  · exact hopen
  · exact hnot (d := '>') rfl
  · exact hnot (d := ':') rfl
  · exact hnot (d := ',') rfl

/-- At the start of a text, a mark is read as the number of open expressions demands. -/
theorem readsMark_start (depth offset : Nat) {c : Char} {kind : Kind}
    (hkind : Kind.ofMark? c = some kind) (after : Text) :
    ReadsMark depth kind offset (scanFrom depth offset (c :: after)) := by
  have hlaid := laid_scanFrom depth offset (c :: after)
  unfold ReadsMark
  rw [hlaid.countBefore_eq_zero, hlaid.countBefore_eq_zero, Nat.add_zero]
  cases depth with
  | zero =>
    have hopen : ∀ tail, c = '$' → after = '<' :: tail → False := by
      rintro tail rfl
      cases hkind
    rw [if_neg (Nat.lt_irrefl 0)]
    rw [scanFrom_char offset hopen (.inl rfl)] at hlaid ⊢
    exact textAt_consChar hlaid
  | succ depth =>
    rw [if_pos (Nat.succ_pos depth)]
    rcases Kind.eq_of_ofMark? hkind with ⟨rfl, rfl⟩ | ⟨rfl, rfl⟩ | ⟨rfl, rfl⟩
    · exact ⟨_, List.mem_cons_self, rfl, rfl⟩
    · exact ⟨_, List.mem_cons_self, rfl, rfl⟩
    · exact ⟨_, List.mem_cons_self, rfl, rfl⟩

/-- A character that begins no opening is a mark of its own, inside an expression, or it is put in front
of the tokens behind it. -/
theorem scanFrom_cons (depth offset : Nat) {c : Char} {rest : Text}
    (hopen : ∀ tail, c = '$' → rest = '<' :: tail → False) :
    scanFrom depth offset (c :: rest) =
        consChar offset c (scanFrom depth (offset + c.utf8Size) rest) ∨
      ∃ kind around, Kind.ofMark? c = some kind ∧
        around + (if kind = .closing then 1 else 0) = depth ∧
        scanFrom depth offset (c :: rest) =
          ⟨kind, ⟨offset, offset + c.utf8Size⟩, [c]⟩ ::
            scanFrom around (offset + c.utf8Size) rest := by
  cases depth with
  | zero =>
    left
    exact scanFrom_char offset hopen (.inl rfl)
  | succ depth =>
    cases hkind : Kind.ofMark? c with
    | some kind =>
      -- Inside an expression a mark is a token, and only a closing leaves the expression.
      right
      rcases Kind.eq_of_ofMark? hkind with ⟨rfl, rfl⟩ | ⟨rfl, rfl⟩ | ⟨rfl, rfl⟩
      · exact ⟨.colon, depth + 1, rfl, rfl, rfl⟩
      · exact ⟨.comma, depth + 1, rfl, rfl, rfl⟩
      · exact ⟨.closing, depth, rfl, rfl, rfl⟩
    | none =>
      left
      exact scanFrom_char offset hopen (.inr hkind)

/-- Anywhere in a text, a mark is read as the number of open expressions demands. -/
theorem readsMark_scanFrom (depth offset : Nat) {c : Char} {kind : Kind}
    (hkind : Kind.ofMark? c = some kind) (before after : Text) :
    ReadsMark depth kind (offset + byteLength before)
      (scanFrom depth offset (before ++ c :: after)) := by
  induction before using Text.opening_induction generalizing depth offset with
  | nil => exact readsMark_start depth offset hkind after
  | opening rest ih =>
    -- The opening is a token of its own, and the mark is counted from inside one expression more.
    have hlength : byteLength ('$' :: '<' :: rest) = 2 + byteLength rest :=
      Text.byteLength_append BuildExpr.opening rest
    have hrest := ih (depth + 1) (offset + 2)
    rw [Nat.add_assoc] at hrest
    rw [hlength]
    have hstop : offset + 2 ≤ offset + (2 + byteLength rest) := by omega
    have hlater : ReadsMark depth kind (offset + (2 + byteLength rest))
        (⟨.opening, ⟨offset, offset + 2⟩, BuildExpr.opening⟩ ::
          scanFrom (depth + 1) (offset + 2) (rest ++ c :: after)) := hrest.cons hstop rfl
    exact hlater
  | char d rest hopen ih =>
    -- The character may be the last before the mark, which is no `<`.
    have hopen' : ∀ tail, d = '$' → rest ++ c :: after = '<' :: tail → False := by
      rintro tail rfl htail
      cases rest with
      | nil =>
        obtain ⟨rfl, -⟩ := List.cons.inj htail
        cases hkind
      | cons e rest =>
        obtain ⟨rfl, -⟩ := List.cons.inj htail
        exact hopen rest rfl rfl
    rw [List.cons_append, Text.byteLength_cons, ← Nat.add_assoc]
    rcases scanFrom_cons depth offset hopen' with heq | ⟨mark, around, hmark, hdepth, heq⟩
    · rw [heq]
      exact (ih depth (offset + d.utf8Size)).consChar (Kind.ne_text_of_ofMark? hkind) (by omega)
    · rw [heq]
      refine (ih around (offset + d.utf8Size)).cons (Nat.le_add_right _ _) ?_
      rw [if_neg (Kind.ne_opening_of_ofMark? hmark)]
      exact hdepth

/-! ## Whole texts -/

/-- The openings among the tokens are the occurrences of `$<` in the text. -/
theorem at_opening_scan (t : Text) (span : Span) :
    At (scan t) .opening span ↔
      ∃ before after, t = before ++ BuildExpr.opening ++ after ∧
        span = ⟨byteLength before, byteLength before + 2⟩ := by
  rw [← mem_openingSpans, scan, openingSpans_scanFrom, List.mem_map]
  constructor
  · rintro ⟨start, hstart, rfl⟩
    obtain ⟨before, after, ht, rfl⟩ := Text.exists_append_of_mem_openingsAt hstart
    exact ⟨before, after, ht, by rw [Nat.zero_add]⟩
  · rintro ⟨before, after, rfl, rfl⟩
    exact ⟨byteLength before, Text.byteLength_mem_openings before after, rfl⟩

section

variable {t before after : Text} {c : Char} {kind : Kind} (ht : t = before ++ c :: after)
  (hkind : Kind.ofMark? c = some kind)

include ht hkind

/-- Every mark in a text is read as the language demands. -/
theorem readsMark_scan : ReadsMark 0 kind (byteLength before) (scan t) := by
  have hreads := readsMark_scanFrom 0 0 hkind before after
  rwa [Nat.zero_add, ← ht] at hreads

/-- It is a token of its own if an expression is open before it. -/
theorem at_scan_of_openAt (hopen : OpenAt (scan t) (byteLength before)) :
    At (scan t) kind ⟨byteLength before, byteLength before + 1⟩ := by
  have hreads := readsMark_scan ht hkind
  unfold OpenAt at hopen
  rwa [ReadsMark, Nat.zero_add, if_pos hopen] at hreads

/-- It is part of a text otherwise. -/
theorem textAt_scan_of_not_openAt (hclosed : ¬ OpenAt (scan t) (byteLength before)) :
    TextAt (scan t) (byteLength before) := by
  have hreads := readsMark_scan ht hkind
  unfold OpenAt at hclosed
  rwa [ReadsMark, Nat.zero_add, if_neg hclosed] at hreads

/-- Nothing is a text and a mark of its own at once. -/
theorem openAt_of_at_scan (hmark : At (scan t) kind ⟨byteLength before, byteLength before + 1⟩) :
    OpenAt (scan t) (byteLength before) := by
  by_contra hclosed
  obtain ⟨token, hmem, hself, hspan⟩ := hmark
  obtain ⟨other, hother, htext, hcovers⟩ := textAt_scan_of_not_openAt ht hkind hclosed
  have hcovered : token.span.contains (byteLength before) = true := by
    rw [hspan]
    simp [Span.contains]
  have hsame : token = other :=
    (laid_scanFrom 0 0 t).eq_of_contains hmem hother hcovered hcovers
  have hne := Kind.ne_text_of_ofMark? hkind
  exact hne (by rw [← hself, hsame, htext])

end

/-- The tokens of a text are those that the language of expressions has for it, and some expression is
opened in them exactly if `$<` occurs in the text. -/
theorem lexed_scan (t : Text) :
    Lexed t (scan t) ∧ (anyOpening (scan t) = true ↔ BuildExpr.opening <:+: t) := by
  refine ⟨⟨(laid_scanFrom 0 0 t).tiling, spelled_of_mem_scan, apart_scanFrom 0 0 t,
    at_opening_scan t, ?_, ?_⟩, anyOpening_scan t⟩
  · intro before c after kind ht hkind
    exact ⟨openAt_of_at_scan ht hkind, at_scan_of_openAt ht hkind⟩
  · intro before c after kind ht hkind hclosed
    exact textAt_scan_of_not_openAt ht hkind hclosed

end Token

end BuildExpr
