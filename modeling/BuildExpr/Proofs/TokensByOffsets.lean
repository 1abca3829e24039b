import BuildExpr.Proofs.Cuts
import BuildExpr.Proofs.Tokens

/-!
# Scanning by offsets

The scanner does not look at every character. It goes along the bytes of a text and jumps to the next byte
that can end a text token: outside all expressions that is a `$`, inside one also a `>`, `:` or `,`, for
which two searches are made and the earlier find is taken (`nextMark_eq`). What it has jumped over is not a
token yet. It is pending from some offset on, through any number of jumps and over any `$` that opens
nothing, until another token is found or the text ends, and becomes one text token then.

So the finished tokens are not those of the text up to the cursor. What every round keeps (`Halfway`) is
that the finished tokens come first, and that the pending text put in front of the tokens of the rest makes
the others. A search ends between two characters because the bytes it looks for are below 128
(`firstMark_bytes_append`), and every round goes on behind the byte that it has found
(`scanRound_progress`), so the loop comes to an end, with the tokens of the text (`scanByOffsets_eq`).
-/

namespace BuildExpr.Token

open Text

/-! ## Searching -/

/-- The offset of the first byte that is one of some marks. -/
def firstMark (marks bytes : List UInt8) : Option Nat := bytes.findIdx? (· ∈ marks)

/-- The earlier of two offsets, of which one or both may be missing. -/
def earliest : Option Nat → Option Nat → Option Nat
  | some a, some b => some (min a b)
  | some a, none => some a
  | none, some b => some b
  | none, none => none

/-- The offset of the next `$` from the cursor on. -/
def nextDollar (bytes : List UInt8) (cursor : Nat) : Option Nat :=
  (firstMark ['$'.toUInt8] (bytes.drop cursor)).map (cursor + ·)

/-- The offset of the next `$`, `>`, `:` or `,` from the cursor on. One search takes up to three marks. -/
def nextStructural (bytes : List UInt8) (cursor : Nat) : Option Nat :=
  let rest := bytes.drop cursor
  (earliest (firstMark ['$'.toUInt8, '>'.toUInt8, ':'.toUInt8] rest)
    (firstMark [','.toUInt8] rest)).map (cursor + ·)

/-- The characters that the scanner stops at when so many expressions are open. -/
def marksAt (depth : Nat) : Text := if depth = 0 then ['$'] else ['$', '>', ':', ',']

/-- The earlier of the finds of two searches is the find of a search for both. -/
theorem earliest_firstMark (marks others bytes : List UInt8) :
    earliest (firstMark marks bytes) (firstMark others bytes) = firstMark (marks ++ others) bytes := by
  unfold firstMark
  induction bytes with
  | nil => rfl
  | cons b rest ih =>
    rw [List.findIdx?_cons, List.findIdx?_cons, List.findIdx?_cons, ← ih]
    by_cases hb : b ∈ marks
    · cases hother : (if decide (b ∈ others) = true then some 0
          else Option.map (· + 1) (rest.findIdx? (· ∈ others))) with
      | none => simp [hb, earliest]
      | some offset => simp [hb, earliest]
    · by_cases hb' : b ∈ others
      · cases rest.findIdx? (· ∈ marks) with
        | none => simp [hb, hb', earliest]
        | some offset => simp [hb, hb', earliest]
      · cases rest.findIdx? (· ∈ marks) with
        | none => cases rest.findIdx? (· ∈ others) <;> simp [hb, hb', earliest]
        | some offset => cases rest.findIdx? (· ∈ others) <;> simp [hb, hb', earliest]

/-- Whatever the number of open expressions, the next offset to stop at is that of a single search. -/
theorem nextMark_eq (bytes : List UInt8) (cursor depth : Nat) :
    (if depth = 0 then nextDollar bytes cursor else nextStructural bytes cursor) =
      (firstMark ((marksAt depth).map Char.toUInt8) (bytes.drop cursor)).map (cursor + ·) := by
  unfold marksAt
  split
  · rfl
  · unfold nextStructural
    dsimp only
    rw [earliest_firstMark]
    rfl

section

variable {marks : Text} (hmarks : marks.isAscii = true)

include hmarks

/-- None of the bytes of a character is that of a mark, unless the character is one. -/
theorem not_mem_marks {c : Char} (hc : c ∉ marks) {b : UInt8} (hb : b ∈ String.utf8EncodeChar c) :
    b ∉ marks.map Char.toUInt8 := by
  intro hmem
  obtain ⟨d, hd, rfl⟩ := List.mem_map.1 hmem
  have hlow : d.toNat < 128 := of_decide_eq_true (List.all_eq_true.1 hmarks d hd)
  by_cases hc' : c.toNat < 128
  · rw [utf8EncodeChar_of_lt hc', List.mem_singleton, toUInt8_inj hlow hc'] at hb
    exact hc (hb ▸ hd)
  · have hhigh := le_of_mem_utf8EncodeChar (Nat.not_lt.1 hc') hb
    rw [toNat_toUInt8 hlow] at hhigh
    omega

/-- A search passes over a text without marks. -/
theorem firstMark_bytes_of_not_mem {passed : Text} (h : ∀ c ∈ passed, c ∉ marks) :
    firstMark (marks.map Char.toUInt8) passed.bytes = none := by
  refine List.findIdx?_eq_none_iff.2 fun b hb => ?_
  obtain ⟨c, hc, hbyte⟩ := List.mem_flatMap.1 hb
  exact decide_eq_false (not_mem_marks hmarks (h c hc) hbyte)

/-- A search finds the first mark, where it starts. -/
theorem firstMark_bytes_append {passed : Text} (h : ∀ c ∈ passed, c ∉ marks) {c : Char}
    (hc : c ∈ marks) (rest : Text) :
    firstMark (marks.map Char.toUInt8) (bytes (passed ++ c :: rest)) = some (byteLength passed) := by
  have hlow : c.toNat < 128 := of_decide_eq_true (List.all_eq_true.1 hmarks c hc)
  have hpassed := firstMark_bytes_of_not_mem hmarks h
  unfold firstMark at hpassed ⊢
  rw [bytes_append, List.findIdx?_append, hpassed, bytes_cons, utf8EncodeChar_of_lt hlow,
    List.singleton_append, List.findIdx?_cons, length_bytes]
  simp [List.mem_map_of_mem hc]

end

/-- A text has no marks, or it goes on with one behind a part without any. -/
theorem not_mem_or_append_mark (marks t : Text) :
    (∀ c ∈ t, c ∉ marks) ∨
      ∃ passed c rest, t = passed ++ c :: rest ∧ (∀ d ∈ passed, d ∉ marks) ∧ c ∈ marks := by
  induction t with
  | nil => exact .inl nofun
  | cons c t ih =>
    by_cases hc : c ∈ marks
    · exact .inr ⟨[], c, t, rfl, nofun, hc⟩
    · rcases ih with hnone | ⟨passed, d, rest, rfl, hpassed, hd⟩
      · exact .inl (List.forall_mem_cons.2 ⟨hc, hnone⟩)
      · exact .inr ⟨c :: passed, d, rest, rfl, List.forall_mem_cons.2 ⟨hc, hpassed⟩, hd⟩

/-- All characters that the scanner stops at are below 128. -/
theorem isAscii_marksAt (depth : Nat) : (marksAt depth).isAscii = true := by
  unfold marksAt
  split
  · rfl
  · rfl

/-- The scanner stops at a `$`, or at a mark inside an expression. -/
theorem mem_marksAt {depth : Nat} {c : Char} (hc : c ∈ marksAt depth) :
    c = '$' ∨ ∃ kind around, Kind.ofMark? c = some kind ∧ depth = around + 1 := by
  unfold marksAt at hc
  cases depth with
  | zero => exact .inl (List.mem_singleton.1 hc)
  | succ around =>
    rw [if_neg (Nat.succ_ne_zero around)] at hc
    simp only [List.mem_cons, List.not_mem_nil, or_false] at hc
    rcases hc with rfl | rfl | rfl | rfl
    · exact .inl rfl
    · exact .inr ⟨.closing, around, rfl, rfl⟩
    · exact .inr ⟨.colon, around, rfl, rfl⟩
    · exact .inr ⟨.comma, around, rfl, rfl⟩

/-! ## The scanner -/

/-- What a scanner has come to. -/
structure Scanner where
  /-- The tokens so far. -/
  tokens : Array Token := #[]
  /-- Where the pending text starts. -/
  textStart : Nat := 0
  /-- How many expressions are open. -/
  depth : Nat := 0
  /-- Whether an expression has been opened. -/
  sawOpening : Bool := false

/-- The pending text up to an offset as a token, unless it is empty. -/
def Scanner.flush (t : Text) (stop : Nat) (s : Scanner) : Scanner :=
  { s with
    tokens :=
      if s.textStart < stop then s.tokens.push (ofSpan t .text ⟨s.textStart, stop⟩) else s.tokens
    textStart := stop }

/-- An offset to go on at, which is not past the end. -/
def seek (t : Text) (offset : Nat) : Nat := min offset t.bytes.length

/-- The pending text up to an offset, and a token of another kind with some bytes there. -/
def Scanner.emit (t : Text) (kind : Kind) (start width : Nat) (s : Scanner) : Scanner :=
  let s := s.flush t start
  { s with
    tokens := s.tokens.push (ofSpan t kind ⟨start, start + width⟩)
    textStart := seek t (start + width) }

/-- Where a scanner goes on, and what it has come to, after the byte that it has stopped at. -/
def scanAt (t : Text) (start : Nat) (s : Scanner) : Nat × Scanner :=
  let found := t.bytes[start]?
  if found = some '$'.toUInt8 ∧ t.bytes[start + 1]? = some '<'.toUInt8 then
    (seek t (start + 2), { s.emit t .opening start 2 with depth := s.depth + 1, sawOpening := true })
  else if found = some '>'.toUInt8 ∧ 0 < s.depth then
    (seek t (start + 1), { s.emit t .closing start 1 with depth := s.depth - 1 })
  else if found = some ':'.toUInt8 ∧ 0 < s.depth then
    (seek t (start + 1), s.emit t .colon start 1)
  else if found = some ','.toUInt8 ∧ 0 < s.depth then
    (seek t (start + 1), s.emit t .comma start 1)
  -- A `$` that opens nothing is text.
  else (seek t (start + 1), s)

/-- One round: a jump to the next byte that may end the pending text, and what is found there. -/
def scanRound (t : Text) (cursor : Nat) (s : Scanner) :
    Except Fault (Round Scanner (List Token × Bool)) :=
  let next := if s.depth = 0 then nextDollar t.bytes cursor else nextStructural t.bytes cursor
  match next with
  | none =>
    let s := s.flush t (seek t t.bytes.length)
    .ok (.done (s.tokens.toList, s.sawOpening))
  | some start =>
    let (later, s) := scanAt t start s
    .ok (.next later s)

/-- The tokens of a text, and whether an expression is opened in it, found at offsets. -/
def scanByOffsets (t : Text) : Except Fault (List Token × Bool) :=
  loop t.bytes.length (scanRound t) 0 {}

/-! ## Pending text -/

/-- The tokens of a text that starts at an offset, with a text put in front that has no other tokens. -/
def consText (offset : Nat) : Text → List Token → List Token
  | [], tokens => tokens
  | c :: t, tokens => consChar offset c (consText (offset + c.utf8Size) t tokens)

/-- Two texts are put in front one after the other. -/
theorem consText_append (offset : Nat) (a b : Text) (tokens : List Token) :
    consText offset (a ++ b) tokens = consText offset a (consText (offset + byteLength a) b tokens) := by
  induction a generalizing offset with
  | nil => rfl
  | cons c a ih =>
    rw [List.cons_append, consText, ih, consText, byteLength_cons, Nat.add_assoc]

/-- In front of another token or of nothing, a text is a token of its own. -/
theorem consText_eq {offset : Nat} {t : Text} {tokens : List Token} (hne : t ≠ [])
    (htokens : ∀ token ∈ tokens.head?, token.kind ≠ .text) :
    consText offset t tokens = ⟨.text, ⟨offset, offset + byteLength t⟩, t⟩ :: tokens := by
  induction t generalizing offset with
  | nil => exact absurd rfl hne
  | cons c t ih =>
    cases t with
    | nil =>
      cases tokens with
      | nil => rfl
      | cons token rest =>
        have hkind : token.kind ≠ .text := htokens token rfl
        obtain ⟨kind, span, text⟩ := token
        cases kind with
        | text => exact absurd rfl hkind
        | _ => rfl
    | cons d t =>
      rw [consText, ih (List.cons_ne_nil d t), byteLength_cons c, ← Nat.add_assoc]
      rfl

/-- A text in front opens nothing. -/
theorem anyOpening_consText (offset : Nat) (t : Text) (tokens : List Token) :
    anyOpening (consText offset t tokens) = anyOpening tokens := by
  induction t generalizing offset with
  | nil => rfl
  | cons c t ih =>
    rw [consText, ← ih (offset + c.utf8Size)]
    fun_cases consChar offset c (consText (offset + c.utf8Size) t tokens) with
    | case1 => rfl
    | case2 => rfl

/-- A text without marks stands in front of the tokens of the rest. -/
theorem scanFrom_append {depth : Nat} (offset : Nat) {passed : Text}
    (hpassed : ∀ c ∈ passed, c ∉ marksAt depth) (rest : Text) :
    scanFrom depth offset (passed ++ rest) =
      consText offset passed (scanFrom depth (offset + byteLength passed) rest) := by
  induction passed generalizing offset with
  | nil => rfl
  | cons c passed ih =>
    obtain ⟨hc, hothers⟩ := List.forall_mem_cons.1 hpassed
    -- The scanner stops at every `$`, and inside expressions at every mark.
    have hopen : ∀ tail, c = '$' → passed ++ rest = '<' :: tail → False := by
      rintro tail rfl -
      unfold marksAt at hc
      split at hc
      · exact hc (by simp)
      · exact hc (by simp)
    have hmark : depth = 0 ∨ Kind.ofMark? c = none := by
      unfold marksAt at hc
      split at hc
      · next hzero => exact .inl hzero
      · right
        cases hkind : Kind.ofMark? c with
        | none => rfl
        | some kind =>
          rcases Kind.eq_of_ofMark? hkind with ⟨rfl, -⟩ | ⟨rfl, -⟩ | ⟨rfl, -⟩
          · exact absurd (by simp) hc
          · exact absurd (by simp) hc
          · exact absurd (by simp) hc
    rw [List.cons_append, scanFrom_char offset hopen hmark, ih _ hothers, consText, byteLength_cons,
      Nat.add_assoc]

/-! ## What the rounds keep -/

/-- In the middle of a scan the text falls into what has become tokens, what is pending and the rest. -/
structure Halfway (t : Text) (s : Scanner) (done pending rest : Text) : Prop where
  /-- Nothing is lost. -/
  text : t = done ++ pending ++ rest
  /-- The pending text starts behind what is done. -/
  start : s.textStart = byteLength done
  /-- The pending text in front of the tokens of the rest makes the tokens that are missing. -/
  tokens : scan t = s.tokens.toList ++ consText (byteLength done) pending
    (scanFrom s.depth (byteLength (done ++ pending)) rest)
  /-- An expression has been opened so far or is opened in the rest. -/
  saw : anyOpening (scan t) =
    (s.sawOpening || anyOpening (scanFrom s.depth (byteLength (done ++ pending)) rest))

namespace Halfway

variable {t : Text} {s : Scanner} {done pending passed rest : Text}

/-- Nothing has been scanned at the start. -/
theorem zero (t : Text) : Halfway t {} [] [] t := ⟨rfl, rfl, rfl, rfl⟩

/-- A text whose characters are put in front of what follows becomes pending. -/
theorem pass (h : Halfway t s done pending (passed ++ rest))
    (hscan : ∀ offset, scanFrom s.depth offset (passed ++ rest) =
      consText offset passed (scanFrom s.depth (offset + byteLength passed) rest)) :
    Halfway t s done (pending ++ passed) rest where
  text := by rw [h.text]; simp
  start := h.start
  tokens := by
    rw [h.tokens, hscan, consText_append, ← List.append_assoc, byteLength_append (done ++ pending),
      byteLength_append done]
  saw := by
    rw [h.saw, hscan, anyOpening_consText, ← List.append_assoc, byteLength_append (done ++ pending)]

/-- The pending text becomes a token in front of what follows, if that does not start with text. -/
theorem flush (h : Halfway t s done pending rest) (tokens : List Token)
    (htokens : ∀ token ∈ tokens.head?, token.kind ≠ .text) :
    (s.flush t (byteLength (done ++ pending))).tokens.toList ++ tokens =
      s.tokens.toList ++ consText (byteLength done) pending tokens := by
  unfold Scanner.flush
  dsimp only
  rw [h.start, byteLength_append]
  by_cases hpending : pending = []
  · subst hpending
    rw [if_neg (by simp)]
    rfl
  · have hpos := byteLength_pos hpending
    have hcut : t.cut ⟨byteLength done, byteLength done + byteLength pending⟩ = pending := by
      rw [h.text]
      exact slice_append done pending rest
    rw [if_pos (by omega), consText_eq hpending htokens, ofSpan, hcut, Array.toList_push,
      List.append_assoc]
    rfl

/-- A token of another kind follows the pending text, and nothing is pending behind it. -/
theorem emit {mark : Text} {kind : Kind} {width depth : Nat} {saw : Bool}
    (h : Halfway t s done pending (mark ++ rest)) (hkind : kind ≠ .text)
    (hwidth : byteLength mark = width)
    (hscan : ∀ offset, scanFrom s.depth offset (mark ++ rest) =
      ⟨kind, ⟨offset, offset + width⟩, mark⟩ :: scanFrom depth (offset + width) rest)
    (hsaw : saw = (s.sawOpening || kind == .opening)) :
    Halfway t { s.emit t kind (byteLength (done ++ pending)) width with depth, sawOpening := saw }
      (done ++ pending ++ mark) [] rest := by
  have hstart : byteLength (done ++ pending ++ mark) = byteLength (done ++ pending) + width := by
    rw [byteLength_append, hwidth]
  have htext : t = done ++ pending ++ mark ++ rest := by rw [h.text, List.append_assoc _ mark]
  have hcut : t.cut ⟨byteLength (done ++ pending), byteLength (done ++ pending) + width⟩ = mark := by
    rw [htext, ← hwidth]
    exact slice_append (done ++ pending) mark rest
  have hend : byteLength (done ++ pending) + width ≤ t.bytes.length := by
    rw [length_bytes, htext, byteLength_append _ rest, hstart]
    exact Nat.le_add_right _ _
  -- In this order: where the text starts, which tokens there are, whether an expression has been opened.
  refine ⟨by rw [List.append_nil]; exact htext, ?_, ?_, ?_⟩
  · rw [hstart]
    exact Nat.min_eq_left hend
  · rw [h.tokens, hscan, ← h.flush _ fun token htoken => by cases htoken; exact hkind, List.append_nil,
      hstart]
    change _ = ((s.flush t (byteLength (done ++ pending))).tokens.push
      (ofSpan t kind ⟨byteLength (done ++ pending), byteLength (done ++ pending) + width⟩)).toList ++ _
    rw [Array.toList_push, ofSpan, hcut, List.append_assoc]
    rfl
  · rw [h.saw, hscan, List.append_nil, hstart, hsaw, Bool.or_assoc]
    rfl

/-- When the rest is empty, the tokens are complete once the pending text is one of them. -/
theorem finish (h : Halfway t s done pending []) :
    (s.flush t (byteLength t)).tokens.toList = scan t ∧ s.sawOpening = anyOpening (scan t) := by
  have hflush := h.flush [] nofun
  have htext : t = done ++ pending := h.text.trans (List.append_nil _)
  rw [← htext, List.append_nil] at hflush
  have htokens := h.tokens
  have hsaw := h.saw
  rw [scanFrom] at htokens hsaw
  exact ⟨hflush.trans htokens.symm, by rw [hsaw]; exact (Bool.or_false _).symm⟩

end Halfway

/-- The cursor is at the end of the pending text. -/
def Scanning (t : Text) (cursor : Nat) (s : Scanner) : Prop :=
  ∃ done pending rest, Halfway t s done pending rest ∧ cursor = byteLength (done ++ pending)

/-- The scanner goes on later in the text, and the invariant holds there. -/
def GoesOn (t : Text) (cursor : Nat) (next : Nat × Scanner) : Prop :=
  cursor < next.1 ∧ next.1 ≤ t.bytes.length ∧ Scanning t next.1 next.2

section

variable {t done pending after : Text} {s : Scanner}

/-- So it does behind some bytes of the text. -/
theorem goesOn_seek {before mark : Text} {width : Nat} (ht : t = before ++ mark ++ after)
    (hwidth : byteLength mark = width) (hpos : 0 < width)
    (hscanning : Scanning t (byteLength (before ++ mark)) s) :
    GoesOn t (byteLength before) (seek t (byteLength before + width), s) := by
  have hstop : byteLength before + width = byteLength (before ++ mark) := by
    rw [byteLength_append, hwidth]
  have hend : byteLength before + width ≤ t.bytes.length := by
    rw [length_bytes, ht, byteLength_append _ after, hstop]
    exact Nat.le_add_right _ _
  have hseek : seek t (byteLength before + width) = byteLength before + width := Nat.min_eq_left hend
  rw [hseek]
  refine ⟨Nat.lt_add_of_pos_right hpos, hend, ?_⟩
  rw [hstop]
  exact hscanning

/-- So it does behind a token that is no text. -/
theorem goesOn_emit (mark : Text) (depth : Nat) {kind : Kind} {width : Nat} {saw : Bool}
    (h : Halfway t s done pending (mark ++ after)) (hkind : kind ≠ .text)
    (hwidth : byteLength mark = width) (hpos : 0 < width)
    (hscan : ∀ offset, scanFrom s.depth offset (mark ++ after) =
      ⟨kind, ⟨offset, offset + width⟩, mark⟩ :: scanFrom depth (offset + width) after)
    (hsaw : saw = (s.sawOpening || kind == .opening)) :
    GoesOn t (byteLength (done ++ pending)) (seek t (byteLength (done ++ pending) + width),
      { s.emit t kind (byteLength (done ++ pending)) width with depth, sawOpening := saw }) := by
  have ht : t = done ++ pending ++ mark ++ after := by rw [h.text, List.append_assoc _ mark]
  refine goesOn_seek ht hwidth hpos ?_
  exact ⟨_, [], after, h.emit hkind hwidth hscan hsaw, by rw [List.append_nil]⟩

/-- The byte at the cursor tells the character there, if that is one below 128. -/
theorem getElem?_found {c d : Char} (h : Halfway t s done pending (c :: after)) (hd : d.toNat < 128) :
    t.bytes[byteLength (done ++ pending)]? = some d.toUInt8 ↔ c = d := by
  have hahead : Ahead t (byteLength (done ++ pending)) (done ++ pending) (c :: after) := by
    rw [h.text]
    exact ahead_append (done ++ pending) (c :: after)
  rw [hahead.getElem?_iff hd]
  simp

/-- Behind a `$` the next byte tells whether a `<` follows. -/
theorem getElem?_second (h : Halfway t s done pending ('$' :: after)) :
    t.bytes[byteLength (done ++ pending) + 1]? = some '<'.toUInt8 ↔ after.head? = some '<' := by
  have hahead : Ahead t (byteLength (done ++ pending)) (done ++ pending) ('$' :: after) := by
    rw [h.text]
    exact ahead_append (done ++ pending) ('$' :: after)
  have hstart : byteLength (done ++ pending) + 1 = byteLength (done ++ pending ++ ['$']) := by
    rw [byteLength_append _ ['$']]
    rfl
  rw [(hahead.next rfl).getElem?_iff (by decide), hstart]
  simp

/-- At `$<` an expression is opened. -/
theorem goesOn_opening (h : Halfway t s done pending ('$' :: '<' :: after)) :
    GoesOn t (byteLength (done ++ pending)) (scanAt t (byteLength (done ++ pending)) s) := by
  unfold scanAt
  dsimp only
  rw [if_pos ⟨(getElem?_found h (by decide)).2 rfl, (getElem?_second h).2 rfl⟩]
  refine goesOn_emit BuildExpr.opening (s.depth + 1) h (by decide) rfl (by decide) (fun offset => ?_)
    (Bool.or_true _).symm
  rw [BuildExpr.opening, List.cons_append, List.cons_append, scanFrom]
  rfl

/-- Any other `$` becomes pending, and the scanner keeps what it has. -/
theorem goesOn_dollar (h : Halfway t s done pending ('$' :: after)) (hafter : after.head? ≠ some '<') :
    GoesOn t (byteLength (done ++ pending)) (scanAt t (byteLength (done ++ pending)) s) := by
  have hsecond : ¬ t.bytes[byteLength (done ++ pending) + 1]? = some '<'.toUInt8 :=
    fun hless => hafter ((getElem?_second h).1 hless)
  have hother : ∀ tail, '$' = '$' → after = '<' :: tail → False := by
    rintro tail - rfl
    exact hafter rfl
  have hpassed : Halfway t s done (pending ++ ['$']) after :=
    Halfway.pass h fun offset => scanFrom_char offset hother (.inr rfl)
  have ht : t = done ++ pending ++ ['$'] ++ after := by rw [h.text, List.append_assoc _ ['$']]; rfl
  unfold scanAt
  simp only [getElem?_found h (d := '>') (by decide), getElem?_found h (d := ':') (by decide),
    getElem?_found h (d := ',') (by decide), hsecond, and_false, if_false]
  rw [if_neg (by simp), if_neg (by simp), if_neg (by simp)]
  exact goesOn_seek ht rfl (by decide) ⟨done, _, after, hpassed, by rw [List.append_assoc]⟩

/-- Inside an expression a closing, colon or comma is a token of its kind. -/
theorem goesOn_mark {c : Char} {kind : Kind} (h : Halfway t s done pending (c :: after))
    (hkind : Kind.ofMark? c = some kind) {around : Nat} (hdepth : s.depth = around + 1) :
    GoesOn t (byteLength (done ++ pending)) (scanAt t (byteLength (done ++ pending)) s) := by
  have hpos : 0 < s.depth := by omega
  unfold scanAt
  simp only [getElem?_found h (d := '$') (by decide), getElem?_found h (d := '>') (by decide),
    getElem?_found h (d := ':') (by decide), getElem?_found h (d := ',') (by decide)]
  rcases Kind.eq_of_ofMark? hkind with ⟨rfl, rfl⟩ | ⟨rfl, rfl⟩ | ⟨rfl, rfl⟩
  · rw [if_neg (by simp), if_neg (by simp), if_pos ⟨rfl, hpos⟩]
    refine goesOn_emit [':'] s.depth h (by decide) rfl (by decide) (fun offset => ?_)
      (Bool.or_false _).symm
    rw [hdepth, List.singleton_append, scanFrom]
  · rw [if_neg (by simp), if_neg (by simp), if_neg (by simp), if_pos ⟨rfl, hpos⟩]
    refine goesOn_emit [','] s.depth h (by decide) rfl (by decide) (fun offset => ?_)
      (Bool.or_false _).symm
    rw [hdepth, List.singleton_append, scanFrom]
  · rw [if_neg (by simp), if_pos ⟨rfl, hpos⟩]
    refine goesOn_emit ['>'] (s.depth - 1) h (by decide) rfl (by decide) (fun offset => ?_)
      (Bool.or_false _).symm
    rw [hdepth, Nat.add_sub_cancel, List.singleton_append, scanFrom]

/-- So it does wherever it stops. -/
theorem goesOn_scanAt {c : Char} (h : Halfway t s done pending (c :: after))
    (hc : c ∈ marksAt s.depth) :
    GoesOn t (byteLength (done ++ pending)) (scanAt t (byteLength (done ++ pending)) s) := by
  rcases mem_marksAt hc with rfl | ⟨kind, around, hkind, hdepth⟩
  · by_cases hafter : after.head? = some '<'
    · obtain ⟨tail, rfl⟩ := List.head?_eq_some_iff.1 hafter
      exact goesOn_opening h
    · exact goesOn_dollar h hafter
  · exact goesOn_mark h hkind hdepth

end

/-- Each round ends with the tokens of the text or goes on at a later offset. -/
theorem scanRound_progress {t : Text} {cursor : Nat} {s : Scanner} (h : Scanning t cursor s) :
    Progress t.bytes.length (Scanning t) (scan t, anyOpening (scan t)) cursor (scanRound t cursor s) := by
  obtain ⟨done, pending, rest, hhalf, rfl⟩ := h
  have hdrop : t.bytes.drop (byteLength (done ++ pending)) = rest.bytes := by
    rw [hhalf.text, drop_bytes_append]
  unfold scanRound
  dsimp only
  rw [nextMark_eq, hdrop]
  rcases not_mem_or_append_mark (marksAt s.depth) rest with hnone | ⟨passed, c, after, rfl, hpassed, hc⟩
  · -- Nothing stops the scanner any more, so all that is left becomes text.
    rw [firstMark_bytes_of_not_mem (isAscii_marksAt s.depth) hnone]
    have hend : Halfway t s done (pending ++ rest) [] := by
      refine Halfway.pass (by rwa [List.append_nil]) fun offset => ?_
      exact scanFrom_append offset hnone []
    obtain ⟨htokens, hsaw⟩ := hend.finish
    have hseek : seek t t.bytes.length = byteLength t := by
      rw [seek, Nat.min_self, length_bytes]
    dsimp only [Option.map_none]
    rw [hseek, htokens]
    exact congrArg (scan t, ·) hsaw
  · -- The scanner jumps to the first mark, and everything in front of it becomes pending.
    rw [firstMark_bytes_append (isAscii_marksAt s.depth) hpassed hc]
    have hjumped : Halfway t s done (pending ++ passed) (c :: after) :=
      hhalf.pass fun offset => scanFrom_append offset hpassed (c :: after)
    have hstart : byteLength (done ++ pending) + byteLength passed =
        byteLength (done ++ (pending ++ passed)) := by
      rw [← List.append_assoc, byteLength_append (done ++ pending)]
    obtain ⟨hlater, hend, hscanning⟩ := goesOn_scanAt hjumped hc
    dsimp only [Option.map_some]
    rw [hstart]
    refine ⟨Nat.lt_of_le_of_lt ?_ hlater, hend, hscanning⟩
    rw [← hstart]
    exact Nat.le_add_right _ _

/-- The scan at offsets comes to an end, with the tokens of the text. -/
theorem scanByOffsets_eq (t : Text) : scanByOffsets t = .ok (scan t, anyOpening (scan t)) :=
  loop_eq_ok (fun _ _ => scanRound_progress) ⟨[], [], t, .zero t, rfl⟩

/-- The scan of a text comes to an end. Its tokens are those that the language of expressions has for the
text, and it says that an expression is opened exactly if `$<` occurs in the text. -/
theorem scanByOffsets_lexed (t : Text) :
    ∃ tokens sawOpening, scanByOffsets t = .ok (tokens, sawOpening) ∧ tokens = scan t ∧
      Lexed t tokens ∧ (sawOpening = true ↔ BuildExpr.opening <:+: t) := by
  obtain ⟨hlexed, hopening⟩ := lexed_scan t
  exact ⟨scan t, anyOpening (scan t), scanByOffsets_eq t, rfl, hlexed, hopening⟩

end BuildExpr.Token
