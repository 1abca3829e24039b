import BuildExpr.Delimiter
import BuildExpr.Proofs.Bytes
import BuildExpr.Proofs.Closed

/-!
# Cutting texts at offsets

A piece of a text can be named by two byte offsets. It is there only if the offsets are in order, do not lie
past the end and do not fall inside a character; otherwise asking for it is a fault (`between`). A loop that
goes along a text is at some offset in each round, and it is a fault if the next round is not at a later one
(`loop`). So a result says of everything that was done for it that the pieces were there and that every loop
came to an end.

Whether a loop has a result is seen from one round: if each goes on to a later offset and keeps an
invariant, the loop ends (`loop_eq_ok`). The scan for the end of an expression is the first such loop
(`closingOffset_of_append`).
-/

namespace BuildExpr

/-- What can go wrong at the offsets of a text. -/
inductive Fault where
  /-- A piece whose ends are out of order, past the end or inside a character. -/
  | badCut (start stop : Nat)
  /-- A round of a loop after which the next one is not at a later offset of the text. -/
  | standstill (offset : Nat)

/-- After a step without a fault, the next one goes on from its value. -/
theorem Fault.ok_bind {α β : Type} (a : α) (f : α → Except Fault β) : (Except.ok a >>= f) = f a := rfl

/-! ## Pieces -/

namespace Text

/-- The piece between two offsets. -/
def between (t : Text) (start stop : Nat) : Except Fault Text :=
  if start ≤ stop ∧ stop ≤ byteLength t ∧ t.IsBoundary start ∧ t.IsBoundary stop then
    .ok (t.slice start stop)
  else .error (.badCut start stop)

/-- The bytes from an offset on, which may be inside a character. -/
def bytesFrom (t : Text) (start : Nat) : Except Fault (List UInt8) :=
  if start ≤ byteLength t then .ok (t.bytes.drop start) else .error (.badCut start (byteLength t))

/-- The piece between the ends of a middle part is that part. -/
theorem between_of_append {t a b c : Text} (ht : t = a ++ b ++ c) {start stop : Nat}
    (hstart : start = byteLength a) (hstop : stop = byteLength a + byteLength b) :
    t.between start stop = .ok b := by
  subst ht hstart hstop
  have hleft : IsBoundary (a ++ b ++ c) (byteLength a) := ⟨a, b ++ c, List.append_assoc .., rfl⟩
  have hright : IsBoundary (a ++ b ++ c) (byteLength a + byteLength b) :=
    ⟨a ++ b, c, rfl, byteLength_append a b⟩
  have hend : byteLength a + byteLength b ≤ byteLength (a ++ b ++ c) := by
    rw [byteLength_append, byteLength_append]
    exact Nat.le_add_right _ _
  rw [between, if_pos ⟨Nat.le_add_right _ _, hend, hleft, hright⟩, slice_append]

/-- Inside a character nothing can be cut. -/
example : between "é" 0 1 = .error (.badCut 0 1) := rfl

/-- So the piece from the end of a first part on is the rest. -/
theorem between_end {t a b : Text} (ht : t = a ++ b) {start : Nat} (hstart : start = byteLength a) :
    t.between start (byteLength t) = .ok b := by
  refine between_of_append (c := []) ?_ hstart ?_
  · rw [ht, List.append_nil]
  · rw [ht, byteLength_append]

/-- The bytes from the end of a first part on are those of the rest. -/
theorem bytesFrom_of_append {t a b : Text} (ht : t = a ++ b) {start : Nat}
    (hstart : start = byteLength a) : t.bytesFrom start = .ok b.bytes := by
  subst ht hstart
  have hle : byteLength a ≤ byteLength (a ++ b) := by
    rw [byteLength_append]
    exact Nat.le_add_right _ _
  rw [bytesFrom, if_pos hle, drop_bytes_append]

end Text

/-! ## Loops -/

/-- What a round of a loop comes to. -/
inductive Round (σ β : Type) where
  /-- The loop goes on at an offset, in a state. -/
  | next (offset : Nat) (state : σ)
  /-- The loop ends with a result. -/
  | done (result : β)

/-- A loop along a text of some length, from an offset and a state on. -/
def loop {σ β : Type} (length : Nat) (round : Nat → σ → Except Fault (Round σ β)) (offset : Nat)
    (state : σ) : Except Fault β :=
  match round offset state with
  | .error fault => .error fault
  | .ok (.done result) => .ok result
  | .ok (.next later state) =>
    if offset < later ∧ later ≤ length then loop length round later state
    else .error (.standstill offset)
termination_by length - offset
decreasing_by omega

/-- A round at an offset comes to the result, or goes on later and keeps an invariant. -/
def Progress {σ β : Type} (length : Nat) (invariant : Nat → σ → Prop) (result : β) (offset : Nat) :
    Except Fault (Round σ β) → Prop
  | .error _ => False
  | .ok (.done found) => found = result
  | .ok (.next later state) => offset < later ∧ later ≤ length ∧ invariant later state

/-- A loop each round of which makes progress has the result. -/
theorem loop_eq_ok {σ β : Type} {length : Nat} {round : Nat → σ → Except Fault (Round σ β)}
    {invariant : Nat → σ → Prop} {result : β}
    (hround : ∀ offset state, invariant offset state →
      Progress length invariant result offset (round offset state))
    {offset : Nat} {state : σ} (h : invariant offset state) :
    loop length round offset state = .ok result := by
  -- The cases are those of a round: a fault, a result, a later offset, and one that is no later.
  fun_induction loop length round offset state with
  | case1 offset state fault hfault =>
    have hprogress := hround offset state h
    rw [hfault] at hprogress
    exact hprogress.elim
  | case2 offset state found hfound =>
    have hprogress := hround offset state h
    rw [hfound] at hprogress
    rw [show found = result from hprogress]
  | case3 offset state later after hnext hlater ih =>
    have hprogress := hround offset state h
    rw [hnext] at hprogress
    exact ih hprogress.2.2
  | case4 offset state later after hnext hlater =>
    have hprogress := hround offset state h
    rw [hnext] at hprogress
    exact absurd ⟨hprogress.1, hprogress.2.1⟩ hlater

/-! ## Openings and closings -/

namespace Text

/-- The offset of the first `$<` at another offset or after it, searching through the bytes. -/
def openingOffset (t : Text) (start : Nat) : Option Nat :=
  if start ≤ byteLength t then
    (firstOffset opening.bytes (t.bytes.drop start)).map (start + ·)
  else none

/-- Splitting around the first opening is splitting at it. -/
theorem splitAround_opening (t : Text) : splitAround opening t = splitAtOpening t := by
  fun_induction splitAtOpening t with
  | case1 => rfl
  | case2 rest => rfl
  | case3 c rest hopen ih =>
    have hnot : ¬ opening.isPrefixOf (c :: rest) = true := by
      rw [List.isPrefixOf_iff_prefix]
      rintro ⟨tail, htail⟩
      obtain ⟨hc, hrest⟩ := List.cons.inj htail
      exact hopen tail hc.symm hrest.symm
    rw [splitAround, if_neg hnot, ih]

/-- The first opening from the end of a first part on is that of the rest. -/
theorem openingOffset_of_append {t a b : Text} (ht : t = a ++ b) {start : Nat}
    (hstart : start = byteLength a) :
    t.openingOffset start =
      (splitAtOpening b).map fun (before, _) => byteLength a + byteLength before := by
  subst ht hstart
  have hle : byteLength a ≤ byteLength (a ++ b) := by
    rw [byteLength_append]
    exact Nat.le_add_right _ _
  rw [openingOffset, if_pos hle, drop_bytes_append, firstOffset_bytes (by decide) (by decide),
    splitAround_opening, Option.map_map]
  rfl

/-- An opening behind a cut is in the text with all that is around it. -/
theorem append_opening {t done rest before after : Text} (ht : t = done ++ rest)
    (hopen : rest.splitAtOpening = some (before, after)) :
    t = done ++ before ++ opening ++ after := by
  rw [ht, append_of_splitAtOpening hopen]
  simp

/-- Behind an opening the scan is two bytes further. -/
theorem byteLength_opening (done before : Text) :
    byteLength done + byteLength before + 2 = byteLength (done ++ before ++ opening) := by
  rw [byteLength_append, byteLength_append]
  rfl

/-- So is a `>` that closes expressions. -/
theorem append_closing {t done after inside behind : Text} (ht : t = done ++ after)
    (hclose : after.splitAtClosing 0 = some (inside, behind)) :
    t = done ++ (inside ++ ['>']) ++ behind := by
  rw [ht, append_of_splitAtClosing hclose]
  simp

/-- Behind a closing it is one byte further. -/
theorem byteLength_closing (done inside : Text) :
    byteLength done + byteLength inside + 1 = byteLength (done ++ (inside ++ ['>'])) := by
  rw [byteLength_append done, byteLength_append inside, ← Nat.add_assoc]
  rfl

/-- One round of the scan for the `>` that closes the outermost of some expressions. -/
def closingRound (bytes : List UInt8) (offset depth : Nat) : Except Fault (Round Nat (Option Nat)) :=
  match bytes[offset]? with
  | none => .ok (.done none)
  | some b =>
    if b = '$'.toUInt8 ∧ bytes[offset + 1]? = some '<'.toUInt8 then .ok (.next (offset + 2) (depth + 1))
    else if b = '>'.toUInt8 then
      if depth - 1 = 0 then .ok (.done (some offset)) else .ok (.next (offset + 1) (depth - 1))
    else .ok (.next (offset + 1) depth)

/-- The offset of the `>` that closes an expression whose `$<` ends at another one. -/
def closingOffset (t : Text) (start : Nat) : Except Fault (Option Nat) :=
  loop t.bytes.length (closingRound t.bytes) start 1

section

variable {t before rest : Text} {offset : Nat} (depth : Nat)

/-- Inside a character there is no delimiter. -/
theorem closingRound_inside (h : Ahead t offset before rest) (hlt : offset < byteLength before) :
    closingRound t.bytes offset depth = .ok (.next (offset + 1) depth) := by
  have hend : offset < byteLength t := by
    rw [h.byteLength_eq]
    omega
  obtain ⟨b, hbyte, hb⟩ := h.exists_byte hend
  have hne (c : Char) (hc : c.toNat < 128) : b ≠ c.toUInt8 := fun heq =>
    absurd ((hb c hc).1 heq).1 (Nat.ne_of_lt hlt)
  unfold closingRound
  rw [hbyte]
  dsimp only
  rw [if_neg fun hopen => hne '$' (by decide) hopen.1, if_neg (hne '>' (by decide))]

/-- At an opening, a round goes on two bytes later, one expression deeper. -/
theorem closingRound_opening (h : Ahead t offset before ('$' :: '<' :: rest))
    (hstart : offset = byteLength before) :
    closingRound t.bytes offset depth = .ok (.next (offset + 2) (depth + 1)) := by
  have hsecond : offset + 1 = byteLength (before ++ ['$']) := by
    rw [hstart, byteLength_append]
    rfl
  unfold closingRound
  rw [(h.getElem?_iff (by decide)).2 ⟨hstart, rfl⟩,
    ((h.next hstart).getElem?_iff (by decide)).2 ⟨hsecond, rfl⟩]
  exact if_pos ⟨rfl, rfl⟩

/-- At a closing, a round ends with its offset if that closes the outermost expression, and goes on
behind it otherwise. -/
theorem closingRound_closing (h : Ahead t offset before ('>' :: rest))
    (hstart : offset = byteLength before) :
    closingRound t.bytes offset depth =
      if depth - 1 = 0 then .ok (.done (some offset)) else .ok (.next (offset + 1) (depth - 1)) := by
  unfold closingRound
  rw [(h.getElem?_iff (by decide)).2 ⟨hstart, rfl⟩]
  dsimp only
  rw [if_neg fun hopen => absurd hopen.1 (by decide), if_pos rfl]

/-- At any other character, a round goes on at the next byte, as deep as before. -/
theorem closingRound_cons {c : Char} (h : Ahead t offset before (c :: rest))
    (hstart : offset = byteLength before) (hclose : c ≠ '>')
    (hopen : ∀ tail, c = '$' → rest = '<' :: tail → False) :
    closingRound t.bytes offset depth = .ok (.next (offset + 1) depth) := by
  obtain ⟨b, hbyte, hb⟩ := h.exists_byte h.lt_of_cons
  have hfirst (d : Char) (hd : d.toNat < 128) (heq : b = d.toUInt8) : c = d :=
    Option.some.inj ((hb d hd).1 heq).2
  unfold closingRound
  rw [hbyte]
  dsimp only
  rw [if_neg, if_neg fun heq => hclose (hfirst '>' (by decide) heq)]
  rintro ⟨hdollar, hless⟩
  obtain ⟨-, hhead⟩ := ((h.next hstart).getElem?_iff (by decide)).1 hless
  obtain ⟨tail, htail⟩ := List.head?_eq_some_iff.1 hhead
  exact hopen tail (hfirst '$' (by decide) hdollar) htail

end

/-- In the scan at an offset, `depth` expressions are open and what closes them is still ahead. -/
def Scanning (t : Text) (closing : Option Nat) (offset depth : Nat) : Prop :=
  ∃ before rest inner, Ahead t offset before rest ∧ depth = inner + 1 ∧
    closing = (splitAtClosing inner rest).map fun (inside, _) => byteLength before + byteLength inside

/-- What closes expressions behind a first part is behind it in the whole. -/
theorem closing_after (before : Text) {first rest t : Text} {inner inner' : Nat}
    (h : splitAtClosing inner t =
      (splitAtClosing inner' rest).map fun (inside, after) => (first ++ inside, after)) :
    ((splitAtClosing inner t).map fun (inside, _) => byteLength before + byteLength inside) =
      (splitAtClosing inner' rest).map fun (inside, _) =>
        byteLength (before ++ first) + byteLength inside := by
  rw [h, Option.map_map]
  refine congrArg (Option.map · _) (funext fun parts => ?_)
  simp [Nat.add_assoc]

/-- Each round makes progress towards the closing. -/
theorem closingRound_progress {t : Text} {closing : Option Nat} {offset depth : Nat}
    (h : Scanning t closing offset depth) :
    Progress t.bytes.length (Scanning t closing) closing offset (closingRound t.bytes offset depth) := by
  obtain ⟨before, rest, inner, hahead, rfl, rfl⟩ := h
  rw [length_bytes]
  rcases Nat.lt_or_eq_of_le hahead.le with hinside | hstart
  · have hnext := hahead.next_inside hinside
    rw [closingRound_inside _ hahead hinside]
    exact ⟨Nat.lt_succ_self offset, hnext.le_byteLength, before, rest, inner, hnext, rfl, rfl⟩
  · -- The cases are those of `splitAtClosing`.
    cases rest with
    | nil =>
      unfold closingRound
      rw [hahead.getElem?_eq_none hstart]
      rfl
    | cons c rest =>
      have hnext := hahead.next hstart
      by_cases hclose : c = '>'
      · subst hclose
        rw [closingRound_closing _ hahead hstart]
        cases inner with
        | zero =>
          rw [hstart]
          rfl
        | succ inner =>
          rw [if_neg (by omega)]
          exact ⟨Nat.lt_succ_self offset, hnext.le_byteLength, before ++ ['>'], rest, inner, hnext, rfl,
            closing_after before rfl⟩
      by_cases hopen : c = '$' ∧ ∃ tail, rest = '<' :: tail
      · obtain ⟨rfl, tail, rfl⟩ := hopen
        have hsecond := hnext.next (by rw [hstart, byteLength_append]; rfl)
        rw [closingRound_opening _ hahead hstart]
        refine ⟨by omega, hsecond.le_byteLength, before ++ ['$'] ++ ['<'], tail, inner + 1, hsecond, rfl, ?_⟩
        rw [List.append_assoc]
        exact closing_after before rfl
      · have hother : ∀ tail, c = '$' → rest = '<' :: tail → False :=
          fun tail hc hrest => hopen ⟨hc, tail, hrest⟩
        rw [closingRound_cons _ hahead hstart hclose hother]
        exact ⟨Nat.lt_succ_self offset, hnext.le_byteLength, before ++ [c], rest, inner, hnext, rfl,
          closing_after before (splitAtClosing_cons inner hclose hother)⟩

/-- The closing from the end of a first part on is that of the rest. -/
theorem closingOffset_of_append {t a b : Text} (ht : t = a ++ b) {start : Nat}
    (hstart : start = byteLength a) :
    t.closingOffset start =
      .ok ((splitAtClosing 0 b).map fun (inside, _) => byteLength a + byteLength inside) := by
  subst ht hstart
  exact loop_eq_ok (fun _ _ => closingRound_progress) ⟨a, b, 0, ahead_append a b, rfl, rfl⟩

end Text

end BuildExpr
