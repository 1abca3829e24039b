import BuildExpr.Proofs.Cuts
import BuildExpr.Proofs.EmptyElements

/-!
# Dropping empty elements by offsets

Empty elements are dropped in one sweep along the bytes of a list. A separator behind another one is left
out by a cut in front of it and a fresh start behind it; whatever is between the cuts is kept as it stands.
The sweep also stops inside characters, but there it cuts nothing (`Sweeping`), so both ends of each piece
are at separators or at the ends of the list (`sweepRound_progress`).
-/

namespace BuildExpr.Elements

open Text

/-- The state of the sweep. -/
structure Sweep where
  /-- Where the piece starts that has not been kept yet. -/
  last : Nat := 0
  /-- Whether a separator or the start of the list is directly in front. -/
  after : Bool := true
  /-- What has been kept. -/
  kept : Text := []

/-- One round of the sweep, at one byte. -/
def sweepRound (t : Text) (offset : Nat) (s : Sweep) : Except Fault (Round Sweep Text) := do
  match t.bytes[offset]? with
  | none => return .done (s.kept ++ (← t.between s.last (byteLength t)))
  | some b =>
    if b = separator.toUInt8 then
      if s.after then
        return .next (offset + 1) ⟨offset + 1, true, s.kept ++ (← t.between s.last offset)⟩
      else return .next (offset + 1) { s with after := true }
    else return .next (offset + 1) { s with after := false }

/-- The list without leading, repeated and trailing separators, cut out of it at offsets. -/
def dropEmptyByOffsets (t : Text) : Except Fault Text := do
  if (firstOffset [separator.toUInt8] t.bytes).isNone then
    return t
  return dropFinal (← loop (byteLength t) (sweepRound t) 0 {})

/-- At an offset, what has been kept is followed by a piece that will be and by what the sweep keeps of the rest.
Inside a character there is no separator directly in front. -/
def Sweeping (t result : Text) (offset : Nat) (s : Sweep) : Prop :=
  ∃ done piece rest, Ahead t offset (done ++ piece) rest ∧ s.last = byteLength done ∧
    (offset < byteLength (done ++ piece) → s.after = false) ∧
    result = s.kept ++ (piece ++ dropRepeated s.after rest)

/-- At any other byte than a separator, a round goes on at the next one. -/
theorem sweepRound_of_ne {t : Text} {offset : Nat} {b : UInt8} (s : Sweep)
    (hbyte : t.bytes[offset]? = some b) (hb : b ≠ separator.toUInt8) :
    sweepRound t offset s = .ok (.next (offset + 1) { s with after := false }) := by
  unfold sweepRound
  rw [hbyte]
  exact if_neg hb

/-- At a separator, a round ends a piece if there is one in front of it already. -/
theorem sweepRound_separator {t : Text} {offset : Nat} (s : Sweep)
    (hbyte : t.bytes[offset]? = some separator.toUInt8) :
    sweepRound t offset s =
      if s.after then do
        return .next (offset + 1) ⟨offset + 1, true, s.kept ++ (← t.between s.last offset)⟩
      else .ok (.next (offset + 1) { s with after := true }) := by
  unfold sweepRound
  rw [hbyte]
  exact if_pos rfl

section

variable {t done piece rest : Text} {offset : Nat} {s : Sweep}

/-- At a separator either a cut is made or the separator is kept. -/
theorem sweepRound_progress_separator (h : Ahead t offset (done ++ piece) (';' :: rest))
    (hlast : s.last = byteLength done) (hstart : offset = byteLength (done ++ piece)) :
    let result := s.kept ++ (piece ++ dropRepeated s.after (';' :: rest))
    Progress (byteLength t) (Sweeping t result) result offset (sweepRound t offset s) := by
  have hnext := h.next hstart
  have hcut : offset + 1 = byteLength (done ++ piece ++ [';']) := by
    rw [hstart, byteLength_append _ [';']]
    rfl
  rw [sweepRound_separator s ((h.getElem?_iff (by decide)).2 ⟨hstart, rfl⟩)]
  cases hrepeated : s.after with
  | true =>
    -- The piece is kept up to here, and the next one starts behind the separator.
    have hpiece : t.between s.last offset = .ok piece :=
      between_of_append h.text hlast (by rw [hstart, byteLength_append])
    rw [if_pos rfl, hpiece, Fault.ok_bind]
    refine ⟨Nat.lt_succ_self offset, hnext.le_byteLength, done ++ piece ++ [';'], [], rest, ?_, hcut, ?_, ?_⟩
    · rwa [List.append_nil]
    · rw [List.append_nil]
      exact fun hlt => absurd hcut (Nat.ne_of_lt hlt)
    · rw [dropRepeated_repeated, List.nil_append, List.append_assoc]
  | false =>
    -- The separator itself is kept, as the last character of the piece so far.
    rw [if_neg (by decide)]
    refine ⟨Nat.lt_succ_self offset, hnext.le_byteLength, done, piece ++ [';'], rest, ?_, hlast, ?_, ?_⟩
    · rwa [← List.append_assoc]
    · rw [← List.append_assoc]
      exact fun hlt => absurd hcut (Nat.ne_of_lt hlt)
    · rw [dropRepeated_separator, List.append_assoc]
      rfl

/-- At the end the last piece is kept. -/
theorem sweepRound_end (h : Ahead t offset (done ++ piece) []) (hlast : s.last = byteLength done)
    (hstart : offset = byteLength (done ++ piece)) :
    sweepRound t offset s = .ok (.done (s.kept ++ piece)) := by
  have ht : t = done ++ piece := h.text.trans (List.append_nil _)
  unfold sweepRound
  rw [h.getElem?_eq_none hstart]
  dsimp only
  rw [between_end ht hlast]
  rfl

end

/-- Each round of the sweep makes progress towards the text without repeated separators. -/
theorem sweepRound_progress {t result : Text} {offset : Nat} {s : Sweep}
    (h : Sweeping t result offset s) :
    Progress (byteLength t) (Sweeping t result) result offset (sweepRound t offset s) := by
  obtain ⟨done, piece, rest, hahead, hlast, hafter, rfl⟩ := h
  rcases Nat.lt_or_eq_of_le hahead.le with hinside | hstart
  · have hnext := hahead.next_inside hinside
    obtain ⟨b, hbyte, hb⟩ := hahead.exists_byte hnext.le_byteLength
    -- Inside a character there is no byte that could be taken for a separator.
    have hne : b ≠ separator.toUInt8 := fun heq =>
      absurd ((hb separator (by decide)).1 heq).1 (Nat.ne_of_lt hinside)
    rw [sweepRound_of_ne s hbyte hne, hafter hinside]
    exact ⟨Nat.lt_succ_self offset, hnext.le_byteLength, done, piece, rest, hnext, hlast, fun _ => rfl, rfl⟩
  · cases rest with
    | nil =>
      rw [sweepRound_end hahead hlast hstart, dropRepeated_nil, List.append_nil]
      rfl
    | cons c rest =>
      by_cases hc : c = ';'
      · subst hc
        exact sweepRound_progress_separator hahead hlast hstart
      · have hnext := hahead.next hstart
        obtain ⟨b, hbyte, hb⟩ := hahead.exists_byte hahead.lt_of_cons
        have hne : b ≠ separator.toUInt8 := fun heq =>
          hc (Option.some.inj ((hb separator (by decide)).1 heq).2)
        rw [sweepRound_of_ne s hbyte hne]
        refine ⟨Nat.lt_succ_self offset, hnext.le_byteLength, done, piece ++ [c], rest, ?_, hlast,
          fun _ => rfl, ?_⟩
        · rwa [← List.append_assoc]
        · rw [dropRepeated_cons hc, List.append_assoc]
          rfl

/-- A text without separators is kept as it is. -/
theorem dropEmpty_of_not_mem {t : Text} (h : separator ∉ t) : dropEmpty t = t := by
  have hhead : t.head? ≠ some ';' := fun hhead => h (List.mem_of_head? hhead)
  have hlast : t.getLast? ≠ some ';' := fun hlast => h (List.mem_of_getLast? hlast)
  have hpair : ¬ [separator, separator] <:+: t := fun hpair =>
    h (hpair.subset List.mem_cons_self)
  rw [dropEmpty, dropRepeated_eq_false hhead, dropRepeated_eq_self hpair, dropFinal, if_neg hlast]

/-- Cut at offsets, empty elements are dropped from every list without a fault. -/
theorem dropEmptyByOffsets_eq (t : Text) : dropEmptyByOffsets t = .ok (dropEmpty t) := by
  have hloop : loop (byteLength t) (sweepRound t) 0 {} = .ok (dropRepeated true t) :=
    loop_eq_ok (fun _ _ => sweepRound_progress)
      ⟨[], [], t, ahead_append [] t, rfl, fun hlt => absurd hlt (Nat.lt_irrefl _), rfl⟩
  have hmark : [separator.toUInt8] = bytes [separator] := by decide
  unfold dropEmptyByOffsets
  rw [hmark, firstOffset_bytes (by decide) (by decide), hloop]
  cases hsplit : splitAround [separator] t with
  | some parts => rfl
  | none =>
    have hnot : separator ∉ t := fun hmem => by
      obtain ⟨before, after, rfl⟩ := List.append_of_mem hmem
      obtain ⟨front, behind, hsome, -⟩ :=
        splitAround_first before (List.prefix_append [separator] after)
      cases hsplit.symm.trans hsome
    rw [dropEmpty_of_not_mem hnot]
    rfl

end BuildExpr.Elements
