import BuildExpr.Proofs.Cuts
import BuildExpr.Proofs.SplitContents

/-!
# Splitting by offsets

The elements of a list are cut out of it at offsets: an expression is looked for from the last cut on, the
separator in front of it backwards from there, its end and the next separator forwards. In each round the
text is cut where the last element ended, which is at the end of the text or in front of a separator
(`Elements.Resumed`), and from there to the end the elements are those of the rest. So every piece is there
and every round goes on (`splitRound_progress`), and what comes out is the split (`splitByOffsets_eq`).
-/

namespace BuildExpr.Elements

open Text

/-! ## The text in front of an expression -/

/-- The text between a cut and an expression, as the part that holds elements of its own and the text behind the
last separator in front of the expression. The separator is looked for in all of the text up to there. -/
def glueByOffsets (t : Text) (last start : Nat) : Except Fault (Text × Text) := do
  let part ← t.between last start
  if part.isEmpty then
    return ([], [])
  let front ← t.between 0 start
  match lastOffset separator.toUInt8 front.bytes start with
  | none => return ([], part)
  | some mark =>
    if mark + 1 ≠ start ∧ last ≤ mark then
      return (← t.between last mark, ← t.between (mark + 1) start)
    else return (part, [])

/-- A text is cut at its start, at its end or in front of a separator. -/
def Resumed (done rest : Text) : Prop := done = [] ∨ ∀ c ∈ rest.head?, c = separator

/-- Where a text is cut does not depend on how far it is looked at from there. -/
theorem Resumed.front {done before after : Text} (h : Resumed done (before ++ after)) :
    Resumed done before := by
  refine h.imp_right fun hhead c hc => hhead c ?_
  rw [List.head?_append, hc]
  rfl

/-- The separator that is found behind a cut ends what holds elements of its own. -/
theorem glueByOffsets_separator {t done part touching rest : Text}
    (ht : t = done ++ (part ++ ';' :: touching) ++ rest) (htouching : ';' ∉ touching) {last start : Nat}
    (hlast : last = byteLength done)
    (hstart : start = byteLength done + byteLength (part ++ ';' :: touching)) :
    glueByOffsets t last start = .ok (glue (part ++ ';' :: touching)) := by
  have hstop : start = byteLength (done ++ (part ++ ';' :: touching)) := by
    rw [hstart, byteLength_append done]
  have hfront : t.between 0 start = .ok (done ++ (part ++ ';' :: touching)) := by
    refine between_of_append (a := []) ht rfl ?_
    rw [hstop, byteLength_nil, Nat.zero_add]
    rfl
  have hfound : lastOffset separator.toUInt8 (bytes (done ++ (part ++ ';' :: touching))) start =
      some (byteLength (done ++ part)) := by
    rw [hstop, ← List.append_assoc]
    exact lastOffset_bytes_append (by decide) (done ++ part) htouching
  have hmark : byteLength (done ++ part) + 1 = byteLength (done ++ part ++ [';']) :=
    (byteLength_append (done ++ part) [';']).symm
  have htail : start = byteLength (done ++ part ++ [';']) + byteLength touching := by
    rw [hstop, ← byteLength_append]
    simp
  unfold glueByOffsets
  rw [between_of_append ht hlast hstart, Fault.ok_bind, if_neg (by simp), hfront, Fault.ok_bind, hfound,
    glue_append_separator part htouching]
  dsimp only
  by_cases hnil : touching = []
  · -- The separator stands directly in front of the expression.
    have hnext : byteLength (done ++ part) + 1 = start := by
      rw [htail, hmark, hnil]
      rfl
    rw [if_neg fun h => h.1 hnext, if_pos hnil, hnil]
    rfl
  · have hpart : t.between last (byteLength (done ++ part)) = .ok part :=
      between_of_append (c := ';' :: touching ++ rest) (by rw [ht]; simp) hlast
        (byteLength_append done part)
    have hbehind : t.between (byteLength (done ++ part) + 1) start = .ok touching :=
      between_of_append (c := rest) (by rw [ht]; simp) hmark htail
    have hpos := byteLength_pos hnil
    have hcut : byteLength (done ++ part) + 1 ≠ start ∧ last ≤ byteLength (done ++ part) := by
      refine ⟨by omega, ?_⟩
      rw [hlast, byteLength_append]
      exact Nat.le_add_right _ _
    rw [if_pos hcut, if_neg hnil, hpart, Fault.ok_bind, hbehind]
    rfl

/-- Cut at offsets, what touches an expression is parted from the elements before it. -/
theorem glueByOffsets_eq {t done before rest : Text} (ht : t = done ++ before ++ rest)
    (hresumed : Resumed done before) {last start : Nat} (hlast : last = byteLength done)
    (hstart : start = byteLength done + byteLength before) :
    glueByOffsets t last start = .ok (glue before) := by
  cases before with
  | nil =>
    unfold glueByOffsets
    rw [between_of_append ht hlast hstart]
    rfl
  | cons c before =>
    rcases separator_not_mem_or_last (c :: before) with hnone | ⟨part, touching, hsplit, htouching⟩
    · -- The expression is the first one, so there is no separator further in front either.
      have hdone : done = [] := hresumed.resolve_right fun hhead =>
        hnone (hhead c rfl ▸ List.mem_cons_self)
      subst hdone
      have hpart := between_of_append ht hlast hstart
      have hlength : start = byteLength (c :: before) := by rw [hstart, byteLength_nil, Nat.zero_add]
      unfold glueByOffsets
      rw [hpart, Fault.ok_bind, if_neg (by simp), ← byteLength_nil, ← hlast, hpart, Fault.ok_bind,
        hlength, lastOffset_bytes_eq_none (by decide) hnone, glue_of_not_mem hnone]
      rfl
    · rw [hsplit] at ht hstart ⊢
      exact glueByOffsets_separator ht htouching hlast hstart

/-! ## The end of an element -/

/-- Where the element of an expression ends whose `$<` ends at an offset: in front of the next separator behind
the expression, and without one or the other at the end of the text. -/
def elementEnd (t : Text) (start : Nat) : Except Fault Nat := do
  match ← t.closingOffset start with
  | none => return byteLength t
  | some closing =>
    let rest ← t.bytesFrom closing
    return (firstOffset [separator.toUInt8] rest).elim (byteLength t) (closing + ·)

/-- The first separator is found behind all that is none. -/
theorem firstOffset_separator (t : Text) :
    (firstOffset [separator.toUInt8] t.bytes).getD (byteLength t) =
      byteLength (t.takeWhile (· ≠ ';')) := by
  have hmark : [separator.toUInt8] = bytes [separator] := by decide
  rw [hmark, firstOffset_bytes (by decide) (by decide)]
  induction t with
  | nil => rfl
  | cons c t ih =>
    by_cases hc : c = ';'
    · subst hc
      rfl
    · have hnot : ¬ [separator].isPrefixOf (c :: t) = true := by
        simpa [separator] using Ne.symm hc
      rw [splitAround, if_neg hnot, List.takeWhile_cons_of_pos (by simpa using hc), byteLength_cons,
        byteLength_cons, ← ih]
      cases splitAround [separator] t with
      | none => rfl
      | some parts => rfl

variable {t done after : Text} {start : Nat}

/-- The element of an expression that does not end goes on to the end of the text. -/
theorem elementEnd_of_unclosed (ht : t = done ++ after) (hstart : start = byteLength done)
    (h : splitAtClosing 0 after = none) : elementEnd t start = .ok (byteLength t) := by
  unfold elementEnd
  rw [closingOffset_of_append ht hstart, h]
  rfl

/-- The element of one that does ends in front of the next separator behind it. -/
theorem elementEnd_of_closed {inside rest : Text} (ht : t = done ++ after)
    (hstart : start = byteLength done) (h : splitAtClosing 0 after = some (inside, rest)) :
    elementEnd t start =
      .ok (byteLength done + byteLength (inside ++ '>' :: rest.takeWhile (· ≠ ';'))) := by
  have hafter : t = done ++ inside ++ '>' :: rest := by
    rw [ht, append_of_splitAtClosing h, List.append_assoc]
  have hclosing : byteLength done + byteLength inside = byteLength (done ++ inside) :=
    (byteLength_append done inside).symm
  have hlength : byteLength t = byteLength (done ++ inside) + byteLength ('>' :: rest) := by
    rw [hafter, byteLength_append]
  have hseparator := firstOffset_separator ('>' :: rest)
  rw [List.takeWhile_cons_of_pos (by decide)] at hseparator
  unfold elementEnd
  rw [closingOffset_of_append ht hstart, h, Fault.ok_bind]
  dsimp only [Option.map_some]
  rw [bytesFrom_of_append hafter hclosing, Fault.ok_bind, byteLength_append, ← hseparator, hlength,
    ← Nat.add_assoc, hclosing]
  cases firstOffset [separator.toUInt8] (bytes ('>' :: rest)) with
  | none => rfl
  | some offset => rfl

/-! ## Splitting -/

/-- One round: the elements in front of the next expression and the one that the expression is in. -/
def splitRound (t : Text) (last : Nat) (output : Array Text) :
    Except Fault (Round (Array Text) (Array Text)) := do
  match t.openingOffset last with
  | none =>
    if last < byteLength t then
      return .done (expandOnto output (← t.between last (byteLength t)))
    else return .done output
  | some start =>
    let (part, touching) ← glueByOffsets t last start
    let output := expandOnto output part
    let stop ← elementEnd t (start + 2)
    return .next stop (output.push (touching ++ (← t.between start stop)))

/-- Elements with those of a list behind them, cut out of it at offsets. -/
def splitByOffsets (output : Array Text) (t : Text) : Except Fault (Array Text) :=
  loop (byteLength t) (splitRound t) 0 output

/-- At an offset the text is cut, and the elements of the rest are still missing. -/
def Splitting (t : Text) (result : Array Text) (last : Nat) (output : Array Text) : Prop :=
  ∃ done rest, t = done ++ rest ∧ last = byteLength done ∧ Resumed done rest ∧
    result = splitOnto output rest

/-- The empty text adds no elements. -/
theorem splitOnto_nil (output : Array Text) : splitOnto output [] = output := by
  rw [splitOnto]
  rfl

section

variable {t done rest before element behind : Text} {last : Nat} (ht : t = done ++ rest)
  (hlast : last = byteLength done) (hrest : rest = before ++ (element ++ behind))

include ht hlast hrest

/-- In a round that comes to an expression, its element is cut out and the loop goes on behind it. -/
theorem splitRound_opening {after : Text} {output : Array Text}
    (hopen : rest.splitAtOpening = some (before, after)) (hresumed : Resumed done before)
    (hend : elementEnd t (byteLength done + byteLength before + 2) =
      .ok (byteLength (done ++ before) + byteLength element)) :
    splitRound t last output =
      .ok (.next (byteLength (done ++ before) + byteLength element)
        ((expandOnto output (glue before).1).push ((glue before).2 ++ element))) := by
  have hfront : t = done ++ before ++ (element ++ behind) := by rw [ht, hrest, List.append_assoc]
  have hstart : byteLength done + byteLength before = byteLength (done ++ before) :=
    (byteLength_append done before).symm
  have hpiece : t.between (byteLength done + byteLength before)
      (byteLength (done ++ before) + byteLength element) = .ok element :=
    between_of_append (hfront.trans (List.append_assoc ..).symm) hstart rfl
  unfold splitRound
  rw [openingOffset_of_append ht hlast, hopen]
  dsimp only [Option.map_some]
  rw [glueByOffsets_eq hfront hresumed hlast rfl, Fault.ok_bind, hend, Fault.ok_bind, hpiece]
  rfl

/-- A cut behind an element is later, and the rest of the text is what is behind it. -/
theorem splitting_next (output : Array Text) (helement : element ≠ [])
    (hbehind : ∀ c ∈ behind.head?, c = separator) :
    Progress (byteLength t) (Splitting t (splitOnto output behind)) (splitOnto output behind) last
      (.ok (.next (byteLength (done ++ before) + byteLength element) output)) := by
  have hpos := byteLength_pos helement
  have hlength : byteLength t =
      byteLength done + (byteLength before + (byteLength element + byteLength behind)) := by
    rw [ht, hrest, byteLength_append, byteLength_append, byteLength_append]
  have hcut : byteLength (done ++ before) + byteLength element =
      byteLength done + (byteLength before + byteLength element) := by
    rw [byteLength_append, Nat.add_assoc]
  refine ⟨by omega, by omega, done ++ (before ++ element), behind, ?_, ?_, .inr hbehind, rfl⟩
  · rw [ht, hrest, List.append_assoc, List.append_assoc]
  · rw [hcut, byteLength_append, byteLength_append]

end

/-- Each round of splitting makes progress towards all elements. -/
theorem splitRound_progress {t : Text} {result : Array Text} {last : Nat} {output : Array Text}
    (h : Splitting t result last output) :
    Progress (byteLength t) (Splitting t result) result last (splitRound t last output) := by
  obtain ⟨done, rest, ht, hlast, hresumed, rfl⟩ := h
  have hbefore {before after : Text} (hopen : rest.splitAtOpening = some (before, after)) :
      Resumed done before := by
    rw [append_of_splitAtOpening hopen, List.append_assoc] at hresumed
    exact hresumed.front
  fun_cases splitOnto output rest with
  | case1 hopen =>
    unfold splitRound
    rw [openingOffset_of_append ht hlast, hopen]
    dsimp only [Option.map_none]
    by_cases hend : last < byteLength t
    · rw [if_pos hend, between_end ht hlast]
      rfl
    · have hnil : rest = [] := by
        by_contra hne
        have hpos := byteLength_pos hne
        rw [hlast, ht, byteLength_append] at hend
        omega
      rw [if_neg hend, hnil]
      rfl
  | case2 before after hopen part touching hglue output' hclose =>
    -- The element of an expression without an end goes on to the end of the text.
    have hfront := append_opening ht hopen
    have hrest : rest = before ++ ((opening ++ after) ++ []) := by
      rw [append_of_splitAtOpening hopen]
      simp
    have hend := elementEnd_of_unclosed hfront (byteLength_opening done before) hclose
    have hlength : byteLength t = byteLength (done ++ before) + byteLength (opening ++ after) := by
      rw [hfront, List.append_assoc, byteLength_append]
    rw [hlength] at hend
    rw [splitRound_opening ht hlast hrest hopen (hbefore hopen) hend, hglue, List.append_assoc]
    have hnext := splitting_next ht hlast hrest (output'.push (touching ++ (opening ++ after)))
      (by simp [opening]) (by simp)
    rwa [splitOnto_nil] at hnext
  | case3 before after hopen part touching hglue output' inside behind hclose =>
    have hfront := append_opening ht hopen
    have hrest : rest = before ++ ((opening ++ (inside ++ '>' :: behind.takeWhile (· ≠ ';'))) ++
        behind.dropWhile (· ≠ ';')) := by
      rw [append_of_splitAtOpening hopen, append_of_splitAtClosing hclose]
      simp
    have hend := elementEnd_of_closed hfront (byteLength_opening done before) hclose
    rw [byteLength_append _ opening, Nat.add_assoc (byteLength (done ++ before)),
      ← byteLength_append opening] at hend
    rw [splitRound_opening ht hlast hrest hopen (hbefore hopen) hend, hglue]
    have hnext := splitting_next ht hlast hrest
      (output'.push (touching ++ (opening ++ (inside ++ '>' :: behind.takeWhile (· ≠ ';')))))
      (by simp [opening]) fun c hc => eq_separator_of_head?_dropWhile hc
    simpa only [List.append_assoc] using hnext

/-- Cut at offsets, every list is split without a fault. -/
theorem splitByOffsets_eq (output : Array Text) (t : Text) :
    splitByOffsets output t = .ok (splitOnto output t) :=
  loop_eq_ok (fun _ _ => splitRound_progress) ⟨[], t, rfl, rfl, .inl rfl, rfl⟩

end BuildExpr.Elements
