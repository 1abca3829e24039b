import BuildExpr.Proofs.Selecting
import BuildExpr.Proofs.SplittingByOffsets
import BuildExpr.Proofs.TidyingByOffsets

/-!
# Exporting by offsets

What is exported is cut out of the text at offsets, too: what stands between two expressions, the contents that
are kept, and their elements. The places of expressions come from searches through the bytes, forwards from the
last cut on. Every round finds the text cut behind an expression, and what is to come from there to the end
(`removeRound_progress`, `selectRound_progress`).

So all programs that work by offsets have results, whatever the text is and wherever its characters are longer
than a byte, and the results are those that are defined along the characters (`byOffsets_eq`).
-/

namespace BuildExpr

open Text

namespace Interface

/-! ## Removing expressions -/

/-- One round of removing: the text in front of the next expression is kept. An expression without an end is
kept with all that follows. -/
def removeRound (t : Text) (last : Nat) (kept : Text) : Except Fault (Round Text Text) := do
  match t.openingOffset last with
  | none => return .done (kept ++ (← t.between last (byteLength t)))
  | some start =>
    let kept := kept ++ (← t.between last start)
    match ← t.closingOffset (start + 2) with
    | some closing => return .next (closing + 1) kept
    | none => return .next (byteLength t) (kept ++ (← t.between start (byteLength t)))

/-- The text without its expressions, which are cut out at offsets. -/
def removeByOffsets (t : Text) : Except Fault Text := loop (byteLength t) (removeRound t) 0 []

/-- At an offset, what has been kept is followed by the rest without its expressions. -/
def Removing (t result : Text) (last : Nat) (kept : Text) : Prop :=
  ∃ done rest, t = done ++ rest ∧ last = byteLength done ∧ result = kept ++ removeExpressions rest

/-- The empty text has no expressions to remove. -/
theorem removeExpressions_nil : removeExpressions [] = [] := by
  rw [removeExpressions]
  rfl

/-- Each round of removing makes progress towards the text without its expressions. -/
theorem removeRound_progress {t result kept : Text} {last : Nat} (h : Removing t result last kept) :
    Progress (byteLength t) (Removing t result) result last (removeRound t last kept) := by
  obtain ⟨done, rest, ht, hlast, rfl⟩ := h
  unfold removeRound
  rw [openingOffset_of_append ht hlast]
  fun_cases removeExpressions rest with
  | case1 hopen =>
    rw [hopen]
    dsimp only [Option.map_none]
    rw [between_end ht hlast]
    rfl
  | case2 before after hopen hclose =>
    -- An expression without an end is kept, and with it the text is used up.
    have hfront := append_opening ht hopen
    have hstart : byteLength done + byteLength before = byteLength (done ++ before) :=
      (byteLength_append done before).symm
    have hpos : byteLength t = byteLength done + byteLength before + 2 + byteLength after := by
      rw [byteLength_opening, ← byteLength_append, ← hfront]
    rw [hopen]
    dsimp only [Option.map_some]
    rw [between_of_append (hfront.trans (List.append_assoc ..)) hlast rfl, Fault.ok_bind,
      closingOffset_of_append hfront (byteLength_opening done before), Fault.ok_bind, hclose]
    dsimp only [Option.map_none]
    rw [between_end (hfront.trans (List.append_assoc ..)) hstart, Fault.ok_bind]
    refine ⟨by omega, Nat.le_refl _, t, [], (List.append_nil t).symm, rfl, ?_⟩
    rw [append_of_splitAtOpening hopen, removeExpressions_nil]
    simp
  | case3 before after hopen inside behind hclose =>
    have hfront := append_opening ht hopen
    have hbehind := append_closing hfront hclose
    have hlength : byteLength t =
        byteLength (done ++ before ++ opening ++ (inside ++ ['>'])) + byteLength behind := by
      rw [← byteLength_append, ← hbehind]
    have hbody := byteLength_opening done before
    have hcut := byteLength_closing (done ++ before ++ opening) inside
    rw [hopen]
    dsimp only [Option.map_some]
    rw [between_of_append (hfront.trans (List.append_assoc ..)) hlast rfl, Fault.ok_bind,
      closingOffset_of_append hfront hbody, Fault.ok_bind, hclose]
    dsimp only [Option.map_some]
    refine ⟨by omega, by omega, _, behind, hbehind, hcut, ?_⟩
    rw [List.append_assoc]

/-- Cut at offsets, the expressions of every text are removed without a fault. -/
theorem removeByOffsets_eq (t : Text) : removeByOffsets t = .ok (removeExpressions t) :=
  loop_eq_ok (fun _ _ => removeRound_progress) ⟨[], t, rfl, rfl, rfl⟩

/-! ## Keeping content for one side -/

/-- The first marker in some bytes: its offset and the side it is for. -/
def firstMarker (bytes : List UInt8) : Option (Nat × Side) :=
  match firstOffset Side.build.marker.bytes bytes, firstOffset Side.install.marker.bytes bytes with
  | none, none => none
  | some build, none => some (build, .build)
  | none, some install => some (install, .install)
  | some build, some install =>
    if build < install then some (build, .build) else some (install, .install)

/-- One round: the text up to the next marker is kept, and what is kept of its content. An expression without an
end is kept with all that follows. -/
def selectRound (keep : Side → Text → Except Fault Text) (t : Text) (last : Nat) (kept : Text) :
    Except Fault (Round Text Text) := do
  match firstMarker (← t.bytesFrom last) with
  | none => return .done (kept ++ (← t.between last (byteLength t)))
  | some (offset, side) =>
    let start := last + offset
    let kept := kept ++ (← t.between last start)
    let body := start + byteLength side.marker
    match ← t.closingOffset body with
    | none =>
      let kept := kept ++ (← t.between start (byteLength t))
      return .done (kept ++ (← t.between (byteLength t) (byteLength t)))
    | some closing =>
      let content ← t.between body closing
      return .next (closing + 1) (kept ++ (← keep side content))

/-- The text with content for the sides replaced, cut out of it at offsets. -/
def selectByOffsets (keep : Side → Text → Except Fault Text) (t : Text) : Except Fault Text :=
  loop (byteLength t) (selectRound keep t) 0 []

/-- Installed content with its relative elements resolved, cut out of it at offsets. -/
def resolveByOffsets (root content : Text) : Except Fault Text := do
  let elements ← Elements.splitByOffsets #[] content
  return Text.join [';'] (elements.toList.map (resolveElement root))

/-- What stands for content of a side. -/
def keptByOffsets (wanted : Side) (root : Option Text) (side : Side) (content : Text) :
    Except Fault Text :=
  match wanted, side, root with
  | .build, .build, _ | .install, .install, none => .ok content
  | .install, .install, some root => resolveByOffsets root content
  | .build, .install, _ | .install, .build, _ => .ok []

/-- A property as it is exported, cut out of it at offsets. -/
def exportedByOffsets (mode : Mode) (root : Option Text) (t : Text) : Except Fault Text := do
  let kept ← match mode with
    | .stripAll => removeByOffsets t
    | .keep side => selectByOffsets (keptByOffsets side root) t
  Elements.dropEmptyByOffsets kept

/-- The markers of the sides are ASCII. -/
theorem isAscii_marker (side : Side) : side.marker.isAscii = true := by
  cases side <;> decide

/-- A marker is not empty. -/
theorem marker_ne_nil (side : Side) : side.marker ≠ [] := by
  cases side <;> decide

/-- No marker starts in a text before another one. -/
def Unmarked (front rest : Text) : Prop :=
  ∀ before behind, front = before ++ behind → behind ≠ [] → ∀ side : Side, ¬ side.marker <+: behind ++ rest

/-- A text in which no marker starts is kept in front of what is selected of the rest. -/
theorem select_unmarked (keep : Side → Text → Text) {front rest : Text} (h : Unmarked front rest) :
    select keep (front ++ rest) = front ++ select keep rest := by
  induction front with
  | nil => rfl
  | cons c front ih =>
    have hfront : Unmarked front rest := fun before behind hsplit =>
      h (c :: before) behind (by rw [hsplit]; rfl)
    have hnone : ∀ side : Side, ¬ side.marker <+: c :: (front ++ rest) :=
      h [] (c :: front) rfl (List.cons_ne_nil c front)
    rw [List.cons_append, select_cons keep hnone, ih hfront]
    rfl

/-- Nothing is selected from a text without markers: it is kept. -/
theorem select_eq_self_of_unmarked (keep : Side → Text → Text) {t : Text} (h : Unmarked t []) :
    select keep t = t := by
  have hkept := select_unmarked keep h
  rwa [List.append_nil, select_nil, List.append_nil] at hkept

/-- A marker without an end is kept with all that follows. -/
theorem select_unclosed (keep : Side → Text → Text) (side : Side) {body : Text}
    (h : body.splitAtClosing 0 = none) : select keep (side.marker ++ body) = side.marker ++ body := by
  have hcons : side.marker ++ body = '$' :: ('<' :: side.selector ++ [':'] ++ body) := by
    simp [Side.marker, opening]
  have hside := startsSide?_marker side body
  rw [hcons] at hside ⊢
  rw [select]
  split
  · next hnone =>
    rw [hside] at hnone
    cases hnone
  · next marked rest hsome =>
    obtain ⟨rfl, rfl⟩ := Prod.mk.inj (Option.some.inj (hside.symm.trans hsome))
    split
    · rfl
    · next hsplit =>
      rw [h] at hsplit
      cases hsplit

/-- In front of the place where a marker first stands there is none. -/
theorem unmarked_of_first {t front rest : Text} (ht : t = front ++ rest)
    (hfirst : ∀ (side : Side) (before after : Text), splitAround side.marker t = some (before, after) →
      byteLength front ≤ byteLength before) : Unmarked front rest := by
  intro before behind hsplit hne side hprefix
  obtain ⟨first, after, hsome, hle⟩ := splitAround_first before hprefix
  have htext : t = before ++ (behind ++ rest) := by rw [ht, hsplit, List.append_assoc]
  rw [← htext] at hsome
  have hfront := hfirst side first after hsome
  have hpos := byteLength_pos hne
  rw [hsplit, byteLength_append] at hfront
  omega

/-- The search through the bytes finds the first marker. -/
theorem firstMarker_bytes (t : Text) :
    (firstMarker t.bytes = none ∧ Unmarked t []) ∨
      ∃ front side body, firstMarker t.bytes = some (byteLength front, side) ∧
        t = front ++ (side.marker ++ body) ∧ Unmarked front (side.marker ++ body) := by
  have hoffset (side : Side) : firstOffset side.marker.bytes t.bytes =
      (splitAround side.marker t).map fun parts => byteLength parts.1 :=
    firstOffset_bytes (isAscii_marker side) (marker_ne_nil side) t
  -- A marker that is found is the first one if it is not behind the other one that is found.
  have hfound {side : Side} {front body : Text} (hside : splitAround side.marker t = some (front, body))
      (hother : ∀ before after, splitAround side.other.marker t = some (before, after) →
        byteLength front ≤ byteLength before) :
      t = front ++ (side.marker ++ body) ∧ Unmarked front (side.marker ++ body) := by
    have ht : t = front ++ (side.marker ++ body) :=
      (append_of_splitAround hside).trans (List.append_assoc ..)
    refine ⟨ht, unmarked_of_first ht fun marked before after hmarked => ?_⟩
    rcases side.eq_or_eq_other marked with rfl | rfl
    · cases hside.symm.trans hmarked
      exact Nat.le_refl _
    · exact hother before after hmarked
  unfold firstMarker
  rw [hoffset, hoffset]
  cases hbuild : splitAround Side.build.marker t with
  | none =>
    cases hinstall : splitAround Side.install.marker t with
    | none =>
      refine .inl ⟨rfl, unmarked_of_first (List.append_nil t).symm fun side before after hsome => ?_⟩
      cases side with
      | build => cases hbuild.symm.trans hsome
      | install => cases hinstall.symm.trans hsome
    | some parts =>
      refine .inr ⟨parts.1, .install, parts.2, rfl, hfound hinstall fun before after hother => ?_⟩
      cases hbuild.symm.trans hother
  | some parts =>
    cases hinstall : splitAround Side.install.marker t with
    | none =>
      refine .inr ⟨parts.1, .build, parts.2, rfl, hfound hbuild fun before after hother => ?_⟩
      cases hinstall.symm.trans hother
    | some others =>
      dsimp only [Option.map_some]
      by_cases hlt : byteLength parts.1 < byteLength others.1
      · refine .inr ⟨parts.1, .build, parts.2, if_pos hlt, hfound hbuild fun before after hother => ?_⟩
        cases hinstall.symm.trans hother
        exact Nat.le_of_lt hlt
      · refine .inr ⟨others.1, .install, others.2, if_neg hlt,
          hfound hinstall fun before after hother => ?_⟩
        cases hbuild.symm.trans hother
        exact Nat.not_lt.1 hlt

/-- At an offset, what has been kept is followed by what is selected of the rest. -/
def Selecting (keep : Side → Text → Text) (t result : Text) (last : Nat) (kept : Text) : Prop :=
  ∃ done rest, t = done ++ rest ∧ last = byteLength done ∧ result = kept ++ select keep rest

/-- Each round of selecting makes progress towards the selected text. -/
theorem selectRound_progress {keepAt : Side → Text → Except Fault Text} {keep : Side → Text → Text}
    (hkeep : ∀ side content, keepAt side content = .ok (keep side content))
    {t result kept : Text} {last : Nat} (h : Selecting keep t result last kept) :
    Progress (byteLength t) (Selecting keep t result) result last (selectRound keepAt t last kept) := by
  obtain ⟨done, rest, ht, hlast, rfl⟩ := h
  unfold selectRound
  rw [bytesFrom_of_append ht hlast, Fault.ok_bind]
  rcases firstMarker_bytes rest with ⟨hnone, hunmarked⟩ | ⟨front, side, body, hfirst, hrest, hunmarked⟩
  · -- Without another marker the rest is taken over as it is.
    rw [hnone, select_eq_self_of_unmarked keep hunmarked]
    dsimp only
    rw [between_end ht hlast]
    rfl
  · subst hlast
    have hfront : t = done ++ front ++ side.marker ++ body := by
      rw [ht, hrest]
      simp
    have hrest' : t = done ++ front ++ (side.marker ++ body) := by rw [hfront, List.append_assoc _ side.marker]
    -- The offsets at which the loop cuts: the start of the marker, and its end.
    have hstart : byteLength done + byteLength front = byteLength (done ++ front) :=
      (byteLength_append done front).symm
    have hbody : byteLength done + byteLength front + byteLength side.marker =
        byteLength (done ++ front ++ side.marker) := by
      rw [hstart, byteLength_append (done ++ front)]
    rw [hfirst, hrest, select_unmarked keep hunmarked]
    dsimp only
    rw [between_of_append hrest' rfl rfl, Fault.ok_bind, closingOffset_of_append hfront hbody,
      Fault.ok_bind]
    cases hclose : body.splitAtClosing 0 with
    | none =>
      -- The expression never ends, so all from its marker on is taken over and the loop ends too.
      dsimp only [Option.map_none]
      rw [between_end hrest' hstart, Fault.ok_bind, between_end (List.append_nil t).symm rfl,
        select_unclosed keep side hclose]
      simp [Progress, pure, Except.pure, Fault.ok_bind]
    | some parts =>
      -- The expression ends, so its content is kept or not, and the next round goes on behind it.
      obtain ⟨inside, behind⟩ := parts
      have hbehind := append_closing hfront hclose
      have hcut := byteLength_closing (done ++ front ++ side.marker) inside
      have hlength : byteLength t =
          byteLength (done ++ front ++ side.marker ++ (inside ++ ['>'])) + byteLength behind := by
        rw [← byteLength_append, ← hbehind]
      have hpiece : t = done ++ front ++ side.marker ++ inside ++ ('>' :: behind) := by
        rw [hbehind]
        simp
      dsimp only [Option.map_some]
      rw [between_of_append hpiece hbody rfl, Fault.ok_bind, hkeep, Fault.ok_bind,
        select_marker keep side hclose]
      refine ⟨by omega, by omega, _, behind, hbehind, hcut, ?_⟩
      simp

/-- Cut at offsets, the content of a side is selected without a fault. -/
theorem selectByOffsets_eq {keepAt : Side → Text → Except Fault Text} {keep : Side → Text → Text}
    (hkeep : ∀ side content, keepAt side content = .ok (keep side content)) (t : Text) :
    selectByOffsets keepAt t = .ok (select keep t) :=
  loop_eq_ok (fun _ _ => selectRound_progress hkeep) ⟨[], t, rfl, rfl, rfl⟩

/-- So is what stands for content found. -/
theorem keptByOffsets_eq (wanted : Side) (root : Option Text) (side : Side) (content : Text) :
    keptByOffsets wanted root side content = .ok (kept wanted root side content) := by
  cases wanted with
  | build => cases side <;> rfl
  | install =>
    cases side with
    | build => rfl
    | install =>
      cases root with
      | none => rfl
      | some root =>
        have hitems : (Elements.splitOnto #[] content).toList = Elements.split content :=
          Elements.toList_splitOnto #[] content
        rw [keptByOffsets, resolveByOffsets, Elements.splitByOffsets_eq, Fault.ok_bind, hitems]
        rfl

/-- So is every property exported, whatever the mode and the root. -/
theorem exportedByOffsets_eq (mode : Mode) (root : Option Text) (t : Text) :
    exportedByOffsets mode root t = .ok (exported mode root t) := by
  cases mode with
  | stripAll =>
    unfold exportedByOffsets
    dsimp only
    rw [removeByOffsets_eq, Fault.ok_bind, Elements.dropEmptyByOffsets_eq]
    rfl
  | keep side =>
    unfold exportedByOffsets
    dsimp only
    rw [selectByOffsets_eq (keptByOffsets_eq side root), Fault.ok_bind, Elements.dropEmptyByOffsets_eq]
    rfl

end Interface

/-- Exporting a text, splitting it and dropping its empty elements by offsets has a result, whatever the text: no
piece is asked for whose ends are out of order, past the end or inside a character, and every loop goes on to a
later offset in each round. The results are those that are defined along the characters. -/
theorem byOffsets_eq :
    (∀ (mode : Interface.Mode) (root : Option Text) (t : Text),
      Interface.exportedByOffsets mode root t = .ok (Interface.exported mode root t)) ∧
    (∀ (output : Array Text) (t : Text),
      Elements.splitByOffsets output t = .ok (Elements.splitOnto output t)) ∧
    ∀ t : Text, Elements.dropEmptyByOffsets t = .ok (Elements.dropEmpty t) :=
  ⟨Interface.exportedByOffsets_eq, Elements.splitByOffsets_eq, Elements.dropEmptyByOffsets_eq⟩

end BuildExpr
