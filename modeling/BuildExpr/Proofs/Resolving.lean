import BuildExpr.Proofs.Collapsing
import BuildExpr.Proofs.Meeting

/-!
# Resolving installed content

Content for an installation is taken apart into its elements, each relative one gets a root in front, and
they are written next to each other again. Reading the result as a list gives these elements back, with
every run of separators inside one of them reduced to a single separator; the root is put in front of the
elements and not into an expression (`split_installed`).

This is so if every element is read as itself when it stands alone. An element is not if it has a
separator outside brackets that was escaped where it stood, since it is written without the backslash. An
element that ends in a separator, which an open bracket held, has to stand in front of an expression, or it
loses this separator (`split_installed_eq_dropFinals`).

An element is changed in three ways: by the root, by dropping repeated separators and by dropping the one
at its end. All of them keep it an element on its own (`Elements.Sole`), and the first two leave it beside
its neighbours as the split did (`Elements.Beside`), which is what reading the join needs
(`Elements.split_join_dropFinal`).
-/

namespace BuildExpr

open Elements (separator dropRepeated dropFinals Held Touching Around Sole Separated Beside)

namespace Text

/-! ## Matched texts -/

/-- Every `>` closes an expression: one is open in front of it. -/
def Matched (t : Text) : Prop :=
  ∀ before after, t = before ++ '>' :: after → 0 < openAfter 0 before

/-- Whether every `>` closes an expression is seen at each place of the text. -/
theorem matched_iff_all {t : Text} :
    Matched t ↔
      ∀ n ∈ List.range t.length, (t.drop n).head? = some '>' → 0 < openAfter 0 (t.take n) := by
  constructor
  · intro h n _ hhead
    obtain ⟨after, hafter⟩ := List.head?_eq_some_iff.1 hhead
    exact h (t.take n) after (by rw [← hafter, List.take_append_drop])
  · rintro h before after rfl
    have hopen := h before.length (List.mem_range.2 (by simp)) (by simp)
    rwa [List.take_left] at hopen

instance (t : Text) : Decidable (Matched t) := decidable_of_iff _ matched_iff_all.symm

/-- Behind a text that closes all it opens, and nothing else, the next `>` closes what is open around it. -/
theorem splitAtClosing_of_matched {depth : Nat} {t : Text}
    (hmatched : ∀ before after, t = before ++ '>' :: after → 0 < openAfter depth before)
    (hclosed : openAfter depth t = 0) (rest : Text) :
    splitAtClosing depth (t ++ '>' :: rest) = some (t, rest) := by
  -- Along the text `hmatched` is handed on to the rest, inside one expression more or less.
  induction t using opening_induction generalizing depth with
  | nil =>
    rw [openAfter_nil] at hclosed
    rw [hclosed, List.nil_append, splitAtClosing]
  | opening t ih =>
    have hbehind : ∀ before after, t = before ++ '>' :: after → 0 < openAfter (depth + 1) before := by
      rintro before after rfl
      have hopen := hmatched ('$' :: '<' :: before) after rfl
      rwa [openAfter_opening] at hopen
    rw [openAfter_opening] at hclosed
    rw [List.cons_append, List.cons_append, splitAtClosing, ih hbehind hclosed]
    rfl
  | char c t hopen ih =>
    by_cases hc : c = '>'
    · subst hc
      -- This `>` has an expression to close, so it is not the one that stands behind the text.
      have hdepth : 0 < depth := hmatched [] t rfl
      obtain ⟨depth, rfl⟩ := Nat.exists_eq_succ_of_ne_zero (Nat.ne_of_gt hdepth)
      have hbehind : ∀ before after, t = before ++ '>' :: after → 0 < openAfter depth before := by
        rintro before after rfl
        have hclose := hmatched ('>' :: before) after rfl
        rwa [openAfter_closing] at hclose
      rw [openAfter_closing] at hclosed
      rw [List.cons_append, splitAtClosing, ih hbehind hclosed]
      rfl
    · have hbehind : ∀ before after, t = before ++ '>' :: after → 0 < openAfter depth before := by
        rintro before after rfl
        have hbefore : ∀ tail, c = '$' → before = '<' :: tail → False := by
          rintro tail hdollar rfl
          exact hopen (tail ++ '>' :: after) hdollar rfl
        have hchar := hmatched (c :: before) after rfl
        rwa [openAfter_cons depth hc hbefore] at hchar
      -- The `>` behind the text makes no opening of a `$` at its end.
      have hapart : Apart (c :: t) ('>' :: rest) := apart_of_head? (by simp)
      rw [openAfter_cons depth hc hopen] at hclosed
      rw [List.cons_append, splitAtClosing_cons depth hc (hapart.not_opening hopen), ih hbehind hclosed]
      rfl

end Text

namespace Interface

/-! ## Elements behind a root -/

/-- An element as it is read with a root in front of relative ones: one that is absolute or starts with an
expression stays as it is. -/
def rooted (root element : Text) : Text :=
  if isFullPath element = true ∨ opening <+: element then element else root ++ element

/-- A root in which no character has a meaning in lists and expressions. -/
structure PlainRoot (root : Text) : Prop where
  /-- No expression is opened in it. -/
  opening : ¬ opening <:+: root
  /-- None is opened where an element starts behind it. -/
  last : root.getLast? ≠ some '$'
  /-- There are no separators, escapes or brackets in it. -/
  plain : ∀ c ∈ root, c ≠ ';' ∧ c ≠ '\\' ∧ c ≠ '[' ∧ c ≠ ']'

/-- The default root is one: its braces and its slash have no meaning there. -/
theorem plainRoot_defaultRoot : PlainRoot defaultRoot where
  opening := by decide
  last := by decide
  plain := by
    have hall : defaultRoot.all (fun c => c ≠ ';' && c ≠ '\\' && c ≠ '[' && c ≠ ']') = true := by
      decide
    simpa [and_assoc] using hall

variable {root : Text}

namespace PlainRoot

/-- Such a root does not meet what is behind it in an opening. -/
theorem apart (h : PlainRoot root) (t : Text) : Text.Apart root t := fun hlast => absurd hlast h.last

/-- Behind such a root, a text has the openings it has by itself. -/
theorem opening_infix_iff (h : PlainRoot root) (t : Text) :
    BuildExpr.opening <:+: root ++ t ↔ BuildExpr.opening <:+: t := by
  rw [Text.opening_infix_append_iff, or_iff_right h.opening, or_iff_left fun hmeet => h.last hmeet.1]

/-- Such a root has no separators. -/
theorem separator_not_mem (h : PlainRoot root) : separator ∉ root := fun hmem => (h.plain _ hmem).1 rfl

/-- Behind it, a text holds the separator at its end as it does by itself. -/
theorem held_iff (h : PlainRoot root) {t : Text} (ht : t ≠ []) : Held 0 (root ++ t) ↔ Held 0 t := by
  have hopen : '[' ∉ root := fun hmem => (h.plain _ hmem).2.2.1 rfl
  have hclose : ']' ∉ root := fun hmem => (h.plain _ hmem).2.2.2 rfl
  rw [Held, Held, List.getLast?_append_of_ne_nil root ht, Elements.bracketsAfter_append,
    Elements.bracketsAfter_of_not_mem hopen hclose]

/-- A single piece is one with the root in front of it. -/
theorem pieces_append (h : PlainRoot root) {t : Text} (ht : Elements.pieces 0 t = [t]) :
    Elements.pieces 0 (root ++ t) = [root ++ t] := by
  have hplain := h.plain
  clear h
  induction root with
  | nil => exact ht
  | cons c root ih =>
    obtain ⟨⟨hsep, hescape, hopen, hclose⟩, hrest⟩ := List.forall_mem_cons.1 hplain
    rw [List.cons_append, Elements.pieces_cons (fun h => absurd h hsep) fun h => absurd h hescape,
      Elements.bracketsBehind_of_ne 0 hopen hclose, ih hrest]
    rfl

/-- What stands around an expression does so with the root in front of it. -/
theorem around (h : PlainRoot root) {element : Text} (he : Around element) : Around (root ++ element) := by
  obtain ⟨touching, e, trail, rfl, htouching, hfree, hrest⟩ := he
  refine ⟨root ++ touching, e, trail, by simp, mt (h.opening_infix_iff touching).1 htouching, ?_, hrest⟩
  rw [List.mem_append, not_or]
  exact ⟨h.separator_not_mem, hfree⟩

/-- An element on its own stays one with the root in front of it. -/
theorem sole (h : PlainRoot root) {element : Text} (he : Sole element) : Sole (root ++ element) := by
  cases he with
  | plain hplain hne hpieces =>
    exact .plain (mt (h.opening_infix_iff element).1 hplain) (by simp [hne]) (h.pieces_append hpieces)
  | around he => exact .around (h.around he)

/-- So does a text that touches its first expression. -/
theorem touching (h : PlainRoot root) {t : Text} (ht : Touching t) : Touching (root ++ t) := by
  obtain ⟨touching, after, rfl, htouching, hfree, hne⟩ := ht
  refine ⟨root ++ touching, after, by simp, mt (h.opening_infix_iff touching).1 htouching, ?_,
    by simp [hne]⟩
  rw [List.mem_append, not_or]
  exact ⟨h.separator_not_mem, hfree⟩

/-- A text is closed with the root in front of it exactly if it is closed by itself. -/
theorem closed_iff (h : PlainRoot root) (t : Text) : (root ++ t).Closed ↔ t.Closed :=
  (Text.closed_of_no_opening h.opening).append_iff (h.apart t)

/-- And it has the same operations. -/
theorem operations_append (h : PlainRoot root) (t : Text) : (root ++ t).operations = t.operations := by
  rw [Text.operations_append (Text.closed_of_no_opening h.opening) (h.apart t),
    Text.operations_of_no_opening h.opening, List.nil_append]

end PlainRoot

/-- An element is read as it is or with the root in front of it. -/
theorem rooted_eq_or (root element : Text) :
    rooted root element = element ∨ rooted root element = root ++ element := by
  unfold rooted
  split
  · exact .inl rfl
  · exact .inr rfl

/-- Elements that are kept apart are so behind the root. -/
theorem separated_rooted (h : PlainRoot root) {element next : Text} (hne : element ≠ [])
    (hapart : Separated element next) : Separated (rooted root element) (rooted root next) := by
  have hnext : Touching next → Touching (rooted root next) := by
    rcases rooted_eq_or root next with heq | heq
    · rw [heq]
      exact id
    · rw [heq]
      exact h.touching
  have hapart' : Separated element (rooted root next) := hapart.imp_right fun hor => hor.imp_right hnext
  rcases rooted_eq_or root element with heq | heq
  · rw [heq]
    exact hapart'
  · rw [heq]
    exact hapart'.imp (h.opening_infix_iff element).2 fun hor => hor.imp_left (mt (h.held_iff hne).1)

open Text in
/-- The first expression of an element starts where the element does exactly if the element starts with
`$<`. -/
theorem firstExpression_eq_zero_iff {element : Text}
    (h : Around element ∨ ¬ opening <:+: element ∧ element ≠ []) :
    element.firstExpression = some 0 ↔ opening <+: element := by
  rcases h with ⟨touching, e, trail, rfl, htouching, -, he, -⟩ | ⟨hplain, -⟩
  · -- In front of the first expression there is only what touches it.
    have hfirst : (touching ++ e ++ trail).firstExpression = some (byteLength touching) := by
      obtain ⟨body, rfl, -⟩ := he
      have hopen : splitAtOpening (touching ++ (opening ++ body ++ ['>']) ++ trail) =
          some (touching, body ++ ['>'] ++ trail) := by
        rw [← Elements.splitAtOpening_opening htouching]
        simp
      rw [firstExpression, hopen]
      simp
    rw [hfirst]
    cases touching with
    | nil =>
      obtain ⟨body, rfl, -⟩ := he
      exact iff_of_true rfl ⟨body ++ ['>'] ++ trail, by simp⟩
    | cons c touching =>
      refine iff_of_false (fun hzero => ?_) (not_opening_at_start htouching he trail)
      have hsize := Char.utf8Size_pos c
      rw [byteLength_cons, Option.some.injEq] at hzero
      omega
  · refine iff_of_false ?_ fun hopening => hplain hopening.isInfix
    rw [firstExpression, splitAtOpening_eq_none_iff.2 hplain]
    intro hzero
    cases hzero

/-- An element is resolved to what it is read as with the root. -/
theorem resolveElement_eq {element : Text}
    (h : Around element ∨ ¬ opening <:+: element ∧ element ≠ []) :
    resolveElement root element = rooted root element := by
  unfold resolveElement rooted
  simp only [Bool.and_eq_true, Bool.not_eq_true', decide_eq_true_eq, ne_eq, firstExpression_eq_zero_iff h]
  by_cases hpath : isFullPath element = true
  · simp [hpath]
  · by_cases hopening : opening <+: element <;> simp [hpath, hopening]

end Interface

namespace Text

/-! ## Operations of elements -/

/-- What is in front of an expression, without one itself, has no operations. -/
theorem operations_expression {before e : Text} (hbefore : ¬ BuildExpr.opening <:+: before)
    (he : IsExpression e) (rest : Text) :
    operations (before ++ e ++ rest) = operations e ++ operations rest := by
  have hhead : e.head? ≠ some '<' := by
    rw [he.head?_eq]
    simp
  have hplain : Closed before := closed_of_no_opening hbefore
  have hclosed : Closed (before ++ e) := (hplain.append_iff (apart_of_head? hhead)).2 he.closed
  rw [operations_append hclosed (he.apart before rest), operations_append hplain (apart_of_head? hhead),
    operations_of_no_opening hbefore, List.nil_append]

/-- Closed elements say their operations one after the other. -/
theorem operations_join {elements : List Text} (h : ∀ element ∈ elements, Closed element) :
    operations (join [';'] elements) = elements.flatMap operations := by
  induction elements with
  | nil => exact operations_of_no_opening (by decide)
  | cons element rest ih =>
    rw [List.forall_mem_cons] at h
    cases rest with
    | nil => rw [Elements.join_singleton, List.flatMap_singleton]
    | cons next rest =>
      rw [Elements.join_cons_cons, operations_append h.1 (apart_of_head? (by simp)), operations_separator,
        ih h.2]
      exact List.flatMap_cons.symm

/-- And so they are closed together. -/
theorem closed_join {elements : List Text} (h : ∀ element ∈ elements, Closed element) :
    Closed (join [';'] elements) := by
  induction elements with
  | nil => exact closed_of_no_opening (by decide)
  | cons element rest ih =>
    rw [List.forall_mem_cons] at h
    cases rest with
    | nil =>
      rw [Elements.join_singleton]
      exact h.1
    | cons next rest =>
      have hseparator : Closed (';' :: join [';'] (next :: rest)) :=
        ((closed_of_no_opening (t := [';']) (by decide)).append_iff fun h => absurd h (by decide)).2
          (ih h.2)
      rw [Elements.join_cons_cons]
      exact (h.1.append_iff (apart_of_head? (by simp))).2 hseparator

/-- Splitting a text into closed elements keeps its operations. -/
theorem operations_split {t : Text} (h : Closed t)
    (helements : ∀ element ∈ Elements.split t, Closed element) :
    (Elements.split t).flatMap operations = operations t := by
  have hexpand {part : Text} (hpart : ¬ BuildExpr.opening <:+: part) :
      (Elements.expand part).flatMap operations = [] := by
    rw [List.flatMap_eq_nil_iff]
    exact fun element hmem => operations_of_no_opening (Elements.no_opening_of_mem_expand hpart hmem)
  revert helements
  refine Elements.split_induction (fun t hplain => ?_)
    (fun before e trail rest hbefore he htrail hrest _ ih => ?_) h
  · intro _
    rw [Elements.split_of_no_opening hplain, hexpand hplain, operations_of_no_opening hplain]
  · obtain ⟨hpart, htouching⟩ := Elements.glue_infix before
    rw [Elements.split_expression hbefore he htrail hrest, List.forall_mem_append, List.forall_mem_cons]
    rintro ⟨-, helement, hbehind⟩
    have hhead : rest.head? ≠ some '<' := fun hhead => absurd (hrest '<' hhead) (by decide)
    have htrailClosed : Closed trail := helement.of_append
    rw [List.flatMap_append, List.flatMap_cons, hexpand fun hin => hbefore (hin.trans hpart),
      operations_expression (fun hin => hbefore (hin.trans htouching)) he, ih hbehind,
      operations_expression hbefore he, operations_append htrailClosed (apart_of_head? hhead),
      List.nil_append, List.append_assoc]

end Text

namespace Interface

/-! ## Installed content -/

/-- Content as it is exported for an installation, with the default root in front of relative elements. -/
def installed (content : Text) : Text :=
  exported (.keep .install) (some defaultRoot) (Side.install.marker ++ content ++ ['>'])

variable {content : Text}

/-- It is what is left when its elements with the root are written next to each other. -/
theorem installed_eq (hclosed : content.Closed) (hmatched : content.Matched) :
    installed content = Elements.dropEmpty
      (Text.join [';'] ((Elements.split content).map (rooted defaultRoot))) := by
  have hclose := Text.splitAtClosing_of_matched hmatched hclosed.openAfter_eq_zero []
  have hmap : (Elements.split content).map (resolveElement defaultRoot) =
      (Elements.split content).map (rooted defaultRoot) :=
    List.map_congr_left fun element hmem =>
      resolveElement_eq (Elements.around_or_plain_of_mem_split hclosed element hmem)
  rw [installed, exported, List.append_assoc, select_marker _ .install hclose, select_nil, List.append_nil,
    kept, resolve, hmap]

/-- An element with the root in front of it starts with an expression exactly if it does so itself. -/
theorem opening_prefix_rooted_iff (h : PlainRoot root) (element : Text) :
    opening <+: rooted root element ↔ opening <+: element := by
  unfold rooted
  split
  · rfl
  · next hnot =>
    refine iff_of_false ?_ fun hopen => hnot (.inr hopen)
    cases root with
    | nil => exact fun hopen => hnot (.inr hopen)
    | cons c root =>
      cases root with
      | nil =>
        intro hopen
        have hc : c = '$' := (List.cons_prefix_cons.1 hopen).1.symm
        exact h.last (by rw [hc]; rfl)
      | cons d root =>
        intro hopen
        obtain ⟨hc, hrest⟩ := List.cons_prefix_cons.1 hopen
        have hd := (List.cons_prefix_cons.1 hrest).1
        exact h.opening ⟨[], root, by rw [← hc, ← hd]; rfl⟩

/-- The root does not change how an element ends. -/
theorem getLast?_rooted (root : Text) {element : Text} (hne : element ≠ []) :
    (rooted root element).getLast? = element.getLast? := by
  rcases rooted_eq_or root element with heq | heq
  · rw [heq]
  · rw [heq, List.getLast?_append_of_ne_nil root hne]

/-- An element on its own is one with the root in front of it. -/
theorem sole_rooted (h : PlainRoot root) {element : Text} (hsole : Sole element) :
    Sole (rooted root element) := by
  rcases rooted_eq_or root element with heq | heq
  · rw [heq]
    exact hsole
  · rw [heq]
    exact h.sole hsole

/-- Elements stay beside each other behind the root. -/
theorem beside_rooted (h : PlainRoot root) {element next : Text} (hne : element ≠ [])
    (hbeside : Beside element next) : Beside (rooted root element) (rooted root next) := by
  refine hbeside.imp (separated_rooted h hne) fun hheld => ⟨?_, ?_⟩
  · rw [getLast?_rooted root hne]
    exact hheld.1
  · exact (opening_prefix_rooted_iff h next).2 hheld.2

/-- Behind the root, repeated separators are dropped from an element exactly if there are some in it. -/
theorem dropRepeated_rooted_eq_iff (h : PlainRoot root) (element : Text) :
    dropRepeated false (rooted root element) = rooted root element ↔
      ¬ [separator, separator] <:+: element := by
  have hself : dropRepeated false element = element ↔ ¬ [separator, separator] <:+: element :=
    ⟨fun heq => heq ▸ Elements.not_repeated_dropRepeated false element, Elements.dropRepeated_eq_self⟩
  rcases rooted_eq_or root element with heq | heq
  · rw [heq, hself]
  · rw [heq, Elements.dropRepeated_append_of_not_mem h.separator_not_mem, List.append_cancel_left_eq,
      hself]

/-- The operations of an element with the root are its own. -/
theorem operations_rooted (h : PlainRoot root) {element : Text} (hclosed : element.Closed) :
    (rooted root element).Closed ∧ (rooted root element).operations = element.operations := by
  rcases rooted_eq_or root element with heq | heq
  · rw [heq]
    exact ⟨hclosed, rfl⟩
  · rw [heq]
    exact ⟨(h.closed_iff element).2 hclosed, h.operations_append element⟩

/-- Installed content is read element by element, if its elements are elements on their own: each with the
root, without its repeated separators and without the one at its end that no expression follows. -/
theorem split_installed_eq_dropFinals (hclosed : content.Closed) (hmatched : content.Matched)
    (hsole : ∀ element ∈ Elements.split content, Sole element) :
    Elements.split (installed content) =
      dropFinals (((Elements.split content).map (rooted defaultRoot)).map (dropRepeated false)) := by
  have hroot := plainRoot_defaultRoot
  have hrooted : ∀ element ∈ (Elements.split content).map (rooted defaultRoot), Sole element :=
    List.forall_mem_map.2 fun element hmem => sole_rooted hroot (hsole element hmem)
  have hchain : ((Elements.split content).map (rooted defaultRoot)).IsChain Beside :=
    (List.isChain_map _).2 <| (Elements.isChain_split hclosed).imp_of_mem_imp
      fun element next hmem _ hbeside => beside_rooted hroot (hsole element hmem).ne_nil hbeside
  -- The root is put in front first, and the separators are dropped from each element afterwards.
  have hmap : ((Elements.split content).map (rooted defaultRoot)).map Elements.dropEmpty =
      (((Elements.split content).map (rooted defaultRoot)).map (dropRepeated false)).map
        Elements.dropFinal := by
    rw [List.map_map (f := dropRepeated false)]
    exact List.map_congr_left fun element hmem => (hrooted element hmem).goesOn.dropEmpty_eq
  rw [installed_eq hclosed hmatched,
    Elements.dropEmpty_join fun element hmem => (hrooted element hmem).goesOn, hmap]
  refine Elements.split_join_dropFinal (List.forall_mem_map.2 fun element hmem => ?_) ?_
  · exact (hrooted element hmem).dropRepeated
  · exact (List.isChain_map _).2 (hchain.imp fun _ _ hbeside => hbeside.dropRepeated)

/-- Content whose elements are closed keeps its operations, tidied, with the root in front of relative
elements. -/
theorem operations_installed (hclosed : content.Closed) (hmatched : content.Matched)
    (helements : ∀ element ∈ Elements.split content, element.Closed) :
    (installed content).operations = Forest.tidied content.operations := by
  have hroot := plainRoot_defaultRoot
  have hrooted : ∀ element ∈ (Elements.split content).map (rooted defaultRoot), element.Closed :=
    List.forall_mem_map.2 fun element hmem => (operations_rooted hroot (helements element hmem)).1
  calc (installed content).operations
      = Forest.tidied (((Elements.split content).map (rooted defaultRoot)).flatMap Text.operations) := by
        rw [installed_eq hclosed hmatched, Text.operations_dropEmpty (Text.closed_join hrooted),
          Text.operations_join hrooted]
    _ = Forest.tidied ((Elements.split content).flatMap Text.operations) := by
        rw [List.flatMap_map]
        exact congrArg _ (List.flatMap_congr fun element hmem =>
          (operations_rooted hroot (helements element hmem)).2)
    _ = Forest.tidied content.operations := by rw [Text.operations_split hclosed helements]

/-- Each element of installed content is read with the root in front of it, if it is relative, and with its
runs of separators reduced to one, if it is an element on its own and every separator at the end of one
stands in front of an expression; it is read without a change exactly if there are no runs in it. The root
is put into no expression: content whose elements are closed keeps its operations, tidied. -/
theorem split_installed (hclosed : content.Closed) (hmatched : content.Matched) :
    ((∀ element ∈ Elements.split content, element.Closed) →
        (installed content).operations = Forest.tidied content.operations) ∧
      ((∀ element ∈ Elements.split content, Elements.split element = [element]) →
        Elements.FinalsKept (Elements.split content) →
          Elements.split (installed content) = (Elements.split content).map (fun element =>
            dropRepeated false (rooted defaultRoot element)) ∧
          (Elements.split (installed content) = (Elements.split content).map (rooted defaultRoot) ↔
            ∀ element ∈ Elements.split content, ¬ [separator, separator] <:+: element)) := by
  refine ⟨operations_installed hclosed hmatched, fun hsole hfinals => ?_⟩
  have hroot := plainRoot_defaultRoot
  have heach (element : Text) (hmem : element ∈ Elements.split content) : Sole element :=
    Elements.sole_of_mem_split hclosed hmem (hsole element hmem)
  -- Neither the root in front nor the separators left out change how an element starts or ends.
  have hkept : Elements.FinalsKept
      ((Elements.split content).map fun element => dropRepeated false (rooted defaultRoot element)) := by
    refine (Elements.finalsKept_map_iff (fun element hmem => ?_) fun element => ?_).2 hfinals
    · rw [Elements.getLast?_dropRepeated, getLast?_rooted _ (heach element hmem).ne_nil]
    · rw [Elements.opening_prefix_dropRepeated_iff, opening_prefix_rooted_iff hroot]
  have hsplit : Elements.split (installed content) =
      (Elements.split content).map fun element => dropRepeated false (rooted defaultRoot element) := by
    rw [split_installed_eq_dropFinals hclosed hmatched heach, List.map_map]
    exact hkept.dropFinals_eq
  refine ⟨hsplit, ?_⟩
  rw [hsplit, List.map_inj_left]
  exact forall₂_congr fun element _ => dropRepeated_rooted_eq_iff hroot element

/-- Elements of each kind: one that ends in a held separator in front of an expression, one that starts with
an expression and has a run of separators in it, one with text in front of an expression, an absolute one
and a relative one. -/
theorem split_installed_mixed :
    let content : Text := "[a;b;$<X:e;;f>g;-I$<Y>c;/d;h"
    content.Closed ∧ content.Matched ∧
      (∀ element ∈ Elements.split content, element.Closed ∧ Elements.split element = [element]) ∧
      Elements.FinalsKept (Elements.split content) ∧
      Elements.split (installed content) =
        ([defaultRoot ++ "[a;b;", "$<X:e;f>g", defaultRoot ++ "-I$<Y>c", "/d", defaultRoot ++ "h"] :
          List Text) ∧
      (installed content).operations = Forest.tidied content.operations := by
  intro content
  have hclosed : content.Closed := by decide
  have hmatched : content.Matched := by decide
  have hcontent : Elements.split content =
      (["[a;b;", "$<X:e;;f>g", "-I$<Y>c", "/d", "h"] : List Text) := by
    decide +kernel
  have helements : ∀ element ∈ Elements.split content,
      element.Closed ∧ Elements.split element = [element] := by
    rw [hcontent]
    decide +kernel
  have hfinals : Elements.FinalsKept (Elements.split content) := by
    rw [hcontent]
    simp only [Elements.finalsKept_cons_iff]
    refine ⟨fun _ => ⟨"$<X:e;;f>g", rfl, by decide⟩, fun h => absurd h (by decide),
      fun h => absurd h (by decide), fun h => absurd h (by decide), fun h => absurd h (by decide), ?_⟩
    exact Elements.finalsKept_nil
  obtain ⟨hoperations, hsplit⟩ := split_installed hclosed hmatched
  refine ⟨hclosed, hmatched, helements, hfinals, ?_,
    hoperations fun element hmem => (helements element hmem).1⟩
  rw [(hsplit (fun element hmem => (helements element hmem).2) hfinals).1, hcontent]
  decide

/-- A run of separators inside an expression is not kept. -/
theorem split_installed_ne :
    let content : Text := "$<X:a;;b>"
    content.Closed ∧ content.Matched ∧
      Elements.split (installed content) ≠ (Elements.split content).map (rooted defaultRoot) := by
  refine ⟨by decide, by decide, ?_⟩
  decide +kernel

end Interface

end BuildExpr
