import BuildExpr.Proofs.Matching
import BuildExpr.Proofs.Spelling

/-!
# The shortcut past reading

A text in which no `>` follows the first `$<` is its own value, and `Engine.evaluateText` does not
even read it. Such a text is exactly one all of whose expressions are unterminated
(`Text.firstExpression_eq_none_iff`). Read after all, it has no operations in its forest, so
evaluating the forest gives the text back and changes nothing. Only the limit makes a difference:
openings that never end nest like any others, so the text may be too deep to be read. Apart from
that case the shortcut and the whole way give the same answers (`evaluateText_agrees_iff`).
-/

namespace BuildExpr

namespace Text

/-! ## Unterminated expressions -/

/-- No expression of the text ends. -/
def Unterminated (t : Text) : Prop :=
  ∀ before after, t = before ++ opening ++ after → splitAtClosing 0 after = none

/-- An opening adds one expression. -/
theorem unterminated_opening {rest : Text} :
    Unterminated ('$' :: '<' :: rest) ↔ splitAtClosing 0 rest = none ∧ Unterminated rest := by
  constructor
  · intro h
    refine ⟨h [] rest rfl, ?_⟩
    rintro before after rfl
    exact h ('$' :: '<' :: before) after rfl
  · rintro ⟨hfirst, hrest⟩ before after hsplit
    match before with
    | [] =>
      obtain rfl : rest = after := by simpa [opening] using hsplit
      exact hfirst
    | [c] => simp [opening] at hsplit
    | c :: d :: before =>
      obtain ⟨-, -, rfl⟩ : '$' = c ∧ '<' = d ∧ rest = before ++ opening ++ after := by
        simpa using hsplit
      exact hrest before after rfl

/-- Any other character adds none. -/
theorem unterminated_cons {c : Char} {rest : Text}
    (hopen : ∀ tail, c = '$' → rest = '<' :: tail → False) :
    Unterminated (c :: rest) ↔ Unterminated rest := by
  constructor
  · rintro h before after rfl
    exact h (c :: before) after rfl
  · intro h before after hsplit
    match before with
    | [] =>
      obtain ⟨hc, hrest⟩ := List.cons.inj hsplit
      exact absurd hrest fun hrest => hopen after hc hrest
    | d :: before =>
      obtain ⟨-, rfl⟩ := List.cons.inj hsplit
      exact h before after rfl

/-- Without a `>` nothing ends. -/
theorem splitAtClosing_of_not_mem {t : Text} (h : '>' ∉ t) (depth : Nat) :
    splitAtClosing depth t = none := by
  cases hsplit : splitAtClosing depth t with
  | none => rfl
  | some parts =>
    rw [append_of_splitAtClosing hsplit] at h
    simp at h

/-- A `>` after an opening ends that expression or one that is opened later. -/
theorem unterminated_iff_not_mem {t : Text} (hopen : splitAtClosing 0 t = none) :
    Unterminated t ↔ '>' ∉ t := by
  induction t using opening_induction with
  | nil => simp [Unterminated, opening]
  | opening rest ih =>
    rw [unterminated_opening]
    constructor
    · rintro ⟨hnone, hrest⟩
      simpa using (ih hnone).1 hrest
    · intro hmem
      have hmem' : '>' ∉ rest := by simpa using hmem
      have hnone := splitAtClosing_of_not_mem hmem' 0
      exact ⟨hnone, (ih hnone).2 hmem'⟩
  | char c rest hchar ih =>
    have hc : c ≠ '>' := by
      rintro rfl
      cases hopen
    rw [splitAtClosing_cons 0 hc hchar, Option.map_eq_none_iff] at hopen
    rw [unterminated_cons hchar, ih hopen]
    simp [Ne.symm hc]

/-- The text is taken for its own value exactly if none of its expressions ends. -/
theorem firstExpression_eq_none_iff (t : Text) : t.firstExpression = none ↔ Unterminated t := by
  unfold firstExpression
  fun_induction splitAtOpening t with
  | case1 => simp [Unterminated, opening]
  | case2 rest =>
    have hmem : '>' ∉ rest ↔ Unterminated ('$' :: '<' :: rest) := by
      rw [unterminated_opening]
      constructor
      · intro h
        have hnone := splitAtClosing_of_not_mem h 0
        exact ⟨hnone, (unterminated_iff_not_mem hnone).2 h⟩
      · rintro ⟨hnone, hrest⟩
        exact (unterminated_iff_not_mem hnone).1 hrest
    rw [← hmem]
    simp
  | case3 c rest hopen ih =>
    rw [unterminated_cons hopen, ← ih]
    cases splitAtOpening rest with
    | none => rfl
    | some parts => simp

/-- In a text all of whose expressions end and none of whose expressions ends there are none. -/
theorem Closed.no_opening_of_unterminated {t : Text} (h : Closed t) (ht : Unterminated t) :
    ¬ opening <:+: t := by
  rintro ⟨before, after, hsplit⟩
  have hclosed := h before after hsplit.symm
  rw [ht before after hsplit.symm] at hclosed
  cases hclosed

/-- An unterminated text has no expressions. -/
theorem Unterminated.expressionSpansFrom_eq {t : Text} (h : Unterminated t) (offset : Nat) :
    expressionSpansFrom offset t = [] := by
  fun_induction expressionSpansFrom offset t with
  | case1 => rfl
  | case2 offset rest ih =>
    obtain ⟨hfirst, hrest⟩ := unterminated_opening.1 h
    rw [closedSpan, hfirst, ih hrest, List.append_nil]
  | case3 offset c rest hopen ih => exact ih ((unterminated_cons hopen).1 h)

end Text

/-! ## Reading such a text after all -/

/-- A forest without operations is its own value. -/
theorem Forest.evaluateWith_of_operationCount {nodes : Forest} (h : operationCount nodes = 0)
    (operation : Forest → List Forest → Span → Eval Text) :
    nodes.evaluateWith operation = pure (render nodes) := by
  induction nodes with
  | nil => rw [render_nil, evaluateWith]
  | cons node rest ih =>
    rw [operationCount] at h
    cases node with
    | text value =>
      rw [evaluateWith, ih (by omega), render_cons, renderNode_text, pure_bind]
    | operation name parameters span =>
      rw [nodeOperations] at h
      omega

/-- An unterminated text within the limit has no operations. -/
theorem Tree.operationCount_parse {limit : Nat} {source : Text} (h : source.nesting ≤ limit)
    (hsource : source.Unterminated) : (Tree.parse limit source).operationCount = 0 := by
  have hspans := Forest.Reading.spans_finish_read {} 0 source
  rw [← Tree.nodes_parse h, hsource.expressionSpansFrom_eq 0] at hspans
  unfold operationCount
  rw [← Forest.length_spans, hspans]
  rfl

/-- What a caller is told about an expression: why it failed, or else its output. -/
def Compiled.answer (c : Compiled) : Except Failure Text :=
  match c.failure with
  | some failure => .error failure
  | none => .ok c.output

/-- A tree with the engine's defaults is evaluated in a context with these defaults. -/
theorem Engine.context_compileTree (engine : Engine) (tree : Tree) (inputs : Inputs) :
    (engine.compileTree tree).context engine inputs = Context.fresh engine inputs := by
  unfold compileTree Compiled.context Context.fresh
  simp

/-- What one is told about a fresh expression is how its tree is evaluated. -/
theorem Engine.answer_compileTree (engine : Engine) (tree : Tree) (inputs : Inputs) (chain : Chain)
    (w : Workspace) :
    ((engine.compileTree tree).evaluate engine inputs chain w).1.answer =
      match engine.evaluateTree w.store.model engine.limit (Context.fresh engine inputs).scope chain
        tree ((Context.fresh engine inputs).toRun w) with
      | .ok value _ => .ok value
      | .error failure _ => .error failure := by
  have hlimit : engine.limit - (Context.fresh engine inputs).depth = engine.limit := rfl
  have hevaluate := engine.evaluate_compileTree tree inputs chain w
  dsimp only at hevaluate
  rw [engine.context_compileTree tree inputs, Compiled.outcome_eq, hlimit] at hevaluate
  rw [hevaluate]
  cases engine.evaluateTree w.store.model engine.limit (Context.fresh engine inputs).scope chain tree
      ((Context.fresh engine inputs).toRun w) with
  | ok value after => rfl
  | error failure after => rfl

namespace Engine

/-- Evaluating it gives the text back. -/
theorem evaluateTree_unterminated (engine : Engine) {limit : Nat} {source : Text}
    (h : source.nesting ≤ limit) (hsource : source.Unterminated) (model : Model) (remaining : Nat)
    (scope : Scope) (chain : Chain) :
    engine.evaluateTree model remaining scope chain (Tree.parse limit source) = pure source := by
  have hnodes : (Tree.parse limit source).nodes = Forest.ofTokens (Token.scan source) :=
    Tree.nodes_parse h
  have hcount : Forest.operationCount (Forest.ofTokens (Token.scan source)) = 0 := by
    rw [← hnodes]
    exact Tree.operationCount_parse h hsource
  obtain ⟨operation, heq⟩ := engine.evaluateForest_eq model remaining scope chain source
  rw [engine.evaluateTree_parse model remaining scope chain h, heq,
    Forest.evaluateWith_of_operationCount hcount, Forest.render_ofTokens_scan]

variable (engine : Engine) (source : Text) (inputs : Inputs) (chain : Chain) (w : Workspace)

/-- Read within the limit, an unterminated text evaluates to itself and changes nothing. -/
theorem evaluate_compile_unterminated (h : source.nesting ≤ engine.limit)
    (hsource : source.Unterminated) :
    ∃ c, (engine.compile source).evaluate engine inputs chain w = (c, w) ∧ c.failure = none ∧
      c.output = source := by
  let context := (engine.compile source).context engine inputs
  have houtcome :
      Compiled.outcome engine (engine.parse source) context chain w =
        .ok source (context.toRun w) := by
    have hvalue := engine.evaluateTree_unterminated h hsource w.store.model
      (engine.limit - context.depth) context.scope chain
    rw [Compiled.outcome_eq, show engine.parse source = Tree.parse engine.limit source from rfl,
      hvalue]
    rfl
  have hevaluate := engine.evaluate_compileTree (engine.parse source) inputs chain w
  dsimp only at hevaluate
  rw [show (engine.compileTree (engine.parse source)).context engine inputs = context from rfl,
    houtcome] at hevaluate
  exact ⟨_, hevaluate, rfl, rfl⟩

/-- Beyond the limit it fails. -/
theorem evaluate_compile_tooDeep (h : engine.limit < source.nesting) :
    ((engine.compile source).evaluate engine inputs chain w).1 =
      { engine.compile source with
        output := []
        failure := some ⟨.nestingTooDeep source.nesting engine.limit, some source⟩ } :=
  Compiled.evaluateIn_tooDeep engine (Tree.parse_of_lt h) _ chain w

/-! ## The two ways compared -/

/-- The value of a text is the output of reading and evaluating it, and likewise its failure is the
failure of that. -/
def PathsAgree : Prop :=
  let answer := (engine.evaluateText source inputs chain w).1
  let c := ((engine.compile source).evaluate engine inputs chain w).1
  (∀ output, answer = .ok output ↔ c.failure = none ∧ c.output = output) ∧
    ∀ failure, answer = .error failure ↔ c.failure = some failure

/-- A text that is not read is its own value. -/
theorem evaluateText_unterminated (hsource : source.Unterminated) :
    engine.evaluateText source inputs chain w = (.ok source, w) := by
  unfold evaluateText
  rw [(Text.firstExpression_eq_none_iff source).2 hsource]
  rfl

/-- Unless a text that is not read could not be read, its value and the workspace afterwards are those
of reading and evaluating it. -/
theorem evaluateText_eq (h : source.Unterminated → source.nesting ≤ engine.limit) :
    engine.evaluateText source inputs chain w =
      let (c, w') := (engine.compile source).evaluate engine inputs chain w
      (c.answer, w') := by
  by_cases hsource : source.Unterminated
  · obtain ⟨c, hevaluate, hfailure, houtput⟩ :=
      engine.evaluate_compile_unterminated source inputs chain w (h hsource) hsource
    rw [engine.evaluateText_unterminated source inputs chain w hsource, hevaluate]
    dsimp only
    rw [Compiled.answer, hfailure, houtput]
  · have hread : source.firstExpression.isNone = false := by
      rw [Option.isNone_eq_false_iff, Option.isSome_iff_ne_none, ne_eq,
        Text.firstExpression_eq_none_iff]
      exact hsource
    unfold evaluateText Compiled.answer
    rw [hread]
    dsimp only
    cases ((engine.compile source).evaluate engine inputs chain w).1.failure with
    | none => rfl
    | some failure => rfl

/-- A text that is read either way has the same answer. -/
theorem pathsAgree_of_terminated (hsource : ¬ source.Unterminated) :
    engine.PathsAgree source inputs chain w := by
  unfold PathsAgree
  rw [engine.evaluateText_eq source inputs chain w fun h => absurd h hsource]
  dsimp only
  unfold Compiled.answer
  cases ((engine.compile source).evaluate engine inputs chain w).1.failure with
  | none => simp
  | some failure => simp

/-- Taking the shortcut makes no difference, for any operations and any model, unless no expression
of the text ends and the openings nest beyond the limit. In that case the text is its own value by
the shortcut, but reading it fails; within the limit it is its own value both ways. -/
theorem evaluateText_agrees_iff :
    (engine.PathsAgree source inputs chain w ↔
      (source.Unterminated → source.nesting ≤ engine.limit)) ∧
    (source.Unterminated →
      let c := ((engine.compile source).evaluate engine inputs chain w).1
      engine.evaluateText source inputs chain w = (.ok source, w) ∧
        (c.failure, c.output) =
          if source.nesting ≤ engine.limit then (none, source)
          else (some ⟨.nestingTooDeep source.nesting engine.limit, some source⟩, [])) := by
  by_cases hsource : source.Unterminated
  · have hquick := engine.evaluateText_unterminated source inputs chain w hsource
    by_cases hlimit : source.nesting ≤ engine.limit
    · obtain ⟨c, hevaluate, hfailure, houtput⟩ :=
        engine.evaluate_compile_unterminated source inputs chain w hlimit hsource
      simp [PathsAgree, hquick, hevaluate, hfailure, houtput, hlimit, eq_comm]
    · have hevaluate :=
        engine.evaluate_compile_tooDeep source inputs chain w (Nat.not_le.1 hlimit)
      simp [PathsAgree, hquick, hevaluate, hlimit, hsource]
  · have hagree := engine.pathsAgree_of_terminated source inputs chain w hsource
    simp [hagree, hsource]

end Engine

/-- Two openings that never end are their own value under a limit of one, but cannot be read under
it. -/
theorem shortcut_past_limit :
    ¬ ∀ (engine : Engine) (source : Text) (inputs : Inputs) (chain : Chain) (w : Workspace),
      engine.PathsAgree source inputs chain w := by
  intro h
  obtain ⟨-, hfails⟩ := h { limit := 1 } "$<$<" { config := "Debug" } [] {}
  have hfailure := (hfails ⟨.nestingTooDeep 2 1, some "$<$<"⟩).2 rfl
  cases hfailure

end BuildExpr
