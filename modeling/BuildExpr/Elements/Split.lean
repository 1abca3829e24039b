import BuildExpr.Elements
import BuildExpr.Delimiter

/-!
# Splitting a list around its expressions

A list may have expressions in it, and a `;` inside an expression does not separate the elements of
the list. `split` keeps each expression in one element, together with the text that touches it: back
to the separator before it and on to the separator after it. An expression without an end takes in
everything that follows.
-/

namespace BuildExpr.Elements

/-- The text before an expression, as the part that holds elements of its own and the text after
its last separator, which touches the expression. A separator that touches the expression stays in
the first part. -/
def glue (before : Text) : Text × Text :=
  let touching := (before.reverse.takeWhile (· ≠ ';')).reverse
  if touching.length = before.length then ([], before)
  else if touching.isEmpty then (before, [])
  else (before.take (before.length - touching.length - 1), touching)

/-- The elements of a list whose expressions are kept whole. -/
def split (t : Text) : List Text :=
  match _hopen : t.splitAtOpening with
  | none => expand t
  | some (before, after) =>
    let (part, touching) := glue before
    match _hclose : after.splitAtClosing 0 with
    | none => expand part ++ [touching ++ opening ++ after]
    | some (inside, rest) =>
      expand part ++ (touching ++ opening ++ inside ++ '>' :: rest.takeWhile (· ≠ ';')) ::
        split (rest.dropWhile (· ≠ ';'))
termination_by t.length
decreasing_by
  -- Both cuts and the skipped text make what is left shorter.
  have hafter := Text.length_lt_of_splitAtOpening _hopen
  have hrest := Text.length_lt_of_splitAtClosing _hclose
  have hdrop := (List.dropWhile_sublist (l := rest) (· ≠ ';')).length_le
  omega

/-- Elements with those of a list behind them, whose expressions are kept whole. -/
def splitOnto (output : Array Text) (t : Text) : Array Text :=
  match _hopen : t.splitAtOpening with
  | none => expandOnto output t
  | some (before, after) =>
    let (part, touching) := glue before
    let output := expandOnto output part
    match _hclose : after.splitAtClosing 0 with
    | none => output.push (touching ++ opening ++ after)
    | some (inside, rest) =>
      splitOnto (output.push (touching ++ opening ++ inside ++ '>' :: rest.takeWhile (· ≠ ';')))
        (rest.dropWhile (· ≠ ';'))
termination_by t.length
decreasing_by
  have hafter := Text.length_lt_of_splitAtOpening _hopen
  have hrest := Text.length_lt_of_splitAtClosing _hclose
  have hdrop := (List.dropWhile_sublist (l := rest) (· ≠ ';')).length_le
  omega

end BuildExpr.Elements
