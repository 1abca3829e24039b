import BuildExpr.Text

/-!
# List elements

A list is written as one text with `;` between its elements. A `;` does not separate when a
backslash stands before it or when it lies inside square brackets, and empty elements do not count.

`expand` gives the elements of a list, and `expandOnto` puts them behind others. `dropEmpty` removes the
separators that only mark empty elements, without looking at escapes or brackets.
-/

namespace BuildExpr.Elements

/-- What separates elements. -/
def separator : Char := ';'

/-- A character put in front of the first piece. -/
def consFirst (c : Char) : List Text → List Text
  | [] => [[c]]
  | piece :: rest => (c :: piece) :: rest

/-- The pieces between separators, empty ones included, with `depth` brackets open at the start.
An escaped separator is unescaped; any other backslash stays. -/
def pieces : Nat → Text → List Text
  | _, [] => [[]]
  | depth, '\\' :: ';' :: rest => consFirst ';' (pieces depth rest)
  | depth, '[' :: rest => consFirst '[' (pieces (depth + 1) rest)
  | depth, ']' :: rest => consFirst ']' (pieces (depth - 1) rest)
  | 0, ';' :: rest => [] :: pieces 0 rest
  | depth, c :: rest => consFirst c (pieces depth rest)

/-- The elements of a list. -/
def expand (t : Text) : List Text := (pieces 0 t).filter fun piece => !piece.isEmpty

/-- Elements with one more behind them, which is given backwards and does not count if it is empty. -/
def addElement (output : Array Text) (backwards : Text) : Array Text :=
  if backwards.isEmpty then output else output.push backwards.reverse

/-- Elements with those of a text behind them, when `depth` brackets are open and an element has been read
up to the text. What has been read of it is given backwards. -/
def expandFrom (output : Array Text) (backwards : Text) : Nat → Text → Array Text
  | _, [] => addElement output backwards
  | depth, '\\' :: ';' :: rest => expandFrom output (';' :: backwards) depth rest
  | depth, '[' :: rest => expandFrom output ('[' :: backwards) (depth + 1) rest
  | depth, ']' :: rest => expandFrom output (']' :: backwards) (depth - 1) rest
  | 0, ';' :: rest => expandFrom (addElement output backwards) [] 0 rest
  | depth, c :: rest => expandFrom output (c :: backwards) depth rest

/-- Elements with those of a list behind them, read in one pass. -/
def expandOnto (output : Array Text) (t : Text) : Array Text := expandFrom output [] 0 t

/-- The text without the separators that follow a separator or, if `after` holds, start it. -/
def dropRepeated : Bool → Text → Text
  | _, [] => []
  | after, c :: rest =>
    if c = ';' then
      if after then dropRepeated true rest else c :: dropRepeated true rest
    else c :: dropRepeated false rest

/-- The text without one separator at its end. -/
def dropFinal (t : Text) : Text := if t.getLast? = some ';' then t.dropLast else t

/-- The list without leading, repeated and trailing separators. -/
def dropEmpty (t : Text) : Text := dropFinal (dropRepeated true t)

/-- Expanding a list leaves no empty elements. -/
theorem ne_nil_of_mem_expand {t element : Text} (h : element ∈ expand t) : element ≠ [] := by
  simpa using (List.mem_filter.1 h).2

end BuildExpr.Elements
