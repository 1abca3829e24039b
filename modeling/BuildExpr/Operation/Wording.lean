import BuildExpr.Operation.Condition

/-!
# Texts and lists

Operations that stand for a character that would otherwise be read as a mark, and operations that
change a text or a list.
-/

namespace BuildExpr.Operation

/-- An operation that stands for one character. -/
def character (name : Text) (c : Char) : Operation :=
  .ofParameters name (.exactly 0) fun _ => .ok [c]

/-- A `>` that closes nothing: `$<ANGLE-R>`. -/
def angle : Operation := character "ANGLE-R" '>'

/-- A comma that separates nothing: `$<COMMA>`. -/
def comma : Operation := character "COMMA" ','

/-- A semicolon in the result: `$<SEMICOLON>`. -/
def semicolon : Operation := character "SEMICOLON" ';'

/-- The text in lower case: `$<LOWER_CASE:text>`. -/
def lowerCase : Operation :=
  .ofParameters "LOWER_CASE" (.exactly 1) fun parameters => .ok (firstParameter parameters).lower

/-- The text in upper case: `$<UPPER_CASE:text>`. -/
def upperCase : Operation :=
  .ofParameters "UPPER_CASE" (.exactly 1) fun parameters => .ok (firstParameter parameters).upper

/-- The elements of a list with a text between them: `$<JOIN:list,glue>`. -/
def join : Operation :=
  .ofParameters "JOIN" (.exactly 2) fun
    | [list, glue] => .ok (Text.join glue (Elements.expand list))
    | parameters => .error (.wrongCount "JOIN" (.exactly 2) parameters.length)

/-- A list with the first of equal elements only: `$<REMOVE_DUPLICATES:list>`. -/
def removeDuplicates : Operation :=
  .ofParameters "REMOVE_DUPLICATES" (.exactly 1) fun parameters =>
    .ok (Text.join [';'] (Elements.expand (firstParameter parameters)).eraseDups)

end BuildExpr.Operation
