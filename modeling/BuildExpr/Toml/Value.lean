import BuildExpr.Text

/-!
# TOML values

What a TOML document says. Strings, arrays and tables are kept; of numbers, truth values and dates it is
only kept that there is one, since nothing here has a use for what they say.
-/

namespace BuildExpr.Toml

/-- A value. -/
inductive Value where
  /-- A string. -/
  | string (value : Text)
  /-- A number, a truth value, a date or a time. -/
  | scalar
  /-- An array. -/
  | array (items : List Value)
  /-- A table, by key. -/
  | table (entries : List (Text × Value))
deriving Repr

/-- A way to read documents: the entries of the table that a text says, unless it is no document. -/
abbrev Reader := Text → Option (List (Text × Value))

end BuildExpr.Toml
