import BuildExpr.Toml.Scalar
import BuildExpr.Toml.Table

/-!
# TOML documents

A document is read into entries, one for each header and each key with a value, and the entries
are put together into a table. Arrays and inline tables may be nested up to a limit, and a dotted
key may have up to as many parts.
-/

namespace BuildExpr.Toml

/-- How many parts a key may have, and how deeply arrays and inline tables may be nested. -/
def nestingLimit : Nat := 79

/-- Whether a character may stand in a key without quotes. -/
def isKeyChar (c : Char) : Bool := c.isAlphanum || c = '_' || c = '-'

/-- One part of a key. -/
def readKeyPart : Text → Option (Text × Text)
  | '"' :: rest => readBasic rest
  | '\'' :: rest => readLiteral rest
  | t =>
    let bare := t.takeWhile isKeyChar
    if bare.isEmpty then none else some (bare, t.dropWhile isKeyChar)

/-- A key of at most so many parts, with blanks around each part: the parts before the last one,
and the last one. -/
def readKey : Nat → Text → Option ((List Text × Text) × Text)
  | 0, _ => none
  | parts + 1, t => do
    let (part, rest) ← readKeyPart (skipBlanks t)
    match skipBlanks rest with
    | '.' :: rest =>
      let ((path, last), rest) ← readKey parts rest
      return ((part :: path, last), rest)
    | rest => return (([], part), rest)

/-- The items of an array after its opening bracket, at most so many. -/
def readItems (value : Text → Option (Value × Text)) : Nat → Text → Option (List Value × Text)
  | 0, _ => none
  | more + 1, t => do
    match ← skipVoid false t with
    | ']' :: rest => return ([], rest)
    | t =>
      let (item, rest) ← value t
      match ← skipVoid false rest with
      | ']' :: rest => return ([item], rest)
      | ',' :: rest =>
        let (items, rest) ← readItems value more rest
        return (item :: items, rest)
      | _ => none

/-- The entries of an inline table, at most so many, added to those before. -/
def readEntries (value : Text → Option (Value × Text)) : Nat → Items → Text → Option (Items × Text)
  | 0, _, _ => none
  | more + 1, items, t => do
    let ((path, key), rest) ← readKey nestingLimit t
    let rest ← expect '=' rest
    let (v, rest) ← value (skipBlanks rest)
    let items ← items.addDotted key v path
    match skipBlanks rest with
    | '}' :: rest => return (items, rest)
    | ',' :: rest => readEntries value more items rest
    | _ => none

/-- A value in which arrays and inline tables are nested at most so deep. -/
def readValue : Nat → Text → Option (Value × Text)
  | depth, '[' :: rest =>
    match depth with
    | 0 => none
    | depth + 1 =>
      (readItems (readValue depth) (rest.length + 1) rest).map fun (items, rest) =>
        (.array items, rest)
  | depth, '{' :: rest =>
    match depth with
    | 0 => none
    | depth + 1 =>
      match skipBlanks rest with
      | '}' :: rest => some (.table [], rest)
      | t =>
        (readEntries (readValue depth) (t.length + 1) [] t).map fun (items, rest) =>
          (.table (entriesToValues items), rest)
  | _, t =>
    if t.head? = some '"' || t.head? = some '\'' then
      (readString t).map fun (value, rest) => (.string value, rest)
    else (readScalar t).map fun rest => (.scalar, rest)

/-- An entry of a document. -/
inductive Entry where
  /-- The header of a table. -/
  | header (path : List Text) (key : Text)
  /-- The header of a new table in an array of tables. -/
  | element (path : List Text) (key : Text)
  /-- A key with its value. -/
  | value (path : List Text) (key : Text) (v : Value)
deriving Repr

/-- The entry at the start of a line that has one, with the text of the lines after it. -/
def readEntry : Text → Option (Entry × Text)
  | '[' :: '[' :: rest => do
    let ((path, key), rest) ← readKey nestingLimit rest
    let rest ← restOfLine? (← expect ']' (← expect ']' rest))
    return (.element path key, rest)
  | '[' :: rest => do
    let ((path, key), rest) ← readKey nestingLimit rest
    let rest ← restOfLine? (← expect ']' rest)
    return (.header path key, rest)
  | t => do
    let ((path, key), rest) ← readKey nestingLimit t
    let (v, rest) ← readValue nestingLimit (skipBlanks (← expect '=' rest))
    let rest ← restOfLine? rest
    return (.value path key v, rest)

/-- The entries of a text of at most so many lines. -/
def readLines : Nat → Text → Option (List Entry)
  | 0, _ => none
  | lines + 1, t => do
    match ← skipVoid false t with
    | [] => return []
    | t =>
      let (entry, rest) ← readEntry t
      let entries ← readLines lines rest
      return entry :: entries

/-- The table of a document and the path of the table that keys are added to. -/
structure Assembly where
  /-- The items so far. -/
  items : Items := []
  /-- The table that the last header named. -/
  current : List Text := []

/-- An entry added to a document. -/
def Assembly.add (a : Assembly) : Entry → Option Assembly
  | .header path key => do
    let items ← a.items.alterAt (Items.openTable key) path
    return { items, current := path ++ [key] }
  | .element path key => do
    let items ← a.items.alterAt (Items.openElement key) path
    return { items, current := path ++ [key] }
  | .value path key v => do
    let items ← a.items.alterAt (Items.addDotted key v path) a.current
    return { a with items }

/-- The text without a byte order mark in front. -/
def dropMark : Text → Text
  | '\ufeff' :: rest => rest
  | t => t

/-- The table that a document says. -/
def read? (t : Text) : Option (List (Text × Value)) := do
  let entries ← readLines (t.length + 1) (dropMark t)
  let assembly ← entries.foldlM Assembly.add {}
  return entriesToValues assembly.items

end BuildExpr.Toml
