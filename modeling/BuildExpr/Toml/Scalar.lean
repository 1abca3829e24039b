import BuildExpr.Text

/-!
# TOML strings, numbers, dates and blanks

How the smallest parts of a TOML document are spelled. Every reader takes a text and gives what it
has read with the text after it, or nothing if the text does not start as it should.
-/

namespace BuildExpr.Toml

/-- A character that is read exactly. -/
def expect (c : Char) : Text → Option Text
  | [] => none
  | first :: rest => if first = c then some rest else none

/-! ## Blanks and comments -/

/-- Whether a character may stand in a comment or a string: a tab or no control character. -/
def isPlain (c : Char) : Bool := c = '\t' || (0x20 ≤ c.toNat && c.toNat ≠ 0x7f)

/-- Whether a character is a blank. -/
def isBlank (c : Char) : Bool := c = ' ' || c = '\t'

/-- The text without the blanks it starts with. -/
def skipBlanks (t : Text) : Text := t.dropWhile isBlank

/-- The text after an end of line, or the empty text at the end of the document. -/
def endOfLine? : Text → Option Text
  | [] => some []
  | '\n' :: rest | '\r' :: '\n' :: rest => some rest
  | _ => none

/-- The text after the rest of a line, on which only blanks and a comment may stand. -/
def restOfLine? (t : Text) : Option Text :=
  match skipBlanks t with
  | '#' :: rest => endOfLine? (rest.dropWhile isPlain)
  | rest => endOfLine? rest

/-- The text without the blanks, ends of lines and comments it starts with, in the middle of a
comment or not. -/
def skipVoid : Bool → Text → Option Text
  | _, [] => some []
  | _, '\n' :: rest | _, '\r' :: '\n' :: rest => skipVoid false rest
  | true, c :: rest => if isPlain c then skipVoid true rest else none
  | false, '#' :: rest => skipVoid true rest
  | false, c :: rest => if isBlank c then skipVoid false rest else some (c :: rest)

/-! ## Strings -/

/-- The value of a hexadecimal digit. -/
def hexValue? (c : Char) : Option Nat :=
  if c.isDigit then some (c.toNat - '0'.toNat)
  else if 'a' ≤ c ∧ c ≤ 'f' then some (c.toNat - 'a'.toNat + 10)
  else if 'A' ≤ c ∧ c ≤ 'F' then some (c.toNat - 'A'.toNat + 10)
  else none

/-- The character whose code point some hexadecimal digits spell. -/
def charOfHex? (digits : Text) : Option Char := do
  let value ← digits.foldlM (fun value c => (hexValue? c).map (value * 16 + ·)) 0
  if h : value.isValidChar then return Char.ofNatAux value h else none

/-- The character that a letter after a backslash stands for. -/
def escaped? : Char → Option Char
  | 'b' => some '\x08'
  | 't' => some '\t'
  | 'n' => some '\n'
  | 'f' => some '\x0c'
  | 'r' => some '\r'
  | '"' => some '"'
  | '\\' => some '\\'
  | _ => none

/-- A character put in front of a string that has been read. -/
def consRead (c : Char) (read : Option (Text × Text)) : Option (Text × Text) :=
  read.map fun (value, rest) => (c :: value, rest)

/-- A basic string after its opening quote. -/
def readBasic : Text → Option (Text × Text)
  | [] => none
  | '"' :: rest => some ([], rest)
  | '\\' :: 'u' :: a :: b :: c :: d :: rest =>
    (charOfHex? [a, b, c, d]).bind fun char => consRead char (readBasic rest)
  | '\\' :: 'U' :: a :: b :: c :: d :: e :: f :: g :: h :: rest =>
    (charOfHex? [a, b, c, d, e, f, g, h]).bind fun char => consRead char (readBasic rest)
  | '\\' :: c :: rest => (escaped? c).bind fun char => consRead char (readBasic rest)
  | c :: rest => if isPlain c && c ≠ '\\' then consRead c (readBasic rest) else none

/-- A literal string after its opening quote. -/
def readLiteral : Text → Option (Text × Text)
  | [] => none
  | '\'' :: rest => some ([], rest)
  | c :: rest => if isPlain c then consRead c (readLiteral rest) else none

/-- Where the reader of a long basic string is. -/
inductive Place where
  /-- In the text of the string. -/
  | content
  /-- After a backslash that ends a line, up to the end of the line. -/
  | lineEnd
  /-- After that, before the next character that is no blank. -/
  | margin
deriving DecidableEq, Repr

/-- A basic string over several lines after its opening quotes. Up to two quotes may touch the three
that close it. -/
def readLongBasic : Place → Text → Option (Text × Text)
  | _, [] => none
  | .lineEnd, '\n' :: rest | .lineEnd, '\r' :: '\n' :: rest => readLongBasic .margin rest
  | .lineEnd, c :: rest => if isBlank c then readLongBasic .lineEnd rest else none
  | .margin, '\n' :: rest | .margin, '\r' :: '\n' :: rest => readLongBasic .margin rest
  | _, '"' :: '"' :: '"' :: '"' :: '"' :: rest => some (['"', '"'], rest)
  | _, '"' :: '"' :: '"' :: '"' :: rest => some (['"'], rest)
  | _, '"' :: '"' :: '"' :: rest => some ([], rest)
  | _, '\\' :: 'u' :: a :: b :: c :: d :: rest =>
    (charOfHex? [a, b, c, d]).bind fun char => consRead char (readLongBasic .content rest)
  | _, '\\' :: 'U' :: a :: b :: c :: d :: e :: f :: g :: h :: rest =>
    (charOfHex? [a, b, c, d, e, f, g, h]).bind fun char =>
      consRead char (readLongBasic .content rest)
  | _, '\\' :: '\n' :: rest | _, '\\' :: '\r' :: '\n' :: rest => readLongBasic .margin rest
  | _, '\\' :: c :: rest =>
    if isBlank c then readLongBasic .lineEnd rest
    else (escaped? c).bind fun char => consRead char (readLongBasic .content rest)
  | .content, '\n' :: rest | .content, '\r' :: '\n' :: rest =>
    consRead '\n' (readLongBasic .content rest)
  | place, c :: rest =>
    if place = .margin && isBlank c then readLongBasic .margin rest
    else if isPlain c && c ≠ '\\' then consRead c (readLongBasic .content rest)
    else none

/-- A literal string over several lines after its opening quotes. Up to two quotes may touch the
three that close it. -/
def readLongLiteral : Text → Option (Text × Text)
  | [] => none
  | '\'' :: '\'' :: '\'' :: '\'' :: '\'' :: rest => some (['\'', '\''], rest)
  | '\'' :: '\'' :: '\'' :: '\'' :: rest => some (['\''], rest)
  | '\'' :: '\'' :: '\'' :: rest => some ([], rest)
  | '\n' :: rest | '\r' :: '\n' :: rest => consRead '\n' (readLongLiteral rest)
  | c :: rest => if isPlain c then consRead c (readLongLiteral rest) else none

/-- The text without the end of line it starts with, if it does. -/
def dropLineEnd : Text → Text
  | '\n' :: rest | '\r' :: '\n' :: rest => rest
  | t => t

/-- A string of any kind. -/
def readString : Text → Option (Text × Text)
  | '"' :: '"' :: '"' :: rest => readLongBasic .content (dropLineEnd rest)
  | '\'' :: '\'' :: '\'' :: rest => readLongLiteral (dropLineEnd rest)
  | '"' :: rest => readBasic rest
  | '\'' :: rest => readLiteral rest
  | _ => none

/-! ## Numbers and truth values -/

/-- Whether a text goes on with digits, each of them perhaps after an underscore. -/
def moreDigits (isDigit : Char → Bool) : Text → Bool
  | [] => true
  | '_' :: c :: rest => isDigit c && moreDigits isDigit rest
  | c :: rest => isDigit c && moreDigits isDigit rest

/-- Whether a text is one or more digits with single underscores between some of them. -/
def areDigits (isDigit : Char → Bool) : Text → Bool
  | [] => false
  | c :: rest => isDigit c && moreDigits isDigit rest

/-- The number that digits of a base spell, underscores and all. -/
def digitsValue (base : Nat) (digits : Text) : Nat :=
  digits.foldl (fun value c => ((hexValue? c).map (value * base + ·)).getD value) 0

/-- Whether digits of a base spell an integer below `2^63`. -/
def areSmallDigits (base : Nat) (digits : Text) : Bool :=
  areDigits (fun c => (hexValue? c).any (· < base)) digits &&
    digitsValue base digits < Nat.pow 2 63

/-- Whether a text is decimal digits that do not start with a superfluous zero. -/
def areDecimal (digits : Text) : Bool :=
  areDigits Char.isDigit digits && (digits.head? ≠ some '0' || digits.length = 1)

/-- The text without a sign in front. -/
def dropSign : Text → Text
  | '+' :: rest | '-' :: rest => rest
  | t => t

/-- Whether a word is an integer of 64 bits. -/
def isInteger : Text → Bool
  | '0' :: 'x' :: digits => areSmallDigits 16 digits
  | '0' :: 'o' :: digits => areSmallDigits 8 digits
  | '0' :: 'b' :: digits => areSmallDigits 2 digits
  | word =>
    let digits := dropSign word
    areDecimal digits &&
      digitsValue 10 digits < (if word.head? = some '-' then Nat.pow 2 63 + 1 else Nat.pow 2 63)

/-- Whether a number `digits * 10^exponent` is within reach of a double, that is below
`2^1024 - 2^970`. Exponents that settle the question by themselves are not raised to. -/
def isFinite (digits : Nat) (exponent : Int) : Bool :=
  digits = 0 || exponent + (Nat.toDigits 10 digits).length ≤ 300 ||
    (exponent ≤ 400 &&
      (if exponent < 0 then
        digits < (Nat.pow 2 1024 - Nat.pow 2 970) * Nat.pow 10 exponent.natAbs
      else digits * Nat.pow 10 exponent.natAbs < Nat.pow 2 1024 - Nat.pow 2 970))

/-- Whether a word is a floating-point number. One that is too large is none, unless it is
negative. -/
def isFloat (word : Text) : Bool :=
  let unsigned := dropSign word
  if unsigned = "inf" || unsigned = "nan" then true
  else
    let isMark := fun c : Char => c = 'e' || c = 'E'
    let number := unsigned.takeWhile (!isMark ·)
    let power := (unsigned.dropWhile (!isMark ·)).drop 1
    let whole := number.takeWhile (· ≠ '.')
    let fraction := (number.dropWhile (· ≠ '.')).drop 1
    let hasPower := unsigned.any isMark
    let hasFraction := number.contains '.'
    let exponent : Int :=
      (if power.head? = some '-' then -(digitsValue 10 (dropSign power) : Int)
        else digitsValue 10 (dropSign power)) - (fraction.filter Char.isDigit).length
    (hasPower || hasFraction) && areDecimal whole &&
      (!hasFraction || areDigits Char.isDigit fraction) &&
      (!hasPower || areDigits Char.isDigit (dropSign power)) &&
      (word.head? = some '-' || isFinite (digitsValue 10 (whole ++ fraction)) exponent)

/-- Whether a word is a number or a truth value. -/
def isScalar (word : Text) : Bool :=
  word = "true" || word = "false" || isInteger word || isFloat word

/-- Whether a character may stand in a number or a truth value. -/
def isWordChar (c : Char) : Bool := c.isAlphanum || c ∈ ['_', '+', '-', '.']

/-! ## Dates and times -/

/-- A number of two digits within bounds. -/
def readTwoDigits (least greatest : Nat) : Text → Option (Nat × Text)
  | a :: b :: rest =>
    let number := digitsValue 10 [a, b]
    if a.isDigit && b.isDigit && least ≤ number && number ≤ greatest then some (number, rest) else none
  | _ => none

/-- How many days a month has. -/
def daysIn (year month : Nat) : Nat :=
  if month = 2 then
    if year % 4 = 0 && (year % 100 ≠ 0 || year % 400 = 0) then 29 else 28
  else if month ∈ [4, 6, 9, 11] then 30
  else 31

/-- The text after a date. -/
def readDate (t : Text) : Option Text := do
  let (century, rest) ← readTwoDigits 0 99 t
  let (year, rest) ← readTwoDigits 0 99 rest
  let (month, rest) ← readTwoDigits 1 12 (← expect '-' rest)
  let (_, rest) ← readTwoDigits 1 (daysIn (century * 100 + year) month) (← expect '-' rest)
  return rest

/-- The text after a time. A minute may have a leap second, and a second any number of decimals. -/
def readTime (t : Text) : Option Text := do
  let (_, rest) ← readTwoDigits 0 23 t
  let (_, rest) ← readTwoDigits 0 59 (← expect ':' rest)
  let (_, rest) ← readTwoDigits 0 60 (← expect ':' rest)
  match rest with
  | '.' :: c :: more => return if c.isDigit then more.dropWhile Char.isDigit else rest
  | _ => return rest

/-- The text after the distance from universal time, if there is one. -/
def dropOffset (t : Text) : Text :=
  match t with
  | 'Z' :: rest | 'z' :: rest => rest
  | '+' :: rest | '-' :: rest =>
    let offset := do
      let (_, rest) ← readTwoDigits 0 23 rest
      let (_, rest) ← readTwoDigits 0 59 (← expect ':' rest)
      return rest
    offset.getD t
  | t => t

/-- The text after a date, with or without a time of that day, or after a time. -/
def readDateTime (t : Text) : Option Text :=
  match readDate t with
  | none => readTime t
  | some rest =>
    match rest with
    | 'T' :: time | 't' :: time | ' ' :: time =>
      some (((readTime time).map dropOffset).getD rest)
    | rest => some rest

/-- The text after a date or a time, a number or a truth value. -/
def readScalar (t : Text) : Option Text :=
  (readDateTime t).or <|
    if isScalar (t.takeWhile isWordChar) then some (t.dropWhile isWordChar) else none

end BuildExpr.Toml
