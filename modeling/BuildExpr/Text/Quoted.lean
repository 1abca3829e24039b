import BuildExpr.Text

/-!
# Quoted text

The form in which the inspection commands show a text: in double quotes, with a backslash before
a quote or a backslash, short escapes for the common controls, and the code point in hexadecimal
for every other character that would not show on its own.
-/

namespace BuildExpr.Text.Quoted

/-- The code points shown by their number: controls, marks that combine with what stands before
them, spaces other than the ordinary one, invisible formatting characters and private use. -/
def hiddenRanges : List (Nat × Nat) :=
  [(0x00, 0x1f), (0x7f, 0xa0), (0xad, 0xad), (0x300, 0x36f), (0x483, 0x489), (0x591, 0x5bd),
   (0x600, 0x605), (0x61c, 0x61c), (0x64b, 0x65f), (0x1680, 0x1680), (0x180b, 0x180f),
   (0x1ab0, 0x1ace), (0x1dc0, 0x1dff), (0x2000, 0x200f), (0x2028, 0x202f), (0x205f, 0x2064),
   (0x2066, 0x206f), (0x20d0, 0x20f0), (0x3000, 0x3000), (0x302a, 0x302f), (0x3099, 0x309a),
   (0xe000, 0xf8ff), (0xfe00, 0xfe0f), (0xfe20, 0xfe2f), (0xfeff, 0xfeff), (0xfff0, 0xfffb),
   (0xfffe, 0xffff), (0xe0000, 0x10ffff)]

/-- Whether a character is shown by its number. -/
def isHidden (c : Char) : Bool :=
  hiddenRanges.any fun (first, last) => first ≤ c.toNat && c.toNat ≤ last

/-- One character as it stands between the quotes. -/
def encodeChar (c : Char) : Text :=
  if c = '\x00' then "\\0"
  else if c = '\t' then "\\t"
  else if c = '\r' then "\\r"
  else if c = '\n' then "\\n"
  else if c = '"' then "\\\""
  else if c = '\\' then "\\\\"
  else if isHidden c then List.flatten ["\\u\x7b", Nat.toDigits 16 c.toNat, "\x7d"]
  else [c]

/-- The text in double quotes. -/
def encode (t : Text) : Text := '"' :: t.flatMap encodeChar ++ ['"']

end BuildExpr.Text.Quoted
