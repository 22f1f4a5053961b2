import ArrayFusion.Text.Visibility

/-!
# Quoted characters and strings

Text is quoted so that it can be read on one line.  The five characters with a letter of their own
are written `\0 \t \n \r \\`, the enclosing quote is written after a backslash, and any other
character that has no visible form of its own is written as its hexadecimal code point, `\u` and
braces around it.  The quote of the other kind needs no escape.
-/

namespace ArrayFusion.Text

/-- A code point in lower-case hexadecimal digits, as in `\u` with `1b` in braces. -/
def codePointEscape (c : Char) : List Char :=
  ['\\', 'u', '\x7b'] ++ Nat.toDigits 16 c.toNat ++ ['\x7d']

/-- How a character is written between two `quote`s. -/
def escape (quote c : Char) : List Char :=
  if c = '\x00' then ['\\', '0']
  else if c = '\t' then ['\\', 't']
  else if c = '\n' then ['\\', 'n']
  else if c = '\r' then ['\\', 'r']
  else if c = '\\' || c = quote then ['\\', c]
  else if extendsGrapheme c || !isPrintable c then codePointEscape c
  else [c]

/-- A character between single quotes. -/
def quotedChar (c : Char) : String := String.ofList ('\'' :: escape '\'' c ++ ['\''])

/-- A string between double quotes. -/
def quotedString (s : String) : String :=
  String.ofList ('"' :: s.toList.flatMap (escape '"') ++ ['"'])

/-- Items with a comma and a blank between them. -/
def commaSep (items : List String) : String := String.intercalate ", " items

end ArrayFusion.Text
