import ArrayFusion.Json.Basic
import ArrayFusion.Decimal.Layout

/-!
# Writing JSON texts

`render` writes a value on one line without blanks.  `pretty` gives every item and field a line of
its own, indented by two blanks for each container around it, and writes an empty container without
a line break.  Only the quote, the backslash and the control characters below the blank are escaped.
What has no text of its own, a float that is not finite or an unreadable part, is written as null.
-/

namespace ArrayFusion.Json

/-- Floats between `10 ^ -5` and `10 ^ 16` are written positionally and others with a signed
exponent; of two equally near decimals the even one is taken. -/
def realLayout : Decimal.Layout := ⟨-5, 16, true, .even⟩

/-- A float as a number; there is no number for one that is not finite. -/
def realText (x : Float) : String :=
  if x.isFinite then Decimal.ofFloat realLayout x else "null"

/-- A hexadecimal digit in lower case. -/
def hexChar (n : Nat) : Char := (Nat.toDigits 16 n).headD '0'

/-- A character as it stands in a string. -/
def escapeChar (c : Char) : List Char :=
  match c with
  | '"' => ['\\', '"']
  | '\\' => ['\\', '\\']
  | '\x08' => ['\\', 'b']
  | '\x0c' => ['\\', 'f']
  | '\n' => ['\\', 'n']
  | '\r' => ['\\', 'r']
  | '\t' => ['\\', 't']
  | c =>
    if c.toNat < 0x20 then
      ['\\', 'u', '0', '0', hexChar (c.toNat / 16), hexChar (c.toNat % 16)]
    else [c]

/-- A string with its quotes. -/
def stringText (s : String) : String :=
  String.ofList ('"' :: s.toList.flatMap escapeChar ++ ['"'])

mutual

/-- The text of a value on one line, without blanks. -/
def render : Json → String
  | .null => "null"
  | .unreadable => "null"
  | .bool b => if b then "true" else "false"
  | .int n => toString n
  | .real x => realText x
  | .str s => stringText s
  | .arr items => "[" ++ ",".intercalate (renderItems items) ++ "]"
  | .obj fields => "\x7b" ++ ",".intercalate (renderFields fields) ++ "\x7d"

/-- The texts of the items of an array. -/
def renderItems : List Json → List String
  | [] => []
  | j :: rest => render j :: renderItems rest

/-- The texts of the fields of an object. -/
def renderFields : List (String × Json) → List String
  | [] => []
  | (k, j) :: rest => (stringText k ++ ":" ++ render j) :: renderFields rest

end

/-- A line break and `depth` steps of indentation. -/
def newline (depth : Nat) : String := String.ofList ('\n' :: List.replicate (2 * depth) ' ')

/-- The parts of a container, each on a line of its own, between two brackets. -/
def block (depth : Nat) (opening closing : String) : List String → String
  | [] => opening ++ closing
  | parts =>
    opening ++ newline (depth + 1) ++ ("," ++ newline (depth + 1)).intercalate parts
      ++ newline depth ++ closing

mutual

/-- The text of a value inside `depth` containers, one part to a line. -/
def prettyAt (depth : Nat) : Json → String
  | .null => "null"
  | .unreadable => "null"
  | .bool b => if b then "true" else "false"
  | .int n => toString n
  | .real x => realText x
  | .str s => stringText s
  | .arr items => block depth "[" "]" (prettyItems (depth + 1) items)
  | .obj fields => block depth "\x7b" "\x7d" (prettyFields (depth + 1) fields)

/-- The texts of the items of an array. -/
def prettyItems (depth : Nat) : List Json → List String
  | [] => []
  | j :: rest => prettyAt depth j :: prettyItems depth rest

/-- The texts of the fields of an object. -/
def prettyFields (depth : Nat) : List (String × Json) → List String
  | [] => []
  | (k, j) :: rest => (stringText k ++ ": " ++ prettyAt depth j) :: prettyFields depth rest

end

/-- The text of a value, one part to a line. -/
def pretty (j : Json) : String := prettyAt 0 j

end ArrayFusion.Json
