import ArrayFusion.Json.Token

/-!
# Reading JSON texts

The tokens of a text are read from left to right, with the containers that are still open on a
stack, so that a text of any depth is read in one pass over its tokens.  `parse?` reads a text that
is well-formed, though parts of it may be unreadable; `parseAll?` refuses such parts.
-/

namespace ArrayFusion.Json

namespace Token

/-- The value of a token that is a value by itself. -/
def value? (r : Rounding) : Token → Option Json
  | .null => some .null
  | .bool b => some (.bool b)
  | .number t => some (t.toJson r)
  | .text (some s) => some (.str s)
  | .text none => some .unreadable
  | _ => none

/-- Does the token denote nothing, although it is well-formed? -/
def isUnreadable (r : Rounding) (t : Token) : Bool :=
  match t.value? r with
  | some .unreadable => true
  | _ => false

end Token

/-- The fields of an object that have been read, the latest first.  There are none, and the object
is unreadable, once a key was unreadable. -/
abbrev Fields := Option (List (String × Json))

/-- Adds a field. -/
def Fields.add (fields : Fields) (key : Option String) (j : Json) : Fields := do
  return (← key, j) :: (← fields)

/-- The object with these fields. -/
def Fields.toJson : Fields → Json
  | some fields => .obj fields.reverse
  | none => .unreadable

/-- A container that has been opened and not yet closed, with the parts read so far, the latest
first.  An object is waiting for the value of `key`. -/
inductive Frame where
  | arr (items : List Json)
  | obj (fields : Fields) (key : Option String)

/-- Where a reader stands between two tokens. -/
inductive Place where
  /-- A value must come. -/
  | value
  /-- An array was just opened. -/
  | firstItem
  /-- An object was just opened. -/
  | firstKey
  /-- A further field of an object must come, behind the fields read so far. -/
  | key (fields : Fields)
  /-- The colon behind a key must come. -/
  | colon (fields : Fields) (key : Option String)
  /-- A value is complete. -/
  | complete (j : Json)

/-- A reader: where it stands, and the open containers, the innermost first. -/
structure Reader where
  place : Place
  stack : List Frame

namespace Reader

/-- The reader at the start of a text. -/
def start : Reader := ⟨.value, []⟩

/-- A token where a value must come, inside the containers of a stack. -/
def readValue (r : Rounding) (stack : List Frame) : Token → Option Reader
  | .openArr => some ⟨.firstItem, stack⟩
  | .openObj => some ⟨.firstKey, stack⟩
  | t => (t.value? r).map fun j => ⟨.complete j, stack⟩

/-- A token behind a complete value. -/
def readNext (j : Json) : List Frame → Token → Option Reader
  -- behind a comma a value must come, so none may stand at the end
  | .arr items :: stack, .comma => some ⟨.value, .arr (j :: items) :: stack⟩
  | .arr items :: stack, .closeArr => some ⟨.complete (.arr (j :: items).reverse), stack⟩
  | .obj fields key :: stack, .comma => some ⟨.key (fields.add key j), stack⟩
  | .obj fields key :: stack, .closeObj => some ⟨.complete (fields.add key j).toJson, stack⟩
  | _, _ => none

/-- One token. -/
def read (r : Rounding) (reader : Reader) (t : Token) : Option Reader :=
  match reader.place, t with
  | .value, t => readValue r reader.stack t
  | .firstItem, .closeArr => some ⟨.complete (.arr []), reader.stack⟩
  -- the first item comes where the closing bracket could have come
  | .firstItem, t => readValue r (.arr [] :: reader.stack) t
  | .firstKey, .closeObj => some ⟨.complete (.obj []), reader.stack⟩
  | .firstKey, .text key => some ⟨.colon (some []) key, reader.stack⟩
  | .key fields, .text key => some ⟨.colon fields key, reader.stack⟩
  | .colon fields key, .colon => some ⟨.value, .obj fields key :: reader.stack⟩
  | .complete j, t => readNext j reader.stack t
  | _, _ => none

/-- The value of a text that has been read to its end. -/
def result? : Reader → Option Json
  | ⟨.complete j, []⟩ => some j
  | _ => none

end Reader

/-- The value of a sequence of tokens. -/
def ofTokens? (r : Rounding) (ts : List Token) : Option Json :=
  (ts.foldlM (Reader.read r) Reader.start).bind Reader.result?

/-- The value of a text, some parts of which may be unreadable. -/
def parse? (r : Rounding) (s : String) : Option Json := (tokenize s).bind (ofTokens? r)

/-- The value of a text every part of which can be read. -/
def parseAll? (r : Rounding) (s : String) : Option Json := do
  let ts ← tokenize s
  -- one unreadable part makes the whole text unreadable
  if ts.any (·.isUnreadable r) then none else ofTokens? r ts

end ArrayFusion.Json
