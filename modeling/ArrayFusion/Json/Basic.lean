/-!
# JSON values

A `Json` is what a JSON text denotes.  An object keeps its fields in the order in which they were
written, because writing it again must not change that order.  A number is either an integer token
that fits into 64 bits or a float; the two are told apart because an integer field does not accept
`1.0`.

A part of a text may be well-formed and still denote nothing: a number beyond every float, a string
with half a pair of surrogates, a container nested too deep.  Such a part is `unreadable`.  It does
no harm as long as nobody looks at it, so a reader of values decides whether the text is refused.
-/

namespace ArrayFusion

/-- A JSON value. -/
inductive Json where
  | null
  | bool (b : Bool)
  | int (n : Int)
  | real (x : Float)
  | str (s : String)
  | arr (items : List Json)
  | obj (fields : List (String × Json))
  | unreadable
deriving Inhabited

namespace Json

/-- The integers of 64 bits, signed or not: the tokens that are kept as integers. -/
def isMachineInt (n : Int) : Bool := Int64.minValue.toInt ≤ n && n < UInt64.size

/-- The value of the field `key`, if the value is an object with such a field. -/
def get? (key : String) : Json → Option Json
  | .obj fields => fields.lookup key
  | _ => none

/-- An object with one field, which is how a constructor with arguments is written. -/
def tagged (tag : String) (payload : Json) : Json := .obj [(tag, payload)]

/-- A list of values, each written by `f`. -/
def ofList {α : Type} (f : α → Json) (xs : List α) : Json := .arr (xs.map f)

/-- A value or `null`. -/
def ofOption {α : Type} (f : α → Json) : Option α → Json
  | none => .null
  | some x => f x

mutual

/-- The value with `depth` levels of containers; those further inside are unreadable. -/
def within : Nat → Json → Json
  | 0, .arr _ => .unreadable
  | 0, .obj _ => .unreadable
  | depth + 1, .arr items => .arr (withinItems depth items)
  | depth + 1, .obj fields => .obj (withinFields depth fields)
  | _, j => j

/-- The items of an array, each with `depth` levels of containers. -/
def withinItems (depth : Nat) : List Json → List Json
  | [] => []
  | j :: rest => within depth j :: withinItems depth rest

/-- The fields of an object, each with `depth` levels of containers. -/
def withinFields (depth : Nat) : List (String × Json) → List (String × Json)
  | [] => []
  | (k, j) :: rest => (k, within depth j) :: withinFields depth rest

end

end Json

end ArrayFusion
