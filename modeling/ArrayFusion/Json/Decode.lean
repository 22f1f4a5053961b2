import ArrayFusion.Json.Basic

/-!
# Taking JSON values apart

The parts that readers of larger values share: numbers within bounds, strings, lists, and records.
A record is an object that has each of its fields exactly once, in any order and possibly among
others, or the array of the values of its fields in their own order.
-/

namespace ArrayFusion.Json

/-- A string. -/
def str? : Json → Option String
  | .str s => some s
  | _ => none

/-- A truth value. -/
def bool? : Json → Option Bool
  | .bool b => some b
  | _ => none

/-- The items of an array. -/
def arr? : Json → Option (List Json)
  | .arr items => some items
  | _ => none

/-- A natural number below `bound`, as an integer token. -/
def natBelow? (bound : Nat) : Json → Option Nat
  | .int n => if 0 ≤ n && n < bound then some n.toNat else none
  | _ => none

/-- A number of 32 bits without a sign. -/
def nat32? : Json → Option Nat := natBelow? UInt32.size

/-- A signed number of 64 bits. -/
def int64? : Json → Option Int64
  | .int n =>
    if Int64.minValue.toInt ≤ n && n ≤ Int64.maxValue.toInt then some (Int64.ofInt n) else none
  | _ => none

/-- A float; an integer token is one, too. -/
def float? : Json → Option Float
  | .int n => some (Float.ofInt n)
  | .real x => some x
  | _ => none

/-- A string of exactly one character. -/
def char? : Json → Option Char
  | .str s =>
    match s.toList with
    | [c] => some c
    | _ => none
  | _ => none

/-- An array whose items are read by `f`. -/
def list? {α : Type} (f : Json → Option α) (j : Json) : Option (List α) := do
  (← j.arr?).mapM f

/-- The only value that some fields give to a key. -/
def onlyField? (key : String) : List (String × Json) → Option Json
  | [] => none
  | (k, j) :: rest =>
    if k == key then
      if rest.any (·.1 == key) then none else some j
    else onlyField? key rest

/-- The values of the fields of a record. -/
def record? (keys : List String) : Json → Option (List Json)
  | .obj fields => keys.mapM (onlyField? · fields)
  | .arr items => if items.length = keys.length then some items else none
  | _ => none

/-- The name of a constructor without arguments: a string, or an object whose only field has the
name and is null. -/
def constant? : Json → Option String
  | .str s => some s
  | .obj [(s, .null)] => some s
  | _ => none

end ArrayFusion.Json
