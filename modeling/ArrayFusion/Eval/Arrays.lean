import ArrayFusion.Eval.Value

/-!
# Operations on arrays

Indexing and updating follow a path of indices into nested arrays; both fail at the first index that
is out of bounds and at the first value on the path that is no array.  `columns` turns a list of
rows into a list of columns.  Transposition is that, behind a check that the rows have one length,
and so is the pairing of the arguments of a combinator.
-/

namespace ArrayFusion

/-- Turns rows into `width` columns, in the order of the rows.  A row that is too short adds nothing
to the last columns, and what a row has in excess is dropped. -/
def columns {α : Type} (width : Nat) (rows : List (List α)) : List (List α) :=
  rows.foldr addRow (List.replicate width [])
where
  /-- Puts the members of a row in front of the columns. -/
  addRow : List α → List (List α) → List (List α)
    | x :: xs, c :: cs => (x :: c) :: addRow xs cs
    | _, cs => cs

namespace Value

/-- An index as a position in a list of `n` members. -/
def position (i : Int64) (n : Nat) : Except EvalError (Fin n) :=
  if h : 0 ≤ i.toInt ∧ i.toInt.toNat < n then .ok ⟨i.toInt.toNat, h.2⟩
  else .error (.indexOutOfBounds i n)

/-- The row of an array at an index. -/
def row (v : Value) (i : Int64) : Except EvalError Value := do
  let rows ← v.toArray
  return rows.get (← position i rows.length)

/-- What stands at the end of a path of indices. -/
def atPath (v : Value) (path : List Int64) : Except EvalError Value := path.foldlM row v

/-- The value with `new` at the end of a path of indices. -/
def updateAt (new : Value) : Value → List Int64 → Except EvalError Value
  | _, [] => .ok new
  | v, i :: path => do
    let rows ← v.toArray
    let slot ← position i rows.length
    -- the positions are checked from the outside in, before anything is replaced
    return .array (rows.set slot (← updateAt new (rows.get slot) path))

/-- The integers from 0 up to, but without, `n`; none if `n` is negative. -/
def iota (n : Int64) : Value :=
  .array ((List.range n.toInt.toNat).map fun i => .int (Int64.ofNat i))

/-- So many copies of a value; none if `n` is negative. -/
def copies (n : Int64) (v : Value) : Value := .array (List.replicate n.toInt.toNat v)

/-- The number of rows of an array. -/
def size (v : Value) : Except EvalError Value := do
  return .int (Int64.ofNat (← v.toArray).length)

/-- Exchanges the two outer dimensions of an array; its rows must be arrays of one length. -/
def transpose (v : Value) : Except EvalError Value := do
  let rows ← (← v.toArray).mapM toArray
  let width := (rows.headD []).length
  -- an array without rows has no columns either
  if rows.all (·.length == width) then return .array ((columns width rows).map .array)
  else throw (.shapeMismatch .ragged)

/-- The rows that the arguments of a combinator have at each position.  They must have one length,
that of the first one; without arguments there are no rows. -/
def pairUp (arrays : List (List Value)) : Except EvalError (List (List Value)) :=
  let length := (arrays.headD []).length
  match arrays.find? (·.length != length) with
  | some other => .error (.shapeMismatch (.lengths length other.length))
  | none => .ok (columns length arrays)

end Value

end ArrayFusion
