import ArrayFusion.Data.Table

/-!
# Interned strings

A table of symbols gives each string a number of its own, so that strings can be compared by number.
A string that is known keeps its symbol, and a new one gets the next number.  As no string is in the
table twice, the strings behind two symbols are equal exactly when the symbols are, unless there are
more strings than numbers: the numbers have 32 bits, and the last one is given again and again.

Calls that intern a string may share a table.  Such a call looks the string up first, as others may
do at the same time, and only if it is not there it goes on, alone, to intern it.  Another call may
have interned the string in the meantime.
-/

namespace ArrayFusion

/-- The number of a string in a table. -/
structure Symbol where
  index : UInt32
deriving DecidableEq

/-- The symbol with this number, or the last one if there are not so many. -/
def Symbol.ofNumber (n : Nat) : Symbol := ⟨UInt32.ofNatClamp n⟩

/-- The symbols of the strings that have one, and these strings in the order of their numbers. -/
structure SymbolTable where
  ids : Table String Symbol
  strings : List String

namespace SymbolTable

/-- No string has a symbol. -/
def empty : SymbolTable := ⟨.empty, []⟩

/-- The symbol of a string that is known. -/
def find? (t : SymbolTable) (s : String) : Option Symbol := t.ids.find? s

/-- The symbol of a string, which is new in the table if need be. -/
def intern (t : SymbolTable) (s : String) : Symbol × SymbolTable :=
  match t.find? s with
  | some x => (x, t)
  | none =>
    let x := Symbol.ofNumber t.strings.length
    (x, ⟨t.ids.insert s x, t.strings ++ [s]⟩)

/-- The string of a symbol. -/
def text? (t : SymbolTable) (x : Symbol) : Option String := t.strings[x.index.toNat]?

/-- The string of a symbol, for symbols of any table. -/
def text (t : SymbolTable) (x : Symbol) : String := (t.text? x).getD "<invalid-symbol>"

end SymbolTable

/-! ## Calls that share a table -/

/-- How far a call is that interns a string. -/
inductive Interning where
  /-- It has not looked the string up yet. -/
  | waiting
  /-- It looked the string up, which was not there. -/
  | missed
  | returned (x : Symbol)
deriving DecidableEq

/-- The table, and how far a call for a string is, after the next step of the call. -/
def SymbolTable.advance (t : SymbolTable) (s : String) : Interning → SymbolTable × Interning
  | .waiting =>
    match t.find? s with
    | some x => (t, .returned x)
    | none => (t, .missed)
  | .missed =>
    let (x, t) := t.intern s
    (t, .returned x)
  | .returned x => (t, .returned x)

/-- A table, with the calls that share it. -/
structure SharedTable (ι : Type) where
  table : SymbolTable
  calls : ι → Interning

namespace SharedTable

variable {ι : Type} [DecidableEq ι]

/-- Before the first step of any call. -/
def start : SharedTable ι := ⟨.empty, fun _ => .waiting⟩

/-- The next step of a call, if the calls intern these strings. -/
def step (strings : ι → String) (σ : SharedTable ι) (c : ι) : SharedTable ι :=
  let (table, call) := σ.table.advance (strings c) (σ.calls c)
  ⟨table, fun d => if d = c then call else σ.calls d⟩

/-- The steps of calls, in some order. -/
def run (strings : ι → String) (schedule : List ι) :
    SharedTable ι := schedule.foldl (step strings) start

end SharedTable

end ArrayFusion
