import ArrayFusion.Syntax.Name
import ArrayFusion.Text.Quoted

/-!
# Types and identifiers

Types are the four scalar types, tuples and arrays; an array type gives the type of a row.  An
identifier is a name with the type of what it denotes, so that arrays can be told from scalars
without inference.
-/

namespace ArrayFusion

/-- The type of a value. -/
inductive Ty where
  | int
  | real
  | bool
  | char
  | tuple (components : List Ty)
  | array (row : Ty)
deriving Inhabited

namespace Ty

mutual

/-- Are the two types the same? -/
def beq : Ty → Ty → Bool
  | .int, .int => true
  | .real, .real => true
  | .bool, .bool => true
  | .char, .char => true
  | .tuple ts, .tuple us => beqAll ts us
  | .array t, .array u => beq t u
  | _, _ => false

/-- Are the two lists of types the same? -/
def beqAll : List Ty → List Ty → Bool
  | [], [] => true
  | t :: ts, u :: us => beq t u && beqAll ts us
  | _, _ => false

end

mutual

theorem beq_iff : ∀ t u : Ty, beq t u = true ↔ t = u
  | .int, u => by cases u <;> simp [beq]
  | .real, u => by cases u <;> simp [beq]
  | .bool, u => by cases u <;> simp [beq]
  | .char, u => by cases u <;> simp [beq]
  | .tuple ts, u => by cases u <;> simp [beq, beqAll_iff ts]
  | .array t, u => by cases u <;> simp [beq, beq_iff t]

theorem beqAll_iff : ∀ ts us : List Ty, beqAll ts us = true ↔ ts = us
  | [], us => by cases us <;> simp [beqAll]
  | t :: ts, us => by cases us <;> simp [beqAll, beq_iff t, beqAll_iff ts]

end

instance : DecidableEq Ty := fun t u => decidable_of_iff _ (beq_iff t u)

/-- Is it an array type? -/
def isArray : Ty → Bool
  | .array _ => true
  | _ => false

/-- The type of a row, for an array type. -/
def row? : Ty → Option Ty
  | .array t => some t
  | _ => none

/-- The number of array dimensions; the components of a tuple do not count. -/
def rank : Ty → Nat
  | .array t => 1 + t.rank
  | _ => 0

/-- The type of an expression with several results: the only one, or else a tuple of them. -/
def ofResults : List Ty → Ty
  | [t] => t
  | ts => .tuple ts

mutual

/-- A tuple type is written in parentheses, an array type in brackets. -/
def text : Ty → String
  | .int => "int"
  | .real => "real"
  | .bool => "bool"
  | .char => "char"
  | .tuple ts => "(" ++ Text.commaSep (texts ts) ++ ")"
  | .array t => "[" ++ t.text ++ "]"

/-- The texts of a list of types. -/
def texts : List Ty → List String
  | [] => []
  | t :: ts => t.text :: texts ts

end

end Ty

/-- A name with the type of what it denotes. -/
structure Ident where
  name : Name
  ty : Ty
deriving DecidableEq, Inhabited

namespace Ident

/-- Does it denote an array? -/
def isArray (x : Ident) : Bool := x.ty.isArray

/-- An identifier is written with its type behind a colon. -/
def text (x : Ident) : String := s!"{x.name.text}: {x.ty.text}"

end Ident

namespace NameSupply

/-- A fresh identifier with the given base and type. -/
def ident (s : NameSupply) (base : String) (ty : Ty) : Ident × NameSupply :=
  let (x, s) := s.fresh base
  (⟨x, ty⟩, s)

/-- A fresh identifier with the base and the type of `x`. -/
def freshIdent (s : NameSupply) (x : Ident) : Ident × NameSupply := s.ident x.name.base x.ty

end NameSupply

/-- What a `let` binds.  A single identifier takes the whole value, any other number of them takes a
tuple apart. -/
abbrev Pattern := List Ident

namespace Pattern

/-- The names it binds, in order. -/
def names (p : Pattern) : List Name := p.map (·.name)

/-- A pattern of one identifier is written as its name, any other in parentheses. -/
def text : Pattern → String
  | [x] => x.name.text
  | p => "(" ++ Text.commaSep (p.map (·.name.text)) ++ ")"

end Pattern

/-- Identifiers that witness checks made on the arguments of a combinator.  No one interprets them,
and every transformation hands them on. -/
abbrev Certificates := List Ident

namespace Certificates

/-- Adds a certificate behind the others unless its name is there already. -/
def insert (cs : Certificates) (c : Ident) : Certificates :=
  if cs.any (·.name == c.name) then cs else cs ++ [c]

/-- The certificates of both, the first one's in front, and no name of the second one twice. -/
def union (cs ds : Certificates) : Certificates := ds.foldl insert cs

end Certificates

end ArrayFusion
