import ArrayFusion.Fusion.Error
import ArrayFusion.Syntax.Freshen
import ArrayFusion.Syntax.FreeVars

/-!
# Stages

A stage is a combinator whose arguments are `Operand`s instead of arbitrary expressions, so that it
can be seen which arrays it reads as a whole.  `Stage.ofExp?` takes an expression apart, and
`Stage.toExp` puts it together again.
-/

namespace ArrayFusion

/-- An argument of a combinator. -/
inductive Operand where
  /-- An array as a whole. -/
  | whole (x : Ident)
  /-- A row of an array, or of one of its rows. -/
  | row (x : Ident) (idxs : List Exp)
  /-- The transposition of an array. -/
  | transposed (x : Ident)
  /-- The integers from 0 up to, but without, a bound. -/
  | range (bound : Exp)

namespace Operand

/-- The operand that an expression is: a variable must be an array, and a transposed one must have
two dimensions. -/
def ofExp? : Exp → Option Operand
  | .var x _ => if x.isArray then some (.whole x) else none
  | .index x is _ => some (.row x is)
  | .unary .transpose (.var x _) _ => if 2 ≤ x.ty.rank then some (.transposed x) else none
  | .unary .iota n _ => some (.range n)
  | _ => none

/-- The operand as an expression, all of it at one span. -/
def toExp (s : Span) : Operand → Exp
  | .whole x => .var x s
  | .row x is => .index x is s
  | .transposed x => .unary .transpose (.var x s) s
  | .range n => .unary .iota n s

/-- The variable that is read as a whole, if one is. -/
def whole? : Operand → Option Ident
  | .whole x => some x
  | _ => none

/-- The name of the variable that is read as a whole or transposed. -/
def name? : Operand → Option Name
  | .whole x => some x.name
  | .transposed x => some x.name
  | _ => none

/-- Do two operands certainly have the same rows?  Rows and ranges are never said to. -/
def sameSource : Operand → Operand → Bool
  | .whole x, .whole y => x.name == y.name
  | .transposed x, .transposed y => x.name == y.name
  | _, _ => false

/-- The expressions in an operand. -/
def exps : Operand → List Exp
  | .row _ is => is
  | .range n => [n]
  | _ => []

/-- Every name that is read to compute the operand. -/
def reads : Operand → List Name
  | .whole x => [x.name]
  | .row x is => x.name :: is.flatMap fun e => e.freeVars.map (·.name)
  | .transposed x => [x.name]
  | .range n => n.freeVars.map (·.name)

end Operand

/-- A combinator applied to operands. -/
structure Stage where
  op : Combinator
  operands : List Operand
  certs : Certificates
  span : Span

namespace Stage

/-- The operand that an argument of a combinator is; any other argument is refused. -/
def operandOf (s : Span) (arg : Exp) : Except FusionError Operand :=
  match Operand.ofExp? arg with
  | some a => .ok a
  | none => .error ⟨arg.span.merge s, .invalidOperand arg⟩

/-- The stage that an expression is, if it is a combinator at all. -/
def ofExp? : Exp → Except FusionError (Option Stage)
  | .soac op args certs s => do return some ⟨op, ← args.mapM (operandOf s), certs, s⟩
  | _ => return none

/-- The stage as an expression. -/
def toExp (g : Stage) : Exp := .soac g.op (g.operands.map (·.toExp g.span)) g.certs g.span

/-- What kind of combinator it is. -/
def kind (g : Stage) : Combinator.Kind := g.op.kind

/-- The number of its results. -/
def arity (g : Stage) : Nat := g.op.arity g.operands.length

/-- The names of the variables that it reads as a whole. -/
def wholeNames (g : Stage) : List Name := g.operands.filterMap fun a => a.whole?.map (·.name)

/-- The names of the variables that it reads as a whole or transposed. -/
def names (g : Stage) : List Name := g.operands.filterMap (·.name?)

/-- Every name that is read to compute its operands. -/
def operandReads (g : Stage) : List Name := g.operands.flatMap (·.reads)

/-- The identifiers that are free in its lambdas, each name once. -/
def lambdaFreeVars (g : Stage) : List Ident :=
  (g.op.lambdas.flatMap (·.freeVars)).foldl
    -- the first identifier of a name is the one that is kept
    (fun free x => if free.any (·.name == x.name) then free else free ++ [x]) []

/-- Every name that is read when it is computed; certificates are not. -/
def reads (g : Stage) : List Name :=
  g.operandReads ++ g.op.neutral.flatMap (fun e => e.freeVars.map (·.name))
    ++ g.lambdaFreeVars.map (·.name)

/-- A reduction as a redomap with the same operator on both levels; the copy on the outer level has
fresh binders.  Any other stage stays. -/
def asRedomap (g : Stage) (s : NameSupply) : Stage × NameSupply :=
  match g.op with
  | .reduce f ne =>
    -- the same operator twice would bind each of its names twice
    let (outer, s) := f.freshen s
    ({ g with op := .redomap outer f ne }, s)
  | _ => (g, s)

end Stage

end ArrayFusion
