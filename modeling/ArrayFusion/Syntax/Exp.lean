import ArrayFusion.Source.Span
import ArrayFusion.Syntax.Operator

/-!
# Programs

The language is first order: a program is a list of functions, and the only place for an anonymous
function is the operator of an array combinator.  An expression carries the types that cannot be
read off its parts, and the span it was read from.

There are five combinators.  `map` applies its lambda to the rows of its arguments; `filter` keeps
the rows that satisfy its predicate; `reduce` and `scan` fold the rows into accumulators that start
as the neutral elements; a `redomap` is a fold whose `inner` lambda takes an element into the
accumulators, while `outer` combines two sets of accumulators.
-/

namespace ArrayFusion

mutual

/-- An expression. -/
inductive Exp where
  | lit (value : Literal) (span : Span)
  | var (x : Ident) (span : Span)
  | tuple (es : List Exp) (span : Span)
  /-- An array given by its rows, with the type of a row. -/
  | array (rows : List Exp) (row : Ty) (span : Span)
  /-- An operator between two operands, with the type of the result. -/
  | binary (op : BinaryOp) (left right : Exp) (ty : Ty) (span : Span)
  | unary (op : UnaryOp) (operand : Exp) (span : Span)
  | cond (test yes no : Exp) (ty : Ty) (span : Span)
  /-- A call of a function of the program. -/
  | call (fn : String) (args : List Exp) (ty : Ty) (span : Span)
  | letIn (pattern : Pattern) (rhs body : Exp) (span : Span)
  /-- In `body`, `target` is `source` with `value` at the given indices.  The update may be made in
  place, so `source` is not to be used afterwards. -/
  | update (target source : Ident) (idxs : List Exp) (value body : Exp) (span : Span)
  | index (x : Ident) (idxs : List Exp) (span : Span)
  /-- So many copies of a value. -/
  | replicate (count value : Exp) (span : Span)
  /-- The identifiers of `merge` start as `init` and take the results of `body` once for each value
  of `counter` below `bound`; `rest` sees their last values. -/
  | loop (merge : Pattern) (init : List Exp) (counter : Ident) (bound body rest : Exp) (span : Span)
  /-- A combinator applied to arrays. -/
  | soac (op : Combinator) (args : List Exp) (certs : Certificates) (span : Span)

/-- An anonymous function.  A body with several results evaluates to a tuple of them. -/
structure Lambda where
  params : List Ident
  body : Exp
  rets : List Ty

/-- A second-order array combinator with its operators and neutral elements. -/
inductive Combinator where
  | map (f : Lambda)
  | reduce (f : Lambda) (neutral : List Exp)
  | scan (f : Lambda) (neutral : List Exp)
  | filter (p : Lambda)
  | redomap (outer inner : Lambda) (neutral : List Exp)

end

/-- The kinds of combinators. -/
inductive Combinator.Kind where
  | map
  | reduce
  | scan
  | filter
  | redomap
deriving DecidableEq

/-- The name of a kind of combinator. -/
def Combinator.Kind.text : Combinator.Kind → String
  | .map => "map"
  | .reduce => "reduce"
  | .scan => "scan"
  | .filter => "filter"
  | .redomap => "redomap"

namespace Combinator

/-- What kind of combinator it is. -/
def kind : Combinator → Kind
  | .map _ => .map
  | .reduce _ _ => .reduce
  | .scan _ _ => .scan
  | .filter _ => .filter
  | .redomap _ _ _ => .redomap

/-- Its lambdas, in the order in which they are written. -/
def lambdas : Combinator → List Lambda
  | .map f => [f]
  | .reduce f _ => [f]
  | .scan f _ => [f]
  | .filter p => [p]
  | .redomap outer inner _ => [outer, inner]

/-- The lambda that is applied to the rows of the arguments. -/
def element : Combinator → Lambda
  | .map f => f
  | .reduce f _ => f
  | .scan f _ => f
  | .filter p => p
  | .redomap _ inner _ => inner

/-- The first values of the accumulators; only folds have any. -/
def neutral : Combinator → List Exp
  | .map _ => []
  | .reduce _ ne => ne
  | .scan _ ne => ne
  | .filter _ => []
  | .redomap _ _ ne => ne

/-- The number of results for so many arguments: a map has one for each result of its lambda, a
filter one for each argument, a fold one for each accumulator. -/
def arity (args : Nat) : Combinator → Nat
  | .map f => f.rets.length
  | .filter _ => args
  | op => op.neutral.length

end Combinator

namespace Exp

instance : Inhabited Exp := ⟨.tuple [] .dummy⟩

/-- The span of an expression. -/
def span : Exp → Span
  | .lit _ s => s
  | .var _ s => s
  | .tuple _ s => s
  | .array _ _ s => s
  | .binary _ _ _ _ s => s
  | .unary _ _ s => s
  | .cond _ _ _ _ s => s
  | .call _ _ _ s => s
  | .letIn _ _ _ s => s
  | .update _ _ _ _ _ s => s
  | .index _ _ s => s
  | .replicate _ _ s => s
  | .loop _ _ _ _ _ _ s => s
  | .soac _ _ _ s => s

/-- Is it a combinator applied to arguments? -/
def isSoac : Exp → Bool
  | .soac _ _ _ _ => true
  | _ => false

/-- The use of an identifier in code that some pass built. -/
def ofIdent (x : Ident) : Exp := .var x .dummy

/-- A `let` in code that some pass built. -/
def bind (p : Pattern) (rhs body : Exp) : Exp := .letIn p rhs body .dummy

/-- Several results as one expression: the only one, or else a tuple of them. -/
def results : List Exp → Exp
  | [e] => e
  | es => .tuple es .dummy

end Exp

/-- A function of a program. -/
structure FunDef where
  name : String
  params : List Ident
  ret : Ty
  body : Exp
  span : Span
deriving Inhabited

/-- A program: its functions, in order. -/
structure Program where
  funs : List FunDef
deriving Inhabited

namespace Program

/-- The first function of that name. -/
def fun? (p : Program) (name : String) : Option FunDef := p.funs.find? (·.name == name)

end Program

end ArrayFusion
