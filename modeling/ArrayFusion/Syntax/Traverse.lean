import ArrayFusion.Syntax.Exp

/-!
# Walking an expression

A `Visitor` says what to do at each kind of node, and `Exp.traverse` rebuilds an expression by it.
Children are visited from left to right, and what a scope binds is visited before the scope: at a
`let` the right-hand side comes first, then the pattern, then the body.  A combinator is visited as
its certificates, its lambdas, its neutral elements and its arguments.

The hooks for expressions, lambdas and patterns get the walk over the node's parts as an action, and
decide whether and when to run it.
-/

namespace ArrayFusion

/-- Rebuilds a `let` from the walks over its right-hand side, its pattern and its body. -/
def rebuildLet {m : Type → Type} [Monad m] (s : Span) (rhs : m Exp) (pattern : m Pattern)
    (body : m Exp) : m Exp := do
  let rhs ← rhs
  let pattern ← pattern
  return .letIn pattern rhs (← body) s

/-- What to do at each kind of node.  Every hook walks on by default and changes nothing. -/
structure Visitor (m : Type → Type) [Monad m] where
  /-- At a type, as a whole. -/
  type : Ty → m Ty := pure
  /-- At a literal. -/
  literal : Literal → m Literal := pure
  /-- At an identifier that is not bound here. -/
  ident : Ident → m Ident := fun x => do return ⟨x.name, ← type x.ty⟩
  /-- At an identifier that is bound here. -/
  binder : Ident → m Ident := ident
  /-- Around a pattern. -/
  pattern : Pattern → m Pattern → m Pattern := fun _ walk => walk
  /-- Around a lambda. -/
  lambda : Lambda → m Lambda → m Lambda := fun _ walk => walk
  /-- Around an expression. -/
  exp : Exp → m Exp → m Exp := fun _ walk => walk
  /-- At a `let`, with the walks over its right-hand side, its pattern and its body. -/
  letIn : Pattern → Span → m Exp → m Pattern → m Exp → m Exp := fun _ => rebuildLet

namespace Visitor

variable {m : Type → Type} [Monad m] (v : Visitor m)

/-- Applies a hook to the members of a list, in order. -/
def each {α : Type} (f : α → m α) : List α → m (List α)
  | [] => pure []
  | x :: xs => do
    let x ← f x
    return x :: (← each f xs)

/-- Visits what a `let` or a loop binds. -/
def walkPattern (p : Pattern) : m Pattern := v.pattern p (each v.binder p)

end Visitor

variable {m : Type → Type} [Monad m]

mutual

/-- Rebuilds an expression by a visitor. -/
def Exp.traverse (v : Visitor m) : Exp → m Exp
  | .lit x s => v.exp (.lit x s) do return .lit (← v.literal x) s
  | .var x s => v.exp (.var x s) do return .var (← v.ident x) s
  | .tuple es s => v.exp (.tuple es s) do return .tuple (← Exp.traverseAll v es) s
  | .array es t s => v.exp (.array es t s) do
    let es ← Exp.traverseAll v es
    return .array es (← v.type t) s
  | .binary op a b t s => v.exp (.binary op a b t s) do
    let a ← a.traverse v
    let b ← b.traverse v
    return .binary op a b (← v.type t) s
  | .unary op e s => v.exp (.unary op e s) do return .unary op (← e.traverse v) s
  | .cond c a b t s => v.exp (.cond c a b t s) do
    let c ← c.traverse v
    let a ← a.traverse v
    let b ← b.traverse v
    return .cond c a b (← v.type t) s
  | .call f es t s => v.exp (.call f es t s) do
    let es ← Exp.traverseAll v es
    return .call f es (← v.type t) s
  | .letIn p r b s => v.exp (.letIn p r b s)
    (v.letIn p s (r.traverse v) (v.walkPattern p) (b.traverse v))
  | .update x y is e b s => v.exp (.update x y is e b s) do
    let y ← v.ident y
    let is ← Exp.traverseAll v is
    let e ← e.traverse v
    let x ← v.binder x
    return .update x y is e (← b.traverse v) s
  | .index x is s => v.exp (.index x is s) do
    let x ← v.ident x
    return .index x (← Exp.traverseAll v is) s
  | .replicate n e s => v.exp (.replicate n e s) do
    let n ← n.traverse v
    return .replicate n (← e.traverse v) s
  | .loop p is i n b r s => v.exp (.loop p is i n b r s) do
    let is ← Exp.traverseAll v is
    let n ← n.traverse v
    let p ← v.walkPattern p
    let i ← v.binder i
    let b ← b.traverse v
    return .loop p is i n b (← r.traverse v) s
  | .soac op es cs s => v.exp (.soac op es cs s) do
    let cs ← Visitor.each v.ident cs
    let op ← op.traverse v
    return .soac op (← Exp.traverseAll v es) cs s

/-- Rebuilds each expression of a list. -/
def Exp.traverseAll (v : Visitor m) : List Exp → m (List Exp)
  | [] => pure []
  | e :: es => do
    let e ← e.traverse v
    return e :: (← Exp.traverseAll v es)

/-- Rebuilds a lambda: its parameters, its body, then the types of its results. -/
def Lambda.traverse (v : Visitor m) : Lambda → m Lambda
  | ⟨ps, b, ts⟩ => v.lambda ⟨ps, b, ts⟩ do
    let ps ← Visitor.each v.binder ps
    let b ← b.traverse v
    return ⟨ps, b, ← Visitor.each v.type ts⟩

/-- Rebuilds the lambdas and the neutral elements of a combinator. -/
def Combinator.traverse (v : Visitor m) : Combinator → m Combinator
  | .map f => do return .map (← f.traverse v)
  | .reduce f ne => do
    let f ← f.traverse v
    return .reduce f (← Exp.traverseAll v ne)
  | .scan f ne => do
    let f ← f.traverse v
    return .scan f (← Exp.traverseAll v ne)
  | .filter p => do return .filter (← p.traverse v)
  | .redomap f g ne => do
    let f ← f.traverse v
    let g ← g.traverse v
    return .redomap f g (← Exp.traverseAll v ne)

end

end ArrayFusion
