import ArrayFusion.Syntax.Exp

/-!
# Free variables

The free variables of an expression are the identifiers that it uses and does not bind around the
use.  They are collected in one walk, in the order of their first uses, and each name once;
certificates count as uses.  In a loop the counter is bound in the body only, the merged identifiers
in the body and in the rest.
-/

namespace ArrayFusion

/-- Takes a use into account: a name that is bound around it, or that was seen before, adds nothing.
-/
def noteUse (bound : List Name) (free : List Ident) (x : Ident) : List Ident :=
  if bound.contains x.name || free.any (·.name == x.name) then free else free ++ [x]

mutual

/-- Adds the free variables of an expression that stands below the given binders. -/
def Exp.collectFree (bound : List Name) (free : List Ident) : Exp → List Ident
  | .lit _ _ => free
  | .var x _ => noteUse bound free x
  | .tuple es _ => Exp.collectFreeAll bound free es
  | .array es _ _ => Exp.collectFreeAll bound free es
  | .binary _ a b _ _ => b.collectFree bound (a.collectFree bound free)
  | .unary _ e _ => e.collectFree bound free
  | .cond c t e _ _ => e.collectFree bound (t.collectFree bound (c.collectFree bound free))
  | .call _ es _ _ => Exp.collectFreeAll bound free es
  | .letIn p r b _ => b.collectFree (p.names ++ bound) (r.collectFree bound free)
  | .update x y is v b _ =>
    b.collectFree (x.name :: bound)
      (v.collectFree bound (Exp.collectFreeAll bound (noteUse bound free y) is))
  | .index x is _ => Exp.collectFreeAll bound (noteUse bound free x) is
  | .replicate n v _ => v.collectFree bound (n.collectFree bound free)
  | .loop p is i n b r _ =>
    r.collectFree (p.names ++ bound)
      (b.collectFree (i.name :: (p.names ++ bound))
        (n.collectFree bound (Exp.collectFreeAll bound free is)))
  | .soac op es cs _ =>
    Exp.collectFreeAll bound (op.collectFree bound (cs.foldl (noteUse bound) free)) es

/-- Adds the free variables of a list of expressions. -/
def Exp.collectFreeAll (bound : List Name) (free : List Ident) : List Exp → List Ident
  | [] => free
  | e :: es => Exp.collectFreeAll bound (e.collectFree bound free) es

/-- Adds the free variables of a lambda. -/
def Lambda.collectFree (bound : List Name) (free : List Ident) : Lambda → List Ident
  | ⟨ps, b, _⟩ => b.collectFree (Pattern.names ps ++ bound) free

/-- Adds the free variables of the lambdas of a combinator, then those of its neutral elements. -/
def Combinator.collectFree (bound : List Name) (free : List Ident) : Combinator → List Ident
  | .map f => f.collectFree bound free
  | .reduce f ne => Exp.collectFreeAll bound (f.collectFree bound free) ne
  | .scan f ne => Exp.collectFreeAll bound (f.collectFree bound free) ne
  | .filter p => p.collectFree bound free
  | .redomap f g ne =>
    Exp.collectFreeAll bound (g.collectFree bound (f.collectFree bound free)) ne

end

/-- The free variables of an expression. -/
def Exp.freeVars (e : Exp) : List Ident := e.collectFree [] []

/-- The free variables of a lambda: those of its body without its parameters. -/
def Lambda.freeVars (f : Lambda) : List Ident := f.collectFree [] []

end ArrayFusion
