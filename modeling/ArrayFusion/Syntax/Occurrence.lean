import ArrayFusion.Syntax.Exp

/-!
# Identifiers of an expression

`Exp.idents` lists every identifier that stands in an expression, in any role: as a binder, as a
use, as the array of an index or an update, or as a certificate.  A supply of names that starts
above all their tags (`NameSupply.forFun`) can therefore not hand out a name that the function
already has.
-/

namespace ArrayFusion

mutual

/-- Every occurrence of an identifier.  A `let` lists what it binds first, a combinator its
certificates, its lambdas, its neutral elements and then its arguments. -/
def Exp.idents : Exp → List Ident
  | .lit _ _ => []
  | .var x _ => [x]
  | .tuple es _ => Exp.identsAll es
  | .array es _ _ => Exp.identsAll es
  | .binary _ a b _ _ => a.idents ++ b.idents
  | .unary _ e _ => e.idents
  | .cond c t e _ _ => c.idents ++ t.idents ++ e.idents
  | .call _ es _ _ => Exp.identsAll es
  | .letIn p r b _ => p ++ r.idents ++ b.idents
  | .update x y is v b _ => x :: y :: (Exp.identsAll is ++ v.idents ++ b.idents)
  | .index x is _ => x :: Exp.identsAll is
  | .replicate n v _ => n.idents ++ v.idents
  | .loop p is i n b r _ => p ++ i :: (Exp.identsAll is ++ n.idents ++ b.idents ++ r.idents)
  | .soac op es cs _ => cs ++ op.idents ++ Exp.identsAll es

/-- Every occurrence of an identifier in a list of expressions. -/
def Exp.identsAll : List Exp → List Ident
  | [] => []
  | e :: es => e.idents ++ Exp.identsAll es

/-- Every occurrence of an identifier in a lambda, its parameters first. -/
def Lambda.idents : Lambda → List Ident
  | ⟨ps, b, _⟩ => ps ++ b.idents

/-- Every occurrence of an identifier in the lambdas and the neutral elements of a combinator. -/
def Combinator.idents : Combinator → List Ident
  | .map f => f.idents
  | .reduce f ne => f.idents ++ Exp.identsAll ne
  | .scan f ne => f.idents ++ Exp.identsAll ne
  | .filter p => p.idents
  | .redomap f g ne => f.idents ++ g.idents ++ Exp.identsAll ne

end

/-- The largest tag among some identifiers, 0 if there is none. -/
def maxTag (xs : List Ident) : Nat := xs.foldl (fun n x => max n x.name.tag) 0

/-- A supply of names that do not occur in the function. -/
def NameSupply.forFun (f : FunDef) : NameSupply := .above (maxTag (f.params ++ f.body.idents))

end ArrayFusion
