import ArrayFusion.Syntax.Exp

/-!
# Equality of expressions

Two expressions are equal when they have the same shape, names, types, constants and spans.  The
test compares them part by part, and `Exp.beq_iff` says that it decides equality.
-/

namespace ArrayFusion

mutual

/-- Are the two expressions the same? -/
def Exp.beq : Exp → Exp → Bool
  | .lit v s, .lit v' s' => v == v' && s == s'
  | .var x s, .var x' s' => x == x' && s == s'
  | .tuple es s, .tuple es' s' => Exp.beqAll es es' && s == s'
  | .array es t s, .array es' t' s' => Exp.beqAll es es' && t == t' && s == s'
  | .binary op a b t s, .binary op' a' b' t' s' =>
    op == op' && a.beq a' && b.beq b' && t == t' && s == s'
  | .unary op e s, .unary op' e' s' => op == op' && e.beq e' && s == s'
  | .cond c a b t s, .cond c' a' b' t' s' =>
    c.beq c' && a.beq a' && b.beq b' && t == t' && s == s'
  | .call f es t s, .call f' es' t' s' => f == f' && Exp.beqAll es es' && t == t' && s == s'
  | .letIn p r b s, .letIn p' r' b' s' => p == p' && r.beq r' && b.beq b' && s == s'
  | .update x y is v b s, .update x' y' is' v' b' s' =>
    x == x' && y == y' && Exp.beqAll is is' && v.beq v' && b.beq b' && s == s'
  | .index x is s, .index x' is' s' => x == x' && Exp.beqAll is is' && s == s'
  | .replicate n v s, .replicate n' v' s' => n.beq n' && v.beq v' && s == s'
  | .loop p is i n b r s, .loop p' is' i' n' b' r' s' =>
    p == p' && Exp.beqAll is is' && i == i' && n.beq n' && b.beq b' && r.beq r' && s == s'
  | .soac op es cs s, .soac op' es' cs' s' =>
    op.beq op' && Exp.beqAll es es' && cs == cs' && s == s'
  | _, _ => false

/-- Are the two lists of expressions the same? -/
def Exp.beqAll : List Exp → List Exp → Bool
  | [], [] => true
  | e :: es, e' :: es' => e.beq e' && Exp.beqAll es es'
  | _, _ => false

/-- Are the two lambdas the same? -/
def Lambda.beq : Lambda → Lambda → Bool
  | ⟨ps, b, ts⟩, ⟨ps', b', ts'⟩ => ps == ps' && b.beq b' && ts == ts'

/-- Are the two combinators the same? -/
def Combinator.beq : Combinator → Combinator → Bool
  | .map f, .map f' => f.beq f'
  | .reduce f ne, .reduce f' ne' => f.beq f' && Exp.beqAll ne ne'
  | .scan f ne, .scan f' ne' => f.beq f' && Exp.beqAll ne ne'
  | .filter p, .filter p' => p.beq p'
  | .redomap f g ne, .redomap f' g' ne' => f.beq f' && g.beq g' && Exp.beqAll ne ne'
  | _, _ => false

end

mutual

theorem Exp.beq_iff : ∀ e e' : Exp, e.beq e' = true ↔ e = e'
  | .lit _ _, e' => by cases e' <;> simp [Exp.beq]
  | .var _ _, e' => by cases e' <;> simp [Exp.beq]
  | .tuple es _, e' => by cases e' <;> simp [Exp.beq, Exp.beqAll_iff es]
  | .array es _ _, e' => by cases e' <;> simp [Exp.beq, Exp.beqAll_iff es, and_assoc]
  | .binary _ a b _ _, e' => by
    cases e' <;> simp [Exp.beq, Exp.beq_iff a, Exp.beq_iff b, and_assoc]
  | .unary _ e _, e' => by cases e' <;> simp [Exp.beq, Exp.beq_iff e, and_assoc]
  | .cond c a b _ _, e' => by
    cases e' <;> simp [Exp.beq, Exp.beq_iff c, Exp.beq_iff a, Exp.beq_iff b, and_assoc]
  | .call _ es _ _, e' => by cases e' <;> simp [Exp.beq, Exp.beqAll_iff es, and_assoc]
  | .letIn _ r b _, e' => by
    cases e' <;> simp [Exp.beq, Exp.beq_iff r, Exp.beq_iff b, and_assoc]
  | .update _ _ is v b _, e' => by
    cases e' <;> simp [Exp.beq, Exp.beqAll_iff is, Exp.beq_iff v, Exp.beq_iff b, and_assoc]
  | .index _ is _, e' => by cases e' <;> simp [Exp.beq, Exp.beqAll_iff is, and_assoc]
  | .replicate n v _, e' => by
    cases e' <;> simp [Exp.beq, Exp.beq_iff n, Exp.beq_iff v, and_assoc]
  | .loop _ is _ n b r _, e' => by
    cases e' <;>
      simp [Exp.beq, Exp.beqAll_iff is, Exp.beq_iff n, Exp.beq_iff b, Exp.beq_iff r, and_assoc]
  | .soac op es _ _, e' => by
    cases e' <;> simp [Exp.beq, Combinator.beq_iff op, Exp.beqAll_iff es, and_assoc]
termination_by structural e => e

theorem Exp.beqAll_iff : ∀ es es' : List Exp, Exp.beqAll es es' = true ↔ es = es'
  | [], es' => by cases es' <;> simp [Exp.beqAll]
  | e :: es, es' => by cases es' <;> simp [Exp.beqAll, Exp.beq_iff e, Exp.beqAll_iff es]
termination_by structural e => e

theorem Lambda.beq_iff : ∀ f f' : Lambda, f.beq f' = true ↔ f = f'
  | ⟨_, b, _⟩, ⟨_, _, _⟩ => by simp [Lambda.beq, Exp.beq_iff b, and_assoc]
termination_by structural e => e

theorem Combinator.beq_iff : ∀ c c' : Combinator, c.beq c' = true ↔ c = c'
  | .map f, c' => by cases c' <;> simp [Combinator.beq, Lambda.beq_iff f]
  | .reduce f ne, c' => by
    cases c' <;> simp [Combinator.beq, Lambda.beq_iff f, Exp.beqAll_iff ne]
  | .scan f ne, c' => by
    cases c' <;> simp [Combinator.beq, Lambda.beq_iff f, Exp.beqAll_iff ne]
  | .filter p, c' => by cases c' <;> simp [Combinator.beq, Lambda.beq_iff p]
  | .redomap f g ne, c' => by
    cases c' <;>
      simp [Combinator.beq, Lambda.beq_iff f, Lambda.beq_iff g, Exp.beqAll_iff ne, and_assoc]
termination_by structural e => e

end

instance : DecidableEq Exp := fun e e' => decidable_of_iff _ (Exp.beq_iff e e')

instance : DecidableEq Lambda := fun f f' => decidable_of_iff _ (Lambda.beq_iff f f')

instance : DecidableEq Combinator := fun c c' => decidable_of_iff _ (Combinator.beq_iff c c')

deriving instance DecidableEq for FunDef, Program

end ArrayFusion
