import Mathlib.Data.List.Forall2
import ArrayFusion.Eval.Evaluator

/-!
# What evaluation keeps

An expression is evaluated in steps, of which only the calls are not known.  So two evaluations of
one expression are related if the calls are, as soon as the relation is kept when steps follow one
another (`Exp.congruent`).

Lists of expressions are evaluated one by one, so two lists whose members mean the same mean the
same, also in two environments (`Exp.evalArrays_eq`).
-/

namespace ArrayFusion

namespace Eval

/-- A relation between evaluations that holds where both have the same outcome without a call, and
of sequences of related steps. -/
structure Congruence (σ τ : Type) where
  holds : ∀ {α : Type}, Evaluation σ α → Evaluation τ α → Prop
  pure : ∀ {α : Type} (a : α), holds (Pure.pure a) (Pure.pure a)
  throw : ∀ {α : Type} (e : EvalError), holds (MonadExcept.throw e : Evaluation σ α)
    (MonadExcept.throw e)
  bind : ∀ {α β : Type} {x : Evaluation σ α} {y : Evaluation τ α} {f : α → Evaluation σ β}
    {g : α → Evaluation τ β}, holds x y → (∀ a, holds (f a) (g a)) → holds (x >>= f) (y >>= g)

namespace Congruence

variable {σ τ α β ι : Type} (R : Congruence σ τ)

theorem lift (x : Except EvalError α) : R.holds (lift x) (lift x) := by
  cases x with
  | ok a => exact R.pure a
  | error e => exact R.throw e

/-- Related steps are related when they are made for one member of a list after the other. -/
theorem mapM {f : α → Evaluation σ β} {g : α → Evaluation τ β} (hf : ∀ a, R.holds (f a) (g a))
    (xs : List α) : R.holds (xs.mapM f) (xs.mapM g) := by
  induction xs with
  | nil => exact R.pure []
  | cons x xs ih =>
    rw [List.mapM_cons, List.mapM_cons]
    exact R.bind (hf x) fun _ => R.bind ih fun _ => R.pure _

/-- Related steps are related when each one gets what the one before it has made. -/
theorem foldlM {f : ι → α → Evaluation σ ι} {g : ι → α → Evaluation τ ι}
    (hf : ∀ i a, R.holds (f i a) (g i a)) (xs : List α) (i : ι) :
    R.holds (xs.foldlM f i) (xs.foldlM g i) := by
  induction xs generalizing i with
  | nil => exact R.pure i
  | cons x xs ih =>
    rw [List.foldlM_cons, List.foldlM_cons]
    exact R.bind (hf i x) ih

/-- Repeated steps are related if the steps are, each time round. -/
theorem iterate {f : Nat → ι → Evaluation σ ι} {g : Nat → ι → Evaluation τ ι}
    (hf : ∀ k i, R.holds (f k i) (g k i)) (k n : Nat) (i : ι) :
    R.holds (iterate f k n i) (iterate g k n i) := by
  induction n generalizing k i with
  | zero => exact R.pure i
  | succ n ih => exact R.bind (hf k i) fun i => ih (k + 1) i

/-- All prefixes are related if the steps are. -/
theorem scan {f : ι → α → Evaluation σ ι} {g : ι → α → Evaluation τ ι}
    (hf : ∀ i a, R.holds (f i a) (g i a)) (xs : List α) (i : ι) :
    R.holds (scan f i xs) (scan g i xs) := by
  induction xs generalizing i with
  | nil => exact R.pure []
  | cons x xs ih => exact R.bind (hf i x) fun i => R.bind (ih i) fun _ => R.pure _

/-- A filter asks related questions about each member, and keeps the same members. -/
theorem keep {f : α → Evaluation σ Bool} {g : α → Evaluation τ Bool}
    (hf : ∀ a, R.holds (f a) (g a)) (xs : List α) : R.holds (keep f xs) (keep g xs) := by
  induction xs with
  | nil => exact R.pure []
  | cons x xs ih => exact R.bind (hf x) fun _ => R.bind ih fun _ => R.pure _

/-- What a predicate has returned is judged alike on both sides. -/
theorem verdict (vs : List Value) : R.holds (verdict vs) (verdict vs) := by
  cases vs with
  | nil => exact R.pure false
  | cons v vs => exact R.lift _

end Congruence

end Eval

/-! ## Expressions -/

section

variable {σ τ : Type} (R : Eval.Congruence σ τ) {call : CalleeOver σ} {call' : CalleeOver τ}

/-- Calls of the same function with the same arguments are related. -/
def Eval.Congruence.Calls (call : CalleeOver σ) (call' : CalleeOver τ) : Prop :=
  ∀ fn args, R.holds (call fn args) (call' fn args)

mutual

/-- Whatever relation the calls keep, the evaluation of an expression keeps. -/
theorem Exp.congruent (hcall : R.Calls call call') (env : Env) :
    ∀ e : Exp, R.holds (e.eval call env) (e.eval call' env)
  | .lit v _ => R.pure _
  | .var x _ => R.lift _
  | .tuple es _ => R.bind (Exp.congruentAll hcall env es) fun _ => R.pure _
  | .array es _ _ => R.bind (Exp.congruentAll hcall env es) fun _ => R.pure _
  | .binary op a b _ _ => R.bind (a.congruent hcall env) fun _ =>
    R.bind (b.congruent hcall env) fun _ => R.lift _
  | .unary op e _ => R.bind (e.congruent hcall env) fun _ => R.lift _
  | .cond c a b _ _ => by
    -- both runs take the same branch, for the verdict is the same value
    refine R.bind (c.congruent hcall env) fun v => R.bind (R.lift _) fun t => ?_
    cases t with
    | true => exact a.congruent hcall env
    | false => exact b.congruent hcall env
  | .call f es _ _ => R.bind (Exp.congruentAll hcall env es) fun _ => hcall f _
  | .letIn p r b _ => R.bind (r.congruent hcall env) fun _ => R.bind (R.lift _) fun env =>
      b.congruent hcall env
  | .update x y is e b _ =>
    R.bind (R.lift _) fun _ => R.bind (Exp.congruentPath hcall env is) fun _ =>
        R.bind (e.congruent hcall env) fun _ =>
      R.bind (R.lift _) fun _ => b.congruent hcall _
  | .index x is _ => R.bind (R.lift _) fun _ => Exp.congruentIndex hcall env is _
  | .replicate n e _ =>
    R.bind (n.congruent hcall env) fun _ => R.bind (R.lift _) fun _ =>
      R.bind (e.congruent hcall env) fun _ => R.pure _
  | .loop p is i n b r _ =>
    R.bind (Exp.congruentAll hcall env is) fun _ => R.bind (n.congruent hcall env) fun _ =>
        R.bind (R.lift _) fun _ =>
      -- the body of a round starts from the values of the round before, which are the same
      R.bind (R.iterate (fun _ _ => R.bind (R.lift _) fun env =>
        R.bind (b.congruent hcall _) fun _ => R.lift _) _ _ _)
        fun _ => R.bind (R.lift _) fun env => r.congruent hcall env
  | .soac op es _ _ => op.congruent hcall env es.length
      (R.bind (Exp.congruentArrays hcall env es) fun _ => R.lift _)

/-- Lists of expressions are evaluated one by one, which keeps the relation. -/
theorem Exp.congruentAll (hcall : R.Calls call call') (env : Env) :
    ∀ es : List Exp, R.holds (Exp.evalAll call env es) (Exp.evalAll call' env es)
  | [] => R.pure _
  | e :: es => R.bind (e.congruent hcall env) fun _ =>
    R.bind (Exp.congruentAll hcall env es) fun _ => R.pure _

/-- So are the indices of an update, each of which has to be a number. -/
theorem Exp.congruentPath (hcall : R.Calls call call') (env : Env) : ∀ es : List Exp,
    R.holds (Exp.evalPath call env es) (Exp.evalPath call' env es)
  | [] => R.pure _
  | e :: es => R.bind (e.congruent hcall env) fun _ => R.bind (R.lift _) fun _ =>
      R.bind (Exp.congruentPath hcall env es) fun _ => R.pure _

/-- So are the indices of an element, each of which is looked up at once. -/
theorem Exp.congruentIndex (hcall : R.Calls call call') (env : Env) : ∀ (es : List Exp) (v : Value),
    R.holds (Exp.evalIndex call env v es) (Exp.evalIndex call' env v es)
  | [], _ => R.pure _
  | e :: es, _ => R.bind (e.congruent hcall env) fun _ => R.bind (R.lift _) fun _ =>
    R.bind (R.lift _) fun v =>
      Exp.congruentIndex hcall env es v

/-- So are the arguments of a combinator, each of which has to be an array. -/
theorem Exp.congruentArrays (hcall : R.Calls call call') (env : Env) : ∀ es : List Exp,
    R.holds (Exp.evalArrays call env es) (Exp.evalArrays call' env es)
  | [] => R.pure _
  | e :: es => R.bind (e.congruent hcall env) fun _ => R.bind (R.lift _) fun _ =>
      R.bind (Exp.congruentArrays hcall env es) fun _ => R.pure _

/-- The application of a lambda keeps the relation, for each number of arguments. -/
theorem Lambda.congruent (hcall : R.Calls call call') (env : Env) :
    ∀ (f : Lambda) (args : List Value), R.holds (f.apply call env args) (f.apply call' env args)
  | ⟨ps, b, ts⟩, args => by
    by_cases h : ps.length = args.length
    · rw [Lambda.apply, Lambda.apply, if_pos h, if_pos h]
      exact R.bind (b.congruent hcall _) fun _ => R.lift _
    · rw [Lambda.apply, Lambda.apply, if_neg h, if_neg h]
      exact R.throw _

/-- A combinator keeps the relation if its rows are related. -/
theorem Combinator.congruent (hcall : R.Calls call call') (env : Env) :
    ∀ (op : Combinator) (width : Nat) {rows : Evaluation σ (List (List Value))}
    {rows' : Evaluation τ (List (List Value))}, R.holds rows rows' →
      R.holds (op.eval call env width rows) (op.eval call' env width rows')
  | .map f, _, _, _, h => R.bind h fun _ => R.bind (R.mapM (f.congruent hcall env) _) fun _ =>
    R.pure _
  | .reduce f ne, _, _, _, h => R.bind (Exp.congruentAll hcall env ne) fun _ => R.bind h fun _ =>
      R.bind (R.foldlM (fun _ _ => f.congruent hcall env _) _ _) fun _ => R.pure _
  | .scan f ne, _, _, _, h => R.bind (Exp.congruentAll hcall env ne) fun _ => R.bind h fun _ =>
      R.bind (R.scan (fun _ _ => f.congruent hcall env _) _ _) fun _ => R.pure _
  | .filter p, _, _, _, h => R.bind h fun _ =>
      R.bind (R.keep (fun _ => R.bind (p.congruent hcall env _) fun _ => R.verdict _) _) fun _ =>
        R.pure _
  | .redomap _ f ne, _, _, _, h => R.bind (Exp.congruentAll hcall env ne) fun _ => R.bind h fun _ =>
      R.bind (R.foldlM (fun _ _ => f.congruent hcall env _) _ _) fun _ => R.pure _

end

end

/-! ## Lists of expressions with the same meanings -/

section

variable {τ : Type} {call : CalleeOver τ} {env env' : Env} {es es' : List Exp}

/-- Two lists of expressions have the same values if their members do. -/
theorem Exp.evalAll_eq (h : List.Forall₂ (fun e e' => e'.eval call env' = e.eval call env) es es') :
    Exp.evalAll call env' es' = Exp.evalAll call env es := by
  induction h with
  | nil => rfl
  | cons he _ ih => rw [Exp.evalAll, Exp.evalAll, he, ih]

/-- Two paths lead to the same place if their indices have the same values. -/
theorem Exp.evalPath_eq (h : List.Forall₂ (fun e e' =>
    e'.eval call env' = e.eval call env) es es') :
    Exp.evalPath call env' es' = Exp.evalPath call env es := by
  induction h with
  | nil => rfl
  | cons he _ ih => rw [Exp.evalPath, Exp.evalPath, he, ih]

/-- Two lists of indices find the same element if the indices have the same values. -/
theorem Exp.evalIndex_eq (h : List.Forall₂ (fun e e' =>
    e'.eval call env' = e.eval call env) es es') :
    ∀ v, Exp.evalIndex call env' v es' = Exp.evalIndex call env v es := by
  induction h with
  | nil => exact fun _ => rfl
  | cons he _ ih =>
    intro v
    rw [Exp.evalIndex, Exp.evalIndex, he]
    simp only [ih]

/-- Two lists of arguments are the same arrays if their members have the same values. -/
theorem Exp.evalArrays_eq (h : List.Forall₂ (fun e e' =>
    e'.eval call env' = e.eval call env) es es') :
    Exp.evalArrays call env' es' = Exp.evalArrays call env es := by
  induction h with
  | nil => rfl
  | cons he _ ih => rw [Exp.evalArrays, Exp.evalArrays, he, ih]

end

end ArrayFusion
