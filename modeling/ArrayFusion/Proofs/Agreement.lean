import ArrayFusion.Eval.Session
import ArrayFusion.Proofs.Outcome
import ArrayFusion.Proofs.Scope

/-!
# Evaluation depends on the free names only

Two environments that agree on the free names of an expression give it the same meaning
(`Exp.eval_congr`).  Certificates are never looked up, so they do not count as uses here; so much
the more the free variables that are collected, certificates included, decide
(`Program.evaluate_congr`).
-/

namespace ArrayFusion

namespace Value

/-- A value has as many results as it is asked for. -/
theorem length_of_results {v : Value} {n : Nat} {vs : List Value} (h : v.results n = .ok vs) :
    vs.length = n := by
  unfold results at h
  split at h
  · rename_i hn
    cases h
    exact hn.symm
  · split at h
    · split at h
      · rename_i hlen
        cases h
        exact hlen
      · cases h
    · cases h

theorem results_one (v : Value) : v.results 1 = .ok [v] := rfl

/-- Several results as one value are those results. -/
theorem results_ofResults (vs : List Value) : (ofResults vs).results vs.length = .ok vs := by
  rcases vs with _ | ⟨v, _ | ⟨w, vs⟩⟩ <;> simp [ofResults, results]

/-- A value is its results as one value. -/
theorem ofResults_of_results {v : Value} {n : Nat} {vs : List Value}
    (h : v.results n = .ok vs) : ofResults vs = v := by
  unfold results at h
  split at h
  · cases h
    rfl
  · -- of any other number of results the value is a tuple, which is not one value
    rename_i hn
    split at h
    · split at h
      · rename_i hlen
        cases h
        rcases vs with _ | ⟨v, _ | ⟨w, vs⟩⟩
        · rfl
        · exact absurd hlen.symm hn
        · rfl
      · cases h
    · cases h

end Value

namespace Env

/-- The environments give the same values to the names of `V`. -/
def AgreeOn (V : Set Name) (env env' : Env) : Prop := ∀ x ∈ V, env.lookup? x = env'.lookup? x

variable {V W : Set Name} {env env' : Env}

/-- Environments that agree on names agree on fewer of them. -/
theorem AgreeOn.mono (h : AgreeOn W env env') (hVW : V ⊆ W) : AgreeOn V env env' :=
  fun x hx => h x (hVW hx)

theorem AgreeOn.symm (h : AgreeOn V env env') : AgreeOn V env' env := fun x hx => (h x hx).symm

/-- Environments that agree on a name have the same value for it, or the same error. -/
theorem AgreeOn.get_eq (h : AgreeOn V env env') {x : Name} (hx : x ∈ V) :
    env.get x = env'.get x := by
  rw [Env.get, Env.get, h x hx]

/-- Environments agree on a name that both bind to one value. -/
theorem AgreeOn.extend (h : AgreeOn (V \ {x}) env env') (v : Value) :
    AgreeOn V (env.extend x v) (env'.extend x v) := by
  intro y hy
  rw [lookup?_extend, lookup?_extend]
  split
  · rfl
  · rename_i hne
    exact h y ⟨hy, hne⟩

/-- Environments agree on names that both bind to the same values. -/
theorem AgreeOn.extendMany (bs : List (Name × Value))
    (h : AgreeOn (V \ {x | x ∈ bs.map (·.1)}) env env') :
    AgreeOn V (env.extendMany bs) (env'.extendMany bs) := by
  induction bs generalizing env env' with
  | nil => exact h.mono fun x hx => ⟨hx, by simp⟩
  | cons b bs ih =>
    refine ih (AgreeOn.extend (h.mono fun x hx => ⟨hx.1.1, ?_⟩) b.2)
    rintro (_ | ⟨_, hxb⟩)
    · exact hx.2 rfl
    · exact hx.1.2 hxb

/-- Two lists of bindings are bound one after the other. -/
theorem extendMany_append (env : Env) (bs cs : List (Name × Value)) :
    env.extendMany (bs ++ cs) = (env.extendMany bs).extendMany cs := List.foldl_append

/-- Names that are not bound keep their values. -/
theorem lookup?_extendMany_of_notMem {bs : List (Name × Value)} {x : Name}
    (h : x ∉ bs.map (·.1)) : (env.extendMany bs).lookup? x = env.lookup? x := by
  induction bs generalizing env with
  | nil => rfl
  | cons b bs ih =>
    rw [List.map_cons, List.mem_cons, not_or] at h
    rw [show env.extendMany (b :: bs) = (env.extend b.1 b.2).extendMany bs from rfl, ih h.2,
      lookup?_extend, if_neg h.1]

theorem map_fst_zip {xs : List Name} {vs : List Value} (h : xs.length = vs.length) :
    (xs.zip vs).map (·.1) = xs := List.map_fst_zip (Nat.le_of_eq h)

/-- Distinct names get the values at their positions. -/
theorem lookup?_extendMany_zip {xs : List Name} {vs : List Value} (hx : xs.Nodup)
    (hlen : xs.length = vs.length) {i : Nat} (hi : i < xs.length) :
    (env.extendMany (xs.zip vs)).lookup? (xs[i]) = vs[i]? := by
  induction xs generalizing env vs i with
  | nil => simp at hi
  | cons x xs ih =>
    rcases vs with _ | ⟨v, vs⟩
    · simp at hlen
    obtain ⟨hnot, hx⟩ := List.nodup_cons.1 hx
    simp only [List.length_cons, Nat.add_right_cancel_iff] at hlen
    rw [show env.extendMany ((x :: xs).zip (v :: vs)) = (env.extend x v).extendMany (xs.zip vs)
      from rfl]
    -- the first binding is not hidden by those behind it, for the names are different
    cases i with
    | zero =>
      rw [List.getElem_cons_zero, lookup?_extendMany_of_notMem, lookup?_extend, if_pos rfl]
      · rfl
      · rw [map_fst_zip hlen]
        exact hnot
    | succ i =>
      rw [List.getElem_cons_succ, ih hx hlen (by simpa using hi), List.getElem?_cons_succ]

/-- Different names that are bound to values have these values. -/
theorem map_lookup?_extendMany_zip {xs : List Name} {vs : List Value} (hx : xs.Nodup)
    (hlen : xs.length = vs.length) : xs.map (env.extendMany (xs.zip vs)).lookup? = vs.map some := by
  refine List.ext_getElem (by simp [hlen]) fun i h₁ h₂ => ?_
  rw [List.length_map] at h₁ h₂
  rw [List.getElem_map, List.getElem_map, lookup?_extendMany_zip hx hlen h₁,
    List.getElem?_eq_getElem h₂]

/-- Binding a pattern is looking at the results and then binding the names. -/
theorem lift_bindPattern_bind {α τ : Type} (p : Pattern) (v : Value) (k : Env → Evaluation τ α) :
    (Eval.lift (env.bindPattern p v) >>= k)
      = Eval.lift (v.results p.length) >>= fun vs => k (env.extendMany (p.names.zip vs)) := by
  unfold bindPattern
  cases v.results p.length <;> rfl

end Env

/-- What follows a step has to be known for its results only. -/
theorem Eval.lift_bind_congr {α β τ : Type} {x : Except EvalError α} {f g : α → Evaluation τ β}
    (h : ∀ a, x = .ok a → f a = g a) : (Eval.lift x >>= f) = Eval.lift x >>= g := by
  cases x with
  | ok a => exact h a rfl
  | error e => rfl

/-- A pattern has as many names as identifiers. -/
theorem Pattern.length_names (p : Pattern) : p.names.length = p.length := List.length_map _

theorem Pattern.names_append (p q : Pattern) : Pattern.names (p ++ q) = p.names ++ q.names :=
  List.map_append

open Env (AgreeOn)

/-- What is evaluated behind a pattern depends on its other free names only. -/
theorem eval_bindPattern_congr {α τ : Type} {V : Set Name} {env env' : Env} {p : Pattern}
    {v : Value} (h : AgreeOn (V \ p.nameSet) env env') {k k' : Env → Evaluation τ α}
    (hk : ∀ {env env' : Env}, AgreeOn V env env' → k env = k' env') :
    (Eval.lift (env.bindPattern p v) >>= k) = (Eval.lift (env'.bindPattern p v) >>= k') := by
  rw [Env.lift_bindPattern_bind, Env.lift_bindPattern_bind]
  refine Eval.lift_bind_congr fun vs hvs => hk (AgreeOn.extendMany _ (h.mono fun x hx => ?_))
  rw [Env.map_fst_zip (by rw [p.length_names, Value.length_of_results hvs])] at hx
  exact hx

variable {τ : Type}

mutual

/-- Environments that agree on the free names of an expression give it the same meaning. -/
theorem Exp.eval_congr (call : CalleeOver τ) : ∀ (e : Exp) {env env' : Env},
    AgreeOn (e.free false) env env' → e.eval call env = e.eval call env'
  | .lit _ _, _, _, _ => rfl
  | .var x _, env, env', h => by
    rw [Exp.eval, Exp.eval, h.get_eq (Set.mem_singleton _)]
  | .tuple es _, env, env', h => by
    rw [Exp.eval, Exp.eval, Exp.evalAll_congr call es h]
  | .array es _ _, env, env', h => by
    rw [Exp.eval, Exp.eval, Exp.evalAll_congr call es h]
  | .binary _ a b _ _, env, env', h => by
    rw [Exp.eval, Exp.eval, a.eval_congr call (h.mono Set.subset_union_left),
      b.eval_congr call (h.mono Set.subset_union_right)]
  | .unary _ e _, env, env', h => by
    rw [Exp.eval, Exp.eval, e.eval_congr call h]
  | .cond c a b _ _, env, env', h => by
    -- only one branch is evaluated, but the environments agree on both
    have h' := h.mono Set.subset_union_right
    rw [Exp.eval, Exp.eval, c.eval_congr call (h.mono Set.subset_union_left),
      a.eval_congr call (h'.mono Set.subset_union_left),
      b.eval_congr call (h'.mono Set.subset_union_right)]
  | .call _ es _ _, env, env', h => by
    rw [Exp.eval, Exp.eval, Exp.evalAll_congr call es h]
  | .letIn p r b _, env, env', h => by
    rw [Exp.eval, Exp.eval, r.eval_congr call (h.mono Set.subset_union_left)]
    exact congrArg _ (funext fun v => eval_bindPattern_congr (h.mono Set.subset_union_right)
      fun h => b.eval_congr call h)
  | .update x y is v b _, env, env', h => by
    have h₂ := h.mono Set.subset_union_right
    have h₃ := h₂.mono Set.subset_union_right
    rw [Exp.eval, Exp.eval, h.get_eq (.inl rfl),
      Exp.evalPath_congr call is (h₂.mono Set.subset_union_left),
      v.eval_congr call (h₃.mono Set.subset_union_left)]
    -- behind the update both environments bind its name to the same array
    refine congrArg _ (funext fun w => congrArg _ (funext fun path => congrArg _ (funext fun u =>
      congrArg _ (funext fun a => b.eval_congr call (AgreeOn.extend ?_ a)))))
    exact h₃.mono Set.subset_union_right
  | .index x is _, env, env', h => by
    rw [Exp.eval, Exp.eval, h.get_eq (.inl rfl)]
    exact congrArg _ (funext fun v =>
      Exp.evalIndex_congr call is v (h.mono Set.subset_union_right))
  | .replicate n v _, env, env', h => by
    rw [Exp.eval, Exp.eval, n.eval_congr call (h.mono Set.subset_union_left),
      v.eval_congr call (h.mono Set.subset_union_right)]
  | .loop p is i n b r _, env, env', h => by
    have h₂ := h.mono Set.subset_union_right
    have h₃ := h₂.mono Set.subset_union_right
    -- the body of the loop sees the counter and the accumulators of the round
    have hb : AgreeOn ((b.free false \ {i.name}) \ p.nameSet) env env' :=
      h₃.mono fun x hx => .inl ⟨hx.1.1, fun hx' => hx'.elim hx.1.2 hx.2⟩
    rw [Exp.eval, Exp.eval, Exp.evalAll_congr call is (h.mono Set.subset_union_left),
      n.eval_congr call (h₂.mono Set.subset_union_left)]
    refine congrArg _ (funext fun start => congrArg _ (funext fun v => congrArg _
      (funext fun count => ?_)))
    dsimp only
    -- the rounds agree one by one, and so does the body behind them
    refine congr (congrArg _ (congrFun (congrFun (congrFun (congrArg Eval.iterate ?_) _) _) _))
      (funext fun final => eval_bindPattern_congr (h₃.mono Set.subset_union_right)
        fun h => r.eval_congr call h)
    funext k vs
    exact eval_bindPattern_congr hb fun h => by
      rw [b.eval_congr call (AgreeOn.extend h _)]
  | .soac op es _ _, env, env', h => by
    have h₂ := h.mono Set.subset_union_right
    rw [Exp.eval, Exp.eval, Exp.evalArrays_congr call es (h₂.mono Set.subset_union_right),
      op.eval_congr call (h₂.mono Set.subset_union_left)]

/-- The values of a list of expressions depend on its free names. -/
theorem Exp.evalAll_congr (call : CalleeOver τ) : ∀ (es : List Exp) {env env' : Env},
    AgreeOn (Exp.freeAll false es) env env' → Exp.evalAll call env es = Exp.evalAll call env' es
  | [], _, _, _ => rfl
  | e :: es, env, env', h => by
    rw [Exp.evalAll, Exp.evalAll, e.eval_congr call (h.mono Set.subset_union_left),
      Exp.evalAll_congr call es (h.mono Set.subset_union_right)]

/-- Where a path leads depends on its free names. -/
theorem Exp.evalPath_congr (call : CalleeOver τ) : ∀ (es : List Exp) {env env' : Env},
    AgreeOn (Exp.freeAll false es) env env' → Exp.evalPath call env es = Exp.evalPath call env' es
  | [], _, _, _ => rfl
  | e :: es, env, env', h => by
    rw [Exp.evalPath, Exp.evalPath, e.eval_congr call (h.mono Set.subset_union_left),
      Exp.evalPath_congr call es (h.mono Set.subset_union_right)]

/-- The element that indices find depends on their free names. -/
theorem Exp.evalIndex_congr (call : CalleeOver τ) : ∀ (es : List Exp) (v : Value) {env env' : Env},
    AgreeOn (Exp.freeAll false es) env env' →
      Exp.evalIndex call env v es = Exp.evalIndex call env' v es
  | [], _, _, _, _ => rfl
  | e :: es, v, env, env', h => by
    rw [Exp.evalIndex, Exp.evalIndex, e.eval_congr call (h.mono Set.subset_union_left)]
    exact congrArg _ (funext fun w => congrArg _ (funext fun i => congrArg _ (funext fun u =>
      Exp.evalIndex_congr call es u (h.mono Set.subset_union_right))))

/-- The arguments of a combinator depend on their free names. -/
theorem Exp.evalArrays_congr (call : CalleeOver τ) : ∀ (es : List Exp) {env env' : Env},
    AgreeOn (Exp.freeAll false es) env env' →
      Exp.evalArrays call env es = Exp.evalArrays call env' es
  | [], _, _, _ => rfl
  | e :: es, env, env', h => by
    rw [Exp.evalArrays, Exp.evalArrays, e.eval_congr call (h.mono Set.subset_union_left),
      Exp.evalArrays_congr call es (h.mono Set.subset_union_right)]

/-- What a lambda returns depends on its free names. -/
theorem Lambda.apply_congr (call : CalleeOver τ) : ∀ (f : Lambda) {env env' : Env},
    AgreeOn (f.free false) env env' → f.apply call env = f.apply call env'
  | ⟨ps, b, ts⟩, env, env', h => by
    funext args
    rw [Lambda.apply, Lambda.apply]
    split
    · rename_i hlen
      rw [b.eval_congr call (AgreeOn.extendMany _ (h.mono fun x hx => ?_))]
      rw [Env.map_fst_zip (by rw [Pattern.length_names, hlen])] at hx
      exact hx
    · rfl

/-- What a combinator computes depends on its free names. -/
theorem Combinator.eval_congr (call : CalleeOver τ) {width : Nat}
    {rows : Evaluation τ (List (List Value))} :
    ∀ (op : Combinator) {env env' : Env}, AgreeOn (op.free false) env env' →
      op.eval call env width rows = op.eval call env' width rows
  | .map f, env, env', h => by
    rw [Combinator.eval, Combinator.eval, f.apply_congr call h]
  | .reduce f ne, env, env', h => by
    rw [Combinator.eval, Combinator.eval, f.apply_congr call (h.mono Set.subset_union_left),
      Exp.evalAll_congr call ne (h.mono Set.subset_union_right)]
  | .scan f ne, env, env', h => by
    rw [Combinator.eval, Combinator.eval, f.apply_congr call (h.mono Set.subset_union_left),
      Exp.evalAll_congr call ne (h.mono Set.subset_union_right)]
  | .filter p, env, env', h => by
    rw [Combinator.eval, Combinator.eval, p.apply_congr call h]
  | .redomap f g ne, env, env', h => by
    have h₂ := h.mono Set.subset_union_right
    rw [Combinator.eval, Combinator.eval, g.apply_congr call (h₂.mono Set.subset_union_left),
      Exp.evalAll_congr call ne (h₂.mono Set.subset_union_right)]

end

/-- A `let` yields what its body yields behind the results of its right-hand side. -/
theorem Eval.Yields.letIn {w : String → Nat} {call : Callee} {env : Env} {p : Pattern} {e b : Exp}
    {s : Span} {v a : Value} {vs : List Value} {i j : Nat}
    (hv : Eval.Yields w (e.eval call env) v i) (hvs : v.results p.length = .ok vs)
    (hb : Eval.Yields w (b.eval call (env.extendMany (p.names.zip vs))) a j) :
    Eval.Yields w ((Exp.letIn p e b s).eval call env) a (i + j) := by
  have hrest := (Eval.Yields.lift hvs).bind
    (f := fun vs => b.eval call (env.extendMany (p.names.zip vs))) hb
  rw [Nat.zero_add] at hrest
  rw [Exp.eval]
  refine hv.bind ?_
  rw [Env.lift_bindPattern_bind]
  exact hrest

/-- If a `let` yields something, its right-hand side yields results, and its body yields that behind
them. -/
theorem yields_letIn {w : String → Nat} {call : Callee}
    (hu : ∀ fn args, Eval.Uniform (call fn args)) {env : Env} {p : Pattern} {e b : Exp} {s : Span}
    {a : Value} {k : Nat} (h : Eval.Yields w ((Exp.letIn p e b s).eval call env) a k) :
    ∃ v i vs j, Eval.Yields w (e.eval call env) v i ∧ v.results p.length = .ok vs
      ∧ Eval.Yields w (b.eval call (env.extendMany (p.names.zip vs))) a j := by
  obtain ⟨v, i, j, hv, hj, -⟩ := ((e.eval_uniform hu env).yields_bind_iff fun _ =>
    (Eval.Uniform.lift _).bind fun env => b.eval_uniform hu env).1 h
  rw [Env.lift_bindPattern_bind] at hj
  obtain ⟨vs, _, j', hvs, hj', -⟩ := ((Eval.Uniform.lift _).yields_bind_iff fun _ =>
    b.eval_uniform hu _).1 hj
  exact ⟨v, i, vs, j', hv, (Eval.yields_lift_iff.1 hvs).1, hj'⟩

namespace Program

/-- In one session an expression has the same outcome and leaves the same session behind in any two
environments that give the same values to its free variables. -/
theorem evaluate_congr (p : Program) {e : Exp} {env env' : Env}
    (h : ∀ x ∈ e.freeVars, env.lookup? x.name = env'.lookup? x.name) (s : Session) :
    p.evaluate env e s = p.evaluate env' e s := by
  have hagree : Env.AgreeOn (e.free false) env env' := by
    intro y hy
    obtain ⟨x, hx, rfl⟩ := List.mem_map.1 (e.mem_freeVars.2 (e.free_subset hy))
    exact h x hx
  rw [evaluate, evaluate, e.eval_congr (p.answer maxDepth) hagree]

/-- A loop that merges a name into itself.  Its counter is bound in the body only, so what the
counter is outside makes no difference. -/
theorem evaluate_congr_loop :
    let k : Ident := ⟨⟨"k", 0⟩, .int⟩
    let i : Ident := ⟨⟨"i", 1⟩, .int⟩
    let double : FunDef :=
      ⟨"double", [k], .int, .binary .plus (.ofIdent k) (.ofIdent k) .int .dummy, .dummy⟩
    let e : Exp := .loop [k] [.ofIdent k] i (.lit (.int 3) .dummy)
      (.binary .plus (.call "double" [.ofIdent k] .int .dummy) (.ofIdent i) .int .dummy)
      (.ofIdent k) .dummy
    let env (v : Value) : Env := (Env.empty.extend k.name (.int 5)).extend i.name v
    e.freeVars = [k] ∧ (env (.int 7)).lookup? k.name = (env (.array [])).lookup? k.name
      ∧ Program.evaluate ⟨[double]⟩ (env (.int 7)) e .new
        = Program.evaluate ⟨[double]⟩ (env (.array [])) e .new := by
  intro k i double e env
  have hfree : e.freeVars = [k] := by decide
  have hk : (env (.int 7)).lookup? k.name = (env (.array [])).lookup? k.name := rfl
  refine ⟨hfree, hk, evaluate_congr ⟨[double]⟩ (fun x hx => ?_) .new⟩
  rw [hfree, List.mem_singleton] at hx
  rw [hx, hk]

end Program

end ArrayFusion
