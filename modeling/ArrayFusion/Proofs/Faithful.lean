import ArrayFusion.Proofs.Emission
import ArrayFusion.Proofs.Parts
import ArrayFusion.Proofs.Agreement

/-!
# Emitted code that does what the original code does

Emitted code runs in an environment of its own, and other names are in scope there than in the
original code.  A `Context` says which scopes and which pairs of environments are possible at a
place.  Emitted code is `Faithful` to the original code in a context if it keeps to every scope and
yields whatever the original code yields.  Whether it is can be seen layer by layer
(`Faithful.layer`): a node has to have the names that it reads itself, and to bind new ones, and the
rest is up to its parts.  Only a `let` is not among these nodes, as emission may do more at it than
walk on.
-/

namespace ArrayFusion

open Eval (Uniform Refines)

/-- The names that an expression reads itself, not counting its parts. -/
def Exp.reads : Exp → List Name
  | .var x _ => [x.name]
  | .index x _ _ => [x.name]
  | .update _ y _ _ _ _ => [y.name]
  | _ => []

/-! ## Contexts -/

/-- The scopes that are possible at a place, and the environments: that of the original code, and
that of the emitted code. -/
structure Context where
  scopes : Set Name → Prop
  envs : Env → Env → Prop

namespace Context

/-- The same names are bound to the same values on both sides. -/
def enter (c : Context) (p : Pattern) : Context where
  scopes V := ∃ V₀, c.scopes V₀ ∧ V = V₀ ∪ p.nameSet
  envs env env' := ∃ env₀ env₀', c.envs env₀ env₀'
    ∧ (∀ x ∉ p.names, env.lookup? x = env₀.lookup? x ∧ env'.lookup? x = env₀'.lookup? x)
    ∧ ∀ x ∈ p.names, env'.lookup? x = env.lookup? x

/-- Whatever is possible in the first context is possible in the second one. -/
instance : LE Context := ⟨fun c d =>
    (∀ V, c.scopes V → d.scopes V) ∧ ∀ env env', c.envs env env' → d.envs env env'⟩

/-- The name is in scope, and has one value in both environments. -/
structure Has (c : Context) (x : Name) : Prop where
  scope : ∀ V, c.scopes V → x ∈ V
  value : ∀ env env', c.envs env env' → env'.lookup? x = env.lookup? x

theorem le_enter_nil (c : Context) : c ≤ c.enter [] :=
  ⟨fun V hV => ⟨V, hV, by ext; simp [Pattern.names]⟩,
    fun env env' h => ⟨env, env', h, fun _ _ => ⟨rfl, rfl⟩, fun _ hx => nomatch hx⟩⟩

theorem envs_extendMany {c : Context} {env env' : Env} (h : c.envs env env') {p : Pattern}
    {vs : List Value} (hlen : p.names.length = vs.length) :
    (c.enter p).envs (env.extendMany (p.names.zip vs)) (env'.extendMany (p.names.zip vs)) := by
  refine ⟨env, env', h, fun x hx => ?_, fun x hx => ?_⟩
  · have hnot : x ∉ (p.names.zip vs).map (·.1) := by rwa [Env.map_fst_zip hlen]
    exact ⟨Env.lookup?_extendMany_of_notMem hnot, Env.lookup?_extendMany_of_notMem hnot⟩
  · refine (Env.AgreeOn.extendMany (V := p.nameSet) _ fun y hy => absurd hy.2 ?_) x hx
    rw [Set.notMem_ofPred_iff, not_not, Env.map_fst_zip hlen]
    exact hy.1

/-- A merged name and the counter of a loop may be bound one after the other. -/
theorem enter_enter_le (c : Context) (p : Pattern) (i : Ident) :
    (c.enter p).enter [i] ≤ c.enter (i :: p) := by
  constructor
  · rintro V ⟨V₁, ⟨V₀, hV₀, rfl⟩, rfl⟩
    exact ⟨V₀, hV₀, Pattern.union_nameSet_cons V₀ i p⟩
  · rintro env env' ⟨env₁, env₁', ⟨env₀, env₀', h, hold, hnew⟩, hold₁, hnew₁⟩
    refine ⟨env₀, env₀', h, fun x hx => ?_, fun x hx => ?_⟩
    · have hi : x ∉ Pattern.names [i] := fun hi =>
        hx (List.mem_cons.2 (.inl (List.mem_singleton.1 hi)))
      have hp : x ∉ p.names := fun hp => hx (List.mem_cons_of_mem _ hp)
      exact ⟨(hold₁ x hi).1.trans (hold x hp).1, (hold₁ x hi).2.trans (hold x hp).2⟩
    · by_cases hi : x ∈ Pattern.names [i]
      · exact hnew₁ x hi
      · have hp : x ∈ p.names := (List.mem_cons.1 hx).resolve_left fun h =>
          hi (List.mem_singleton.2 h)
        rw [(hold₁ x hi).1, (hold₁ x hi).2, hnew x hp]

end Context

/-- The name has one value in both environments. -/
theorem Env.get_congr {env env' : Env} {x : Name} (h : env'.lookup? x = env.lookup? x) :
    env'.get x = env.get x := by
  rw [Env.get, Env.get, h]

/-! ## Faithful code -/

/-- In the context the emitted code keeps to its scope and yields whatever the original code
yields. -/
structure Faithful (w : String → Nat) (call : Callee) (B : Set Name) (c : Context) (e e' : Exp) :
    Prop where
  tidy : ∀ V, c.scopes V → e'.Tidy false B V
  runs : ∀ env env', c.envs env env' → Refines w (e.eval call env) (e'.eval call env') 0

/-- What is evaluated behind a pattern is compared on the results that the pattern binds. -/
theorem Refines.bindPattern {α : Type} {w : String → Nat} {env env' : Env} {p : Pattern}
    {v : Value} {f f' : Env → Eval α} (hu : ∀ env, Uniform (f env))
    (hf : ∀ vs, v.results p.length = .ok vs → Refines w (f (env.extendMany (p.names.zip vs)))
      (f' (env'.extendMany (p.names.zip vs))) 0) :
    Refines w (Eval.lift (env.bindPattern p v) >>= f) (Eval.lift (env'.bindPattern p v) >>= f')
      0 := by
  rw [Env.lift_bindPattern_bind, Env.lift_bindPattern_bind]
  exact (Refines.refl (.lift _)).bind_of (fun _ => hu _) fun vs k hvs =>
    hf vs (Eval.yields_lift_iff.1 hvs).1

section

variable {w : String → Nat} {call : Callee} {B : Set Name} {c d : Context} {n : Nat} {q : Registry}

namespace Faithful

/-- What is faithful in a context is faithful in every smaller one. -/
theorem mono {e e' : Exp} (h : Faithful w call B d e e') (hc : c ≤ d) :
    Faithful w call B c e e' where
  tidy := fun V hV => h.tidy V (hc.1 V hV)
  runs := fun env env' he => h.runs env env' (hc.2 env env' he)

/-- What is faithful to expressions is tidy. -/
theorem tidyAll {es es' : List Exp} (h : List.Forall₂ (Faithful w call B c) es es') {V : Set Name}
    (hV : c.scopes V) : Exp.TidyAll false B V es' := by
  induction h with
  | nil => trivial
  | cons he _ ih => exact ⟨he.tidy V hV, ih⟩

/-- What is faithful to expressions refines them. -/
theorem runsAll {es es' : List Exp} (h : List.Forall₂ (Faithful w call B c) es es') {env env' : Env}
    (he : c.envs env env') :
    List.Forall₂ (fun e e' => Refines w (e.eval call env) (e'.eval call env') 0) es es' :=
  h.imp fun _ _ h => h.runs env env' he

/-- The expressions of a list are emitted one by one. -/
theorem all {es es' : List Exp} (h : Emit.allAt n q es = .ok es')
    (hes : ∀ e ∈ es, ∀ e', Emit.expAt n q e = .ok e' → Faithful w call B c e e') :
    List.Forall₂ (Faithful w call B c) es es' := by
  induction es generalizing es' with
  | nil =>
    cases h
    exact .nil
  | cons e es ih =>
    obtain ⟨e₁, he, es₁, hes₁, rfl⟩ := Emit.allAt_cons_eq_ok.1 h
    exact .cons (hes e List.mem_cons_self e₁ he) (ih hes₁ fun d hd =>
      hes d (List.mem_cons_of_mem _ hd))

end Faithful

/-! ## Lambdas and combinators -/

/-- The emitted lambda is faithful to the original one if its body is so behind the parameters. -/
structure FaithfulLambda (w : String → Nat) (call : Callee) (B : Set Name) (c : Context)
    (f f' : Lambda) : Prop where
  rets : f'.rets = f.rets
  tidy : ∀ V, c.scopes V → f'.Tidy false B V
  runs : ∀ env env', c.envs env env' → ∀ vs, Refines w (f.apply call env vs)
    (f'.apply call env' vs) 0

theorem FaithfulLambda.of_body {f f' : Lambda} (h : Emit.lambdaAt n q f = .ok f')
    (hnew : ∀ V, c.scopes V → FreshIn V B (Pattern.names f.params))
    (hbody : ∀ b', Emit.expAt n q f.body = .ok b' → Faithful w call B
    (c.enter f.params) f.body b') : FaithfulLambda w call B c f f' := by
  obtain ⟨ps, b, ts⟩ := f
  obtain ⟨b', hb, rfl⟩ := Emit.lambdaAt_eq_ok.1 h
  refine ⟨rfl, fun V hV => ⟨hnew V hV, (hbody b' hb).tidy _ ⟨V, hV, rfl⟩⟩, fun env env' he vs => ?_⟩
  rw [Lambda.apply, Lambda.apply]
  split
  · rename_i hlen
    refine ((hbody b' hb).runs _ _ (Context.envs_extendMany he ?_)).bind_same fun _ => .lift _
    rw [Pattern.length_names, hlen]
  · exact .refl (.throw _)

/-- A combinator is as faithful as its lambdas and its neutral elements. -/
theorem faithful_op {op op' : Combinator} (h : Emit.opAt n q op = .ok op')
    (hlambdas : ∀ f ∈ op.lambdas, ∀ f', Emit.lambdaAt n q f = .ok f' → FaithfulLambda w call B
    c f f')
    (hneutral : ∀ e ∈ op.neutral, ∀ e', Emit.expAt n q e = .ok e' → Faithful w call B c e e') :
    (∀ V, c.scopes V → op'.Tidy false B V) ∧ ∀ env env', c.envs env env' → ∀ width rows rows',
      Refines w rows rows' 0 → Refines w (op.eval call env width rows)
        (op'.eval call env' width rows') 0 := by
  cases op with
  | map f =>
    obtain ⟨f', hf, rfl⟩ := Emit.opAt_map_eq_ok.1 h
    have hf := hlambdas f (List.mem_singleton_self f) f' hf
    refine ⟨fun V hV => hf.tidy V hV, fun env env' he width rows rows' hrows => ?_⟩
    rw [Combinator.eval, Combinator.eval, hf.rets]
    exact hrows.bind fun _ => (Refines.mapM (hf.runs env env' he) _).bind_same fun _ => .pure _
  | reduce f ne =>
    obtain ⟨f', hf, ne', hne, rfl⟩ := Emit.opAt_reduce_eq_ok.1 h
    have hf := hlambdas f (List.mem_singleton_self f) f' hf
    -- the neutral elements are evaluated first, and then the rows
    have hne := Faithful.all hne hneutral
    refine ⟨fun V hV => ⟨hf.tidy V hV, Faithful.tidyAll hne hV⟩,
      fun env env' he width rows rows' hrows => ?_⟩
    exact (Exp.refines_evalAll (Faithful.runsAll hne he)).bind fun _ => hrows.bind fun _ =>
      (Refines.foldlM (fun _ _ => hf.runs env env' he _) _ _).bind_same fun _ => .pure _
  | scan f ne =>
    obtain ⟨f', hf, ne', hne, rfl⟩ := Emit.opAt_scan_eq_ok.1 h
    have hf := hlambdas f (List.mem_singleton_self f) f' hf
    have hne := Faithful.all hne hneutral
    refine ⟨fun V hV => ⟨hf.tidy V hV, Faithful.tidyAll hne hV⟩,
      fun env env' he width rows rows' hrows => ?_⟩
    exact (Exp.refines_evalAll (Faithful.runsAll hne he)).bind fun _ => hrows.bind fun _ =>
      (Refines.scan (fun _ _ => hf.runs env env' he _) _ _).bind_same fun _ => .pure _
  | filter f =>
    obtain ⟨f', hf, rfl⟩ := Emit.opAt_filter_eq_ok.1 h
    have hf := hlambdas f (List.mem_singleton_self f) f' hf
    refine ⟨fun V hV => hf.tidy V hV, fun env env' he width rows rows' hrows => ?_⟩
    exact hrows.bind fun _ => (Refines.keep (fun _ => (hf.runs env env' he _).bind_same
      fun _ => .verdict _) _).bind_same fun _ => .pure _
  | redomap f g ne =>
    obtain ⟨f', hf, g', hg, ne', hne, rfl⟩ := Emit.opAt_redomap_eq_ok.1 h
    have hf := hlambdas f List.mem_cons_self f' hf
    have hg := hlambdas g (List.mem_cons_of_mem _ List.mem_cons_self) g' hg
    have hne := Faithful.all hne hneutral
    refine ⟨fun V hV => ⟨hf.tidy V hV, hg.tidy V hV, Faithful.tidyAll hne hV⟩,
      fun env env' he width rows rows' hrows => ?_⟩
    exact (Exp.refines_evalAll (Faithful.runsAll hne he)).bind fun _ => hrows.bind fun _ =>
      (Refines.foldlM (fun _ _ => hg.runs env env' he _) _ _).bind_same fun _ => .pure _

/-! ## One layer -/

/-- A node that is no `let` is emitted faithfully if its parts are, it has the names that it reads,
and it binds new ones. -/
theorem Faithful.layer (hu : ∀ fn args, Uniform (call fn args)) {e e' : Exp}
    (hlet : ∀ p r b s, e ≠ .letIn p r b s) (h : Emit.expAt n q e = .ok e')
    (hreads : ∀ x ∈ e.reads, c.Has x)
    (hnew : ∀ d ∈ e.parts, ∀ V, c.scopes V → FreshIn V B d.1.names) (hparts : ∀ d ∈ e.parts, ∀ d',
    Emit.expAt n q d.2 = .ok d' → Faithful w call B (c.enter d.1) d.2 d') :
    Faithful w call B c e e' := by
  -- the parts behind which nothing is bound stand in the context itself
  have hhere : ∀ d, ([], d) ∈ e.parts → ∀ d', Emit.expAt n q d = .ok d' →
      Faithful w call B c d d' :=
    fun d hd d' hd' => (hparts _ hd d' hd').mono c.le_enter_nil
  -- in particular lists of operands and of indices do
  have hall : ∀ es es', (∀ d ∈ es, ([], d) ∈ e.parts) → Emit.allAt n q es = .ok es' →
      List.Forall₂ (Faithful w call B c) es es' :=
    fun es es' hes h => Faithful.all h fun d hd => hhere d (hes d hd)
  cases e with
  | lit v s =>
    cases h
    exact ⟨fun _ _ => trivial, fun _ _ _ => .refl (.pure _)⟩
  | var x s =>
    cases h
    have hx := hreads _ List.mem_cons_self
    refine ⟨fun V hV => hx.scope V hV, fun env env' he => ?_⟩
    rw [Exp.eval, Exp.eval, Env.get_congr (hx.value env env' he)]
    exact .refl (.lift _)
  | tuple es s =>
    obtain ⟨es', hes, rfl⟩ := Emit.expAt_tuple_eq_ok.1 h
    have hes := hall es es' (fun d hd => by simp [Exp.parts, hd]) hes
    exact ⟨fun V hV => Faithful.tidyAll hes hV, fun env env' he =>
      (Exp.refines_evalAll (Faithful.runsAll hes he)).bind_same fun _ => .pure _⟩
  | array es t s =>
    obtain ⟨es', hes, rfl⟩ := Emit.expAt_array_eq_ok.1 h
    have hes := hall es es' (fun d hd => by simp [Exp.parts, hd]) hes
    exact ⟨fun V hV => Faithful.tidyAll hes hV, fun env env' he =>
      (Exp.refines_evalAll (Faithful.runsAll hes he)).bind_same fun _ => .pure _⟩
  | binary op a b t s =>
    obtain ⟨a', ha, b', hb, rfl⟩ := Emit.expAt_binary_eq_ok.1 h
    have ha := hhere a (by simp [Exp.parts]) a' ha
    have hb := hhere b (by simp [Exp.parts]) b' hb
    exact ⟨fun V hV => ⟨ha.tidy V hV, hb.tidy V hV⟩, fun env env' he =>
      (ha.runs env env' he).bind fun _ => (hb.runs env env' he).bind_same fun _ => .lift _⟩
  | unary op a s =>
    obtain ⟨a', ha, rfl⟩ := Emit.expAt_unary_eq_ok.1 h
    have ha := hhere a (by simp [Exp.parts]) a' ha
    exact ⟨fun V hV => ha.tidy V hV, fun env env' he => (ha.runs env env' he).bind_same fun _ =>
      .lift _⟩
  | cond a b d t s =>
    obtain ⟨a', ha, b', hb, d', hd, rfl⟩ := Emit.expAt_cond_eq_ok.1 h
    have ha := hhere a (by simp [Exp.parts]) a' ha
    have hb := hhere b (by simp [Exp.parts]) b' hb
    have hd := hhere d (by simp [Exp.parts]) d' hd
    refine ⟨fun V hV => ⟨ha.tidy V hV, hb.tidy V hV, hd.tidy V hV⟩, fun env env' he => ?_⟩
    refine (ha.runs env env' he).seq fun v => (Refines.refl (.lift _)).seq fun t => ?_
    -- the condition has the same value, so the same branch is evaluated
    cases t with
    | true => exact hb.runs env env' he
    | false => exact hd.runs env env' he
  | call f es t s =>
    obtain ⟨es', hes, rfl⟩ := Emit.expAt_call_eq_ok.1 h
    have hes := hall es es' (fun d hd => by simp [Exp.parts, hd]) hes
    exact ⟨fun V hV => Faithful.tidyAll hes hV, fun env env' he =>
      (Exp.refines_evalAll (Faithful.runsAll hes he)).bind_same fun _ => hu _ _⟩
  | letIn p r b s => exact absurd rfl (hlet p r b s)
  | update x y is v b s =>
    obtain ⟨is', his, v', hv, b', hb, rfl⟩ := Emit.expAt_update_eq_ok.1 h
    have hy := hreads _ List.mem_cons_self
    have his := hall is is' (fun d hd => by simp [Exp.parts, hd]) his
    have hv := hhere v (by simp [Exp.parts]) v' hv
    have hb := hparts ([x], b) (by simp [Exp.parts]) b' hb
    refine ⟨fun V hV => ⟨hy.scope V hV, Faithful.tidyAll his hV, hv.tidy V hV,
      hnew ([x], b) (by simp [Exp.parts]) V hV, hb.tidy _ ⟨V, hV, rfl⟩⟩, fun env env' he => ?_⟩
    rw [Exp.eval, Exp.eval, Env.get_congr (hy.value env env' he)]
    refine (Refines.refl (.lift _)).seq fun u =>
      (Exp.refines_evalPath (Faithful.runsAll his he)).seq
      fun path => (hv.runs env env' he).seq fun new => (Refines.refl (.lift _)).seq fun t => ?_
    have hlen : (Pattern.names [x]).length = [t].length := rfl
    exact hb.runs _ _ (Context.envs_extendMany he hlen)
  | index x is s =>
    obtain ⟨is', his, rfl⟩ := Emit.expAt_index_eq_ok.1 h
    have hx := hreads _ List.mem_cons_self
    have his := hall is is' (fun d hd => by simp [Exp.parts, hd]) his
    refine ⟨fun V hV => ⟨hx.scope V hV, Faithful.tidyAll his hV⟩, fun env env' he => ?_⟩
    rw [Exp.eval, Exp.eval, Env.get_congr (hx.value env env' he)]
    exact (Refines.refl (.lift _)).bind fun v => Exp.refines_evalIndex (Faithful.runsAll his he) v
  | replicate k v s =>
    obtain ⟨k', hk, v', hv, rfl⟩ := Emit.expAt_replicate_eq_ok.1 h
    have hk := hhere k (by simp [Exp.parts]) k' hk
    have hv := hhere v (by simp [Exp.parts]) v' hv
    exact ⟨fun V hV => ⟨hk.tidy V hV, hv.tidy V hV⟩, fun env env' he =>
      (hk.runs env env' he).bind fun _ => (Refines.refl (.lift _)).bind fun _ =>
        (hv.runs env env' he).bind_same fun _ => .pure _⟩
  | loop p is i k b r s =>
    obtain ⟨is', his, k', hk, b', hb, r', hr, rfl⟩ := Emit.expAt_loop_eq_ok.1 h
    have his := hall is is' (fun d hd => by simp [Exp.parts, hd]) his
    have hk := hhere k (by simp [Exp.parts]) k' hk
    have hb := hparts (i :: p, b) (by simp [Exp.parts]) b' hb
    have hr := hparts (p, r) (by simp [Exp.parts]) r' hr
    refine ⟨fun V hV => ⟨Faithful.tidyAll his hV, hk.tidy V hV,
      hnew (i :: p, b) (by simp [Exp.parts]) V hV, hb.tidy _ ⟨V, hV, rfl⟩, hr.tidy _ ⟨V, hV, rfl⟩⟩,
      fun env env' he => ?_⟩
    have hlen : ∀ {v : Value} {us : List Value}, v.results p.length = .ok us → p.names.length =
        us.length :=
      fun h => by rw [p.length_names, Value.length_of_results h]
    rw [Exp.eval, Exp.eval]
    -- first values, bound, rounds and the code behind, in this order
    refine (Exp.refines_evalAll (Faithful.runsAll his he)).seq fun start =>
        (hk.runs env env' he).seq fun v =>
      (Refines.refl (.lift _)).seq fun count => ?_
    refine (Refines.iterate (fun j vs => ?_) _ _ _).seq fun final => ?_
    · refine Refines.bindPattern (fun _ => (b.eval_uniform hu _).bind fun _ =>
        .lift _) fun us hus => ?_
      -- the counter is bound behind the accumulators
      have hone : (Pattern.names [i]).length = [Value.int (Int64.ofNat j)].length := rfl
      have hinner := Context.envs_extendMany (Context.envs_extendMany he (hlen hus)) hone
      exact (hb.runs _ _ ((c.enter_enter_le p i).2 _ _ hinner)).bind_same fun _ => .lift _
    · exact Refines.bindPattern (fun _ => r.eval_uniform hu _) fun us hus =>
        hr.runs _ _ (Context.envs_extendMany he (hlen hus))
  | soac op es cs s =>
    obtain ⟨op', hop, es', hes, rfl⟩ := Emit.expAt_soac_eq_ok.1 h
    have hlambda : ∀ f ∈ op.lambdas, (f.params, f.body) ∈ (Exp.soac op es cs s).parts :=
        fun f hf => by
      simp only [Exp.parts, List.mem_append, List.mem_map]
      exact .inl (.inl ⟨f, hf, rfl⟩)
    -- each lambda is emitted faithfully, with its parameters bound
    have hlambdas : ∀ f ∈ op.lambdas, ∀ f', Emit.lambdaAt n q f = .ok f' →
        FaithfulLambda w call B c f f' := fun f hf f' hf' =>
      .of_body hf' (hnew _ (hlambda f hf)) (hparts _ (hlambda f hf))
    obtain ⟨htidy, hruns⟩ := faithful_op hop hlambdas fun d hd => hhere d (by simp [Exp.parts, hd])
    have hall := hall es es' (fun d hd => by simp [Exp.parts, hd]) hes
    refine ⟨fun V hV => ⟨fun h => absurd h Bool.false_ne_true, htidy V hV,
      Faithful.tidyAll hall hV⟩, fun env env' he => ?_⟩
    rw [Exp.eval, Exp.eval, Emit.length_allAt hes]
    exact hruns env env' he _ _ _
      ((Exp.refines_evalArrays (Faithful.runsAll hall he)).bind_same fun _ => .lift _)

end

end ArrayFusion
