import ArrayFusion.Proofs.Accounts
import ArrayFusion.Proofs.GluedComposites
import ArrayFusion.Proofs.Simulation

/-!
# Stages on offer

A stage that stands for the right-hand side of some `let` may be fused into kernels behind the
`let`. `Stage.Offers` says what such a stage has to be like: glued together from code of the `let`,
and worth what the `let` computes.  A combinator of the function is such a stage, and so is the map
over a range that a replicated value is as good as.

Only the first of several kernels takes the stage itself.  Each other one takes a copy, which binds
nothing but names from the supply (`Stage.Offers.copyOf`).
-/

namespace ArrayFusion

open Eval (Yields Uniform Refines)
open Spot (Reaches)

/-! ## Code behind a `let` -/

theorem Exp.parts_lambda {op : Combinator} {es : List Exp} {cs : Certificates} {s : Span}
    {f : Lambda} (hf : f ∈ op.lambdas) : (f.params, f.body) ∈ (Exp.soac op es cs s).parts := by
  simp only [Exp.parts, List.mem_append, List.mem_map]
  exact .inl (.inl ⟨f, hf, rfl⟩)

section

variable {g : Ground} {root k o : Spot} {r : Registry} {p : Pattern} {e b : Exp} {s : Span}
    {x : Name}

namespace Ground.Sound

/-- Wherever a name of a `let` is in scope, the `let` is known. -/
theorem bind_le (hg : g.Sound) (hk : g.start.Reaches k) (hcode : k.code = .letIn p e b s)
    (ho : g.start.Reaches o) (hx : x ∈ p.names) (hin : x ∈ o.site.names) :
    k.site.bind p e ≤ o.site := by
  obtain ⟨hmem, -, hbinders, -, -⟩ := hg.let_facts hk hcode
  have hlet : x ∈ letNames g.code.lets := List.mem_flatMap.2 ⟨_, hmem, hx⟩
  rcases ho.names_cases x hin with hin | hin | ⟨l, hl, hin⟩
  · exact absurd hin (hg.clear.new x (hk.binders (hbinders x hx)))
  · exact absurd hin (hg.notMem_slots hlet)
  · obtain ⟨Δ, b', s', hreach, hle⟩ := known_at ho hl
    have hdirect : x ∈ k.code.directs := by
      rw [hcode]
      exact List.mem_append_left _ hx
    obtain rfl := hg.clear.eq_of_directs hreach hk (List.mem_append_left _ hin) hdirect
    cases hcode
    exact hle

variable {op : Combinator} {es : List Exp} {cs : Certificates} {s' : Span} {f : Lambda}

/-- An array that a lambda uses is exposed at the `let` of the lambda. -/
theorem exposed_of_free (hg : g.Sound) (hk : g.start.Reaches k)
    (hcode : k.code = .letIn p (.soac op es cs s) b s') (hf : f ∈ op.lambdas)
    (hx : x ∈ f.free false) (ha : x ∈ g.arrays) : x ∈ k.code.exposed false := by
  obtain ⟨Γ, -, hscoped, htyped⟩ := hg.scope_at hk
  rw [hcode] at hscoped ⊢
  obtain ⟨y, hy, rfl⟩ := List.mem_map.1 (f.mem_freeVars.2 (f.free_subset hx))
  have hscope := Lambda.of_mem_freeVars (Lambda.scoped_iff.2
    ((Combinator.scoped_iff.1 hscoped.1.2.1).1 f hf)) hy
  refine .inl (.inl (Combinator.mem_exposed.2 (.inl ⟨f, hf, ?_⟩)))
  rw [Lambda.exposed_eq]
  exact .inr (List.mem_map_of_mem (List.mem_filter.2 ⟨hy, htyped y hscope ha⟩))

/-- A lambda of the function keeps to the names that cannot be fused away. -/
theorem tidy_lambda (hg : g.Sound) (hroot : g.start.Reaches root) (hk : root.Reaches k)
    (hcode : k.code = .letIn p (.soac op es cs s) b s') (hf : f ∈ op.lambdas) :
    ∃ B, f.Tidy false B (k.site.names ∩ r.fixed g root) := by
  have hreach := hroot.trans hk
  have hclear := hg.clear_at hreach
  obtain ⟨Γ, hnames, hscoped, -⟩ := hg.scope_at hreach
  have hrhs : ([], Exp.soac op es cs s) ∈ k.code.parts := by
    rw [hcode]
    exact List.mem_cons_self
  have hlambda : (f.params, f.body) ∈ (Exp.soac op es cs s).parts := Exp.parts_lambda hf
  -- the binders of the lambda are binders of the code around it
  have hbinders : ∀ x ∈ f.binders, x ∈ k.code.binders := fun x hx => by
    rw [f.binders_eq] at hx
    exact k.code.binders_part _ hrhs ((Exp.binders_part _ _ hlambda) hx)
  have hnodup : f.binders.Nodup := by
    rw [f.binders_eq]
    exact Exp.nodup_part (Exp.nodup_part hclear.nodup hrhs) hlambda
  rw [hcode] at hscoped
  -- so none of them hides a name in scope
  have htidy : f.Tidy false {x | x ∈ k.code.binders} Γ.names := Lambda.Scoped.tidy
    (Lambda.scoped_iff.2 ((Combinator.scoped_iff.1 hscoped.1.2.1).1 f hf))
    ⟨hnodup, hbinders, fun x hx => hnames ▸ hclear.new x (hbinders x hx)⟩
  rw [hnames] at htidy
  -- an array that the lambda reads is exposed, so it stays fixed
  refine ⟨_, htidy.change subset_rfl (fun x hx => ⟨htidy.free_subset hx, fun ha => .inr ?_⟩)
    fun x hx => .inl hx.1⟩
  exact hk.exposed (hg.exposed_of_free hreach hcode hf hx ha)

end Ground.Sound

end

/-! ## Operands in place -/

section
variable {e : Exp} {a : Operand} {x : Name}

theorem Exp.Spells.source_free (h : e.Spells a) (hx : a.source? = some x) : x ∈ e.free false := by
  cases h with
  | whole => exact (Option.some.inj hx).symm
  | row => exact .inl (Option.some.inj hx).symm
  | transposed => exact (Option.some.inj hx).symm
  | range => cases hx

theorem Operand.exposed_source (h : Operand.ofExp? e = some a) (hw : a.whole? = none)
    (hx : a.source? = some x) : x ∈ e.exposed false := by
  unfold Operand.ofExp? at h
  split at h <;> try split at h
  all_goals cases h
  · cases hw
  · exact .inl (Option.some.inj hx).symm
  · rename_i y _ _ hrank
    refine ⟨?_, (Option.some.inj hx).symm⟩
    rw [Ident.isArray]
    cases hty : y.ty with
    | array t => rfl
    | _ =>
      rw [hty] at hrank
      simp [Ty.rank] at hrank
  · cases hx

/-- An array that an operand does not read as a whole is exposed. -/
theorem Exp.exposed_operand {es : List Exp} (he : e ∈ es) (h : Operand.ofExp? e = some a)
    (hw : a.whole? = none) (hx : a.source? = some x) : x ∈ Exp.exposedOperands es := by
  induction es with
  | nil => cases he
  | cons d es ih =>
    rcases List.mem_cons.1 he with rfl | he
    · refine .inl ?_
      have hexposed := Operand.exposed_source h hw hx
      split
      · unfold Operand.ofExp? at h
        dsimp only at h
        split at h <;> cases h
        cases hw
      · exact hexposed
    · exact .inr (ih he)

end

/-! ## Stages on offer -/

/-- Code of the right-hand side of a `let`. -/
structure Spot.Gives (root k : Spot) (e : Exp) (o : Spot) : Prop where
  reached : root.Reaches o
  known : o.site.known ⊆ k.site.known
  binders : ∀ x ∈ o.code.binders, x ∈ e.binders

/-- The stage stands for the right-hand side of the `let` at a spot.  It is glued together from code
of that, binds names of `G` otherwise, and yields what it yields. -/
structure Stage.Offers (g : Ground) (root k : Spot) (r : Registry) (G : Set Name) (e : Exp)
    (st : Stage) : Prop where
  lambdas : ∀ f ∈ st.op.lambdas, GluedLambda (root.Gives k e) (r.fixed g root) G k.site.names f
  pieces : ∀ d, d ∈ st.op.neutral ∨ (∃ a ∈ st.operands, d ∈ a.exps) → root.Gives k e ⟨k.site, d⟩
  sources : ∀ a ∈ st.operands, ∀ x, a.source? = some x →
    x ∈ k.site.names ∧ (a.whole? = none → x ∈ r.fixed g root)
  shaped : st.op.Shaped
  yields : ∀ call : Callee, (∀ fn args, Uniform (call fn args)) → ∀ env,
    Knows call env k.site.known →
    ∀ v n, Yields 0 (e.eval call env) v n → ∃ n', Yields 0 (st.toExp.eval call env) v n'
  bound : ∀ x ∈ G, x ∈ e.binders ∨ g.fresh ≤ x.tag

section
variable {g : Ground} {root k : Spot} {r : Registry} {p : Pattern} {op : Combinator} {es : List Exp}
  {cs : Certificates} {s s' : Span} {e b : Exp} {st : Stage}

/-- What the right-hand side of a `let` computes is code that the `let` gives. -/
theorem Spot.gives_computed (hk : root.Reaches k) (hcode : k.code = .letIn p e b s)
    {q : Pattern × Exp} (hq : q ∈ e.computed) : root.Gives k e ⟨k.site.enter q.1, q.2⟩ := by
  refine ⟨hk.tail ?_, subset_rfl, fun x hx => ?_⟩
  · obtain ⟨Δ, d⟩ := k
    cases hcode
    exact Spot.inner_computed hq
  · have hcount := e.count_computed x
    have hmem : x ∈ e.computed.flatMap (·.2.binders) := List.mem_flatMap.2 ⟨q, hq, hx⟩
    have hpos := List.count_pos_iff.2 hmem
    exact List.count_pos_iff.1 (by omega)

/-- A combinator at its `let` is a stage on offer. -/
theorem Ground.Sound.offers (hg : g.Sound) (hroot : g.start.Reaches root) (hk : root.Reaches k)
    (hcode : k.code = .letIn p (.soac op es cs s) b s')
    (hst : Stage.ofExp? (.soac op es cs s) = .ok (some st)) :
    st.Offers g root k r (g.params p) (.soac op es cs s) := by
  have hreach := hroot.trans hk
  have hclear := hg.clear_at hreach
  obtain ⟨hmem, -⟩ := hg.let_facts hreach hcode
  have heval : ∀ (call : Callee) (env : Env), st.toExp.eval call env =
      (Exp.soac op es cs s).eval call env :=
    fun _ _ => Stage.eval_ofExp? hst
  obtain ⟨as, has, rfl⟩ := Stage.ofExp?_eq_ok hst
  -- the parameters of the lambdas are those of the `let`
  have hparams : ∀ f ∈ op.lambdas, ∀ x ∈ Pattern.names f.params, x ∈ g.params p :=
      fun f hf x hx => by
    obtain ⟨Δ, e⟩ := k
    cases hcode
    exact ⟨Δ, op, es, cs, s, b, s', hreach, f, hf, hx⟩
  -- the lambdas, what the operands compute, and what they read are pieces of the code
  refine ⟨fun f hf => ?_, fun d hd => ?_,
    fun a ha x hx => ?_, (hg.mayBind _ hmem op es cs s rfl).shaped,
    fun call _ env _ v n hv => ⟨n, by rwa [heval]⟩, fun x hx => ?_⟩
  · have hmem : (f.params, f.body) ∈ (Exp.soac op es cs s).computed :=
      List.mem_append_left _ (List.mem_map.2 ⟨f, hf, rfl⟩)
    refine ⟨⟨?_, hparams f hf, fun x hx => ?_⟩,
      .piece (Spot.gives_computed hk hcode hmem) subset_rfl⟩
    · obtain ⟨B, htidy⟩ := hg.tidy_lambda (r := r) hroot hk hcode hf
      obtain ⟨ps, d, ts⟩ := f
      exact htidy.1.nodup
    · refine hclear.new x (Spot.mem_binders_of_directs ?_)
      rw [hcode]
      exact List.mem_append_right _ (List.mem_flatMap.2 ⟨_, hmem, hx⟩)
  · have hmem : ([], d) ∈ (Exp.soac op es cs s).computed := by
      refine List.mem_append_right _ (List.mem_map.2 ⟨d, ?_, rfl⟩)
      refine List.mem_append.2 (hd.imp id fun ⟨a, ha, hda⟩ => ?_)
      obtain ⟨c, hc, hca⟩ := Recipe.exists_of_forall₂ has ha
      exact List.mem_flatMap.2 ⟨c, hc, (Operand.spells_of_ofExp? hca).exps_eq ▸ hda⟩
    simpa only [Site.enter_nil] using Spot.gives_computed hk hcode hmem
  · -- what is read otherwise than as a whole array is exposed
    obtain ⟨c, hc, hca⟩ := Recipe.exists_of_forall₂ has ha
    have hfree := (Operand.spells_of_ofExp? hca).source_free hx
    refine ⟨hclear.uses ?_, fun hwhole _ => .inr (hk.exposed ?_)⟩
    · rw [hcode]
      exact .inl (.inr (.inr (Exp.mem_freeAll_iff.2 ⟨c, hc, hfree⟩)))
    · rw [hcode]
      exact .inl (.inr (Exp.exposed_operand hc hca hwhole hx))
  · obtain ⟨Δ, op', es', cs', s₁, b', s₂, hreach', f, hf, hx⟩ := hx
    obtain ⟨y, hy⟩ := List.exists_mem_of_ne_nil _ (hg.mayBind _ hmem op es cs s rfl).nonempty
    have hy : y.name ∈ p.names := List.mem_map_of_mem hy
    -- a name is bound in one place, so this is the `let` of the parameters
    obtain rfl := hg.clear.eq_of_directs hreach hreach'
      (by rw [hcode]; exact List.mem_append_left _ hy)
      (List.mem_append_left _ hy)
    cases hcode
    exact .inl (Exp.binders_part _ _ (Exp.parts_lambda hf) (List.mem_append_left _ hx))

end

/-! ## Copies -/

/-- What is possible where code is copied for a `let` at a spot.  The copy may use the names that
cannot be fused away, and it runs where the original code would. -/
def Ground.copyContext (g : Ground) (root k : Spot) (r : Registry) (call : Callee) : Context where
  scopes V := V = k.site.names ∩ r.fixed g root
  envs env env' := env' = env ∧ Knows call env k.site.known

/-- A lambda of the `let` at a spot can be emitted faithfully for a copy of it. -/
def Registry.Copies (g : Ground) (root k : Spot) (r : Registry) (f : Lambda) : Prop :=
  ∀ call : Callee, (∀ fn args, Uniform (call fn args)) → ∀ n f₁, Emit.lambdaAt n r f = .ok f₁ →
    FaithfulLambda 0 call Set.univ (g.copyContext root k r call) f f₁

section
variable {g : Ground} {root k : Spot} {r : Registry} {e : Exp} {f f' : Lambda} {G : Set Name}
    {st st' : Stage} {t t' : NameSupply}

/-- A copy of a lambda binds names from the supply and does what the lambda does. -/
theorem Registry.Copies.copyLambda (h : r.Copies g root k f) (hg : g.Sound) (hk : g.start.Reaches k)
    (hfresh : g.fresh ≤ t.count) (hcopy : r.copyLambda f t = .ok (f', t')) (hroom : t'.InRange)
    {piece : Spot → Prop} :
    GluedLambda piece (r.fixed g root) (t.until t') k.site.names f' ∧ f'.rets = f.rets
      ∧ ∀ call : Callee, (∀ fn args, Uniform (call fn args)) → ∀ env, Knows call env k.site.known →
        ∀ vs, Refines 0 (f.apply call env vs) (f'.apply call env vs) 0 := by
  obtain ⟨f₁, hemit, hfreshen⟩ := Registry.copyLambda_eq_ok hcopy
  -- what is in scope has smaller tags than the fresh names of the copy
  have hbelow : ∀ x ∈ k.site.names, x.tag < t.count := fun x hx =>
    Nat.lt_of_lt_of_le (hg.tag_name hk hx) hfresh
  have hemitted := fun call hu => h call hu _ f₁ hemit
  -- the lambda is emitted before it is freshened, and emission keeps it tidy
  have htidy := (hemitted (fun _ _ => pure default) fun _ _ => .pure _).tidy _ rfl
  obtain ⟨-, hcopied, hrets⟩ := Lambda.freshen_tidy hfreshen hroom htidy fun x hx => hbelow x hx.1
  refine ⟨.plain hcopied (fun x hx hin => absurd (hbelow x hin)
    (Nat.not_lt.2 (hroom.le_of_mem_until hx))) subset_rfl ?_, ?_, ?_⟩
  · exact fun x hx ha =>
      absurd ha (hg.notMem_arrays (Nat.le_trans hfresh (hroom.le_of_mem_until hx)))
  · exact hrets.trans (hemitted (fun _ _ => pure default) fun _ _ => .pure _).rets
  · intro call hu env hknows vs
    rw [Lambda.freshen_apply hfreshen hroom htidy fun x hx => hbelow x hx.1]
    exact (hemitted call hu).runs env env ⟨rfl, hknows⟩ vs

/-- A copy of a map or a filter is on offer, too. -/
theorem Stage.Offers.copyOf (h : st.Offers g root k r G e) (hg : g.Sound) (hk : g.start.Reaches k)
    (hkind : st.kind = .map ∨ st.kind = .filter)
    (hcopies : ∀ f ∈ st.op.lambdas, r.Copies g root k f) (hfresh : g.fresh ≤ t.count)
    (hcopy : r.copyOf st t = .ok (st', t')) (hroom : t'.InRange) :
    st'.Offers g root k r (t.until t') e := by
  obtain ⟨op', hop', rfl⟩ := Registry.copyOf_eq_ok hcopy
  obtain ⟨op, operands, certs, span⟩ := st
  -- the binders of the copy are fresh
  have hnew : ∀ x ∈ t.until t', x ∈ e.binders ∨ g.fresh ≤ x.tag := fun x hx =>
    .inr (Nat.le_trans hfresh (hroom.le_of_mem_until hx))
  -- if the lambdas agree, the stages yield the same
  have hyields : ∀ {op' : Combinator}, (∀ call : Callee,
      (∀ fn args, Uniform (call fn args)) → ∀ env,
      Knows call env k.site.known → ∀ rows : Eval (List (List Value)), Uniform rows → Refines 0
        (op.eval call env operands.length rows) (op'.eval call env operands.length rows) 0) →
      ∀ call : Callee, (∀ fn args, Uniform (call fn args)) → ∀ env, Knows call env k.site.known →
        ∀ v n, Yields 0 (e.eval call env) v n →
          ∃ n', Yields 0 ((Stage.mk op' operands certs span).toExp.eval call env) v n' := by
    intro op' hop call hu env hknows v n hv
    obtain ⟨n', hv'⟩ := h.yields call hu env hknows v n hv
    rw [Stage.toExp, Exp.eval, List.length_map] at hv' ⊢
    obtain ⟨n'', hv'', -⟩ := (hop call hu env hknows _
      ((Exp.evalArrays_uniform hu env _).bind fun _ => .lift _)).yields v n' hv'
    exact ⟨n'', hv''⟩
  cases op with
  | map f =>
    obtain ⟨f', t₁, hf, hrest⟩ := State.bind_eq_ok.1 hop'
    obtain ⟨rfl, rfl⟩ := State.pure_eq_ok.1 hrest
    obtain ⟨hglued, hrets, hruns⟩ := (hcopies f (List.mem_singleton_self f)).copyLambda hg hk
      hfresh hf hroom
    exact { h with
      lambdas := List.forall_mem_singleton.2 hglued
      shaped := trivial
      yields := hyields fun call hu env hknows rows hrows => by
        rw [Combinator.eval, Combinator.eval, hrets]
        exact (Refines.refl hrows).bind fun _ =>
          (Refines.mapM (hruns call hu env hknows) _).bind_same fun _ => .pure _
      bound := hnew }
  | filter f =>
    obtain ⟨f', t₁, hf, hrest⟩ := State.bind_eq_ok.1 hop'
    obtain ⟨rfl, rfl⟩ := State.pure_eq_ok.1 hrest
    obtain ⟨hglued, hrets, hruns⟩ := (hcopies f (List.mem_singleton_self f)).copyLambda hg hk
      hfresh hf hroom
    have hshaped : f.rets.length = 1 := h.shaped
    exact { h with
      lambdas := List.forall_mem_singleton.2 hglued
      shaped := (congrArg List.length hrets).trans hshaped
      yields := hyields fun call hu env hknows rows hrows => (Refines.refl hrows).bind fun _ =>
        (Refines.keep (fun _ => (hruns call hu env hknows _).bind_same fun _ =>
            .verdict _) _).bind_same fun _ =>
          .pure _
      bound := hnew }
  | _ => exact absurd hkind (by simp [Stage.kind, Combinator.kind])

end

/-! ## Replicated values -/

/-- The map over a range that a replicated value is as good as. -/
def Stage.replicated (i : Ident) (n v : Exp) (row : Ty) (s : Span) : Stage :=
  ⟨.map ⟨[i], v, [row]⟩, [.range n], [], s⟩

section
variable {w : String → Nat} {call : Callee} {env : Env} {i : Ident} {n v : Exp} {row : Ty}
    {s s' : Span}

/-- The map yields what the replicated value is. -/
theorem Stage.yields_replicated (hu : ∀ fn args, Uniform (call fn args))
    (hi : i.name ∉ v.free false) {u : Value} {k : Nat}
    (h : Yields w ((Exp.replicate n v s).eval call env) u k) :
    ∃ k', Yields w ((Stage.replicated i n v row s').toExp.eval call env) u k' := by
  have huv := v.eval_uniform hu env
  obtain ⟨c, k₁, k', hn, h, -⟩ := ((n.eval_uniform hu env).yields_bind_iff fun _ =>
    (Uniform.lift _).bind fun _ => huv.bind fun _ => .pure _).1 h
  obtain ⟨count, k₂, k'', hc, h, -⟩ := ((Uniform.lift _).yields_bind_iff fun _ => huv.bind fun _ =>
    .pure _).1 h
  obtain ⟨hc, -⟩ := Eval.yields_lift_iff.1 hc
  obtain ⟨x, hx, rfl⟩ := huv.yields_bind_pure_iff.1 h
  -- the range has as many rows as there are copies
  have hrange : Yields w ((Operand.range n).array call env)
      ((List.range count.toInt.toNat).map fun i => .int (Int64.ofNat i)) k₁ := by
    have hiota : Value.unary .iota c = .ok (.iota count) := congrArg (Except.map Value.iota) hc
    have hunary : Yields w ((Exp.unary .iota n .dummy).eval call env) (.iota count) k₁ :=
      Yields.bind (f := fun c => Eval.lift (Value.unary .iota c)) hn (.lift hiota)
    exact Yields.bind (f := fun v => Eval.lift (Value.toArray v)) hunary (.lift rfl)
  -- and in each row the value is what it was outside, for the index is not free in it
  have hbody : ∀ j ∈ List.range count.toInt.toNat,
      Yields w (Lambda.apply call env ⟨[i], v, [row]⟩ (cells call env [.range n] j)) [x] k'' :=
        fun j _ => by
    refine (Lambda.yields_apply_iff hu).2 ⟨rfl, x, ?_, rfl⟩
    rwa [← v.eval_congr call fun y hy => ?_]
    refine (Env.lookup?_extendMany_of_notMem fun hin => hi ?_).symm
    have hin : y ∈ [i.name] := hin
    exact List.mem_singleton.1 hin ▸ hy
  refine ⟨_, (Stage.yields_map_iff hu rfl).2 ⟨_, ⟨?_, ?_, ?_⟩, fun j hj =>
    (hbody j hj).succeeds, ?_, rfl⟩⟩
  · exact List.forall_mem_singleton.2 hrange.succeeds
  · refine List.forall_mem_singleton.2 ?_
    rw [← hrange.eq_value.1, List.length_map, List.length_range]
  · exact nofun
  · -- so the column is the replicated array
    have hvalue : ((List.range count.toInt.toNat).map fun j =>
        (Eval.value (Lambda.apply call env ⟨[i], v, [row]⟩ (cells call env [.range n] j)))[0]!)
        = List.replicate count.toInt.toNat x := by
      refine List.eq_replicate_iff.2 ⟨by rw [List.length_map, List.length_range], fun y hy => ?_⟩
      obtain ⟨j, hj, rfl⟩ := List.mem_map.1 hy
      rw [← (hbody j hj).eq_value.1]
      rfl
    exact congrArg Value.array hvalue.symm

end

section

variable {g : Ground} {root k : Spot} {r : Registry} {p : Pattern} {i : Ident} {n v b : Exp}
    {row : Ty} {s s' s₁ : Span} (hg : g.Sound) (hroot : g.start.Reaches root) (hk : root.Reaches k)
  (hcode : k.code = .letIn p (.replicate n v s) b s') (hi : g.fresh ≤ i.name.tag)
include hg hroot hk hcode hi

omit hg hroot hi in
theorem Spot.gives_replicate {d : Exp} (hd : d = n ∨ d = v) :
    root.Gives k (.replicate n v s) ⟨k.site, d⟩ := by
  have hwhole := Spot.gives_computed hk hcode (List.mem_singleton_self _)
  have hpart : ([], d) ∈ (Exp.replicate n v s).parts := by
    rcases hd with rfl | rfl <;> simp [Exp.parts]
  have hin := Spot.inner_part (o := ⟨k.site.enter [], .replicate n v s⟩) nofun hpart
  rw [Site.enter_nil, Site.enter_nil] at hin
  rw [Site.enter_nil] at hwhole
  exact ⟨hwhole.reached.tail hin, subset_rfl, fun x hx =>
    Exp.binders_part _ _ hpart (List.mem_append_right _ hx)⟩

/-- A replicated value at its `let` is a stage on offer. -/
theorem Ground.Sound.offers_replicated :
    (Stage.replicated i n v row s₁).Offers g root k r {i.name} (.replicate n v s) := by
  have hreach := hroot.trans hk
  -- the index is fresh
  have hnew : i.name ∉ k.site.names := fun hin => absurd (hg.tag_name hreach hin) (Nat.not_lt.2 hi)
  refine ⟨List.forall_mem_singleton.2 ⟨⟨List.nodup_singleton _, fun x hx =>
    List.mem_singleton.1 hx, ?_⟩,
    .piece (Spot.gives_replicate hk hcode (.inr rfl)) Set.subset_union_left⟩, ?_, ?_, trivial,
      ?_, ?_⟩
  · exact List.forall_mem_singleton.2 hnew
  · rintro d (hd | ⟨a, ha, hd⟩)
    · cases hd
    · rw [List.mem_singleton.1 ha] at hd
      exact Spot.gives_replicate hk hcode (.inl (List.mem_singleton.1 hd))
  · intro a ha x hx
    rw [List.mem_singleton.1 ha] at hx
    cases hx
  · intro call hu env _ u j hu'
    refine Stage.yields_replicated hu (fun hin => hnew ((hg.clear_at hreach).uses ?_)) hu'
    rw [hcode]
    exact .inl (.inr hin)
  · rintro x rfl
    exact .inr hi

/-- An atom can be copied. -/
theorem Ground.Sound.copies_atom (hatom : v.isAtom) : r.Copies g root k ⟨[i], v, [row]⟩ := by
  intro call hu m f₁ hf₁
  have hreach := hroot.trans hk
  obtain ⟨v₁, hv₁, rfl⟩ := Emit.lambdaAt_eq_ok.1 hf₁
  have hsame : v₁ = v := by
    cases v with
    | lit v s => exact (Except.ok.inj hv₁).symm
    | var x s => exact (Except.ok.inj hv₁).symm
    | _ => cases hatom
  subst hsame
  refine ⟨rfl, fun V hV => ?_, fun env env' he vs => he.1 ▸ .refl (Lambda.apply_uniform hu _ _ vs)⟩
  rw [show V = k.site.names ∩ r.fixed g root from hV]
  refine ⟨⟨List.nodup_singleton _, fun _ _ => trivial, List.forall_mem_singleton.2 fun hin =>
    absurd (hg.tag_name hreach hin.1) (Nat.not_lt.2 hi)⟩, ?_⟩
  cases v₁ with
  | lit v s => trivial
  | var x s =>
    -- an array that may be fused away is exposed here
    have hgives := Spot.gives_replicate hk hcode (d := .var x s) (.inr rfl)
    obtain ⟨Γ, -, hscoped, htyped⟩ := hg.scope_at (hroot.trans hgives.reached)
    refine .inl ⟨(hg.clear_at (hroot.trans hgives.reached)).uses rfl, fun ha => .inr ?_⟩
    exact hgives.reached.exposed ⟨htyped x hscoped ha, rfl⟩
  | _ => cases hatom

end

end ArrayFusion
