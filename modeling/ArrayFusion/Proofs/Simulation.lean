import ArrayFusion.Proofs.Classifying
import ArrayFusion.Proofs.Gluing
import ArrayFusion.Proofs.Faithful
import ArrayFusion.Proofs.Exposure

/-!
# Emitted code simulates the original code

A registry is ready for some code if it treats every `let` in it in one of three ways, its kernels
fit, and every name with a use that no kernel sees to is forbidden (`Registry.Ready`).  Then the
emitted code is faithful at every spot (`Registry.Ready.faithful`).  In its context a name that may
have been fused away need not be there any more, and no name is in scope that a kernel could bind.

The proof is by induction on how deep kernels lie in one another and, at one depth, on the code.  At
the `let` of a kernel the run of the `let` is turned into one of the stage of the kernel in the
environment of the original code, and the pieces of which the stage is glued together are faithful
one level deeper.
-/

namespace ArrayFusion

open Eval (Yields Uniform Refines)
open Spot (Reaches)

/-! ## What a registry has to know -/

/-- The name is still computed, as far as it is used. -/
def Registry.Live (g : Ground) (r : Registry) (x : Name) : Prop := x ∈ g.arrays → r.Touches x

/-- A `let` stays, or a kernel stands for it, or it goes. -/
inductive Registry.Treats (g : Ground) (r : Registry) (p : Pattern) (e : Exp) : Prop
  | stays : (∀ x ∈ p.names, r.producerOf x = none) → e.isSoac = false → Treats g r p e
  | own {id : KernelId} {K : Kernel} {s : Stage} : r.kernels.find? id = some K → K.pattern = p →
      (∀ x ∈ p.names, r.producerOf x = some id) → Stage.ofExp? e = .ok (some s) → Treats g r p e
  | dropped {id : KernelId} {K : Kernel} : p ≠ [] → r.kernels.find? id = some K →
      (∀ x ∈ p.names, r.producerOf x = some id) → K.fused ≠ [] → K.pattern.names ≠ p.names →
      (∀ x ∈ p.names, ¬r.Live g x) → Treats g r p e

/-- The registry is ready for emitting the code of the root. -/
structure Registry.Ready (g : Ground) (root : Spot) (r : Registry) (F : KernelId → Set Name) :
    Prop where
  reached : g.start.Reaches root
  hoard : g.Hoard F
  exposed : ∀ x ∈ root.code.exposed false, x ∈ g.arrays → x ∈ r.unfusable
  fits : ∀ id K, r.kernels.find? id = some K → K.Fits g root r F id
  indexed : r.Indexed
  producers : ∀ x id, r.producerOf x = some id → x ∈ letNames g.code.lets
  treats : ∀ Δ p e b s, root.Reaches ⟨Δ, .letIn p e b s⟩ → r.Treats g p e

/-- The names that emission may bind at a spot: those that are bound there in the original code, and
those of kernels for `let`s there. -/
def Ground.bindable (g : Ground) (r : Registry) (F : KernelId → Set Name) (o : Spot) : Set Name :=
  {x | (x ∈ o.zone ∨ g.fresh ≤ x.tag) ∧ ∀ id K, r.kernels.find? id = some K → x ∈ g.Owns r F id →
    ∀ y ∈ K.pattern.names, y ∈ o.zone}

/-- What is possible where the emitted code of a spot stands: every name that is still computed is
there, and nothing that emission could bind. -/
def Ground.context (g : Ground) (r : Registry) (F : KernelId → Set Name) (call : Callee)
    (o : Spot) : Context where
  scopes V := (∀ x ∈ o.site.names, r.Live g x → x ∈ V) ∧ ∀ x ∈ V, x ∉ g.bindable r F o
  envs env env' := (∀ x ∈ o.site.names, r.Live g x → env'.lookup? x = env.lookup? x)
    ∧ Knows call env o.site.known

section

variable {g : Ground} {root o o' : Spot} {r q : Registry} {F : KernelId → Set Name} {call : Callee}
  {x : Name} {p : Pattern} {n : Nat}

/-! ## Names that could be bound -/

namespace Ground

/-- Less may be bound in a smaller zone. -/
theorem bindable_of_zone (h : o'.zone ⊆ o.zone) : g.bindable r F o' ⊆ g.bindable r F o :=
  fun _ hx => ⟨hx.1.imp_left fun hz => h hz, fun id K hK hown y hy => h (hx.2 id K hK hown y hy)⟩

/-- What is in scope at a spot is not bound there. -/
theorem Sound.notMem_bindable (hg : g.Sound) (ho : g.start.Reaches o) (hx : x ∈ o.site.names) :
    x ∉ g.bindable r F o := fun h => h.1.elim ((hg.clear_at ho).notMem_zone hx)
  (Nat.not_le.2 (hg.tag_name ho hx))

end Ground

/-- What is known stays so where the names in scope keep their values. -/
theorem Knows.congr {env env' : Env} (h : Knows call env o.site.known) (ho : o.Clear)
    (ha : Env.AgreeOn o.site.names env env') : Knows call env' o.site.known := by
  intro l hl
  obtain ⟨v, vs, k, hv, hvs, hnames⟩ := h l hl
  obtain ⟨hbound, hfree⟩ := ho.bound l hl
  refine ⟨v, vs, k, ?_, hvs, ?_⟩
  · rw [← l.2.eval_congr call (ha.mono hfree)]
    exact hv
  · rw [← hnames]
    exact List.map_congr_left fun x hx => (ha x (hbound x hx)).symm

/-- Where the right-hand side of a `let` yields some results, it is known behind the `let`. -/
theorem Knows.bind {env : Env} (h : Knows call env o.site.known) (ho : o.Clear) {e b : Exp}
    {s : Span} (hcode : o.code = .letIn p e b s) {v : Value} {vs : List Value} {k : Nat}
    (hv : Yields 0 (e.eval call env) v k) (hvs : v.results p.length = .ok vs) :
    Knows call (env.extendMany (p.names.zip vs)) (o.site.bind p e).known := by
  have hlen : p.names.length = vs.length := by rw [p.length_names, Value.length_of_results hvs]
  have hbinders : o.code.binders = p.names ++ e.binders ++ b.binders := by
    rw [hcode]
    rfl
  have hnodup : p.names.Nodup := by
    have := ho.nodup
    rw [hbinders] at this
    exact (List.nodup_append.1 (List.nodup_append.1 this).1).1
  -- what is bound is new, so the definitions known so far still hold
  have hagree : Env.AgreeOn o.site.names env (env.extendMany (p.names.zip vs)) := by
    intro x hx
    rw [Env.lookup?_extendMany_of_notMem]
    rw [Env.map_fst_zip hlen]
    intro hp
    refine ho.new x ?_ hx
    rw [hbinders]
    exact List.mem_append_left _ (List.mem_append_left _ hp)
  have huses : e.free false ⊆ o.site.names := fun x hx => ho.uses (by
    rw [hcode]
    exact .inl hx)
  rintro l (rfl | hl)
  · refine ⟨v, vs, k, ?_, hvs, ?_⟩
    · rw [← e.eval_congr call (hagree.mono huses)]
      exact hv
    · refine List.ext_getElem (by simp [hlen]) fun i h₁ h₂ => ?_
      rw [List.getElem_map, List.getElem_map, Env.lookup?_extendMany_zip hnodup hlen
        (by simpa using h₁)]
      exact List.getElem?_eq_getElem (by simpa using h₂)
  · exact h.congr ho hagree l hl

namespace Ground

/-- Behind a binder of a spot the context is that of the spot inside. -/
theorem Sound.enter_le (hg : g.Sound) (ho : g.start.Reaches o) {d : Exp}
    (hin : (⟨o.site.enter p, d⟩ : Spot) ∈ o.inner) (hnew : ∀ x ∈ p.names, x ∉ o.site.names) :
    (g.context r F call o).enter p ≤ g.context r F call ⟨o.site.enter p, d⟩ := by
  constructor
  · rintro V ⟨V₀, ⟨hholds, hclear⟩, rfl⟩
    refine ⟨fun x hx hlive => hx.imp (fun hx => hholds x hx hlive) id, fun x hx => ?_⟩
    rcases hx with hx | hx
    · exact fun hb => hclear x hx (bindable_of_zone (Spot.zone_inner hin) hb)
    · exact hg.notMem_bindable (ho.tail hin) (.inr hx)
  · rintro env env' ⟨env₀, env₀', ⟨hagree, hknows⟩, hold, hbound⟩
    refine ⟨fun x hx hlive => ?_, hknows.congr (hg.clear_at ho) fun x hx => ?_⟩
    · by_cases hp : x ∈ p.names
      · exact hbound x hp
      · rw [(hold x hp).1, (hold x hp).2]
        exact hagree x (hx.resolve_right hp) hlive
    · exact ((hold x fun hp => hnew x hp hx).1).symm

/-- Names that a spot binds are new where they are bound, if no kernel for another `let` owns
them. -/
theorem freshIn_of_scope {V : Set Name} (hV : (g.context r F call o).scopes V) {xs : List Name}
    (hnodup : xs.Nodup) (hxs : ∀ x ∈ xs, x ∈ g.bindable r F o) : FreshIn V (g.bindable r F o) xs :=
  ⟨hnodup, hxs, fun x hx hv => hV.2 x hv (hxs x hx)⟩

end Ground

/-! ## Sizes -/

/-- What is computed within an expression is no larger than it. -/
theorem Exp.sizeOf_computed (e : Exp) : ∀ q ∈ e.computed, sizeOf q.2 ≤ sizeOf e := by
  intro q hq
  rcases Exp.computed_cases hq with rfl | hq | ⟨d, hd, -, hq⟩
  · exact Nat.le_refl _
  · exact Nat.le_of_lt (e.sizeOf_part q hq)
  · exact Nat.le_of_lt (Nat.lt_trans (d.sizeOf_part ([], q.2) hq) (e.sizeOf_part ([], d) hd))

/-- What stands further in is smaller. -/
theorem Spot.sizeOf_inner (h : o' ∈ o.inner) : sizeOf o'.code < sizeOf o.code := by
  rcases Spot.inner_cases h with ⟨p, r, b, s, hcode, ⟨q, hq, rfl⟩ | rfl⟩ | ⟨-, q, hq, rfl⟩
  · refine Nat.lt_of_le_of_lt (r.sizeOf_computed q hq) ?_
    rw [hcode]
    exact Exp.sizeOf_part (.letIn p r b s) ([], r) (by simp [Exp.parts])
  · rw [hcode]
    exact Exp.sizeOf_part (.letIn p r b s) (p, b) (by simp [Exp.parts])
  · exact o.code.sizeOf_part q hq

/-! ## One spot -/

namespace Faithful

variable {B B' : Set Name} {c d : Context} {e e₁ b b₁ : Exp} {s s' : Span}

theorem widen (h : Faithful 0 call B c e e₁) (hB : B ⊆ B') : Faithful 0 call B' c e e₁ where
  tidy := fun V hV => (h.tidy V hV).change hB (h.tidy V hV).free_subset fun _ hx => .inl hx
  runs := h.runs

/-- A `let` that stays is faithful if what it binds is new and its parts are faithful. -/
theorem letIn (hu : ∀ fn args, Uniform (call fn args)) (he : Faithful 0 call B c e e₁)
    (hb : Faithful 0 call B d b b₁) (hnew : ∀ V, c.scopes V → FreshIn V B p.names)
    (hscopes : ∀ V, c.scopes V → d.scopes (V ∪ p.nameSet))
    (henvs : ∀ env env', c.envs env env' → ∀ v k vs, Yields 0 (e.eval call env) v k →
      v.results p.length = .ok vs → d.envs (env.extendMany (p.names.zip vs))
        (env'.extendMany (p.names.zip vs))) :
    Faithful 0 call B c (.letIn p e b s) (.letIn p e₁ b₁ s') where
  tidy := fun V hV => ⟨he.tidy V hV, hnew V hV, hb.tidy _ (hscopes V hV)⟩
  runs := fun env env' h => by
    rw [Exp.eval, Exp.eval]
    exact (he.runs env env' h).bind_of (fun _ => (Uniform.lift _).bind fun env =>
      b.eval_uniform hu env)
      fun v k hv => Refines.bindPattern (fun env => b.eval_uniform hu env) fun vs hvs =>
        hb.runs _ _ (henvs env env' h v k vs hv hvs)

end Faithful

end

/-! ## Operands -/

theorem Exp.Spells.exps_eq {e : Exp} {a : Operand} (h : e.Spells a) : a.exps = e.inner := by
  cases h <;> rfl

theorem Faithful.operand {w : String → Nat} {call : Callee} {B : Set Name} {c : Context} {n : Nat}
    {q : Registry} {e e' : Exp} {a : Operand} (h : e.Spells a)
    (hsource : ∀ x, a.source? = some x → c.Has x)
    (hexps : ∀ d ∈ a.exps, ∀ d', Emit.expAt n q d = .ok d' → Faithful w call B c d d')
    (he : Emit.expAt n q e = .ok e') : Faithful w call B c e e' := by
  cases h with
  | whole =>
    cases he
    have hx := hsource _ rfl
    refine ⟨fun V hV => hx.scope V hV, fun env env' h => ?_⟩
    rw [Exp.eval, Exp.eval, Env.get_congr (hx.value env env' h)]
    exact .refl (.lift _)
  | row =>
    -- only the positions of a row and the length of a range are emitted code
    obtain ⟨is', his, rfl⟩ := Emit.expAt_index_eq_ok.1 he
    have hx := hsource _ rfl
    have his := Faithful.all his hexps
    refine ⟨fun V hV => ⟨hx.scope V hV, Faithful.tidyAll his hV⟩, fun env env' h => ?_⟩
    rw [Exp.eval, Exp.eval, Env.get_congr (hx.value env env' h)]
    exact (Refines.refl (.lift _)).bind fun v => Exp.refines_evalIndex (Faithful.runsAll his h) v
  | transposed =>
    cases he
    have hx := hsource _ rfl
    refine ⟨fun V hV => hx.scope V hV, fun env env' h => ?_⟩
    rw [Exp.eval, Exp.eval, Exp.eval, Exp.eval, Env.get_congr (hx.value env env' h)]
    exact .refl ((Uniform.lift _).bind fun _ => .lift _)
  | range =>
    obtain ⟨m', hm, rfl⟩ := Emit.expAt_unary_eq_ok.1 he
    have hm := hexps _ (List.mem_singleton_self _) m' hm
    exact ⟨fun V hV => hm.tidy V hV, fun env env' h => (hm.runs env env' h).bind_same fun _ =>
      .lift _⟩

/-! ## Glued code -/

/-- The context of code that is glued together in a kernel: what is possible at the `let` of the
kernel, and behind it names that the kernel owns. -/
structure Context.Frames (c : Context) (g : Ground) (r : Registry) (F : KernelId → Set Name)
    (call : Callee) (id : KernelId) (k : Spot) (V : Set Name) : Prop where
  names : k.site.names ⊆ V
  scopes : ∀ W, c.scopes W → (∀ x ∈ V, r.Live g x → x ∈ W)
    ∧ ∀ x ∈ W, x ∉ g.bindable r F k ∨ x ∈ V ∧ x ∈ g.Owns r F id
  envs : ∀ env env', c.envs env env' → (∀ x ∈ V, r.Live g x → env'.lookup? x = env.lookup? x)
    ∧ Knows call env k.site.known

/-- Emission is faithful at a spot, with kernels as deep in one another as `n` says. -/
def Mimics (g : Ground) (r q : Registry) (F : KernelId → Set Name) (call : Callee) (n : Nat)
    (o : Spot) : Prop :=
  ∀ e', Emit.expAt n q o.code = .ok e' →
    Faithful 0 call (g.bindable r F o) (g.context r F call o) o.code e'

section

variable {g : Ground} {root o k : Spot} {r q : Registry} {F : KernelId → Set Name} {call : Callee}
  {c : Context} {x : Name} {p : Pattern} {n : Nat} {X V : Set Name} {id : KernelId} {K : Kernel}

theorem Context.Frames.enter (h : c.Frames g r F call id k V) (hk : k.Clear)
    (hp : FreshIn V (g.binds r F id k) p.names) :
    (c.enter p).Frames g r F call id k (V ∪ p.nameSet) where
  names := h.names.trans Set.subset_union_left
  scopes := by
    rintro W ⟨W₀, hW₀, rfl⟩
    obtain ⟨hholds, hclear⟩ := h.scopes W₀ hW₀
    refine ⟨fun x hx hlive => hx.imp (fun hx => hholds x hx hlive) fun hx => hx, fun x hx => ?_⟩
    rcases hx with hx | hx
    · exact (hclear x hx).imp_right fun h => ⟨.inl h.1, h.2⟩
    · exact .inr ⟨.inr hx, (hp.bound x hx).1⟩
  envs := by
    rintro env env' ⟨env₀, env₀', he, hold, hbound⟩
    obtain ⟨hagree, hknows⟩ := h.envs env₀ env₀' he
    refine ⟨fun x hx hlive => ?_, hknows.congr hk fun x hx => ?_⟩
    · by_cases hxp : x ∈ p.names
      · exact hbound x hxp
      · rw [(hold x hxp).1, (hold x hxp).2]
        exact hagree x (hx.resolve_right hxp) hlive
    · exact ((hold x fun hxp => hp.new x hxp (h.names hx)).1).symm

/-- At its `let` a kernel finds the context of the `let`. -/
theorem Ground.frames_context (g : Ground) (r : Registry) (F : KernelId → Set Name) (call : Callee)
    (id : KernelId) (k : Spot) : (g.context r F call k).Frames g r F call id k k.site.names where
  names := subset_rfl
  scopes := fun _ hW => ⟨hW.1, fun x hx => .inl (hW.2 x hx)⟩
  envs := fun _ _ h => h

namespace Registry.Ready

variable (hg : g.Sound) (hr : r.Ready g root F) (hq : r.EmitsOn X q)
  (hX : ∀ x, x ∈ root.code.binders ∨ x ∉ letNames g.code.lets → x ∈ X)

include hr in
theorem live_of_fixed (hx : x ∈ r.fixed g root) : r.Live g x := fun ha =>
  .inl ((hx ha).elim id fun h => hr.exposed x h ha)

include hr hq hX in
theorem unproduced (hx : x ∉ letNames g.code.lets) : q.producerOf x = none := by
  refine hq.unknown x (hX x (.inr hx)) ?_
  cases hid : r.producerOf x with
  | none => rfl
  | some id => exact absurd (hr.producers x id hid) hx

include hg hr in
/-- What a kernel binds in its lambdas may be bound at its `let`. -/
theorem binds_subset (hK : r.kernels.find? id = some K)
    (hzone : ∀ y ∈ K.pattern.names, y ∈ k.zone) :
    g.binds r F id k ⊆ g.bindable r F k := fun x hx => ⟨hx.2, fun id' K' hK' hown => by
  obtain rfl := hg.owns_inj hr.hoard hx.1 hown
  obtain rfl := Option.some.inj (hK.symm.trans hK')
  exact hzone⟩

include hg hr hq hX in
theorem faithful_glued {e : Exp}
    (h : Glued (root.Feeds k K.pattern) (r.fixed g root) (g.binds r F id k) V e)
    (hk : root.Reaches k) (hK : r.kernels.find? id = some K) (hne : K.pattern ≠ [])
    (hnames : ∀ y ∈ K.pattern.names, y ∈ k.code.binders) (hmimics : ∀ o, root.Reaches o →
    Mimics g r q F call n o) (hu : ∀ fn args, Uniform (call fn args)) :
    ∀ {c : Context}, c.Frames g r F call id k V → ∀ e', Emit.expAt n q e = .ok e' →
      Faithful 0 call (g.bindable r F k) c e e' := by
  have hkclear : k.Clear := hg.clear_at (hr.reached.trans hk)
  have hbinds : g.binds r F id k ⊆ g.bindable r F k :=
    binds_subset hg hr hK fun y hy => .inl (hnames y hy)
  have hunproduced : ∀ x ∈ g.binds r F id k, q.producerOf x = none := fun x hx =>
    unproduced hr hq hX fun hlet => hg.notMem_owns hr.hoard hlet hx.1
  induction h with
  | @piece V o ho hsub =>
    intro c hc e' he'
    -- the kernel does not stand for a `let` in the piece, so no name that it owns is bound there
    have hzone : o.zone ⊆ k.zone := by
      rintro x (hx | ⟨l, hl, hx⟩)
      · exact (ho.binders x hx).1
      · exact .inr ⟨l, ho.known hl, hx⟩
    have hpattern : ∀ y ∈ K.pattern.names, y ∉ o.zone := by
      rintro y hy (hin | ⟨l, hl, hin⟩)
      · exact (ho.binders y hin).2 hy
      · exact (hkclear.apart l (ho.known hl) y hin).2 (hnames y hy)
    obtain ⟨y, hy⟩ := List.exists_mem_of_ne_nil _ hne
    have hy : y.name ∈ K.pattern.names := List.mem_map_of_mem hy
    refine ((hmimics o ho.reached e' he').mono ⟨fun W hW => ?_, fun env env' h => ?_⟩).widen
      (Ground.bindable_of_zone hzone)
    · obtain ⟨hholds, hclear⟩ := hc.scopes W hW
      refine ⟨fun x hx hlive => hholds x (hsub hx) hlive, fun x hx hb => ?_⟩
      rcases hclear x hx with hnot | ⟨-, hown⟩
      · exact hnot (Ground.bindable_of_zone hzone hb)
      · exact hpattern _ hy (hb.2 id K hK hown _ hy)
    · obtain ⟨hagree, hknows⟩ := hc.envs env env' h
      exact ⟨fun x hx hlive => hagree x (hsub hx) hlive, hknows.mono ho.known⟩
  | @plain V e h =>
    intro c hc e' he'
    obtain rfl := Exp.eq_of_expAt (fun x hx =>
      hunproduced x (h.binders_subset x (Exp.mem_binders_of_lets hx))) he'
    refine ⟨fun W hW => ?_, fun env env' henv => ?_⟩
    · obtain ⟨hholds, hclear⟩ := hc.scopes W hW
      refine h.change hbinds (fun x hx => ?_) fun x hx => ?_
      · obtain ⟨hv, hfixed⟩ := h.free_subset hx
        exact hholds x hv (live_of_fixed hr hfixed)
      · rcases hclear x hx with hnot | ⟨hv, hown⟩
        · exact .inr fun hb => hnot (hbinds hb)
        · exact .inl ⟨hv, fun ha => absurd hown (hg.notMem_owns hr.hoard (Ground.arrays_subset ha))⟩
    · rw [e'.eval_congr call fun x hx => ((hc.envs env env' henv).1 x (h.free_subset hx).1
        (live_of_fixed hr (h.free_subset hx).2)).symm]
      exact .refl (e'.eval_uniform hu env')
  | @bind V p e b s hp _ _ ihe ihb =>
    intro c hc e' he'
    obtain ⟨e₁, he, b₁, hb, rfl⟩ := (Emit.expAt_bind_eq_ok fun x hx =>
      hunproduced x (hp.bound x hx)).1 he'
    refine (ihe hc e₁ he).letIn hu (ihb (hc.enter hkclear hp) b₁ hb) (fun W hW => ?_) (fun W hW =>
      ⟨W, hW, rfl⟩) fun env env' h v j vs _ hvs => ?_
    · refine ⟨hp.nodup, fun x hx => hbinds (hp.bound x hx), fun x hx hW' => ?_⟩
      rcases (hc.scopes W hW).2 x hW' with hnot | ⟨hv, -⟩
      · exact hnot (hbinds (hp.bound x hx))
      · exact hp.new x hx hv
    · exact Context.envs_extendMany h (by rw [p.length_names, Value.length_of_results hvs])
  -- the parts of a conditional stand under the same context
  -- the parts of a conditional stand under the same context
  | cond _ _ _ iha ihb ihd =>
    intro c hc e' he'
    obtain ⟨a', ha, b', hb, d', hd, rfl⟩ := Emit.expAt_cond_eq_ok.1 he'
    have ha := iha hc a' ha
    have hb := ihb hc b' hb
    have hd := ihd hc d' hd
    refine ⟨fun W hW => ⟨ha.tidy W hW, hb.tidy W hW, hd.tidy W hW⟩, fun env env' h => ?_⟩
    refine (ha.runs env env' h).seq fun v => (Refines.refl (.lift _)).seq fun t => ?_
    cases t with
    | true => exact hb.runs env env' h
    | false => exact hd.runs env env' h

end Registry.Ready

end

/-! ## Spots -/

section

variable {g : Ground} {root o k : Spot} {r q : Registry} {F : KernelId → Set Name} {call : Callee}
  {x : Name} {p : Pattern} {n : Nat} {X : Set Name} {id : KernelId} {K : Kernel}

/-- What an expression reads itself it uses, and if it reads an array that use is exposed. -/
theorem Exp.exposed_of_reads {e : Exp} {Γ : Scope} (hscoped : e.Scoped Γ)
    (htyped : ∀ y ∈ Γ, y.name ∈ g.arrays → y.isArray = true) (hx : x ∈ e.reads) :
    x ∈ e.free false ∧ (x ∈ g.arrays → x ∈ e.exposed false) := by
  cases e with
  | var y s =>
    obtain rfl := List.mem_singleton.1 hx
    exact ⟨rfl, fun ha => ⟨htyped y hscoped ha, rfl⟩⟩
  | index y is s =>
    obtain rfl := List.mem_singleton.1 hx
    exact ⟨.inl rfl, fun _ => .inl rfl⟩
  | update z y is v b s =>
    obtain rfl := List.mem_singleton.1 hx
    exact ⟨.inl rfl, fun _ => .inl (.inl rfl)⟩
  | _ => cases hx

namespace Registry.Ready

variable (hg : g.Sound) (hr : r.Ready g root F)

include hr in
/-- Names that are in scope and not hidden in arrays are had by the context. -/
theorem has (ho : root.Reaches o) (hx : x ∈ o.site.names)
    (hexposed : x ∈ g.arrays → x ∈ o.code.exposed false) :
    (g.context r F call o).Has x :=
  have hlive : r.Live g x := fun ha => .inl (hr.exposed x (ho.exposed (hexposed ha)) ha)
  ⟨fun _ hV => hV.1 x hx hlive, fun _ _ h => h.1 x hx hlive⟩

include hg hr

/-- What is bound at a spot may be bound there by emission, unless it is a parameter that some other
kernel owns. -/
theorem mem_bindable (ho : root.Reaches o) (hx : x ∈ o.code.binders)
    (howner : ∀ p : Pattern, p ≠ [] → x ∈ g.params p → ∀ id K, r.kernels.find? id = some K →
      (∀ y ∈ p.names, r.producerOf y = some id) → ∀ y ∈ K.pattern.names, y ∈ o.zone) : x ∈
    g.bindable r F o := by
  refine ⟨.inl (.inl hx), fun id K hK hown => ?_⟩
  rcases hown with hown | ⟨p, hp, hown, hid⟩
  · exact absurd (hg.tag_binder (hr.reached.trans ho) hx) (Nat.not_lt.2 (hr.hoard.fresh id x hown))
  · exact howner p hp hown id K hK hid

/-- What a `let` of the function binds may be bound at its spot. -/
theorem mem_bindable_of_let (ho : root.Reaches o) (hx : x ∈ o.code.binders)
    (hlet : x ∈ letNames g.code.lets) : x ∈ g.bindable r F o :=
  mem_bindable hg hr ho hx fun _ _ hown _ _ _ _ _ _ =>
    absurd (Ground.slots_of_params hown) (hg.notMem_slots hlet)

/-- Code behind a binder of a spot is faithful if the spot inside is so. -/
theorem faithful_inner (ho : root.Reaches o) {d : Exp}
    (hin : (⟨o.site.enter p, d⟩ : Spot) ∈ o.inner) (hnew : ∀ x ∈ p.names, x ∉ o.site.names)
    (h : Mimics g r q F call n ⟨o.site.enter p, d⟩) :
    ∀ d', Emit.expAt n q d = .ok d' →
      Faithful 0 call (g.bindable r F o) ((g.context r F call o).enter p) d d' :=
  fun d' hd => ((h d' hd).mono (hg.enter_le (hr.reached.trans ho) hin hnew)).widen
    (Ground.bindable_of_zone (Spot.zone_inner hin))

/-- A spot without a `let` is faithful if those in it are. -/
theorem mimics_part (ho : root.Reaches o) (hlet : ∀ p r b s, o.code ≠ .letIn p r b s)
    (hin : ∀ o' ∈ o.inner, Mimics g r q F call n o') (hu : ∀ fn args, Uniform (call fn args)) :
    Mimics g r q F call n o := by
  have hreach := hr.reached.trans ho
  have hclear := hg.clear_at hreach
  have hbinders := fun d hd => o.code.binders_part d hd
  intro e' he'
  refine Faithful.layer hu hlet he' (fun x hx => ?_) (fun d hd V hV => ?_) fun d hd d' hd' => ?_
  · obtain ⟨Γ, -, hscoped, htyped⟩ := hg.scope_at hreach
    obtain ⟨hfree, hexposed⟩ := Exp.exposed_of_reads hscoped htyped hx
    exact has hr ho (hclear.uses hfree) hexposed
  · have hnodup := Exp.nodup_part hclear.nodup hd
    refine Ground.freshIn_of_scope hV (List.nodup_append.1 hnodup).1 fun x hx => ?_
    refine mem_bindable hg hr ho (hbinders d hd (List.mem_append_left _ hx)) fun p _ hown => ?_
    obtain ⟨op, es, cs, s, b, s', hcode⟩ := hg.eq_of_params hown hreach
      (o.code.directs_parts hlet d hd hx)
    exact absurd hcode (hlet _ _ _ _)
  · exact faithful_inner hg hr ho (Spot.inner_part hlet hd)
      (fun x hx => hclear.new x (hbinders d hd (List.mem_append_left _ hx)))
      (hin _ (Spot.inner_part hlet hd)) d' hd'

end Registry.Ready

/-! ## The three forms of a `let` -/

theorem Env.lookup?_extendMany_same {env env' : Env} {xs : List Name} {vs : List Value}
    (hlen : xs.length = vs.length) (hx : x ∈ xs) :
    (env'.extendMany (xs.zip vs)).lookup? x = (env.extendMany (xs.zip vs)).lookup? x := by
  refine (Env.AgreeOn.extendMany (V := {y | y ∈ xs}) _ fun y hy => absurd hy.2 ?_) x hx
  rw [Set.notMem_ofPred_iff, not_not, Env.map_fst_zip hlen]
  exact hy.1

namespace Ground

variable {e b : Exp} {s : Span} (hg : g.Sound) (ho : g.start.Reaches o)
    (hcode : o.code = .letIn p e b s)
include hg ho hcode

/-- What a `let` of sound code is like: its names are different, are not in scope, and its body
stands further in. -/
theorem Sound.let_facts : (p, e) ∈ g.code.lets ∧ p.names.Nodup ∧ (∀ x ∈ p.names, x ∈ o.code.binders)
    ∧ (∀ x ∈ p.names, x ∉ o.site.names) ∧ (⟨o.site.bind p e, b⟩ : Spot) ∈ o.inner := by
  have hclear := hg.clear_at ho
  have hbinders : o.code.binders = p.names ++ e.binders ++ b.binders := by
    rw [hcode]
    rfl
  have hmem : ∀ x ∈ p.names, x ∈ o.code.binders := fun x hx => by
    rw [hbinders]
    exact List.mem_append_left _ (List.mem_append_left _ hx)
  have hnodup := hclear.nodup
  rw [hbinders] at hnodup
  refine ⟨ho.lets ?_, (List.nodup_append.1 (List.nodup_append.1 hnodup).1).1, hmem,
    fun x hx => hclear.new x (hmem x hx), ?_⟩
  · rw [hcode]
    exact List.mem_cons_self
  · obtain ⟨Δ, d⟩ := o
    cases hcode
    exact Spot.inner_body

/-- Behind a `let` the names are in scope that the emitted code has bound. -/
theorem Sound.scopes_body {V N : Set Name} (hV : (g.context r F call o).scopes V)
    (hp : ∀ x ∈ p.names, r.Live g x → x ∈ N)
    (hN : ∀ x ∈ N, x ∈ p.names ∨ x ∉ g.bindable r F ⟨o.site.bind p e, b⟩) :
    (g.context r F call ⟨o.site.bind p e, b⟩).scopes (V ∪ N) := by
  obtain ⟨-, -, -, -, hin⟩ := hg.let_facts ho hcode
  refine ⟨fun x hx hlive => hx.imp (fun hx => hV.1 x hx hlive) fun hx =>
    hp x hx hlive, fun x hx hb => ?_⟩
  rcases hx with hx | hx
  · exact hV.2 x hx (bindable_of_zone (Spot.zone_inner hin) hb)
  · exact (hN x hx).elim (fun hx => hg.notMem_bindable (ho.tail hin) (.inr hx) hb) fun h => h hb

/-- Behind a `let` the emitted code has the results of the original one, as far as they are still
computed. -/
theorem Sound.envs_body {env env' : Env} (h : (g.context r F call o).envs env env') {v : Value}
    {vs : List Value} {k : Nat} (hv : Yields 0 (e.eval call env) v k)
    (hvs : v.results p.length = .ok vs) (env₁ : Env)
    (hold : ∀ x ∈ o.site.names, env₁.lookup? x = env'.lookup? x) (hnew : ∀ x ∈ p.names, r.Live g x →
      env₁.lookup? x = (env.extendMany (p.names.zip vs)).lookup? x) :
    (g.context r F call ⟨o.site.bind p e, b⟩).envs (env.extendMany (p.names.zip vs)) env₁ := by
  obtain ⟨-, -, -, hnot, -⟩ := hg.let_facts ho hcode
  refine ⟨fun x hx hlive => ?_, h.2.bind (hg.clear_at ho) hcode hv hvs⟩
  rcases hx with hx | hx
  · rw [hold x hx, h.1 x hx hlive, Env.lookup?_extendMany_of_notMem]
    rw [Env.map_fst_zip (by rw [p.length_names, Value.length_of_results hvs])]
    exact fun hp => hnot x hp hx
  · exact hnew x hx hlive

end Ground

/-- A combinator is emitted faithfully if its lambdas, its neutral elements and its arguments
are. -/
theorem Faithful.soac {w : String → Nat} {B : Set Name} {c : Context} {op op' : Combinator}
    {es es' : List Exp} {cs cs' : Certificates} {s s' : Span} (hop : Emit.opAt n q op = .ok op')
    (hes : Emit.allAt n q es = .ok es') (hlambdas : ∀ f ∈ op.lambdas, ∀ f', Emit.lambdaAt n q f =
    .ok f' → FaithfulLambda w call B c f f')
    (hneutral : ∀ e ∈ op.neutral, ∀ e', Emit.expAt n q e = .ok e' → Faithful w call B c e e')
    (hargs : ∀ e ∈ es, ∀ e', Emit.expAt n q e = .ok e' → Faithful w call B c e e') :
    Faithful w call B c (.soac op es cs s) (.soac op' es' cs' s') := by
  obtain ⟨htidy, hruns⟩ := faithful_op hop hlambdas hneutral
  have hall := Faithful.all hes hargs
  refine ⟨fun V hV => ⟨fun h => absurd h Bool.false_ne_true, htidy V hV, Faithful.tidyAll hall hV⟩,
    fun env env' he => ?_⟩
  rw [Exp.eval, Exp.eval, Emit.length_allAt hes]
  exact hruns env env' he _ _ _
    ((Exp.refines_evalArrays (Faithful.runsAll hall he)).bind_same fun _ => .lift _)

/-- If no call costs anything, it is enough that the second evaluation yields the same values. -/
theorem Refines.of_yields_zero {α : Type} {x x' : Eval α} (hu : Uniform x)
    (h : ∀ a k, Yields 0 x a k → ∃ k', Yields 0 x' a k') : Refines 0 x x' 0 := by
  refine ⟨hu, fun a k hk => ?_⟩
  obtain ⟨k', hk'⟩ := h a k hk
  exact ⟨k', hk', by rw [hk'.eq_zero fun _ => rfl]; omega⟩

namespace Registry.Ready

variable {e b : Exp} {s : Span} (hg : g.Sound) (hr : r.Ready g root F) (hq : r.EmitsOn X q)
  (hX : ∀ x, x ∈ root.code.binders ∨ x ∉ letNames g.code.lets → x ∈ X)
  (ho : root.Reaches o) (hcode : o.code = .letIn p e b s) (hu : ∀ fn args, Uniform (call fn args))

section

include hg hr ho hcode hu

/-- A `let` that stays where it is is faithful if its right-hand side and its body are. -/
theorem faithful_let (hbody : Mimics g r q F call n ⟨o.site.bind p e, b⟩) {e₁ b₁ : Exp}
    (he : Faithful 0 call (g.bindable r F o) (g.context r F call o) e e₁)
    (hb : Emit.expAt n q b = .ok b₁) :
    Faithful 0 call (g.bindable r F o) (g.context r F call o) o.code (.letIn p e₁ b₁ s) := by
  have hreach := hr.reached.trans ho
  obtain ⟨hmem, hnodup, hbinders, -, hin⟩ := hg.let_facts hreach hcode
  have hlet : ∀ x ∈ p.names, x ∈ letNames g.code.lets := fun x hx =>
    List.mem_flatMap.2 ⟨_, hmem, hx⟩
  rw [hcode]
  refine he.letIn hu ((hbody b₁ hb).widen (Ground.bindable_of_zone (Spot.zone_inner hin)))
    (fun V hV => Ground.freshIn_of_scope hV hnodup fun x hx =>
      mem_bindable_of_let hg hr ho (hbinders x hx) (hlet x hx))
    (fun V hV => hg.scopes_body hreach hcode hV (fun x hx _ => hx) fun x hx => .inl hx)
    fun env env' h v k vs hv hvs => ?_
  have hlen : p.names.length = vs.length := by rw [p.length_names, Value.length_of_results hvs]
  refine hg.envs_body hreach hcode h hv hvs _ (fun x hx => Env.lookup?_extendMany_of_notMem ?_)
    fun x hx _ => Env.lookup?_extendMany_same hlen hx
  rw [Env.map_fst_zip hlen]
  exact fun hp => (hg.clear_at hreach).new x (hbinders x hp) hx

include hq hX

theorem mimics_stays (hnone : ∀ x ∈ p.names, r.producerOf x = none) (hsoac : e.isSoac = false)
    (hin : ∀ o' ∈ o.inner, Mimics g r q F call n o') : Mimics g r q F call n o := by
  have hreach := hr.reached.trans ho
  obtain ⟨hmem, hnodup, hbinders, -, hbody⟩ := hg.let_facts hreach hcode
  intro e' he'
  rw [hcode] at he'
  obtain ⟨e₁, he, b₁, hb, rfl⟩ := (Emit.expAt_bind_eq_ok fun x hx =>
    hq.unknown x (hX x (.inl (ho.binders (hbinders x hx)))) (hnone x hx)).1 he'
  have hrhs : (⟨o.site.enter [], e⟩ : Spot) ∈ o.inner := by
    obtain ⟨Δ, d⟩ := o
    cases hcode
    exact Spot.inner_computed (q := ([], e)) (by
      cases e <;> simp [Exp.computed, Exp.isSoac] at hsoac ⊢)
  have he := faithful_inner hg hr ho hrhs (fun _ hx => absurd hx List.not_mem_nil)
    (hin _ hrhs) e₁ he
  exact faithful_let hg hr ho hcode hu (hin _ hbody) (he.mono (Context.le_enter_nil _)) hb

/-- A `let` that goes is faithful if its body is. -/
theorem mimics_dropped (hne : p ≠ []) (hK : r.kernels.find? id = some K)
    (hid : ∀ x ∈ p.names, r.producerOf x = some id) (hfused : K.fused ≠ [])
    (hpat : K.pattern.names ≠ p.names) (hlive : ∀ x ∈ p.names, ¬r.Live g x)
    (hin : ∀ o' ∈ o.inner, Mimics g r q F call n o') :
    Mimics g r q F call n o := by
  have hreach := hr.reached.trans ho
  obtain ⟨-, -, hbinders, -, hbody⟩ := hg.let_facts hreach hcode
  obtain ⟨K', hK', xs, rfl⟩ := hq.kernels id K hK hfused
  intro e' he'
  rw [hcode, Emit.expAt_drop hne (fun x hx =>
    hq.fused x (hX x (.inl (ho.binders (hbinders x hx)))) id K
    (hid x hx) hK hfused) hK' hpat] at he'
  have hb := (hin _ hbody e' he').widen (Ground.bindable_of_zone (Spot.zone_inner hbody))
  have hnot : ∀ x ∈ p.names, r.Live g x → x ∈ (∅ : Set Name) := fun x hx h => absurd h (hlive x hx)
  refine ⟨fun V hV => ?_, fun env env' h => ?_⟩
  · have := hb.tidy _ (hg.scopes_body hreach hcode hV hnot fun _ hx =>
      absurd hx (Set.notMem_empty _))
    rwa [Set.union_empty] at this
  · rw [hcode]
    refine Refines.of_yields_zero ((e.eval_uniform hu env).bind fun _ =>
        (Uniform.lift _).bind fun env =>
      b.eval_uniform hu env) fun a k hk => ?_
    -- the bound expression is not run any more, and nothing live reads what it gave
    obtain ⟨v, j, vs, j', hv, hvs, hj'⟩ := yields_letIn hu hk
    obtain ⟨k', hk', -⟩ := (hb.runs _ _ (hg.envs_body hreach hcode h hv hvs _ (fun _ _ => rfl)
      fun x hx h => absurd h (hlive x hx))).yields a j' hj'
    exact ⟨k', hk'⟩

end

/-! ## Kernels -/

section

variable {id : KernelId} {K : Kernel}

include hg hr

/-- A kernel for a `let` fits there. -/
theorem fitsAt (ho : root.Reaches o) (hcode : o.code = .letIn p e b s) (hne : p ≠ [])
    (hK : r.kernels.find? id = some K) (hpat : K.pattern = p) :
    K.FitsAt g root (r.fixed g root) (g.binds r F id o) o e := by
  obtain ⟨k, e', h⟩ := hr.fits id K hK
  obtain ⟨b', s', hkcode⟩ := h.code
  obtain ⟨y, hy⟩ := List.exists_mem_of_ne_nil _ hne
  have hy : y.name ∈ p.names := List.mem_map_of_mem hy
  have hdirect : ∀ {k : Spot} {e b : Exp} {s : Span}, k.code = .letIn p e b s →
      y.name ∈ k.code.directs :=
    fun hcode => by
      rw [hcode]
      exact List.mem_append_left _ hy
  rw [hpat] at hkcode
  obtain rfl := hg.clear.eq_of_directs (hr.reached.trans h.reached) (hr.reached.trans ho)
    (hdirect hkcode) (hdirect hcode)
  cases hcode.symm.trans hkcode
  exact h

omit hg in
/-- What a kernel reads is there. -/
theorem has_source {G : Set Name} (hK : r.kernels.find? id = some K)
    (h : K.FitsAt g root (r.fixed g root) G o e) {a : Operand} (ha : a ∈ K.stage.operands)
    (hx : a.source? = some x) : (g.context r F call o).Has x := by
  obtain ⟨hnames, hfixed⟩ := h.glued.sources a ha x hx
  have hlive : r.Live g x := by
    cases hw : a.whole? with
    | none => exact live_of_fixed hr (hfixed hw)
    | some y =>
      have hy : y.name = x := by
        cases a <;> cases hw
        exact Option.some.inj hx
      have hwhole : x ∈ K.stage.wholeNames := List.mem_filterMap.2 ⟨a, ha, by rw [hw, ← hy]; rfl⟩
      have hreads : id ∈ r.consumersOf x := (hr.indexed.readers x id).2 ⟨K, hK, hwhole⟩
      refine fun _ => .inr fun hnone => ?_
      rw [Registry.consumersOf, hnone] at hreads
      cases hreads
  exact ⟨fun V hV => hV.1 x hnames hlive, fun env env' he => he.1 x hnames hlive⟩

include ho hcode in
/-- The parameters of a combinator are new at its `let`. -/
theorem freshIn_params (hK : r.kernels.find? id = some K) (hpat : K.pattern = p)
    (hid : ∀ x ∈ p.names, r.producerOf x = some id) {q : Pattern × Exp} (hq : q ∈ e.computed)
    (hpart : q ∈ e.parts) {V : Set Name} (hV : (g.context r F call o).scopes V) :
    FreshIn V (g.bindable r F o) q.1.names := by
  have hreach := hr.reached.trans ho
  obtain ⟨-, -, hbinders, -, -⟩ := hg.let_facts hreach hcode
  have hparts : ([], e) ∈ o.code.parts := by
    rw [hcode]
    exact List.mem_cons_self
  have hnodup := Exp.nodup_part (Exp.nodup_part (hg.clear_at hreach).nodup hparts) hpart
  refine Ground.freshIn_of_scope hV (List.nodup_append.1 hnodup).1 fun x hx => ?_
  have hbinder : x ∈ o.code.binders :=
    o.code.binders_part _ hparts (e.binders_part q hpart (List.mem_append_left _ hx))
  refine mem_bindable hg hr ho hbinder fun p' hne hown id' K' hK' hid' => ?_
  -- a parameter belongs to the kernel for this very `let`
  have hdirect : x ∈ o.code.directs := by
    rw [hcode]
    exact List.mem_append_right _ (List.mem_flatMap.2 ⟨q, hq, hx⟩)
  obtain ⟨op, es, cs, s₁, b', s', hcode'⟩ := hg.eq_of_params hown hreach hdirect
  cases hcode.symm.trans hcode'
  -- two kernels that bind one name are one kernel
  obtain ⟨y, hy⟩ := List.exists_mem_of_ne_nil _ hne
  have hy : y.name ∈ p.names := List.mem_map_of_mem hy
  obtain rfl := Option.some.inj ((hid _ hy).symm.trans (hid' _ hy))
  obtain rfl := Option.some.inj (hK.symm.trans hK')
  exact fun y hy => .inl (hbinders y (hpat ▸ hy))

include ho hcode hu in
/-- A `let` whose kernel took nothing in is faithful if the spots in it are. -/
theorem mimics_unfused (hq : r.EmitsOn X q)
    (hX : ∀ x, x ∈ root.code.binders ∨ x ∉ letNames g.code.lets → x ∈ X) (hne : p ≠ [])
    (hK : r.kernels.find? id = some K) (hpat : K.pattern = p)
    (hid : ∀ x ∈ p.names, r.producerOf x = some id) (hfused : K.fused = [])
    (hin : ∀ o' ∈ o.inner, Mimics g r q F call n o') : Mimics g r q F call n o := by
  have hreach := hr.reached.trans ho
  have hclear := hg.clear_at hreach
  obtain ⟨-, -, hbinders, -, hbody⟩ := hg.let_facts hreach hcode
  have hfits := fitsAt hg hr ho hcode hne hK hpat
  intro e' he'
  rw [hcode] at he'
  obtain ⟨e₁, he, b₁, hb, rfl⟩ : ∃ e₁, Emit.expAt n q e = .ok e₁ ∧ ∃ b₁, Emit.expAt n q b = .ok b₁
      ∧ e' = .letIn p e₁ b₁ s := by
    have hXp : ∀ x ∈ p.names, x ∈ X := fun x hx => hX x (.inl (ho.binders (hbinders x hx)))
    rcases hq.unfused id K hK hfused with hnone | ⟨⟨K', hK', xs, rfl⟩, hsome⟩
    · exact (Emit.expAt_bind_eq_ok fun x hx => hnone x (hXp x hx) (hid x hx)).1 he'
    · exact (Emit.expAt_unfused_eq_ok hne (fun x hx => hsome x (hXp x hx) (hid x hx)) hK'
        (congrArg Pattern.names hpat) hfused).1 he'
  refine faithful_let hg hr ho hcode hu (hin _ hbody) ?_ hb
  -- everything that the combinator computes stands at a spot of its own
  have hspot : ∀ d ∈ e.computed, (⟨o.site.enter d.1, d.2⟩ : Spot) ∈ o.inner := fun d hd => by
    obtain ⟨Δ, k⟩ := o
    cases hcode
    exact Spot.inner_computed hd
  have hnew : ∀ d ∈ e.computed, ∀ x ∈ d.1.names, x ∉ o.site.names := fun d hd x hx => by
    have hdirect : x ∈ o.code.directs := by
      rw [hcode]
      exact List.mem_append_right _ (List.mem_flatMap.2 ⟨d, hd, hx⟩)
    exact hclear.new x (Spot.mem_binders_of_directs hdirect)
  have hcomputed : ∀ d ∈ e.computed, ∀ d', Emit.expAt n q d.2 = .ok d' →
      Faithful 0 call (g.bindable r F o) ((g.context r F call o).enter d.1) d.2 d' := fun d hd =>
    faithful_inner hg hr ho (hspot d hd) (hnew d hd) (hin _ (hspot d hd))
  have hhere : ∀ d, ([], d) ∈ e.computed → ∀ d', Emit.expAt n q d = .ok d' →
      Faithful 0 call (g.bindable r F o) (g.context r F call o) d d' := fun d hd d' hd' =>
    (hcomputed _ hd d' hd').mono (Context.le_enter_nil _)
  -- a kernel into which nothing was fused is the combinator as it was
  cases e with
  | soac op es cs s₁ =>
    obtain ⟨as, has, hstage⟩ := Stage.ofExp?_eq_ok (hfits.original hfused)
    obtain ⟨op', hop, es', hes, rfl⟩ := Emit.expAt_soac_eq_ok.1 he
    refine Faithful.soac hop hes (fun f hf f' hf' => ?_) (fun d hd => hhere d ?_)
      fun d hd d' hd' => ?_
    · have hmem : (f.params, f.body) ∈ (Exp.soac op es cs s₁).computed :=
        List.mem_append_left _ (List.mem_map.2 ⟨f, hf, rfl⟩)
      have hpart : (f.params, f.body) ∈ (Exp.soac op es cs s₁).parts := by
        simp only [Exp.parts, List.mem_append, List.mem_map]
        exact .inl (.inl ⟨f, hf, rfl⟩)
      exact .of_body hf' (fun V hV => freshIn_params hg hr ho hcode hK hpat hid hmem hpart hV)
        (hcomputed _ hmem)
    · exact List.mem_append_right _ (List.mem_map.2 ⟨d, List.mem_append_left _ hd, rfl⟩)
    · obtain ⟨a, ha, hda⟩ := Recipe.exists_of_forall₂ has.flip hd
      have hspells := Operand.spells_of_ofExp? hda
      refine Faithful.operand hspells (fun x hx => ?_) (fun i hi => hhere i ?_) hd'
      · refine has_source hr hK hfits (a := a) ?_ hx
        rw [hstage]
        exact ha
      · refine List.mem_append_right _ (List.mem_map.2 ⟨i, List.mem_append_right _ ?_, rfl⟩)
        exact List.mem_flatMap.2 ⟨d, hd, hspells.exps_eq ▸ hi⟩
  | _ => cases hfits.original hfused

include hu in
/-- The stage of a kernel is emitted faithfully, if code that lies less deep is. -/
theorem faithful_stage (hq : r.EmitsOn X q)
    (hX : ∀ x, x ∈ root.code.binders ∨ x ∉ letNames g.code.lets → x ∈ X) (hne : K.pattern ≠ [])
    (hK : r.kernels.find? id = some K) (h : K.FitsAt g root (r.fixed g root) (g.binds r F id o) o e)
    (hnames : ∀ y ∈ K.pattern.names, y ∈ o.code.binders)
    (hdeep : ∀ o, root.Reaches o → Mimics g r q F call n o) {op' : Combinator} {es' : List Exp}
    (hop : Emit.opAt n q K.stage.op = .ok op') (hes : Emit.allAt n q K.stage.args = .ok es') :
    Faithful 0 call (g.bindable r F o) (g.context r F call o) K.stage.toExp
      (.soac op' es' K.stage.certs K.stage.span) := by
  have hclear := hg.clear_at (hr.reached.trans h.reached)
  have hbinds : g.binds r F id o ⊆ g.bindable r F o := binds_subset hg hr hK fun y hy =>
    .inl (hnames y hy)
  have hframes := g.frames_context r F call id o
  -- every piece of the kernel is glued, so it is faithful by induction on how it is glued
  have hglued : ∀ {d : Exp}, Glued (root.Feeds o K.pattern) (r.fixed g root)
      (g.binds r F id o) o.site.names d →
      ∀ d', Emit.expAt n q d = .ok d' → Faithful 0 call (g.bindable r F o)
        (g.context r F call o) d d' :=
    fun hd => faithful_glued hg hr hq hX hd h.reached hK hne hnames hdeep hu hframes
  refine Faithful.soac hop hes (fun f hf f' hf' => ?_) (fun d hd =>
    hglued (h.glued.neutral d hd)) fun d hd d' hd' => ?_
  · have hlambda := h.glued.lambdas f hf
    refine .of_body hf' (fun V hV => hlambda.params.change hbinds fun x hx => ?_) ?_
    · exact ((hframes.scopes V hV).2 x hx).elim (fun hx => .inr fun hb => hx (hbinds hb)) fun hx =>
        .inl hx.1
    · exact faithful_glued hg hr hq hX hlambda.body h.reached hK hne hnames hdeep hu
        (hframes.enter hclear hlambda.params)
  · obtain ⟨a, ha, rfl⟩ := List.mem_map.1 hd
    exact Faithful.operand (a.spells_toExp _) (fun x hx => has_source hr hK h ha hx)
      (fun i hi => hglued (h.glued.operands a ha i hi)) hd'

section

variable {extra : Pattern}
  (hextra : ∀ x ∈ extra.names, x ∈ g.binds r F id o ∧ g.fresh ≤ x.tag)

include ho hcode hextra

/-- The names of a `let` and the further outputs of its kernel are fresh where the kernel is
emitted. -/
theorem freshIn_outputs (hK : r.kernels.find? id = some K) (hpat : K.pattern = p)
    (hnodup : extra.names.Nodup) {V : Set Name} (hV : (g.context r F call o).scopes V) :
    FreshIn V (g.bindable r F o) (p.names ++ extra.names) := by
  have hreach := hr.reached.trans ho
  obtain ⟨hmem, hp, hbinders, -, -⟩ := hg.let_facts hreach hcode
  have hbinds : g.binds r F id o ⊆ g.bindable r F o :=
    binds_subset hg hr hK fun y hy => .inl (hbinders y (hpat ▸ hy))
  have hapart : ∀ x ∈ p.names, ∀ y ∈ extra.names, x ≠ y := by
    rintro x hx _ hy rfl
    exact absurd (hg.tag_binder hreach (hbinders x hx)) (Nat.not_lt.2 (hextra x hy).2)
  refine Ground.freshIn_of_scope hV (List.nodup_append.2 ⟨hp, hnodup, hapart⟩) fun x hx => ?_
  rcases List.mem_append.1 hx with hx | hx
  · exact mem_bindable_of_let hg hr ho (hbinders x hx) (List.mem_flatMap.2 ⟨_, hmem, hx⟩)
  · exact hbinds (hextra x hx).1

/-- The further outputs of a kernel are not bound in the body of its `let`. -/
theorem notMem_bindable_body (hne : p ≠ []) (hK : r.kernels.find? id = some K)
    (hpat : K.pattern = p) {x : Name} (hx : x ∈ extra.names) :
    x ∉ g.bindable r F ⟨o.site.bind p e, b⟩ := by
  have hreach := hr.reached.trans ho
  obtain ⟨-, -, -, -, hbody⟩ := hg.let_facts hreach hcode
  -- the kernel that owns the output binds the names of the `let`, which are in scope in the body
  obtain ⟨y, hy⟩ := List.exists_mem_of_ne_nil _ hne
  have hy : y.name ∈ p.names := List.mem_map_of_mem hy
  exact fun hb => (hg.clear_at (hreach.tail hbody)).notMem_zone (.inr hy)
    (hb.2 id K hK (hextra x hx).1.1 _ (hpat ▸ hy))

/-- The further outputs are fresh, so neither the names in scope nor those of the `let` notice
them. -/
theorem lookup?_outputs (env env' : Env) {vs ws : List Value}
    (hvs : p.names.length = vs.length) (hws : extra.names.length = ws.length) :
    (∀ x ∈ o.site.names, (env'.extendMany ((p.names ++ extra.names).zip (vs ++ ws))).lookup? x
        = env'.lookup? x)
      ∧ ∀ x ∈ p.names, (env'.extendMany ((p.names ++ extra.names).zip (vs ++ ws))).lookup? x
        = (env.extendMany (p.names.zip vs)).lookup? x := by
  have hreach := hr.reached.trans ho
  obtain ⟨-, -, hbinders, hnew, -⟩ := hg.let_facts hreach hcode
  have hnot : ∀ x, x.tag < g.fresh → x ∉ extra.names := fun x hlt hx =>
    absurd hlt (Nat.not_lt.2 (hextra x hx).2)
  refine ⟨fun x hx => ?_, fun x hx => ?_⟩
  · refine Env.lookup?_extendMany_of_notMem ?_
    rw [Env.map_fst_zip (by rw [List.length_append, List.length_append, hvs, hws]),
      List.mem_append, not_or]
    exact ⟨fun hp => hnew x hp hx, hnot x (hg.tag_name hreach hx)⟩
  · rw [List.zip_append hvs, Env.extendMany_append, Env.lookup?_extendMany_of_notMem]
    · exact Env.lookup?_extendMany_same hvs hx
    · rw [Env.map_fst_zip hws]
      exact hnot x (hg.tag_binder hreach (hbinders x hx))

end

include ho hcode hu in
/-- A `let` whose kernel took something in is faithful if its body is and code that lies less
deep. -/
theorem mimics_fused (hq : r.EmitsOn X q)
    (hX : ∀ x, x ∈ root.code.binders ∨ x ∉ letNames g.code.lets → x ∈ X) (hne : p ≠ [])
    (hK : r.kernels.find? id = some K) (hpat : K.pattern = p)
    (hid : ∀ x ∈ p.names, r.producerOf x = some id) (hfused : K.fused ≠ [])
    (hdeep : ∀ k, n = k + 1 → ∀ o, root.Reaches o → Mimics g r q F call k o)
    (hin : ∀ o' ∈ o.inner, Mimics g r q F call n o') : Mimics g r q F call n o := by
  have hreach := hr.reached.trans ho
  obtain ⟨-, -, hbinders, -, hbody⟩ := hg.let_facts hreach hcode
  have hfits := fitsAt hg hr ho hcode hne hK hpat
  subst hpat
  obtain ⟨extra, houts, hextranodup, hextra⟩ := hfits.outputs
  have houtnames : Pattern.names K.outputs = K.pattern.names ++ extra.names := by
    rw [houts, Pattern.names_append]
  intro e' he'
  rw [hcode] at he'
  -- the `let` is emitted as the kernel, bound to the outputs of that
  obtain ⟨K', hK', xs, rfl⟩ := hq.kernels id K hK hfused
  obtain ⟨e₁, he, b₁, hb, rfl⟩ := (Emit.expAt_fused_eq_ok hne
    (fun x hx => hq.fused x (hX x (.inl (ho.binders (hbinders x hx)))) id K (hid x hx) hK hfused)
      hK' rfl hfused).1 he'
  obtain ⟨k, rfl, op', hop, es', hes, rfl⟩ := Emit.kernelWithin_eq_ok.1 he
  have hstage := faithful_stage hg hr hu hq hX hne hK hfits hbinders (hdeep k rfl) hop hes
  have hrest := (hin _ hbody b₁ hb).widen
    (Ground.bindable_of_zone (F := F) (r := r) (Spot.zone_inner hbody))
  have hbind : Kernel.bindTransforms { K with inplace := xs } b₁ = b₁ := by
    rw [Kernel.bindTransforms, hfits.transforms]
    rfl
  rw [hbind]
  refine ⟨fun V hV => ⟨hstage.tidy V hV, ?_, hrest.tidy _ ?_⟩, fun env env' h => ?_⟩
  · change FreshIn V _ (Pattern.names K.outputs)
    rw [houtnames]
    exact freshIn_outputs hg hr ho hcode hextra hK rfl hextranodup hV
  · have hmem : ∀ x, x ∈ Pattern.nameSet K.outputs ↔ x ∈ K.pattern.names ∨ x ∈ extra.names :=
      fun x => by rw [← List.mem_append, ← houtnames]; rfl
    exact hg.scopes_body hreach hcode hV (fun x hx _ => (hmem x).2 (.inl hx)) fun x hx =>
      ((hmem x).1 hx).imp_right fun hx => notMem_bindable_body hg hr ho hcode hextra hne hK rfl hx
  · rw [hcode]
    refine Refines.of_yields_zero ((e.eval_uniform hu env).bind fun _ =>
        (Uniform.lift _).bind fun env =>
      b.eval_uniform hu env) fun a j hj => ?_
    -- what the `let` was bound to is what the first outputs of the kernel are bound to
    obtain ⟨v, i, vs, j', hv, hvs, hj'⟩ := yields_letIn hu hj
    obtain ⟨ws, i', hi', hlen⟩ := hfits.stands call hu env h.2 v vs i hv hvs
    obtain ⟨i₁, hi₁, -⟩ := (hstage.runs env env' h).yields _ i' hi'
    have hvslen : K.pattern.names.length = vs.length := by
      rw [Pattern.length_names, Value.length_of_results hvs]
    have hwslen : extra.names.length = ws.length := by
      have hall : (Pattern.names K.outputs).length = (vs ++ ws).length := by
        rw [Pattern.length_names, hlen]
      rw [houtnames, List.length_append, List.length_append, hvslen] at hall
      exact Nat.add_left_cancel hall
    obtain ⟨hold, hnew⟩ := lookup?_outputs hg hr ho hcode hextra env env' hvslen hwslen
    have henvs := hg.envs_body hreach hcode h hv hvs _ hold fun x hx _ => hnew x hx
    rw [← houtnames] at henvs
    obtain ⟨j₁, hj₁, -⟩ := (hrest.runs _ _ henvs).yields a j' hj'
    exact ⟨_, Eval.Yields.letIn hi₁ (by rw [← hlen]; exact Value.results_ofResults _) hj₁⟩

end

/-! ## All spots -/

/-- Emission is faithful at every spot. -/
theorem mimics (hg : g.Sound) (hr : r.Ready g root F) (hq : r.EmitsOn X q)
    (hX : ∀ x, x ∈ root.code.binders ∨ x ∉ letNames g.code.lets → x ∈ X)
    (hu : ∀ fn args, Uniform (call fn args)) (n : Nat) :
    ∀ o, root.Reaches o → Mimics g r q F call n o := by
  -- on how deep kernels lie in one another, and at one depth on the code
  induction n using Nat.strong_induction_on with
  | _ n ihn =>
    intro o
    induction hsize : sizeOf o.code using Nat.strong_induction_on generalizing o with
    | _ m ihm =>
      subst hsize
      intro ho
      have hin : ∀ o' ∈ o.inner, Mimics g r q F call n o' := fun o' hin =>
        ihm _ (Spot.sizeOf_inner hin) o' rfl (ho.tail hin)
      -- a `let` stays, is emitted as a kernel, or is dropped; anything else goes part by part
      by_cases hlet : ∃ p e b s, o.code = .letIn p e b s
      · obtain ⟨p, e, b, s, hcode⟩ := hlet
        have hreach : root.Reaches ⟨o.site, .letIn p e b s⟩ := hcode ▸ ho
        rcases hr.treats o.site p e b s hreach with ⟨hnone, hsoac⟩ | ⟨hK, hpat, hid, hstage⟩
          | ⟨hne, hK, hid, hfused, hpat, hlive⟩
        · exact mimics_stays hg hr hq hX ho hcode hu hnone hsoac hin
        · have hne : p ≠ [] := by
            cases e with
            | soac op es cs s₁ =>
              obtain ⟨hmem, -⟩ := hg.let_facts (hr.reached.trans ho) hcode
              exact (hg.mayBind _ hmem op es cs s₁ rfl).nonempty
            | _ => cases hstage
          rename_i id K st
          by_cases hfused : K.fused = []
          · exact mimics_unfused hg hr ho hcode hu hq hX hne hK hpat hid hfused hin
          · exact mimics_fused hg hr ho hcode hu hq hX hne hK hpat hid hfused
              (fun k hk => ihn k (hk ▸ Nat.lt_succ_self k)) hin
        · exact mimics_dropped hg hr hq hX ho hcode hu hne hK hid hfused hpat hlive hin
      · exact mimics_part hg hr ho (fun p e b s hcode => hlet ⟨p, e, b, s, hcode⟩) hin hu

end Registry.Ready

end

end ArrayFusion
