import ArrayFusion.Proofs.Advances
import ArrayFusion.Proofs.Deciding
import ArrayFusion.Proofs.NormalKernels

/-!
# Decisions keep a registry coherent

A decision about a stage fails with an error about the function at worst
(`Coherent.faultless_tryFuse`, `ends_place`), and whatever is decided, the registry is coherent
afterwards: a kernel that takes the stage in stands in front of all kernels inside the stage
(`Registry.Advances.fused`), and a kernel that the stage becomes comes directly in front of them
(`Registry.Advances.register`).
-/

namespace ArrayFusion

open FusionError (OfInput)

variable {Λ : List (Pattern × Exp)}

/-! ## Decisions do not fail -/

/-- The `let`s of the lambdas are `let`s of the combinator. -/
theorem Combinator.mem_lets_of_lambdas {op : Combinator} {f : Lambda} (hf : f ∈ op.lambdas)
    {l : Pattern × Exp} (hl : l ∈ f.lets) : l ∈ op.lets := by
  cases op with
  | map g | filter g =>
    rw [List.mem_singleton.1 hf] at hl
    exact hl
  | reduce g ne | scan g ne =>
    rw [List.mem_singleton.1 hf] at hl
    exact List.mem_append_left _ hl
  | redomap g h ne =>
    refine List.mem_append_left _ ?_
    rcases List.mem_cons.1 hf with rfl | hf
    · exact List.mem_append_left _ hl
    · rw [List.mem_singleton.1 hf] at hl
      exact List.mem_append_right _ hl

/-- An action on the lambdas fails in the ways that it does on one of them. -/
theorem Combinator.failsWith_mapLambdas {E : FusionError → Prop} {f : Lambda → Fresh Lambda}
    {op : Combinator} (hf : ∀ g ∈ op.lambdas, (f g).FailsWith E) :
    (op.mapLambdas f).FailsWith E := by
  cases op with
  | map g => exact (hf g List.mem_cons_self).bind fun _ => .pure _
  | filter g => exact (hf g List.mem_cons_self).bind fun _ => .pure _
  | reduce g ne => exact (hf g List.mem_cons_self).bind fun _ => .pure _
  | scan g ne => exact (hf g List.mem_cons_self).bind fun _ => .pure _
  | redomap g h ne =>
    exact (hf g List.mem_cons_self).bind fun _ =>
      (hf h (List.mem_cons_of_mem _ List.mem_cons_self)).bind fun _ => .pure _

namespace Registry

variable {E : FusionError → Prop} {r : Registry} {o : List KernelId} {g : Stage} {p : Pattern}

/-- A copy of a stage fails only if one of its lambdas cannot be emitted. -/
theorem failsWith_copyOf (h : ∀ f ∈ g.op.lambdas, ∀ e, r.emitLambda f = .error e → E e) :
    (r.copyOf g).FailsWith E :=
  (Combinator.failsWith_mapLambdas (f := r.copyLambda) fun f hf =>
    (Fresh.FailsWith.lift (h f hf)).bind fun f' => .take f'.count_le_freshen).bind fun _ => .pure _

/-- A stage is fused into some kernels without failing if it is copied and fused into each without
failing. -/
theorem failsWith_fuseIntoAll (hcopy : (r.copyOf g).FailsWith E) {Ks : List Kernel}
    (hfuse : ∀ g' : Stage, g'.arity = g.arity → ∀ K ∈ Ks,
    ((Producer.mk g' p).fuseInto K).FailsWith E)
    (first : Bool) : (r.fuseIntoAll g p first Ks).FailsWith E := by
  induction Ks generalizing first with
  | nil => exact .pure _
  | cons K Ks ih =>
    -- the first kernel takes the stage itself, every further one a copy of it
    have hstage : ∀ s, Ends (fun e => s.count ≤ e.state.count ∧ E e.error)
        (if first then pure g else r.copyOf g : Fresh Stage) s
        fun g' s' => s.count ≤ s'.count ∧ g'.arity = g.arity := by
      intro s
      cases first with
      | true => exact ⟨Nat.le_refl _, rfl⟩
      | false => exact (hcopy s).and_eq.mono fun g' s' ⟨hle, hcopy⟩ => ⟨hle, arity_copyOf hcopy⟩
    intro s
    rw [fuseIntoAll_cons]
    refine (hstage s).bind fun g' s₁ ⟨hle, hg'⟩ => ?_
    refine Ends.imp (E := fun e => s₁.count ≤ e.state.count ∧ E e.error)
      (P := fun _ s' => s₁.count ≤ s'.count) ?_ (fun _ => And.imp_left (Nat.le_trans hle))
      fun _ _ => Nat.le_trans hle
    refine (hfuse g' hg' K List.mem_cons_self).bind (fun K' => ?_) s₁
    cases K' with
    | none => exact .pure _
    | some K' =>
      refine (ih (fun g' hg' K hK => hfuse g' hg' K (List.mem_cons_of_mem _ hK)) false).bind
        fun Ks' => ?_
      cases Ks' with
      | none => exact .pure _
      | some Ks' => exact .pure _

/-- Trying to fuse a stage fails only if a kernel is missing or if fusing it into the kernels
fails. -/
theorem failsWith_tryFuse
    (hlift : ∀ e, ((r.candidates p.names).mapM fun id => r.kernel id g.span) = .error e → E e)
    (hfuse : ∀ Ks, ((r.candidates p.names).mapM fun id => r.kernel id g.span) = .ok Ks →
      (r.fuseIntoAll g p true Ks).FailsWith E) (c : Config) (origin : Origin) :
    (r.tryFuse c origin p g).FailsWith E := by
  unfold tryFuse
  dsimp only
  split
  · exact .pure _
  cases hids : r.candidates p.names with
  | nil => exact .pure _
  | cons id ids =>
    intro s
    rw [hids] at hlift hfuse
    dsimp only
    refine (Fresh.FailsWith.lift hlift s).and_eq.bind fun Ks s' ⟨hle, hKs⟩ => ?_
    -- from here on nothing but fusing into the kernels can fail
    obtain ⟨hfound, rfl⟩ := Fresh.lift_eq_ok.1 hKs
    split
    · exact .pure (Nat.le_refl _)
    split
    · exact .pure (Nat.le_refl _)
    refine (hfuse Ks hfound).bind (fun result => ?_) s'
    cases result with
    | none => exact .pure _
    | some Ks' => exact .pure _

/-- Trying to fuse a stage gives no name back. -/
theorem grows_tryFuse (r : Registry) (c : Config) (origin : Origin) (p : Pattern) (g : Stage) :
    (r.tryFuse c origin p g).Grows :=
  failsWith_tryFuse (fun _ _ => trivial) (fun _ _ => failsWith_fuseIntoAll
    (failsWith_copyOf fun _ _ _ _ => trivial) (fun _ _ _ _ => Producer.grows_fuseInto _ _) true)
      c origin

/-- In a coherent registry nothing fails but for what the function is to blame for. -/
theorem Coherent.faultless_tryFuse (h : r.Coherent Λ o) (hg : ∀ l ∈ g.op.lets, LetOf Λ l.1)
    (hp : g.arity = p.length) (c : Config) (origin : Origin) :
    (r.tryFuse c origin p g).Faultless := by
  have hreaders : ∀ id ∈ r.candidates p.names, ∃ K, r.kernels.find? id = some K := fun id hid => by
    obtain ⟨x, -, hid⟩ := mem_candidates.1 hid
    exact (h.listed id).1 (h.readers x id hid)
  obtain ⟨Ks, hKs⟩ := exists_mapM_kernel g.span hreaders
  refine failsWith_tryFuse (fun e he => nomatch he.symm.trans hKs) (fun Ks hKs =>
    failsWith_fuseIntoAll (failsWith_copyOf fun f hf e he => ?_) (fun g' hg' K hK => ?_) true)
      c origin
  · obtain ⟨f', hemit⟩ := Emit.exists_lambdaAt fun _ hl =>
      h.emittable (hg _ (Combinator.mem_lets_of_lambdas hf hl))
    have hemit : r.emitLambda f = .ok f' := hemit
    exact nomatch he.symm.trans hemit
  · obtain ⟨id, -, hid⟩ := Recipe.exists_of_forall₂ (mem_of_mapM_kernel hKs) hK
    exact Producer.faultless_fuseInto (hg'.trans hp) (h.sound id K hid).outputs

/-- A decision about a stage fails as trying to fuse it does, and takes names however it ends. -/
theorem ends_place {c : Config} {origin : Origin} (htry : (r.tryFuse c origin p g).FailsWith E)
    (a : Progress) : Ends (fun e => a.names.count ≤ e.state.names.count ∧ E e.error)
      (place c origin p g r) a
      fun r' b => a.names.count ≤ b.names.count ∧ Placed c origin p g r a r' b := by
  refine Ends.mono (P := fun r' b => a.names.count ≤ b.names.count
    ∧ place c origin p g r a = .ok (r', b)) ?_ fun r' b ⟨hle, hplace⟩ =>
      ⟨hle, placed_of_place hplace⟩
  refine Ends.and_eq ?_
  refine Ends.bind (P := fun _ b => a.names.count ≤ b.names.count)
    (Ends.fresh (htry a.names)) fun result b hle => ?_
  cases result with
  | ok Ks => exact hle
  | error reason =>
    -- a replicate that is declined stays a binding, a combinator gets a kernel of its own
    cases origin with
    | replicate => exact hle
    | combinator =>
      refine Ends.bind (P := fun _ b => a.names.count ≤ b.names.count) ?_ fun K b' hle' => hle'
      change Ends _ (if c.transposePull then Analysis.fresh (Fresh.take (Kernel.new ⟨b.nextKernel⟩
        g p).pullTransposes) else pure _) { b with nextKernel := b.nextKernel + 1 } _
      split
      · exact Ends.fresh (Nat.le_trans hle (Kernel.count_le_pullTransposes _ _))
      · exact hle

end Registry

/-! ## Kernels that take a stage in, and kernels that a stage becomes -/

/-- The kernel `K'` is `K` with the stage `g` fused into it: it stands for the same `let`, and it
binds what the two bind, besides names that are handed out from `s` to `s'`. -/
structure Kernel.Takes (g : Stage) (s s' : NameSupply) (K K' : Kernel) : Prop where
  id : K'.id = K.id
  pattern : K'.pattern = K.pattern
  outputs : K'.outputs.length = K'.stage.arity
  binds : ∀ {N : Set Name} {P : Pattern → Prop}, (∀ p : Pattern, (∀ x ∈ p.names, x ∈ N) → P p) →
    s.until s' ⊆ N → g.Over N P → K.stage.Over N P → K'.stage.Over N P

/-- What binds names of a part of the course of the supply binds names of the whole course. -/
theorem Kernel.Takes.mono {g : Stage} {s₀ s s' s₁ : NameSupply} {K K' : Kernel}
    (h : Kernel.Takes g s s' K K') (hle : s₀.count ≤ s.count) (hle' : s'.count ≤ s₁.count) :
    Kernel.Takes g s₀ s₁ K K' where
  id := h.id
  pattern := h.pattern
  outputs := h.outputs
  binds := fun hP hs => h.binds hP ((NameSupply.until_subset hle hle').trans hs)

/-- The kernel takes in the stage that is fused into it. -/
theorem Producer.takes_fuseInto {p : Producer} {K K' : Kernel} {s s' : NameSupply}
    (h : p.fuseInto K s = .ok (some K', s')) : Kernel.Takes p.stage s s' K K' := by
  obtain ⟨-, -, op, operands, outputs, -, heq, houtputs⟩ := Producer.fuseInto_eq_ok h
  refine ⟨?_, ?_, houtputs, fun hP hs hp hK => Producer.over_fuseInto hP h hs hp hK⟩
  · rw [heq]
  · rw [heq]

/-- The kernels that a stage is fused into take it in one after another. -/
theorem Registry.FusedInto.takes {r : Registry} {g : Stage} {outs : List Ident} {first : Bool}
    {Ks Ks' : List Kernel} {s s' : NameSupply} (h : r.FusedInto g outs first Ks s Ks' s') :
    s.count ≤ s'.count ∧ List.Forall₂ (Kernel.Takes g s s') Ks Ks' := by
  induction h with
  | nil => exact ⟨Nat.le_refl _, .nil⟩
  | first hK _ ih =>
    have hfuse := Producer.count_le_fuseInto hK
    exact ⟨Nat.le_trans hfuse ih.1, .cons ((Producer.takes_fuseInto hK).mono (Nat.le_refl _) ih.1)
      (ih.2.imp fun _ _ h => h.mono hfuse (Nat.le_refl _))⟩
  | copy hg hK _ ih =>
    have hcopy := Registry.count_le_copyOf hg
    have hfuse := Producer.count_le_fuseInto hK
    have htakes := (Producer.takes_fuseInto hK).mono hcopy ih.1
    refine ⟨Nat.le_trans hcopy (Nat.le_trans hfuse ih.1),
      .cons ⟨htakes.id, htakes.pattern, htakes.outputs, fun hP hs hg' hK' => ?_⟩
        (ih.2.imp fun _ _ h => h.mono (Nat.le_trans hcopy hfuse) (Nat.le_refl _))⟩
    refine htakes.binds hP hs (Registry.over_copyOf hP hg ?_ hg') hK'
    exact (NameSupply.until_subset (Nat.le_refl _) (Nat.le_trans hfuse ih.1)).trans hs

/-- The kernel is what the stage becomes that is bound to the pattern: it reads what the stage
reads, and it binds what the stage binds, besides names that are handed out from `s` to `s'`. -/
structure Kernel.IsNew (id : KernelId) (p : Pattern) (g : Stage) (s s' : NameSupply) (K : Kernel) :
    Prop where
  id : K.id = id
  pattern : K.pattern = p
  fused : K.fused = []
  outputs : g.arity = p.length → K.outputs.length = K.stage.arity
  reads : K.stage.operandReads = g.operandReads
  binds : ∀ {N : Set Name} {P : Pattern → Prop}, (∀ p : Pattern, (∀ x ∈ p.names, x ∈ N) → P p) →
    s.until s' ⊆ N → g.Over N P → K.stage.Over N P

/-- A kernel that was just made is new. -/
theorem Kernel.isNew_new (id : KernelId) (p : Pattern) (g : Stage) (s s' : NameSupply) :
    Kernel.IsNew id p g s s' (Kernel.new id g p) :=
  ⟨rfl, rfl, rfl, Eq.symm, rfl, fun _ _ => (·)⟩

/-- A new kernel stays new when transposes are pulled. -/
theorem Kernel.isNew_pullTransposes (id : KernelId) (p : Pattern) (g : Stage) (s : NameSupply) :
    Kernel.IsNew id p g s ((Kernel.new id g p).pullTransposes s).2
      ((Kernel.new id g p).pullTransposes s).1 := by
  rcases (Kernel.new id g p).pullTransposes_cases s with heq |
    ⟨arrays, f, nest, hoperands, hop, hn, -, heq⟩
  · rw [heq]
    exact isNew_new id p g s s
  · refine ⟨by rw [heq]; rfl, by rw [heq]; rfl, by rw [heq]; rfl, fun hp => ?_, ?_, fun hP hs hg =>
      Kernel.over_pullTransposes (K := Kernel.new id g p) hP hg hs⟩
    · obtain ⟨-, hrets, -⟩ := Nest.ofLambda?_eq_some hn
      have hop : g.op = .map f := hop
      rw [Stage.arity, hop] at hp
      rw [heq]
      change (NameSupply.freshIdents _ p).1.length = nest.rets.length
      rw [NameSupply.length_freshIdents, ← hrets]
      exact hp.symm
    · have hoperands : g.operands = arrays.map .transposed := hoperands
      rw [heq, Stage.operandReads, Stage.operandReads, hoperands]
      change (arrays.map Operand.whole).flatMap _ = _
      rw [List.flatMap_map, List.flatMap_map]
      rfl

/-- The kernel that is placed is new, with or without pulling. -/
theorem Placed.isNew {c : Config} {p : Pattern} {g : Stage} {s s' : NameSupply} {id : KernelId}
    {K : Kernel} (h : c.transposePull = false ∧ K = Kernel.new id g p ∧ s' = s
      ∨ c.transposePull = true ∧ (Kernel.new id g p).pullTransposes s = (K, s')) :
    Kernel.IsNew id p g s s' K := by
  rcases h with ⟨-, rfl, -⟩ | ⟨-, h⟩
  · exact Kernel.isNew_new id p g _ _
  · have hnew := Kernel.isNew_pullTransposes id p g s
    rwa [h] at hnew

/-! ## What the kernels bind -/

/-- What holds of the names of the `let`s of a stage may be said of their patterns. -/
theorem Stage.Over.and_names {N : Set Name} {P : Pattern → Prop} {g : Stage} (h : g.Over N P)
    {Q : Name → Prop} (hQ : ∀ x ∈ letNames g.toExp.lets, Q x) :
    g.Over N fun p => P p ∧ ∀ x ∈ p.names, Q x where
  params := h.params
  op := fun l hl => ⟨h.op l hl, fun x hx =>
    hQ x (mem_letNames.2 ⟨l, Stage.mem_lets_toExp.2 (.inl hl), hx⟩)⟩
  operands := fun a ha l hl => ⟨h.operands a ha l hl, fun x hx =>
    hQ x (mem_letNames.2 ⟨l, Stage.mem_lets_toExp.2 (.inr ⟨a, ha, hl⟩), hx⟩)⟩

/-- What is said of the patterns of a stage holds of the names of its `let`s. -/
theorem Stage.Over.names {N : Set Name} {P : Pattern → Prop} {Q : Name → Prop} {g : Stage}
    (h : g.Over N fun p => P p ∧ ∀ x ∈ p.names, Q x) :
    g.Over N P ∧ ∀ x ∈ letNames g.toExp.lets, Q x := by
  refine ⟨⟨h.params, fun l hl => (h.op l hl).1, fun a ha l hl => (h.operands a ha l hl).1⟩,
    fun x hx => ?_⟩
  obtain ⟨l, hl, hx⟩ := mem_letNames.1 hx
  exact (h.toExp l hl).2 x hx

/-- Names that are handed out behind all tags of the function are none of its names. -/
theorem until_subset_foreign {s s' : NameSupply} (hs : ∀ x ∈ letNames Λ, x.tag < s.count)
    (hroom : s'.InRange) : s.until s' ⊆ foreign Λ :=
  fun x hx hΛ => absurd (hs x hΛ) (Nat.not_lt.2 (hroom.le_of_mem_until hx))

/-- A kernel that took a stage in holds names of the function only where one of the two did. -/
theorem Kernel.Takes.sound {g : Stage} {s s' : NameSupply} {K K' : Kernel}
    (h : Kernel.Takes g s s' K K') (hs : s.until s' ⊆ foreign Λ)
    (hg : g.Over (foreign Λ) (LetOf Λ)) (hK : K.Sound Λ) :
    K'.Sound Λ ∧ ∀ x ∈ letNames K'.stage.toExp.lets, x ∈ letNames Λ →
      x ∈ letNames K.stage.toExp.lets ∨ x ∈ letNames g.toExp.lets := by
  obtain ⟨hover, hnames⟩ := (h.binds (N := foreign Λ) (P := fun p => LetOf Λ p ∧ ∀ x ∈ p.names,
      x ∈ letNames Λ → x ∈ letNames K.stage.toExp.lets ∨ x ∈ letNames g.toExp.lets)
    (fun p hp => ⟨.inr hp, fun x hx hΛ => absurd hΛ (hp x hx)⟩)
    hs (hg.and_names fun x hx _ => .inr hx) (hK.binds.and_names fun x hx _ => .inl hx)).names
  exact ⟨⟨hover, h.outputs, h.pattern ▸ hK.pattern⟩, hnames⟩

/-- A new kernel holds names of the function only where the stage does. -/
theorem Kernel.IsNew.sound {id : KernelId} {p : Pattern} {g : Stage} {s s' : NameSupply}
    {K : Kernel} (h : Kernel.IsNew id p g s s' K) (hs : s.until s' ⊆ foreign Λ)
    (hg : g.Over (foreign Λ) (LetOf Λ)) (hp : p ∈ Λ.map (·.1)) (harity : g.arity = p.length) :
    K.Sound Λ ∧ ∀ x ∈ letNames K.stage.toExp.lets, x ∈ letNames Λ → x ∈ letNames g.toExp.lets := by
  obtain ⟨hover, hnames⟩ := (h.binds (N := foreign Λ) (P := fun p => LetOf Λ p ∧ ∀ x ∈ p.names,
      x ∈ letNames Λ → x ∈ letNames g.toExp.lets)
    (fun p hp => ⟨.inr hp, fun x hx hΛ => absurd hΛ (hp x hx)⟩)
    hs (hg.and_names fun x hx _ => hx)).names
  exact ⟨⟨hover, h.outputs harity, h.pattern ▸ hp⟩, hnames⟩

/-! ## The registry after a decision -/

namespace Registry

/-- A stage is about to be placed that is bound to `p`.  The registry was `r₀` before the parts of
the stage were analysed, and is `r` now.  The kernels inside the stage are among the new ones, and
neither what the stage reads nor what it is bound to had a producer. -/
structure Incoming (Λ : List (Pattern × Exp)) (T P H : Set Name) (o ω : List KernelId)
    (r₀ r : Registry) (p : Pattern) (g : Stage) : Prop where
  before : r₀.Coherent Λ o
  advances : r₀.Advances Λ T P H o ω r
  distinct : (letNames Λ).Nodup
  pattern : p ∈ Λ.map (·.1)
  names : ∀ x ∈ p.names, r₀.producerOf x = none ∧ x ∉ T ∧ x ∉ P ∧ x ∉ H
  binds : g.Over (foreign Λ) (LetOf Λ)
  holds : ∀ x ∈ letNames g.toExp.lets, x ∈ letNames Λ → x ∈ H
  reads : ∀ x ∈ g.operandReads, x ∈ T ∧ r₀.producerOf x = none ∧ x ∉ P
  unproduced : ∀ x ∈ H, r₀.producerOf x = none

variable {T P H : Set Name} {o ω : List KernelId} {r₀ r : Registry} {p : Pattern} {g : Stage}
    {x : Name} {id : KernelId} {K : Kernel}

namespace Incoming

/-- The registry is coherent when the stage comes in. -/
theorem now (h : Incoming Λ T P H o ω r₀ r p g) : r.Coherent Λ (o ++ ω) := h.advances.coherent

/-- No kernel produces the names that are about to be bound. -/
theorem producerOf_name (h : Incoming Λ T P H o ω r₀ r p g) (hx : x ∈ p.names) :
    r.producerOf x = none := h.advances.unproduced (h.names x hx).1 (h.names x hx).2.2.1

/-- No kernel behind produces what the stage reads. -/
theorem producerOf_read (h : Incoming Λ T P H o ω r₀ r p g) (hx : x ∈ g.operandReads) :
    r.producerOf x = none := h.advances.unproduced (h.reads x hx).2.1 (h.reads x hx).2.2

/-- Where a name of the stage has a producer, it is one of the kernels inside the stage, or the name
is no longer computed. -/
theorem producerOf_held (h : Incoming Λ T P H o ω r₀ r p g) (hx : x ∈ H)
    (hid : r.producerOf x = some id) : id ∈ ω ∨ r.Dropped x :=
  (h.advances.produced x id hid).elim (fun hid => nomatch (h.unproduced x hx).symm.trans hid) (·.2)

/-- The names of another `let` have the producers that they had. -/
theorem disjoint_or_eq (h : Incoming Λ T P H o ω r₀ r p g) {q : Pattern} (hq : q ∈ Λ.map (·.1)) :
    q = p ∨ ∀ x ∈ q.names, x ∉ p.names :=
  or_iff_not_imp_left.2 fun hne _ hxq hxp => hne (pattern_eq_of_mem h.distinct hq h.pattern hxq hxp)

/-! ### Registering a kernel -/

section

variable {r' : Registry} (h : Incoming Λ T P H o ω r₀ r p g) (hr : Registered K r r')
  (hpat : K.pattern = p) (hK : K.Sound Λ) (hnew : K.id ∉ o ++ ω)
  (hholds : ∀ x ∈ letNames K.stage.toExp.lets, x ∈ letNames Λ → x ∈ H)
  (hreads : K.stage.operandReads = g.operandReads)

include h hr

include hpat in
/-- The new kernel produces the names of the pattern; the others are produced as before. -/
theorem registered_producerOf : r'.producerOf x = some id ↔
    x ∈ p.names ∧ id = K.id ∨ r.producerOf x = some id := by
  rw [hr.producers, hpat]
  split
  · rename_i hx
    rw [h.producerOf_name hx]
    simp [hx, eq_comm]
  · rename_i hx
    simp [hx]

include hnew

/-- The new kernel is added. -/
theorem registered_find? {L : Kernel} : r'.kernels.find? id = some L ↔
    id = K.id ∧ L = K ∨ r.kernels.find? id = some L := by
  rw [hr.kernels]
  split
  · rename_i hid
    subst hid
    have hnone : r.kernels.find? K.id = none := Option.eq_none_iff_forall_ne_some.2 fun L hL =>
      hnew ((h.now.listed _).2 ⟨L, hL⟩)
    rw [hnone]
    simp [eq_comm]
  · rename_i hid
    simp [hid]

include hpat in
/-- A registration drops no name. -/
theorem registered_dropped : r'.Dropped x ↔ r.Dropped x := by
  constructor
  · rintro ⟨id, L, hid, hL, hx⟩
    rcases (registered_producerOf h hr hpat).1 hid with ⟨hxp, rfl⟩ | hid
    · rcases (registered_find? h hr hnew).1 hL with ⟨-, rfl⟩ | hL
      · exact absurd (hpat ▸ hxp) hx
      · exact absurd ((h.now.listed _).2 ⟨L, hL⟩) hnew
    · rcases (registered_find? h hr hnew).1 hL with ⟨rfl, -⟩ | hL
      · exact absurd (h.now.producers x _ hid).1 hnew
      · exact ⟨id, L, hid, hL, hx⟩
  · rintro ⟨id, L, hid, hL, hx⟩
    exact ⟨id, L, (registered_producerOf h hr hpat).2 (.inr hid),
      (registered_find? h hr hnew).2 (.inr hL), hx⟩

/-- The new kernel holds the names of its stage; the others hold what they held. -/
theorem registered_holds (hx : r'.Holds id x) :
    id = K.id ∧ x ∈ letNames K.stage.toExp.lets ∨ r.Holds id x := by
  obtain ⟨L, hL, hx⟩ := hx
  rcases (registered_find? h hr hnew).1 hL with ⟨rfl, rfl⟩ | hL
  · exact .inl ⟨rfl, hx⟩
  · exact .inr ⟨L, hL, hx⟩

include hpat hK hholds hreads

/-- A stage that becomes a kernel stands in front of the kernels inside it. -/
theorem coherent_registered : r'.Coherent Λ (o ++ K.id :: ω) := by
  have hmem : ∀ id, id ∈ o ++ K.id :: ω ↔ id = K.id ∨ id ∈ o ++ ω := fun id => by
    simp only [List.mem_append, List.mem_cons]
    tauto
  have hsub : (o ++ ω).Sublist (o ++ K.id :: ω) := (List.sublist_cons_self _ _).append_left o
  have hfind : ∀ {id L}, r'.kernels.find? id = some L ↔
      id = K.id ∧ L = K ∨ r.kernels.find? id = some L := registered_find? h hr hnew
  have hproducer : ∀ {x id}, r'.producerOf x = some id ↔
      x ∈ p.names ∧ id = K.id ∨ r.producerOf x = some id := registered_producerOf h hr hpat
  -- clause by clause: the new kernel, then the kernels that were there
  refine ⟨?_, fun id => ?_, fun id L hL => ?_, fun id L hL => ?_, fun x id hid => ?_,
    fun q hq x hx y hy => ?_, fun id L hL x hx => ?_, fun x id hid => ?_, fun x hx ht => ?_,
    fun id x id' hx hid' => ?_⟩
  · exact List.nodup_middle.2 (List.nodup_cons.2 ⟨hnew, h.now.nodup⟩)
  · rw [hmem, h.now.listed]
    constructor
    · rintro (rfl | ⟨L, hL⟩)
      · exact ⟨K, hfind.2 (.inl ⟨rfl, rfl⟩)⟩
      · exact ⟨L, hfind.2 (.inr hL)⟩
    · rintro ⟨L, hL⟩
      exact (hfind.1 hL).imp And.left fun hL => ⟨L, hL⟩
  · rcases hfind.1 hL with ⟨rfl, rfl⟩ | hL
    · rfl
    · exact h.now.ids id L hL
  · rcases hfind.1 hL with ⟨-, rfl⟩ | hL
    · exact hK
    · exact h.now.sound id L hL
  · rcases hproducer.1 hid with ⟨hx, rfl⟩ | hid
    · exact ⟨(hmem _).2 (.inl rfl), mem_letNames_of_pattern h.pattern hx⟩
    · exact (h.now.producers x id hid).imp_left (hsub.subset ·)
  · -- the names of a pattern have the new kernel as their producer together or not at all
    rcases h.disjoint_or_eq hq with rfl | hne
    · rw [hr.producers, hr.producers, hpat, if_pos hx, if_pos hy]
    · rw [hr.producers, hr.producers, hpat, if_neg (hne x hx), if_neg (hne y hy)]
      exact h.now.together q hq x hx y hy
  · rcases hfind.1 hL with ⟨rfl, rfl⟩ | hL
    · exact hproducer.2 (.inl ⟨hpat ▸ hx, rfl⟩)
    · exact hproducer.2 (.inr (h.now.patterns id L hL x hx))
  · exact (hmem id).2 ((hr.readers x id hid).imp_right (h.now.readers x id))
  · have hx := (registered_dropped h hr hpat hnew).1 hx
    rcases hr.touches x ht with ht | ht
    · exact h.now.dropped x hx ht
    · exact Coherent.not_dropped (h.producerOf_read (hreads ▸ ht)) hx
  · -- what the new kernel holds stands inside it, and what holds its names stands around it
    have hdropped := fun {x} => (registered_dropped h hr hpat hnew (x := x)).2
    have hΛ : x ∈ letNames Λ := (hproducer.1 hid').elim
      (fun hx => mem_letNames_of_pattern h.pattern hx.1) fun hid => (h.now.producers x _ hid).2
    rcases registered_holds h hr hnew hx with ⟨rfl, hheld⟩ | hx
    · have hxP := hholds x hheld hΛ
      rcases hproducer.1 hid' with ⟨hxp, -⟩ | hid'
      · exact absurd hxP (h.names x hxp).2.2.2
      · refine (h.producerOf_held hxP hid').symm.imp hdropped fun hid' => ?_
        exact ((List.singleton_sublist.2 hid').cons_cons K.id).trans (List.sublist_append_right o _)
    · rcases hproducer.1 hid' with ⟨hxp, rfl⟩ | hid'
      · rcases h.advances.held id x hx hΛ with ⟨L, hL, -⟩ | hxP
        · exact .inr (pair_sublist_append ((h.before.listed id).2 ⟨L, hL⟩) List.mem_cons_self)
        · exact absurd hxP (h.names x hxp).2.2.2
      · exact (h.now.nested id x id' hx hid').imp hdropped fun hpair => hpair.trans hsub

/-- What a stage does to the registry that becomes a kernel. -/
theorem advances_registered : r₀.Advances Λ T (P ∪ p.nameSet) H o (K.id :: ω) r' where
  coherent := coherent_registered h hr hpat hK hnew hholds hreads
  touched := fun x hx => (hr.touches x hx).elim (h.advances.touched x) fun hx =>
    .inr (h.reads x (hreads ▸ hx)).1
  produced := fun x id hid => by
    rcases (registered_producerOf h hr hpat).1 hid with ⟨hx, rfl⟩ | hid
    · exact .inr ⟨.inr hx, .inl List.mem_cons_self⟩
    · refine (h.advances.produced x id hid).imp_right fun ⟨hx, hid⟩ => ⟨.inl hx, ?_⟩
      exact hid.imp (List.mem_cons_of_mem _) (registered_dropped h hr hpat hnew).2
  keeps := fun x id hid => (registered_producerOf h hr hpat).2 (.inr (h.advances.keeps x id hid))
  consumers := fun x hxT hxP => (hr.consumers x fun hx => hxT (h.reads x (hreads ▸ hx)).1).trans
    (h.advances.consumers x hxT fun hx => hxP (.inl hx))
  patterns := fun id L hL => by
    obtain ⟨L', hL', hpat⟩ := h.advances.patterns id L hL
    exact ⟨L', (registered_find? h hr hnew).2 (.inr hL'), hpat⟩
  held := fun id x hx hΛ => by
    rcases registered_holds h hr hnew hx with ⟨-, hx⟩ | hx
    · exact .inr (hholds x hx hΛ)
    · exact h.advances.held id x hx hΛ

end

/-! ### Fusing a stage -/

section

variable {r' : Registry} {origin : Origin} {s s' : NameSupply} {Ks' : List Kernel} {id₀ : KernelId}
  {ids : List KernelId} (h : Incoming Λ T P H o ω r₀ r p g)
  (ha : Absorbed origin p g id₀ ids r r') (hk : r'.kernels = (r.putKernels Ks').kernels)
  (htakes : ∀ K' ∈ Ks', ∃ K, r.kernels.find? K'.id = some K ∧ K'.id ∈ o ∧ Kernel.Takes g s s' K K')
  (hid₀ : id₀ ∈ o) (hids : ∀ id ∈ ids, id ∈ o)
  (hfusable : origin = .combinator → ∀ x ∈ p.names, x ∉ r.unfusable)
  (hsingle : origin = .replicate → ∃ x, p = [x]) (hs : s.until s' ⊆ foreign Λ)

include hk htakes

/-- Behind an id there is the kernel that was there, perhaps with the stage fused into it. -/
theorem fused_find? {K' : Kernel} (hK' : r'.kernels.find? id = some K') :
    ∃ K, r.kernels.find? id = some K ∧
      (K' = K ∨ K'.id = id ∧ id ∈ o ∧ Kernel.Takes g s s' K K') := by
  rw [hk] at hK'
  rcases of_find?_putKernels hK' with ⟨hmem, rfl⟩ | ⟨hfind, -⟩
  · obtain ⟨K, hK, ho, htake⟩ := htakes K' hmem
    exact ⟨K, hK, .inr ⟨rfl, ho, htake⟩⟩
  · exact ⟨K', hfind, .inl rfl⟩

/-- Kernels stay, with the patterns they had. -/
theorem fused_kernel (hK : r.kernels.find? id = some K) :
    ∃ K', r'.kernels.find? id = some K' ∧ K'.pattern = K.pattern := by
  rcases find?_putKernels r Ks' id with ⟨K', hmem, rfl, hfind⟩ | ⟨-, hfind⟩
  · obtain ⟨L, hL, -, htake⟩ := htakes K' hmem
    cases hL.symm.trans hK
    exact ⟨K', hk ▸ hfind, htake.pattern⟩
  · exact ⟨K, hk ▸ hfind.trans hK, rfl⟩

include h hs

/-- The kernels of the fusion hold the names of the stage besides what they held. -/
theorem fused_holds (hx : r'.Holds id x) (hΛ : x ∈ letNames Λ) :
    r.Holds id x ∨ id ∈ o ∧ x ∈ H := by
  obtain ⟨K', hK', hx⟩ := hx
  obtain ⟨K, hK, rfl | ⟨-, ho, htake⟩⟩ := fused_find? hk htakes hK'
  · exact .inl ⟨K', hK, hx⟩
  · rcases (htake.sound hs h.binds (h.now.sound id K hK)).2 x hx hΛ with hx | hx
    · exact .inl ⟨K, hK, hx⟩
    · exact .inr ⟨ho, h.holds x hx hΛ⟩

omit hs hk htakes
include ha

/-- The first kernel produces the names of the stage, apart from those of a replicate that are
forbidden; the others are produced as before. -/
theorem fused_producerOf : r'.producerOf x = some id ↔
    (x ∈ p.names ∧ (origin = .combinator ∨ x ∉ r.unfusable)) ∧ id = id₀
      ∨ r.producerOf x = some id := by
  rw [ha.producers]
  split
  · rename_i hx
    rw [h.producerOf_name hx.1]
    simp [hx, eq_comm]
  · rename_i hx
    simp [hx]

include hk htakes

/-- What was dropped stays dropped. -/
theorem fused_dropped_of (hx : r.Dropped x) : r'.Dropped x := by
  obtain ⟨id, K, hid, hK, hx⟩ := hx
  obtain ⟨K', hK', hpat⟩ := fused_kernel hk htakes hK
  exact ⟨id, K', (fused_producerOf h ha).2 (.inr hid), hK', hpat ▸ hx⟩

include hid₀

/-- The names of the stage are no longer computed, as far as they have a producer now. -/
theorem fused_dropped_name (hx : x ∈ p.names) (hf : origin = .combinator ∨ x ∉ r.unfusable) :
    r'.Dropped x := by
  obtain ⟨K, hK⟩ := (h.now.listed id₀).1 (List.mem_append_left _ hid₀)
  obtain ⟨K', hK', hpat⟩ := fused_kernel hk htakes hK
  refine ⟨id₀, K', (fused_producerOf h ha).2 (.inl ⟨⟨hx, hf⟩, rfl⟩), hK', fun hmem => ?_⟩
  exact nomatch (h.producerOf_name hx).symm.trans (h.now.patterns id₀ K hK x (hpat ▸ hmem))

/-- The names of the stage are dropped, apart from those of a replicate that are forbidden. -/
theorem fused_dropped : r'.Dropped x ↔
    x ∈ p.names ∧ (origin = .combinator ∨ x ∉ r.unfusable) ∨ r.Dropped x := by
  refine ⟨?_, fun hx => hx.elim (fun hx => fused_dropped_name h ha hk htakes hid₀ hx.1 hx.2)
    (fused_dropped_of h ha hk htakes)⟩
  rintro ⟨id, K', hid, hK', hx⟩
  refine ((fused_producerOf h ha).1 hid).imp And.left fun hid => ?_
  obtain ⟨K, hK⟩ := h.now.exists_kernel hid
  obtain ⟨L, hL, hpat⟩ := fused_kernel hk htakes hK
  cases hK'.symm.trans hL
  exact ⟨id, K, hid, hK, hpat ▸ hx⟩

include hids hfusable hsingle hs

/-- A stage that is fused into kernels leaves the list as it is, for the kernels inside the stage
stand behind all kernels that read its results. -/
theorem coherent_fused : r'.Coherent Λ (o ++ ω) := by
  have hproducer : ∀ {x id}, r'.producerOf x = some id ↔
      (x ∈ p.names ∧ (origin = .combinator ∨ x ∉ r.unfusable)) ∧ id = id₀
        ∨ r.producerOf x = some id := fused_producerOf h ha
  have hdropped := fun {x} => fused_dropped h ha hk htakes hid₀ (x := x)
  -- clause by clause; a kernel that took the stage keeps its id and its pattern
  refine ⟨h.now.nodup, fun id => (h.now.listed id).trans ?_,
    fun id K' hK' => ?_, fun id K' hK' => ?_,
    fun x id hid => ?_, fun q hq x hx y hy => ?_, fun id K' hK' x hx => ?_, fun x id hid => ?_,
    fun x hx ht => ?_, fun id x id' hx hid' => ?_⟩
  · constructor
    · rintro ⟨K, hK⟩
      obtain ⟨K', hK', -⟩ := fused_kernel hk htakes hK
      exact ⟨K', hK'⟩
    · rintro ⟨K', hK'⟩
      obtain ⟨K, hK, -⟩ := fused_find? hk htakes hK'
      exact ⟨K, hK⟩
  · obtain ⟨K, hK, rfl | ⟨hid, -⟩⟩ := fused_find? hk htakes hK'
    · exact h.now.ids id K' hK
    · exact hid
  · obtain ⟨K, hK, rfl | ⟨-, -, htake⟩⟩ := fused_find? hk htakes hK'
    · exact h.now.sound id K' hK
    · exact (htake.sound hs h.binds (h.now.sound id K hK)).1
  · rcases hproducer.1 hid with ⟨⟨hx, -⟩, rfl⟩ | hid
    · exact ⟨List.mem_append_left _ hid₀, mem_letNames_of_pattern h.pattern hx⟩
    · exact h.now.producers x id hid
  · rcases h.disjoint_or_eq hq with rfl | hne
    · -- a replicate binds one name, so its names trivially stay together
      cases origin with
      | combinator =>
        rw [ha.producers, ha.producers, if_pos ⟨hx, .inl rfl⟩, if_pos ⟨hy, .inl rfl⟩]
      | replicate =>
        obtain ⟨z, rfl⟩ := hsingle rfl
        rw [List.mem_singleton.1 hx, List.mem_singleton.1 hy]
    · rw [ha.producers, ha.producers, if_neg fun hmem => hne x hx hmem.1,
        if_neg fun hmem => hne y hy hmem.1]
      exact h.now.together q hq x hx y hy
  · obtain ⟨K, hK, hor⟩ := fused_find? hk htakes hK'
    have hpat : K'.pattern = K.pattern := hor.elim (congrArg _) fun htake => htake.2.2.pattern
    exact hproducer.2 (.inr (h.now.patterns id K hK x (hpat ▸ hx)))
  · exact (ha.readers x id hid).elim (fun hid => List.mem_append_left _ (hids id hid))
      (h.now.readers x id)
  · -- the stage does not read its own names, and they were not forbidden
    rcases hdropped.1 hx with ⟨hxp, hf⟩ | hx
    · rcases ha.touches x ht with ht | ht | ⟨hnot, -⟩
      · exact (h.names x hxp).2.1 (h.reads x ht).1
      · exact hf.elim (fun ho => hfusable ho x hxp ht) fun hnot => hnot ht
      · exact hnot hxp
    · rcases ha.touches x ht with ht | ht | ⟨-, ht⟩
      · exact Coherent.not_dropped (h.producerOf_read ht) hx
      · exact h.now.dropped x hx (.inl ht)
      · exact h.now.dropped x hx (.inr ht)
  · rcases hproducer.1 hid' with ⟨hname, -⟩ | hid'
    · exact .inl (hdropped.2 (.inl hname))
    · rcases fused_holds h hk htakes hs hx (h.now.producers x _ hid').2 with hx | ⟨ho, hxP⟩
      · exact (h.now.nested id x id' hx hid').imp_left fun hx => hdropped.2 (.inr hx)
      · exact (h.producerOf_held hxP hid').symm.imp (fun hx => hdropped.2 (.inr hx))
          (pair_sublist_append ho)

/-- What a stage does to the registry that is fused into kernels. -/
theorem advances_fused : r₀.Advances Λ T (P ∪ p.nameSet) H o ω r' where
  coherent := coherent_fused h ha hk htakes hid₀ hids hfusable hsingle hs
  touched := fun x hx => by
    rcases ha.touches x hx with hx | hx | ⟨-, hx⟩
    · exact .inr (h.reads x hx).1
    · exact h.advances.touched x (.inl hx)
    · exact h.advances.touched x (.inr hx)
  produced := fun x id hid => by
    rcases (fused_producerOf h ha).1 hid with ⟨hname, -⟩ | hid
    · exact .inr ⟨.inr hname.1, .inr ((fused_dropped h ha hk htakes hid₀).2 (.inl hname))⟩
    · refine (h.advances.produced x id hid).imp_right fun ⟨hx, hid⟩ => ⟨.inl hx, ?_⟩
      exact hid.imp_right fun hx => (fused_dropped h ha hk htakes hid₀).2 (.inr hx)
  keeps := fun x id hid => (fused_producerOf h ha).2 (.inr (h.advances.keeps x id hid))
  consumers := fun x hxT hxP =>
    (ha.consumers x (fun hx => hxP (.inr hx)) fun hx => hxT (h.reads x hx).1).trans
      (h.advances.consumers x hxT fun hx => hxP (.inl hx))
  patterns := fun id K hK => by
    obtain ⟨K', hK', hpat⟩ := h.advances.patterns id K hK
    obtain ⟨K'', hK'', hpat'⟩ := fused_kernel hk htakes hK'
    exact ⟨K'', hK'', hpat'.trans hpat⟩
  -- what a kernel holds behind the step it held before or took over from the stage
  held := fun id x hx hΛ => by
    rcases fused_holds h hk htakes hs hx hΛ with hx | ⟨-, hx⟩
    · exact h.advances.held id x hx hΛ
    · exact .inr hx

end

/-! ### The decision -/

/-- What a decision does to the registry, whatever it is. -/
theorem advances_of_placed {c : Config} {origin : Origin} {a b : Progress} {r' : Registry}
    (h : Incoming Λ T P H o ω r₀ r p g) (harity : g.arity = p.length)
    (hsingle : origin = .replicate → ∃ x, p = [x]) (hs : ∀ x ∈ letNames Λ, x.tag < a.names.count)
    (hroom : b.names.InRange)
    (hnew : ∀ id ∈ o ++ ω, id.index < a.nextKernel) (hplaced : Placed c origin p g r a r' b) :
    ∃ ω', r₀.Advances Λ T (P ∪ p.nameSet) H o (ω' ++ ω) r' ∧ a.nextKernel ≤ b.nextKernel
      ∧ ∀ id ∈ ω', a.nextKernel ≤ id.index ∧ id.index < b.nextKernel := by
  cases hplaced with
  | @fused Ks' _ htried hnext =>
    obtain ⟨Ks, hKs, -, -, hinto⟩ := htried.compatible
    -- the kernels that read the results were there before the code in front was analysed
    have hreader : ∀ id ∈ r.candidates p.names, id ∈ o := fun id hid => by
      obtain ⟨x, hx, hid⟩ := mem_candidates.1 hid
      refine h.before.readers x id ?_
      unfold consumersOf at hid ⊢
      rwa [← h.advances.consumers x (h.names x hx).2.1 (h.names x hx).2.2.1]
    have htakes : ∀ K' ∈ Ks', ∃ K, r.kernels.find? K'.id = some K ∧ K'.id ∈ o
        ∧ Kernel.Takes g a.names b.names K K' := fun K' hK' => by
      obtain ⟨K, hK, htake⟩ := Recipe.exists_of_forall₂ hinto.takes.2 hK'
      obtain ⟨id, hid, hfind⟩ := Recipe.exists_of_forall₂ (mem_of_mapM_kernel hKs) hK
      have heq : K'.id = id := htake.id.trans (h.now.ids id K hfind)
      exact ⟨K, heq ▸ hfind, heq ▸ hreader id hid, htake⟩
    have hne : Ks' ≠ [] := by
      rintro rfl
      have hlen := hinto.takes.2.length_eq.trans List.length_nil
      rw [List.length_eq_zero_iff] at hlen
      subst hlen
      cases hids : r.candidates p.names with
      | nil => exact htried.candidates hids
      | cons id ids =>
        have hlen := (mem_of_mapM_kernel hKs).length_eq
        rw [hids] at hlen
        cases hlen
    obtain ⟨K, Ks', rfl⟩ := List.exists_cons_of_ne_nil hne
    refine ⟨[], advances_fused h (absorbed_fused r origin p g K Ks') (kernels_fused r origin p g _)
      htakes (htakes K List.mem_cons_self).choose_spec.2.1 (fun id hid => ?_) htried.fusable hsingle
      (until_subset_foreign hs hroom), hnext.ge, nofun⟩
    obtain ⟨K', hK', rfl⟩ := List.mem_map.1 hid
    exact (htakes K' hK').choose_spec.2.1
  | stays _ _ hnext =>
    exact ⟨[], h.advances.mono subset_rfl Set.subset_union_left subset_rfl, hnext.ge, nofun⟩
  | @registered reason s K _ _ htry hnext hK =>
    have hnewK := Placed.isNew hK
    have hle := (grows_tryFuse r c origin p g a.names).of_ok htry
    obtain ⟨hsound, hholds⟩ := hnewK.sound
      (until_subset_foreign (fun x hx => Nat.lt_of_lt_of_le (hs x hx) hle) hroom) h.binds
        h.pattern harity
    -- ids are given out in order
    have hfresh : K.id ∉ o ++ ω := fun hmem => by
      have := hnew _ hmem
      rw [hnewK.id] at this
      exact Nat.lt_irrefl _ this
    refine ⟨[K.id], advances_registered h (registered_register r K) hnewK.pattern hsound hfresh
      (fun x hx hΛ => h.holds x (hholds x hx hΛ) hΛ) hnewK.reads, by omega, fun id hid => ?_⟩
    rw [List.mem_singleton.1 hid, hnewK.id]
    exact ⟨Nat.le_refl _, by change a.nextKernel < b.nextKernel; omega⟩

end Incoming

end Registry

end ArrayFusion
