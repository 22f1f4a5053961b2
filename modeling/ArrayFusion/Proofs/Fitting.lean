import ArrayFusion.Proofs.Offers

/-!
# Kernels that fit take producers in

A kernel that fits and takes in a stage on offer fits again (`Kernel.FitsAt.fuseInto`), as long as
the two bind different names.  When a stage is fused into several kernels, no two of them bind the
same names afterwards: the first one binds what the stage does, and each one binds names that the
supply handed out for it (`Registry.FusedInto.fits`).
-/

namespace ArrayFusion

open Eval (Yields Uniform Refines)
open Spot (Reaches)

/-! ## Taking a producer in -/

/-- The names of a set that the kernel for a `let` at a spot may bind. -/
def Ground.confine (g : Ground) (O : Set Name) (k : Spot) : Set Name :=
  {x | x ∈ O ∧ (x ∈ k.zone ∨ g.fresh ≤ x.tag)}

section

variable {g : Ground} {root k kK : Spot} {r : Registry} {p pK : Pattern} {e eK b bK : Exp}
    {s sK : Span} {G O : Set Name} {st : Stage} {K K' : Kernel} {t t' : NameSupply}

/-- What a `let` offers is glued together where its code may become part of a kernel. -/
theorem Stage.Offers.glued (h : st.Offers g root k r G e) (hg : g.Sound) (hkK : g.start.Reaches kK)
    (hnames : k.site.names ⊆ kK.site.names) (hknown : k.site.known ⊆ kK.site.known)
    (hbinders : ∀ x ∈ e.binders, x ∈ kK.zone ∧ x ∉ pK.names) :
    GluedStage (root.Feeds kK pK) (r.fixed g root) G kK.site.names st := by
  have hfeeds : ∀ o, root.Gives k e o → root.Feeds kK pK o := fun o ho =>
    ⟨ho.reached, ho.known.trans hknown, fun x hx => hbinders x (ho.binders x hx)⟩
  -- what is in scope behind the stage is none of its own names, old or fresh
  have hnew : ∀ x ∈ kK.site.names, x ∈ k.site.names ∨ x ∉ G := fun x hx => .inr fun hG =>
    (h.bound x hG).elim (fun hb => (hg.clear_at hkK).notMem_zone hx (hbinders x hb).1)
      fun htag => absurd (hg.tag_name hkK hx) (Nat.not_lt.2 htag)
  have hpiece : ∀ d, d ∈ st.op.neutral ∨ (∃ a ∈ st.operands, d ∈ a.exps) →
      Glued (root.Feeds kK pK) (r.fixed g root) G kK.site.names d := fun d hd =>
    .piece (hfeeds _ (h.pieces d hd)) hnames
  exact ⟨fun f hf => (h.lambdas f hf).change hfeeds (fun _ hx => hx) (fun _ hx =>
    .inl hx) subset_rfl hnames hnew, fun d hd => hpiece d (.inl hd), fun a ha x hx =>
      ⟨hnames (h.sources a ha x hx).1, (h.sources a ha x hx).2⟩,
    fun a ha d hd => hpiece d (.inr ⟨a, ha, hd⟩), h.shaped⟩

/-- Behind a `let`, what its right-hand side binds is bound before. -/
theorem Ground.Sound.binders_behind (hg : g.Sound) (hkK : g.start.Reaches kK)
    (hcode : kK.code = .letIn pK eK bK sK) (hle : k.site.bind p e ≤ kK.site) :
    ∀ x ∈ e.binders, x ∈ kK.zone ∧ x ∉ pK.names := by
  obtain ⟨-, -, hbinders, -, -⟩ := hg.let_facts hkK hcode
  exact fun x hx => ⟨.inr ⟨_, hle.2 (.inl rfl), hx⟩, fun hp =>
    ((hg.clear_at hkK).apart _ (hle.2 (.inl rfl)) x hx).2 (hbinders x hp)⟩

theorem Ground.confine_mono {O' : Set Name} (h : O ⊆ O') : g.confine O k ⊆ g.confine O' k :=
  fun _ hx => ⟨h hx.1, hx.2⟩

/-- A name that is read as a whole is in scope. -/
theorem GluedStage.wholeNames_subset {piece : Spot → Prop} {fixed V : Set Name}
    (h : GluedStage piece fixed G V st) {x : Name} (hx : x ∈ st.wholeNames) : x ∈ V := by
  obtain ⟨a, ha, hwhole⟩ := List.mem_filterMap.1 hx
  refine (h.sources a ha x ?_).1
  cases a with
  | whole y => exact hwhole
  | _ => cases hwhole

/-- A reduction that took nothing in has the lambda of its `let`. -/
theorem Kernel.FitsAt.tidy_reduce (h : K.FitsAt g root (r.fixed g root) G kK eK) (hg : g.Sound)
    (hroot : g.start.Reaches root) {f : Lambda} {ne : List Exp} (hop : K.stage.op = .reduce f ne) :
    ∃ B, f.Tidy false B (kK.site.names ∩ r.fixed g root) := by
  obtain ⟨b, s, hcode⟩ := h.code
  have hstage := h.original (h.reduced f ne hop)
  cases eK with
  | soac op es cs s₁ =>
    obtain ⟨as, -, heq⟩ := Stage.ofExp?_eq_ok hstage
    rw [heq] at hop
    obtain rfl : op = .reduce f ne := hop
    exact hg.tidy_lambda hroot h.reached hcode (List.mem_singleton_self f)
  | _ => cases hstage

/-- The glue of a stage on offer, that of a kernel which took the names `t.until t₁`, and what the
supply hands out from there on keep apart. -/
theorem Stage.Offers.composable {t₁ : NameSupply} (h : st.Offers g root k r G e) (hg : g.Sound)
    (hkK : g.start.Reaches kK) (hknown : (p, e) ∈ kK.site.known) (hfresh : g.fresh ≤ t.count)
    (hnext : t.count ≤ t₁.count) (hnext' : t₁.count ≤ t'.count) (hroom : t'.InRange)
    (hbelow : ∀ x, x ∈ G ∨ x ∈ O → x.tag < t.count ∧ x ∉ g.arrays) (hapart : ∀ x ∈ G, x ∉ O) :
    Composable (r.fixed g root) G (g.confine (O ∪ t.until t₁) kK)
      (g.confine (O ∪ G ∪ t.until t') kK) kK.site.names t₁ t' := by
  have hfirst : t.until t₁ ⊆ t.until t' := NameSupply.until_subset (Nat.le_refl _) hnext'
  have hsecond : t₁.until t' ⊆ t.until t' := NameSupply.until_subset hnext (Nat.le_refl _)
  have hnew : ∀ {x : Name}, x ∈ t.until t' → g.fresh ≤ x.tag := fun hx =>
    Nat.le_trans hfresh (hroom.le_of_mem_until hx)
  exact {
    apart := fun x hx hin => hin.1.elim (hapart x hx) fun hin =>
      absurd (hbelow x (.inl hx)).1 (Nat.not_lt.2 (hroom.le_of_mem_until (hfirst hin)))
    below := fun x hx => by
      rcases hx with hx | ⟨hx | hx, -⟩ | hx
      · exact Nat.lt_of_lt_of_le (hbelow x (.inl hx)).1 hnext
      · exact Nat.lt_of_lt_of_le (hbelow x (.inr hx)).1 hnext
      · exact NameSupply.lt_of_mem_until hx
      · exact Nat.lt_of_lt_of_le (hg.tag_name hkK hx) (Nat.le_trans hfresh hnext)
    producer := fun x hx => ⟨.inl (.inr hx), (h.bound x hx).imp_left fun hx => .inr ⟨_, hknown, hx⟩⟩
    consumer := fun x hx => ⟨hx.1.elim (fun hx => .inl (.inl hx)) fun hx => .inr (hfirst hx), hx.2⟩
    room := hroom
    handedOut := fun x hx => ⟨.inr (hsecond hx), .inr (hnew (hsecond hx))⟩
    fixed := fun x hx ha => absurd ha (hx.1.elim (fun hx => (hbelow x hx.symm).2) fun hx =>
      hg.notMem_arrays (hnew hx)) }

/-- A kernel that fits fits again with a producer in it, one of whose results it reads. -/
theorem Kernel.FitsAt.fuseInto (h : K.FitsAt g root (r.fixed g root) (g.confine O kK) kK eK)
    (hg : g.Sound) (hroot : g.start.Reaches root) (hk : root.Reaches k)
    (hcode : k.code = .letIn p e b s) (hst : st.Offers g root k r G e)
    (hfuse : (Producer.mk st p).fuseInto K t = .ok (some K', t')) (hroom : t'.InRange)
    (hread : ∃ x ∈ p.names, x ∈ K.stage.wholeNames) (harrays : ∀ x ∈ p.names, x ∈ g.arrays)
    (hfresh : g.fresh ≤ t.count) (hbelow : ∀ x, x ∈ G ∨ x ∈ O → x.tag < t.count ∧ x ∉ g.arrays)
    (hapart : ∀ x ∈ G, x ∉ O) :
    K'.FitsAt g root (r.fixed g root) (g.confine (O ∪ G ∪ t.until t') kK) kK eK := by
  have hkK := hroot.trans h.reached
  have hclear := hg.clear_at hkK
  obtain ⟨bK, sK, hcodeK⟩ := h.code
  obtain ⟨hparity, hkarity, op, operands, outputs, hcomposed, rfl, -⟩ :=
    Producer.fuseInto_eq_ok hfuse
  obtain ⟨y, hyp, hyK⟩ := hread
  -- the kernel reads a result, so the `let` of the stage stands around it
  have hle := hg.bind_le (hroot.trans hk) hcode hkK hyp (h.glued.wholeNames_subset hyK)
  have hknown : (p, e) ∈ kK.site.known := hle.2 (.inl rfl)
  have hglued := hst.glued hg hkK (fun x hx => hle.1 (.inl hx)) (fun l hl => hle.2 (.inr hl))
    (hg.binders_behind hkK hcodeK hle)
  have hpiece : ∀ o, root.Feeds kK K.pattern o → o.Clear := fun o ho =>
    hg.clear_at (hroot.trans ho.reached)
  have hnext := K.stage.count_le_asRedomap t
  have hnext' := hcomposed.count_le
  have hfirst : t.until (K.stage.asRedomap t).2 ⊆ t.until t' :=
    NameSupply.until_subset (Nat.le_refl _) hnext'
  have hsecond : (K.stage.asRedomap t).2.until t' ⊆ t.until t' :=
    NameSupply.until_subset hnext (Nat.le_refl _)
  have hs := hst.composable hg hkK hknown hfresh hnext hnext' hroom hbelow hapart
  -- the kernel as a redomap is glued with the names that its copy takes
  have hconsumer : GluedStage (root.Feeds kK K.pattern) (r.fixed g root)
      (g.confine (O ∪ t.until (K.stage.asRedomap t).2) kK) kK.site.names (K.stage.asRedomap t).1 :=
    h.glued.asRedomap (fun x hx => Nat.lt_of_lt_of_le (hg.tag_name hkK hx) hfresh) (fun f ne hop => h.tidy_reduce hg hroot hop)
      (Ground.confine_mono Set.subset_union_left) (hroom.of_le hnext')
      (fun x hx => ⟨.inr hx, .inr (Nat.le_trans hfresh (hroom.le_of_mem_until (hfirst hx)))⟩)
      (hs.consumer.trans hs.fixed)
  obtain ⟨extra, houts, hnodup, hextra⟩ := h.outputs
  obtain ⟨unused, houtputs, hunused, hfreshened⟩ := hcomposed.outputs
  have hlink : ∃ a ∈ (K.stage.asRedomap t).1.operands, ∃ i, Recipe.link p a = some i := by
    rw [K.stage.operands_asRedomap]
    exact Stage.exists_link hyp hyK
  refine {
    reached := h.reached
    code := ⟨bK, sK, hcodeK⟩
    transforms := h.transforms
    outputs := ⟨extra ++ unused, ?_, ?_, fun x hx => ?_⟩
    glued := hcomposed.glued hs hglued hconsumer hpiece hparity
    stands := fun call hu env hknows v vs j hv hvs => ?_
    fused := fun x hx => (List.mem_append.1 hx).elim (h.fused x) (harrays x)
    original := fun hnil => absurd hyp ?_
    reduced := fun f ne hop => ?_ }
  · change outputs = _
    rw [houtputs, houts, List.append_assoc]
  · rw [Pattern.names_append]
    refine List.nodup_append.2 ⟨hnodup, hunused (hroom.serves _), fun x hx y hy hxy => ?_⟩
    subst hxy
    exact absurd (hbelow x (.inr (hextra x hx).1.1)).1
      (Nat.not_lt.2 (hroom.le_of_mem_until (hsecond (hfreshened x hy))))
  · rcases Pattern.mem_names_append.1 hx with hx | hx
    · exact ⟨⟨.inl (.inl (hextra x hx).1.1), (hextra x hx).1.2⟩, (hextra x hx).2⟩
    · exact ⟨hs.handedOut (hfreshened x hx),
        Nat.le_trans hfresh (hroom.le_of_mem_until (hsecond (hfreshened x hx)))⟩
  · -- if the `let` of the kernel yields values, then so did the kernel, and by the `let` of the
    -- stage the composition does
    obtain ⟨ws, i, hws, hlen⟩ := h.stands call hu env hknows v vs j hv hvs
    obtain ⟨u, us, i', hu', hus, hlookup⟩ := hknows _ hknown
    obtain ⟨i'', hproducer⟩ := hst.yields call hu env (hknows.mono fun l hl =>
      hle.2 (.inr hl)) u i' hu'
    rw [← Stage.eval_asRedomap call env K.stage t] at hws
    have harity := hkarity.trans (K.stage.arity_asRedomap t).symm
    obtain ⟨ws', i₁, hws', hlen'⟩ := hcomposed.yields hu (hroom.serves _)
      (hs.lambdas_apart (hglued.lambdas _ st.op.element_mem_lambdas)
        (hconsumer.lambdas _ (Combinator.element_mem_lambdas _)) hpiece)
      hst.shaped hconsumer.shaped hparity harity hlink hproducer hus hlookup hlen hws
    exact ⟨ws ++ ws', i₁, by rwa [← List.append_assoc], by rwa [← List.append_assoc]⟩
  · rw [show p.names = [] from (List.append_eq_nil_iff.1 hnil).2]
    exact List.not_mem_nil
  · have hkind := hcomposed.kind_eq.symm.trans (congrArg Combinator.kind hop)
    rcases hcomposed.kind_consumer with hc | hc | hc <;> exact absurd (hc.symm.trans hkind) nofun

end

section
variable {g : Ground} {root k : Spot} {r : Registry} {p : Pattern} {e b : Exp} {s : Span}
    {G O : Set Name} {st : Stage}

/-- The kernel for a `let` that stays fits. -/
theorem Stage.Offers.fits_new (h : st.Offers g root k r G e) (hg : g.Sound)
    (hroot : g.start.Reaches root) (hk : root.Reaches k) (hcode : k.code = .letIn p e b s)
    (hstage : Stage.ofExp? e = .ok (some st)) (hG : G ⊆ O) (id : KernelId) :
    (Kernel.new id st p).FitsAt g root (r.fixed g root) (g.confine O k) k e := by
  have hreach := hroot.trans hk
  have hbinders : k.code.binders = p.names ++ e.binders ++ b.binders := by
    rw [hcode]
    rfl
  -- what the right-hand side binds is not bound by the pattern
  have hzone : ∀ x ∈ e.binders, x ∈ k.zone ∧ x ∉ p.names := fun x hx => by
    have hnodup := (hg.clear_at hreach).nodup
    rw [hbinders, List.append_assoc] at hnodup
    refine ⟨.inl ?_, fun hp => (List.nodup_append.1 hnodup).2.2 x hp x
      (List.mem_append_left _ hx) rfl⟩
    rw [hbinders]
    exact List.mem_append_left _ (List.mem_append_right _ hx)
  have hglued := h.glued hg hreach subset_rfl subset_rfl hzone
  exact {
    reached := hk
    code := ⟨b, s, hcode⟩
    transforms := rfl
    outputs := ⟨[], (List.append_nil p).symm, List.nodup_nil, nofun⟩
    glued := hglued.change (fun _ ho => ho) (fun _ hx => hx) (fun _ hx => .inl hx)
      (fun x hx => ⟨hG hx, (h.bound x hx).imp_left fun hx => (hzone x hx).1⟩) subset_rfl fun _ hx =>
        .inl hx
    stands := fun call hu env hknows v vs j hv hvs => by
      obtain ⟨j', hj'⟩ := h.yields call hu env hknows v j hv
      refine ⟨[], j', ?_, ?_⟩
      · rwa [List.append_nil, Value.ofResults_of_results hvs]
      · rw [List.append_nil]
        exact Value.length_of_results hvs
    fused := nofun
    original := fun _ => hstage
    reduced := fun _ _ _ => rfl }
end

/-! ## Several kernels -/

section

variable {g : Ground} {root k : Spot} {r : Registry} {p : Pattern} {e b : Exp} {s : Span}
    {G : Set Name} {O : KernelId → Set Name} {st : Stage} {Ks Ks' : List Kernel} {t t' : NameSupply}

theorem Kernel.FitsAt.widen {K : Kernel} {fixed G' : Set Name} (h : K.FitsAt g root fixed G k e)
    (hG : G ⊆ G') : K.FitsAt g root fixed G' k e :=
  h.change .refl (fun _ hx => hx) (fun _ hx => .inl hx) hG

/-- A kernel that fits, with names that it may own, and reads one of the results of a pattern. -/
def Kernel.Awaits (g : Ground) (root : Spot) (r : Registry) (O : KernelId → Set Name) (p : Pattern)
    (K : Kernel) :
    Prop :=
  (∃ kK eK, K.FitsAt g root (r.fixed g root) (g.confine (O K.id) kK) kK eK)
    ∧ ∃ x ∈ p.names, x ∈ K.stage.wholeNames

/-- Parts of what the supply hands out, one for each kernel: no two of them share a name. -/
structure NameSupply.Shares (t t' : NameSupply) (N : KernelId → Set Name) : Prop where
  handedOut : ∀ id, N id ⊆ t.until t'
  apart : ∀ id id' x, x ∈ N id → x ∈ N id' → id = id'

/-- A kernel gets what the supply hands out first. -/
theorem NameSupply.Shares.update {t₁ : NameSupply} {N : KernelId → Set Name} (h : t₁.Shares t' N)
    (hroom : t'.InRange) (hle : t.count ≤ t₁.count) (hle' : t₁.count ≤ t'.count) (id : KernelId) :
    t.Shares t' (Function.update N id (t.until t₁)) := by
  -- what was handed out first goes to the one kernel, and all that follows has larger tags
  have hother : ∀ {id' x}, id' ≠ id → x ∈ Function.update N id (t.until t₁) id' → x ∈ N id' :=
      fun hne hx => by
    rwa [Function.update_of_ne hne] at hx
  have hfirst : ∀ {x}, x ∈ Function.update N id (t.until t₁) id → x.tag < t₁.count := fun hx => by
    rw [Function.update_self] at hx
    exact NameSupply.lt_of_mem_until hx
  have hlater : ∀ {id x}, x ∈ N id → t₁.count ≤ x.tag := fun hx =>
    hroom.le_of_mem_until (h.handedOut _ hx)
  refine ⟨fun id' x hx => ?_, fun id₁ id₂ x h₁ h₂ => ?_⟩
  · by_cases hid : id' = id
    · subst hid
      rw [Function.update_self] at hx
      exact NameSupply.until_subset (Nat.le_refl _) hle' hx
    · exact NameSupply.until_subset hle (Nat.le_refl _) (h.handedOut id' (hother hid hx))
  · by_cases hid₁ : id₁ = id <;> by_cases hid₂ : id₂ = id
    · exact hid₁.trans hid₂.symm
    · subst hid₁
      exact absurd (hfirst h₁) (Nat.not_lt.2 (hlater (hother hid₂ h₂)))
    · subst hid₂
      exact absurd (hfirst h₂) (Nat.not_lt.2 (hlater (hother hid₁ h₁)))
    · exact h.apart id₁ id₂ x (hother hid₁ h₁) (hother hid₂ h₂)

variable (hg : g.Sound) (hroot : g.start.Reaches root) (hk : root.Reaches k)
  (hcode : k.code = .letIn p e b s) (hst : st.Offers g root k r G e)
  (harrays : ∀ x ∈ p.names, x ∈ g.arrays) (hfresh : g.fresh ≤ t.count)
  (hO : ∀ id, ∀ x ∈ O id, x.tag < t.count ∧ x ∉ g.arrays)
include hg hroot hk hcode hst harrays hfresh hO

namespace Registry.FusedInto

/-- Kernels that fit take copies in: each owns what the supply handed out for it. -/
theorem fits_copies {first : Bool} (h : r.FusedInto st p first Ks t Ks' t') (hfirst : first = false)
    (hroom : t'.InRange) (hkind : st.kind = .map ∨ st.kind = .filter)
    (hcopies : ∀ f ∈ st.op.lambdas, r.Copies g root k f) (hids : (Ks.map (·.id)).Nodup)
    (hKs : ∀ K ∈ Ks, K.Awaits g root r O p) : ∃ N, t.Shares t' N ∧ ∀ K' ∈ Ks', ∃ kK eK,
      K'.FitsAt g root (r.fixed g root) (g.confine (O K'.id ∪ N K'.id) kK) kK eK := by
  induction h with
  | nil => exact ⟨fun _ => ∅, ⟨fun _ => Set.empty_subset _, nofun⟩, nofun⟩
  | first => cases hfirst
  | @copy g' K K' Ks Ks' t t₁ t₂ t' hcopy hfuse hinto ih =>
    obtain ⟨⟨⟨kK, eK, hfits⟩, hread⟩, hKs⟩ := List.forall_mem_cons.1 hKs
    obtain ⟨hid, hids⟩ := List.nodup_cons.1 hids
    have hle₁ := count_le_copyOf hcopy
    have hle₂ := Producer.count_le_fuseInto hfuse
    have hle₃ := hinto.takes.1
    -- the names of the copy come first, then those of the composition, and then those of the
    -- others
    have hroom₂ : t₂.InRange := hroom.of_le hle₃
    have hroom₁ : t₁.InRange := hroom₂.of_le hle₂
    have hcopied := hst.copyOf hg (hroot.trans hk) hkind hcopies hfresh hcopy hroom₁
    obtain ⟨N, hN, hfits'⟩ := ih (Nat.le_trans hfresh (Nat.le_trans hle₁ hle₂)) (fun id x hx =>
      ⟨Nat.lt_of_lt_of_le (hO id x hx).1 (Nat.le_trans hle₁ hle₂), (hO id x hx).2⟩) rfl hroom
        hids hKs
    have hnew : ∀ x ∈ t.until t₁, x.tag < t₁.count ∧ x ∉ g.arrays := fun x hx =>
      ⟨NameSupply.lt_of_mem_until hx,
        hg.notMem_arrays (Nat.le_trans hfresh (hroom₁.le_of_mem_until hx))⟩
    -- the copy is fused into the first kernel, with fresh names of its own as glue
    have hfits₁ := hfits.fuseInto hg hroot hk hcode hcopied hfuse hroom₂ hread harrays
      (Nat.le_trans hfresh hle₁)
      (fun x hx => hx.elim (hnew x) fun hx =>
        ⟨Nat.lt_of_lt_of_le (hO _ x hx).1 hle₁, (hO _ x hx).2⟩)
      fun x hx hin => absurd (hO _ x hin).1 (Nat.not_lt.2 (hroom₁.le_of_mem_until hx))
    refine ⟨_, hN.update hroom (Nat.le_trans hle₁ hle₂) hle₃ K.id,
      List.forall_mem_cons.2 ⟨⟨kK, eK, ?_⟩, fun K'' hK'' => ?_⟩⟩
    · rw [(Producer.extends_fuseInto hfuse).id, Function.update_self]
      refine hfits₁.widen (Ground.confine_mono fun x hx => ?_)
      rcases hx with (hx | hx) | hx
      · exact .inl hx
      · exact .inr (NameSupply.until_subset (Nat.le_refl _) hle₂ hx)
      · exact .inr (NameSupply.until_subset hle₁ (Nat.le_refl _) hx)
    · -- the other kernels have other numbers, so their shares stay
      obtain ⟨K₁, hK₁, hextends⟩ := Recipe.exists_of_forall₂ hinto.extends hK''
      rw [Function.update_of_ne fun heq => hid
        (List.mem_map.2 ⟨K₁, hK₁, hextends.id.symm.trans heq⟩)]
      exact hfits' K'' hK''

/-- Kernels that fit take a stage in: the first one owns what the stage binds, and each one what the
supply handed out for it. -/
theorem fits {K₀ : Kernel} (h : r.FusedInto st p true (K₀ :: Ks) t Ks' t')
    (hroom : t'.InRange) (hkind : st.kind = .map ∨ st.kind = .filter)
    (hcopies : ∀ f ∈ st.op.lambdas, r.Copies g root k f) (hids : ((K₀ :: Ks).map (·.id)).Nodup)
    (hKs : ∀ K ∈ K₀ :: Ks, K.Awaits g root r O p)
    (hG : ∀ x ∈ G, (x.tag < t.count ∧ x ∉ g.arrays) ∧ ∀ id, x ∉ O id) :
    ∃ N, t.Shares t' N ∧ ∀ K' ∈ Ks', ∃ kK eK, K'.FitsAt g root (r.fixed g root)
      (g.confine (O K'.id ∪ {x | x ∈ G ∧ K'.id = K₀.id} ∪ N K'.id) kK) kK eK := by
  cases h with
  | @first _ K' _ Ks' _ t₁ _ hfuse hinto =>
    obtain ⟨⟨⟨kK, eK, hfits⟩, hread⟩, hKs⟩ := List.forall_mem_cons.1 hKs
    obtain ⟨hid, hids⟩ := List.nodup_cons.1 hids
    have hle₁ := Producer.count_le_fuseInto hfuse
    have hle₂ := hinto.takes.1
    -- the first kernel takes the stage itself, and with it the names of the stage as glue
    have hfits₁ := hfits.fuseInto hg hroot hk hcode hst hfuse
      (hroom.of_le hle₂) hread harrays hfresh
      (fun x hx => hx.elim (fun hx => (hG x hx).1) (hO _ x)) fun x hx => (hG x hx).2 _
    -- the others take copies
    obtain ⟨N, hN, hfits'⟩ := hinto.fits_copies hg hroot hk hcode hst harrays
      (Nat.le_trans hfresh hle₁)
      (fun id x hx => ⟨Nat.lt_of_lt_of_le (hO id x hx).1 hle₁, (hO id x hx).2⟩) rfl hroom hkind
        hcopies hids hKs
    refine ⟨_, hN.update hroom hle₁ hle₂ K₀.id,
      List.forall_mem_cons.2 ⟨⟨kK, eK, ?_⟩, fun K'' hK'' => ?_⟩⟩
    · rw [(Producer.extends_fuseInto hfuse).id, Function.update_self]
      exact hfits₁.widen (Ground.confine_mono fun x hx =>
        hx.imp_left (Or.imp_right fun hx => ⟨hx, rfl⟩))
    · obtain ⟨K₁, hK₁, hextends⟩ := Recipe.exists_of_forall₂ hinto.extends hK''
      rw [Function.update_of_ne fun heq => hid
        (List.mem_map.2 ⟨K₁, hK₁, hextends.id.symm.trans heq⟩)]
      obtain ⟨kK'', eK'', hK''⟩ := hfits' K'' hK''
      exact ⟨kK'', eK'', hK''.widen (Ground.confine_mono fun x hx => hx.imp_left .inl)⟩

end Registry.FusedInto
end

end ArrayFusion
