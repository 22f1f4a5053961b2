import ArrayFusion.Proofs.Accounted
import ArrayFusion.Proofs.Securing

/-!
# Regions are ready for emission

The analysis of a region leaves a registry by which its code is emitted faithfully, as soon as the
kernels in it fit (`Registry.Secure.ready`).  What is analysed after the region leaves the kernels
for it alone (`Course.keeps_kernel`).  So a lambda whose body is a region can be copied for several
kernels (`Registry.Ready.copies`).
-/

namespace ArrayFusion

open Eval (Yields Uniform Refines)
open Spot (Reaches)

/-! ## What an analysis leaves alone -/

namespace Course

variable {c : Config} {l : Log} {r r' : Registry} {a b : Progress} {x : Name} {id : KernelId}
    {K : Kernel}

/-- A kernel stays, but for what is updated in place before it, if it reads as a whole no name that
a decision is about. -/
theorem keeps_kernel (h : Course c l r a r' b) {m : Nat} (hindexed : r.Indexed)
    (hn : r.Numbered m a.nextKernel) (hm : m ≤ a.nextKernel) (hK : r.kernels.find? id = some K)
    (hreads : ∀ x ∈ K.stage.wholeNames, x ∉ logNames l) :
    ∃ K', r'.kernels.find? id = some K' ∧ K.Alike K' := by
  induction h generalizing m K with
  | nil | forbid => exact ⟨K, hK, .refl K⟩
  | noteUpdate y => exact ⟨_, by rw [Registry.find?_noteUpdate, hK]; rfl, (Kernel.Alike.refl K).noteUpdate y⟩
  | append h _ ih ih' =>
    simp only [logNames_append, List.mem_append, not_or] at hreads
    obtain ⟨hle, hn'⟩ := h.numbered hn hm
    -- the names noted on the way add up
    obtain ⟨K₁, hK₁, xs, rfl⟩ := ih hindexed hn hm hK fun x hx => (hreads x hx).1
    obtain ⟨K₂, hK₂, ys, rfl⟩ := ih' (h.indexed hindexed hn hm) hn'
        (Nat.le_trans hm hle) hK₁ fun x hx =>
      (hreads x hx).2
    exact ⟨_, hK₂, ys, rfl⟩
  | @meet _ _ a _ _ xs ys h _ _ =>
    -- a region numbers its kernels apart from the ones that are there
    have hq := (h.numbered (Registry.numbered_empty a.nextKernel a.nextKernel) (Nat.le_refl _)).2
    refine ⟨K, ?_, .refl K⟩
    rw [Registry.kernels_forbid, Registry.kernels_forbid, Registry.find?_union,
      hn.find?_eq_none hq hK, hK]
    rfl
  | @place r a _ _ _ s st _ _ _ _ _ _ hdecided =>
    rw [logNames_singleton] at hreads
    cases hdecided with
    | fused htried =>
      refine ⟨K, ?_, .refl K⟩
      rw [(htried.find?_fused hn).2 id fun hid => ?_, hK]
      -- a kernel that takes the stage reads a name of the log, and this one reads none
      obtain ⟨x, hx, hreader⟩ := Registry.mem_candidates.1 hid
      obtain ⟨K', hK', hwhole⟩ := (hindexed.readers x id).1 hreader
      cases hK'.symm.trans hK
      exact hreads x hwhole hx
    | stays => exact ⟨K, hK, .refl K⟩
    | @registered _ _ L _ _ _ _ hL =>
      refine ⟨K, ?_, .refl K⟩
      rw [(Registry.registered_register r L).kernels, if_neg fun hid => ?_, hK]
      rw [(Placed.isNew hL).id] at hid
      exact absurd (hn id K hK).2.2 (by rw [hid]; exact Nat.lt_irrefl _)

/-- A combinator that is not fused gets a kernel. -/
theorem kept_combinator (h : Course c l r a r' b) : ∀ s ∈ l, s.1.origin = .combinator →
    ∀ xs kind reason, s.2 ≠ .kept xs kind none reason := by
  induction h with
  | nil | forbid | noteUpdate => exact nofun
  | append _ _ ih ih' => exact List.forall_mem_append.2 ⟨ih, ih'⟩
  | meet _ _ _ _ ih => exact ih
  | place _ _ _ _ _ hdecided =>
    refine List.forall_mem_singleton.2 fun ho xs kind reason heq => ?_
    cases hdecided with
    | fused => cases heq
    | stays ho' => cases ho.symm.trans ho'
    | registered => cases heq

end Course

/-! ## What is left for a region -/

/-- The registry accounts for what the log has about a region. -/
structure Spot.Analysed (g : Ground) (c : Config) (o : Spot) (l : Log) (q : Registry) : Prop where
  log : l.Of o.code
  fits : ∀ s ∈ l, ∃ st, s.1.Stands st
  kept : ∀ s ∈ l, s.1.origin = .combinator → ∀ xs kind reason, s.2 ≠ .kept xs kind none reason
  coherent : ∃ ω, q.Coherent g.code.lets ω
  accounts : q.Accounts c (foreign g.code.lets) ∅ l

section

variable {g : Ground} {c : Config} {root o k : Spot} {r q : Registry} {a a₀ b : Progress} {l : Log}
  {F : KernelId → Set Name} {p : Pattern} {e d : Exp} {s : Span} {x : Name} {id : KernelId}
    {K : Kernel} {n : Nat}

theorem Ground.Sound.portion (hg : g.Sound) (ho : g.start.Reaches o) :
    Portion g.code.lets o.site.names o.code.binders o.code.lets o.code.slots where
  nodup := (hg.clear_at ho).nodup
  new := (hg.clear_at ho).new
  lets := fun _ hl => ho.lets hl
  slots := fun _ hx hlet => hg.notMem_slots hlet (ho.slots hx)

theorem Ground.Sound.tag_let (hg : g.Sound) (hx : x ∈ letNames g.code.lets) : x.tag < g.fresh :=
  hg.old x (.inr (Exp.mem_binders_of_lets hx))

/-- The analysis of a region leaves an account. -/
theorem Ground.Sound.analysed (hg : g.Sound) (ho : g.start.Reaches o)
    (hfresh : g.fresh ≤ a.names.count) (hrun : o.code.analyse c none .empty a = .ok (q, b))
    (hroom : b.names.InRange) : ∃ l, o.Analysed g c l q := by
  have hclear := hg.clear_at ho
  have hΛ := Exp.nodup_letNames hg.clear.nodup
  -- a fresh name is bound nowhere in the function
  have hforeign : ∀ x : Name, a.names.count ≤ x.tag → x ∈ foreign g.code.lets := fun x hx hlet =>
    Nat.not_lt.2 (Nat.le_trans hfresh hx) (hg.tag_let hlet)
  obtain ⟨Γ, hΓ, hscoped, -⟩ := hg.scope_at ho
  -- the code at the opening is in scope, so its binders are clear of what it reads
  have htidy : o.code.Tidy true {x | x ∈ o.code.binders} Γ.names :=
    hscoped.tidy ⟨hclear.nodup, fun _ hx => hx, fun x hx hin => hclear.new x hx (hΓ ▸ hin)⟩
  obtain ⟨l, hl, hcourse⟩ := Exp.analyse_course hrun
  have hlog := Log.of_analyse hl hrun
  have hleads := (o.code.analyses (c := c) ⟨hΛ, hg.arity⟩ none (hΓ ▸ htidy.free_subset)
    (hg.portion ho) fun _ h => absurd h (Option.some_ne_none _).symm).region a
  obtain ⟨ω, hadvances, -⟩ := (hleads.of_ok hrun).2 hroom fun x hx =>
    Nat.lt_of_not_le fun hle => hforeign x hle hx
  refine ⟨l, hlog, fun s hs => (hcourse.fits s hs).imp fun _ h => h.1, hcourse.kept_combinator,
    ⟨_, hadvances.coherent⟩, ?_⟩
  refine hcourse.accounts (fun _ _ h => h) (.empty _ _ _) Registry.indexed_empty
    (Registry.numbered_empty a.nextKernel a.nextKernel) (Nat.le_refl _)
      (hlog.nodup (Exp.nodup_letNames hclear.nodup))
    (fun x hx hforeign => hforeign ?_) (fun x hx => hforeign x (hroom.le_of_mem_until hx))
      fun s hs x hx hlet => hg.notMem_slots hlet (ho.slots ?_)
  · obtain ⟨l, hl, hx⟩ := mem_letNames.1 (hlog.names_subset hx)
    exact mem_letNames.2 ⟨l, ho.lets hl, hx⟩
  · exact Exp.subset_of_lets Exp.slots_part (hlog.binding_mem s hs) hx

section

variable (h : o.Analysed g c l q) (hg : g.Sound) (ho : g.start.Reaches o)
    (hin : (p, e) ∈ o.code.lets)
include h hg ho hin

/-- A kernel for another `let` computes what this one binds: then nobody else uses it. -/
theorem Spot.Analysed.treats_of_producer (hindexed : q.Indexed)
    (hfused : ∀ id K, q.kernels.find? id = some K → ∀ y ∈ K.fused, y ∈ g.arrays) (hx : x ∈ p.names)
    (hid : q.producerOf x = some id) (hK : q.kernels.find? id = some K)
    (hnot : x ∉ K.pattern.names) : q.Treats g p e := by
  obtain ⟨ω, hcoherent⟩ := h.coherent
  have hp : p ∈ g.code.lets.map (·.1) := List.mem_map.2 ⟨_, ho.lets hin, rfl⟩
  have hall : ∀ y ∈ p.names, q.producerOf y = some id := fun y hy =>
    (hcoherent.together p hp y hy x hx).trans hid
  -- none of the names is bound by the `let` of the kernel
  have hfar : ∀ y ∈ p.names, y ∉ K.pattern.names ∧ y ∈ K.fused := fun y hy => by
    have hnot : y ∉ K.pattern.names := fun hin =>
      hnot ((pattern_eq_of_mem (Exp.nodup_letNames hg.clear.nodup) hp
      (hcoherent.sound id K hK).pattern hy hin) ▸ hx)
    obtain ⟨K', hK', hread⟩ := hindexed.producers y id (hall y hy)
    cases hK'.symm.trans hK
    exact ⟨hnot, hread.resolve_left hnot⟩
  refine .dropped (fun hnil => ?_) hK hall (List.ne_nil_of_mem (hfar x hx).2)
    (fun heq => hnot (heq ▸ hx)) fun y hy hlive =>
      hcoherent.dropped y ⟨id, K, hall y hy, hK, (hfar y hy).1⟩ (hlive ?_)
  · subst hnil
    cases hx
  · exact hfused id K hK y (hfar y hy).2

/-- Every `let` of a region stays, or has a kernel, or is fused into one. -/
theorem Spot.Analysed.treats (hindexed : q.Indexed)
    (hfused : ∀ id K, q.kernels.find? id = some K → ∀ y ∈ K.fused, y ∈ g.arrays) :
    q.Treats g p e := by
  obtain ⟨ω, hcoherent⟩ := h.coherent
  have hnodup := Exp.nodup_letNames (hg.clear_at ho).nodup
  cases hsoac : e.isSoac with
  | false =>
    by_cases hnone : ∀ x ∈ p.names, q.producerOf x = none
    · exact .stays hnone hsoac
    push Not at hnone
    obtain ⟨x, hx, hsome⟩ := hnone
    obtain ⟨id, hid⟩ := Option.ne_none_iff_exists'.1 hsome
    obtain ⟨K, hK⟩ := hcoherent.exists_kernel hid
    refine h.treats_of_producer hg ho hin hindexed hfused hx hid hK fun hpat => ?_
    -- kernels are for combinators only
    obtain ⟨t, ht, -, horigin, hpattern, -⟩ := h.accounts.stands id K hK
    obtain ⟨st, hstands⟩ := h.fits t ht
    have hbinds : x ∈ t.1.binding.1.names := by rwa [← hpattern] at hpat
    have hrhs : t.1.rhs = e := congrArg Prod.snd
      (eq_of_mem_flatMap hnodup (h.log.binding_mem t ht) hin hbinds hx)
    rw [← hrhs, hstands.isSoac horigin] at hsoac
    cases hsoac
  | true =>
    obtain ⟨⟨_, δ⟩, hs, rfl⟩ := h.log.combinators _ hin hsoac
    have hsettles := h.accounts.settles _ hs
    rcases δ with ⟨xs, kind, ids⟩ | ⟨xs, kind, _ | id, reason⟩
    · cases e with
      | soac op es cs s₁ =>
        obtain ⟨y, hy⟩ := List.exists_mem_of_ne_nil _
          (hg.mayBind _ (ho.lets hin) op es cs s₁ rfl).nonempty
        have hy : y.name ∈ p.names := List.mem_map_of_mem hy
        obtain ⟨id, K, hid, hK, -⟩ := hsettles.2 rfl _ hy
        refine h.treats_of_producer hg ho hin hindexed hfused hy hid hK fun hpat => ?_
        -- a kernel is for a combinator that was kept
        obtain ⟨t, ht, hkept, -, hpattern, -⟩ := h.accounts.stands id K hK
        have heq := eq_of_mem_flatMap (h.log.nodup hnodup) ht hs
          (by rw [Choice.names, hpattern]; exact hpat) hy
        rw [heq] at hkept
        cases hkept
      | _ => cases hsoac
    · exact absurd rfl (h.kept _ hs rfl xs kind reason)
    · obtain ⟨K, hK, hpattern⟩ := hsettles
      obtain ⟨st, hstands⟩ := h.fits _ hs
      cases hstands with
      | combinator hst =>
        have hnames : ∀ x ∈ p.names, q.producerOf x = some id := fun x hx =>
          hcoherent.patterns id K hK x (hpattern ▸ hx)
        exact .own hK hpattern hnames hst

end

/-- By what the analysis of a region leaves, the region is emitted faithfully, if the kernels
fit. -/
theorem Registry.Secure.ready (h : q.Secure g o a b) (hg : g.Sound) (ho : g.start.Reaches o)
    (hc : c.transposePull = false) (hrun : o.code.analyse c none .empty a = .ok (q, b))
    (hroom : b.names.InRange) : ∃ F, q.Ready g o F := by
  obtain ⟨l, hanalysed⟩ := hg.analysed ho h.fresh hrun hroom
  obtain ⟨F, hF, hfits⟩ := h.fits hroom
  refine ⟨F, ho, hF.hoard hroom h.fresh, fun x hx _ =>
    Exp.exposes hc o.code none _ _ _ _ hrun x (.inl hx), hfits,
    h.indexed, h.producers, fun Δ p e d s hreach => ?_⟩
  refine hanalysed.treats hg ho (hreach.lets ?_) h.indexed fun id K hK => ?_
  · exact List.mem_cons_self
  · obtain ⟨k, e, hfit⟩ := hfits id K hK
    exact hfit.fused

/-- A lambda can be copied once its body is ready, and by any registry that emits the body the same
and forbids to fuse what the body reads. -/
theorem Registry.Ready.copies {f : Lambda} (h : q.Ready g ⟨k.site.enter f.params, f.body⟩ F)
    (hg : g.Sound) (hk : g.start.Reaches k) {X : Set Name} (hq : q.EmitsOn X r)
    (hX : ∀ x, x ∈ f.body.binders ∨ x ∉ letNames g.code.lets → x ∈ X)
    (hparams : (Pattern.names f.params).Nodup ∧ ∀ x ∈ Pattern.names f.params, x ∉ k.site.names)
    (hescapes : ∀ x ∈ k.site.names, x ∈ g.arrays → q.Touches x → x ∈ r.unfusable) :
    r.Copies g root k f := by
  intro call hu n f₁ hf₁
  have hlive : ∀ x ∈ k.site.names, q.Live g x → x ∈ r.fixed g root := fun x hx hlive ha =>
    .inl (hescapes x hx ha (hlive ha))
  refine .of_body hf₁ (fun V hV => ⟨hparams.1, fun _ _ => trivial, fun x hx hin => ?_⟩)
    fun b' hb' => ?_
  · rw [show V = k.site.names ∩ r.fixed g root from hV] at hin
    exact hparams.2 x hx hin.1
  -- the body reads what the definitions give, apart from the parameters
  refine ((h.mimics hg hq hX hu n _ .refl b' hb').mono ⟨?_, ?_⟩).widen (Set.subset_univ _)
  · rintro _ ⟨_, rfl, rfl⟩
    refine ⟨fun x hx hx' => hx.imp (fun hx => ⟨hx, hlive x hx hx'⟩) id, fun x hx => ?_⟩
    exact hg.notMem_bindable h.reached (hx.imp (fun hx => hx.1) id)
  · rintro env env' ⟨env₀, _, ⟨rfl, hknows⟩, hold, hbound⟩
    refine ⟨fun x hx _ => ?_, hknows.congr (hg.clear_at hk) fun x hx => ?_⟩
    · -- a parameter is bound alike on both sides, any other name is as it was outside
      by_cases hp : x ∈ Pattern.names f.params
      · exact hbound x hp
      · rw [(hold x hp).1, (hold x hp).2]
    · exact ((hold x fun hp => hparams.2 x hp hx).1).symm

end

end ArrayFusion
