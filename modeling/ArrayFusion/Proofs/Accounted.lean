import Mathlib.Data.List.Flatten
import ArrayFusion.Proofs.Accounts
import ArrayFusion.Proofs.Choices
import ArrayFusion.Proofs.CoherentPass
import ArrayFusion.Proofs.EmittedLets

/-!
# The account of a function

The decisions are noted while the function is analysed, and its `let`s go or stay when it is
emitted. The registry that is left in between ties the two together: it accounts for every decision
(`Course.accounts`), and it determines what the `let`s of the emitted function are
(`Registry.bindsJust_emit`).

Each kernel that something was fused into is emitted somewhere, because it stands for a `let` that
is shown in the code or in another kernel (`Registry.Accounts.binds_of_kernel`).  A `let` stays if
no kernel has its names (`Registry.Accounts.binds_of_stays`).
-/

namespace ArrayFusion

/-! ## The choices of a log -/

namespace Course

variable {c : Config} {l : Log} {r r' : Registry} {a b : Progress}

/-- Each choice stands for a stage with as many results as the choice binds names. -/
theorem fits (h : Course c l r a r' b) :
    ∀ e ∈ l, ∃ g, e.1.Stands g ∧ e.1.pattern.length = g.arity := by
  induction h with
  | nil | forbid | noteUpdate => exact nofun
  | append _ _ ih ih' => exact List.forall_mem_append.2 ⟨ih, ih'⟩
  | meet _ _ _ _ ih => exact ih
  | place hstands hlen => exact List.forall_mem_singleton.2 ⟨_, hstands, hlen⟩

end Course

/-- A stage has as many results as the combinator that it was made of. -/
theorem Stage.hasArity_of_ofExp? {e : Exp} {g : Stage} (h : Stage.ofExp? e = .ok (some g)) :
    e.HasArity g.arity := by
  cases e with
  | soac op args certs s =>
    obtain ⟨as, has, rfl⟩ := Stage.ofExp?_eq_ok h
    rw [Exp.HasArity, Stage.arity, has.length_eq]
  | _ => cases h

/-- What an analysis notes that succeeds: the choices are among the `let`s of the expression, each
`let` at most once, and the combinators among the `let`s are among the choices. -/
structure Log.Of (l : Log) (e : Exp) : Prop where
  subperm : (l.map fun s => s.1.binding).Subperm e.lets
  combinators : ∀ q ∈ e.lets, q.2.isSoac = true → ∃ s ∈ l, s.1 = ⟨.combinator, q.1, q.2⟩

theorem Log.of_analyse {c : Config} {l : Log} {e : Exp} {r r' : Registry} {a b : Progress}
    (hl : l.map Prod.fst = e.choices c none) (h : e.analyse c none r a = .ok (r', b)) : l.Of e where
  subperm := by
    have hsub := Exp.subperm_choices h
    rwa [← hl, List.map_map] at hsub
  combinators := fun q hq hsoac => by
    have hmem := Exp.mem_choices h hq hsoac
    rw [← hl] at hmem
    exact List.mem_map.1 hmem

namespace Log.Of

variable {l : Log} {e : Exp}

theorem binding_mem (h : l.Of e) : ∀ s ∈ l, s.1.binding ∈ e.lets := fun _ hs =>
  h.subperm.subset (List.mem_map_of_mem hs)

/-- The choices bind different names if the `let`s do. -/
theorem nodup (h : l.Of e) (hnames : (letNames e.lets).Nodup) : (logNames l).Nodup := by
  obtain ⟨ls, hperm, hsub⟩ := h.subperm
  have hls : (letNames ls).Nodup := hnames.sublist (hsub.flatMap _)
  rw [letNames, (hperm.flatMap_right _).nodup_iff, List.flatMap_map] at hls
  exact hls

theorem names_subset (h : l.Of e) : logNames l ⊆ letNames e.lets := fun _ hx => by
  obtain ⟨s, hs, hx⟩ := ArrayFusion.mem_logNames.1 hx
  exact ArrayFusion.mem_letNames.2 ⟨_, h.binding_mem s hs, hx⟩

end Log.Of

/-! ## What is emitted -/

namespace Registry

variable {c : Config} {N : Set Name} {l : Log} {e : Exp} {r : Registry} {o : List KernelId}

/-- If a kernel with something fused into it has a name of a `let`, then it holds the right-hand
side. -/
theorem Accounts.exists_holds (h : r.Accounts c N r.dropUnfused.produced l) (hl : l.Of e)
    (hnames : (letNames e.lets).Nodup) {m : Pattern × Exp} (hm : m ∈ e.lets) {y : Name}
    (hy : y ∈ m.1.names) (hproduced : y ∈ r.dropUnfused.produced) :
    ∃ id K, r.dropUnfused.kernels.find? id = some K
      ∧ K.Holds c N r.dropUnfused.produced m.2 := by
  obtain ⟨id, hid⟩ := Option.ne_none_iff_exists'.1 hproduced
  obtain ⟨hid, halive⟩ := Coherent.producerOf_dropUnfused.1 hid
  obtain ⟨s, hs, hys, K, hK, hholds⟩ := h.producers y id hid
  cases eq_of_mem_flatMap (b := s.1.binding) hnames hm (hl.binding_mem s hs) hy hys
  exact ⟨id, K, Coherent.find?_dropUnfused.2 ⟨hK, halive⟩, hholds⟩

/-- A `let` is shown in the code, or retained by a kernel that something was fused into: only
where a kernel takes the place of a `let` something is hidden, and it retains whatever that `let`
showed. -/
theorem Accounts.exists_shown (h : r.Accounts c N r.dropUnfused.produced l) (hl : l.Of e)
    (hnames : (letNames e.lets).Nodup) : ∀ m ∈ e.lets, m ∈ e.shown r.dropUnfused.produced
      ∨ ∃ id K, r.dropUnfused.kernels.find? id = some K
        ∧ Retains c N {m} (K.stage.toExp.shown r.dropUnfused.produced) := by
  intro m hm
  refine ((e.covers _).covered m hm).imp_right fun ⟨m', hm', ⟨y, hy, hproduced⟩, hshown⟩ => ?_
  obtain ⟨id, K, hK, hholds⟩ := h.exists_holds hl hnames hm' hy hproduced
  exact ⟨id, K, hK, hholds.shown.mono (Set.singleton_subset_iff.2 hshown) subset_rfl⟩

namespace Accounts

variable (h : r.Accounts c N r.dropUnfused.produced l) (hr : r.Coherent e.lets o) (hl : l.Of e)
  (hnames : (letNames e.lets).Nodup) (hne : ∀ s ∈ l, s.1.origin = .combinator → s.1.pattern ≠ [])

include h hr hl hnames hne

/-- Whatever a kernel binds that something was fused into, the code binds. -/
theorem binds_of_kernel {id : KernelId} {K : Kernel}
    (hK : r.dropUnfused.kernels.find? id = some K) :
    (∀ m ∈ K.heads, r.dropUnfused.Binds (e.shown r.dropUnfused.produced) m)
      ∧ ∀ m, r.dropUnfused.Binds (K.stage.toExp.shown r.dropUnfused.produced) m →
        r.dropUnfused.Binds (e.shown r.dropUnfused.produced) m := by
  refine hr.dropUnfused.binds_of_kernel (fun id K hK => ?_) hK
  obtain ⟨t, ht, -, ho, hpattern, huntouched⟩ := h.stands id K (Coherent.find?_dropUnfused.1 hK).1
  have hsame : K.pattern.names = t.1.pattern.names := congrArg Pattern.names hpattern.symm
  refine ⟨t.1.binding, ⟨hne t ht ho,
    ⟨id, hK, fun y hy => hr.dropUnfused.patterns id K hK y (hsame ▸ hy)⟩, hsame⟩, ?_⟩
  refine (h.exists_shown hl hnames _ (hl.binding_mem t ht)).imp_right fun ⟨id', L, hL,
    hretains⟩ => ?_
  rcases hretains _ rfl with hshown | ⟨-, hreads, -⟩
  · exact ⟨id', L, hL, hshown⟩
  · -- a `let` only gives way to another one if nothing is fused into its kernel
    have hfused : K.isFused = true := Coherent.all_isFused_dropUnfused id K hK
    rw [Kernel.isFused, (huntouched hreads).1] at hfused
    cases hfused

/-- A `let` whose names no kernel has stays, wherever it is shown, or one with the same certificates
stays in its place. -/
theorem binds_of_stays (hN : ∀ x ∈ N, x ∉ r.dropUnfused.produced) {m : Pattern × Exp}
    (hm : m ∈ e.lets) (hnone : ∀ y ∈ m.1.names, r.dropUnfused.producerOf y = none) :
    ∃ p, r.dropUnfused.Binds (e.shown r.dropUnfused.produced) (p, m.2.certs)
      ∧ (c.transposePull = false → p = m.1) := by
  rcases h.exists_shown hl hnames m hm with hshown | ⟨id, K, hK, hretains⟩
  · exact ⟨m.1, .stays hshown hnone, fun _ => rfl⟩
  obtain ⟨-, hinside⟩ := h.binds_of_kernel hr hl hnames hne hK
  rcases hretains m rfl with hshown | ⟨hpull, -, m', hshown, hnames', hcerts⟩
  · exact ⟨m.1, hinside _ (.stays hshown hnone), fun _ => rfl⟩
  · have hstays := hinside _ (.stays hshown fun y hy => not_not.1 (hN y (hnames' y hy)))
    refine ⟨m'.1, ?_, fun hc => Bool.noConfusion (hc.symm.trans hpull)⟩
    rwa [letHead, hcerts] at hstays

end Accounts

end Registry

/-! ## What the analysis leaves -/

/-- The log has what was decided about a function, and the registry is what the analysis of the
function leaves. -/
structure FunDef.Accounted (f : FunDef) (c : Config) (l : Log) (q : Registry) : Prop where
  log : l.Of f.body
  names : ∀ s ∈ l, s.2.names = s.1.names
  combinators : ∀ s ∈ l, s.1.origin = .combinator → s.1.rhs.isSoac = true
  nodup : (letNames f.body.lets).Nodup
  coherent : ∃ o, q.Coherent f.body.lets o
  accounts : ∃ N, q.Accounts c N q.dropUnfused.produced l ∧ ∀ x ∈ N, x ∉ q.dropUnfused.produced

theorem FunDef.arityFits_of_course {c : Config} {f : FunDef} {l : Log} {r q : Registry}
    {a b : Progress} (hl : l.Of f.body) (h : Course c l r a q b) : f.ArityFits := by
  intro m hm
  cases hsoac : m.2.isSoac with
  | true =>
    obtain ⟨⟨s, d⟩, hs, heq⟩ := hl.combinators m hm hsoac
    cases heq
    obtain ⟨g, hstands, hlen⟩ := h.fits _ hs
    cases hstands with
    | combinator hg => exact hlen ▸ Stage.hasArity_of_ofExp? hg
  | false =>
    obtain ⟨p, e⟩ := m
    cases e <;> trivial

/-- The analysis of a function leaves an account of its decisions, if there were tags for the names
that it took. -/
theorem FunDef.accounted_of_analyse {c : Config} {f : FunDef} {q : Registry} {b : Progress}
    (hbinders : f.binders.Nodup) (huses : f.body.free true ⊆ Pattern.nameSet f.params)
    (htags : ∀ x ∈ f.params ++ f.body.idents, x.name.tag < Name.maxTag)
    (h : f.body.analyse c none .empty ⟨.forFun f, 0, []⟩ = .ok (q, b)) (hroom : b.names.InRange) :
    ∃ l : Log, b.decisions = l.map Prod.snd ∧ f.Accounted c l q := by
  obtain ⟨hΛ, hportion⟩ := FunDef.portion hbinders
  obtain ⟨l, hl, hcourse⟩ := Exp.analyse_course h
  have hlog := Log.of_analyse hl h
  have hanalyse := FunDef.leads_analyse c hbinders huses
    (FunDef.arityFits_of_course hlog hcourse) htags
  obtain ⟨o, hcoherent⟩ := (hanalyse.of_ok h).2 hroom trivial
  -- parameters and fresh names are bound by no `let` of the function, so no kernel has them
  have hforeign : ∀ x ∈ letNames f.body.lets,
      x ∉ {x | x ∈ f.body.slots ∨ x ∈ (NameSupply.forFun f).until b.names} := fun x hx hmem =>
    hmem.elim (fun hslot => hportion.slots x hslot hx) fun hfresh =>
      until_subset_foreign (FunDef.tag_lt_of_mem_letNames htags) hroom hfresh hx
  -- a name that is produced is bound by a `let`
  have hN : ∀ x ∈ {x | x ∈ f.body.slots ∨ x ∈ (NameSupply.forFun f).until b.names},
      x ∉ q.dropUnfused.produced := fun x hx hproduced => by
    obtain ⟨id, hid⟩ := Option.ne_none_iff_exists'.1 hproduced
    exact hforeign x (hcoherent.dropUnfused.producers x id hid).2 hx
  have haccounts : q.Accounts c _ q.dropUnfused.produced l := hcourse.accounts hN (.empty _ _ _)
    Registry.indexed_empty (Registry.numbered_empty 0 0) (Nat.le_refl _) (hlog.nodup hΛ)
    (fun x hx => hforeign x (hlog.names_subset hx)) (fun x hx => .inr hx)
    fun s hs x hx => .inl (Exp.subset_of_lets Exp.slots_part (hlog.binding_mem s hs) hx)
  refine ⟨l, hcourse.decisions, hlog, hcourse.names, fun s hs ho => ?_, hΛ, ⟨_, hcoherent⟩, _,
    haccounts, hN⟩
  obtain ⟨g, hstands, -⟩ := hcourse.fits s hs
  exact hstands.isSoac ho

end ArrayFusion
