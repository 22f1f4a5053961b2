import ArrayFusion.Proofs.Readiness

/-!
# The kernels of a function fit

Each step of the analysis keeps the registry secure: what a step decides about was not decided about
before (`Secures`), since different `let`s bind different names.  So do all steps together
(`Exp.secures`).  Before a map or a filter is placed, its lambda was analysed as a region, so it can
be copied for all kernels that read its results (`Secures.copies`).
-/

namespace ArrayFusion

open Spot (Reaches)

/-- A part of the analysis of the code at a spot: it keeps the registry secure, and learns nothing
but about the names in a list, about which nothing was known before. -/
def Secures (g : Ground) (root : Spot) (xs : List Name) (m : Registry → Analysis Registry) : Prop :=
  ∀ a₀ r a r' b, r.Secure g root a₀ a → (∀ x ∈ xs, r.producerOf x = none) → m r a = .ok (r', b) →
    r'.Secure g root a₀ b ∧ ∀ x ∉ xs, r'.producerOf x = r.producerOf x

namespace Secures

variable {g : Ground} {c : Config} {root root' : Spot} {xs ys zs : List Name}
    {m m' m'' : Registry → Analysis Registry}

/-- Doing nothing keeps registries secure. -/
theorem pure : Secures g root xs fun r => return r := by
  intro a₀ r a r' b h _ hrun
  obtain ⟨rfl, rfl⟩ := State.pure_eq_ok.1 hrun
  exact ⟨h, fun _ _ => rfl⟩

/-- Whether an analysis keeps registries secure depends on what it does only. -/
theorem congr (h : Secures g root xs m) (hm : ∀ r, m' r = m r) :
    Secures g root xs m' := by rwa [funext hm]

/-- An analysis that may register some names may register more. -/
theorem sub (h : Secures g root xs m) (hxs : xs ⊆ ys) : Secures g root ys m := by
  intro a₀ r a r' b hr hnone hrun
  obtain ⟨hr', hkeep⟩ := h a₀ r a r' b hr (fun x hx => hnone x (hxs hx)) hrun
  exact ⟨hr', fun x hx => hkeep x fun hin => hx (hxs hin)⟩

/-- Something else is noted first. -/
theorem after (h : Secures g root xs m) (f : Registry → Registry)
    (hf : ∀ a₀ r a, r.Secure g root a₀ a → (f r).Secure g root a₀ a)
    (hproducers : ∀ r x, (f r).producerOf x = r.producerOf x) :
    Secures g root xs fun r => m (f r) := by
  intro a₀ r a r' b hr hnone hrun
  obtain ⟨hr', hkeep⟩ := h a₀ (f r) a r' b (hf a₀ r a hr) (fun x hx =>
    (hproducers r x).trans (hnone x hx)) hrun
  exact ⟨hr', fun x hx => (hkeep x hx).trans (hproducers r x)⟩

/-- An analysis keeps registries secure after names were forbidden. -/
theorem forbid (h : Secures g root xs m) (hg : g.Sound) (ys : List Name) :
    Secures g root xs fun r => m (r.forbid ys) :=
  h.after (·.forbid ys) (fun _ _ _ hr => hr.forbid hg ys) fun _ _ => rfl

/-- Two analyses in a row keep registries secure if they register different names. -/
theorem seq (h : Secures g root xs m) (h' : Secures g root ys m') (hnodup : (ys ++ xs).Nodup) :
    Secures g root (ys ++ xs) fun r => m r >>= m' := by
  intro a₀ r a r' b hr hnone hrun
  obtain ⟨-, -, hapart⟩ := List.nodup_append.1 hnodup
  obtain ⟨hys, hxs⟩ := List.forall_mem_append.1 hnone
  obtain ⟨r₁, a₁, hrun, hrun'⟩ := State.bind_eq_ok.1 hrun
  obtain ⟨hr₁, hkeep⟩ := h a₀ r a r₁ a₁ hr hxs hrun
  obtain ⟨hr', hkeep'⟩ := h' a₀ r₁ a₁ r' b hr₁ (fun x hx =>
    (hkeep x fun hin => hapart x hx x hin rfl).trans (hys x hx)) hrun'
  refine ⟨hr', fun x hx => ?_⟩
  rw [List.mem_append, not_or] at hx
  exact (hkeep' x hx.1).trans (hkeep x hx.2)

/-- A region of its own knows about the names that it decides about and no others. -/
theorem alone (h : Secures g root xs m) {a b : Progress} {q : Registry}
    (hfresh : g.fresh ≤ a.names.count) (hrun : m .empty a = .ok (q, b)) :
    q.Secure g root a b ∧ ∀ x id, q.producerOf x = some id → x ∈ xs := by
  obtain ⟨hq, hkeep⟩ := h a .empty a q b (.empty hfresh) (fun _ _ => rfl) hrun
  exact ⟨hq, fun x id hid => by_contra fun hx => nomatch (hkeep x hx).symm.trans hid⟩

/-- A region becomes part of the code around it. -/
theorem merge {r q : Registry} {a₀ a b : Progress} (hr : r.Secure g root a₀ a)
    (hnone : ∀ x ∈ xs, r.producerOf x = none) (hg : g.Sound) (hq : q.Secure g root' a b)
    (hroot : root.Reaches root') (hof : ∀ x id, q.producerOf x = some id → x ∈ xs)
    (escaping : List Name) : (r.mergeRegion q escaping).Secure g root a₀ b
      ∧ ∀ x ∉ xs, (r.mergeRegion q escaping).producerOf x = r.producerOf x := by
  refine ⟨hr.mergeRegion hg hq hroot (fun x id hid => hnone x (hof x id hid)) _, fun x hx => ?_⟩
  rw [Registry.producerOf_mergeRegion, Option.eq_none_iff_forall_ne_some.2 fun id hid =>
    hx (hof x id hid)]
  rfl

/-- Code that is analysed as a region of its own. -/
theorem region (h : Secures g root' xs m) (hg : g.Sound) (hroot : root.Reaches root')
    (escaping : Registry → List Name) :
    Secures g root xs fun r => do
      let q ← m .empty
      return r.mergeRegion q (escaping q) := by
  intro a₀ r a r' b hr hnone hrun
  obtain ⟨q, b₁, hq, hrun⟩ := State.bind_eq_ok.1 hrun
  obtain ⟨rfl, rfl⟩ := State.pure_eq_ok.1 hrun
  obtain ⟨hq, hof⟩ := h.alone hr.fresh_le hq
  exact merge hr hnone hg hq hroot hof _

/-- Two branches, and what is in front of them. -/
theorem branches (h : Secures g root xs m) (h' : Secures g root ys m') (h'' : Secures g root zs m'')
    (hg : g.Sound) (hnodup : (zs ++ xs ++ ys).Nodup) :
    Secures g root (zs ++ xs ++ ys) fun r => m .empty >>= fun yes =>
      m' .empty >>= fun no => m'' (r.mergeRegion (yes.unionBranches no) []) := by
  intro a₀ r a r' b hr hnone hrun
  rw [List.append_assoc] at hnodup hnone ⊢
  obtain ⟨-, harms, hapart⟩ := List.nodup_append.1 hnodup
  obtain ⟨-, -, hapart'⟩ := List.nodup_append.1 harms
  obtain ⟨hzs, hnone⟩ := List.forall_mem_append.1 hnone
  obtain ⟨yes, a₁, hyes, hrun⟩ := State.bind_eq_ok.1 hrun
  obtain ⟨no, a₂, hno, hrun⟩ := State.bind_eq_ok.1 hrun
  obtain ⟨hyes, hyesOf⟩ := h.alone hr.fresh_le hyes
  obtain ⟨hno, hnoOf⟩ := h'.alone hyes.fresh_le hno
  -- the branches are analysed apart, and what one produces is not produced by the other
  have hboth : (yes.unionBranches no).Secure g root a a₂ :=
    (hyes.union hg hno .refl fun x id hid => Option.eq_none_iff_forall_ne_some.2 fun id' hid' =>
      hapart' x (hyesOf x id' hid') x (hnoOf x id hid) rfl).forbid hg _
  have hof : ∀ x id, (yes.unionBranches no).producerOf x = some id → x ∈ xs ++ ys :=
      fun x id hid => by
    rw [Registry.unionBranches, Registry.producerOf_forbid, Registry.producerOf_union,
      Option.or_eq_some_iff] at hid
    exact List.mem_append.2 (hid.elim (fun hid => .inr (hnoOf x id hid)) fun hid =>
      .inl (hyesOf x id hid.2))
  obtain ⟨hmerged, hkeep⟩ := merge hr hnone hg hboth .refl hof []
  obtain ⟨hr', hkeep'⟩ := h'' a₀ _ a₂ r' b hmerged (fun x hx =>
    (hkeep x fun hin => hapart x hx x hin rfl).trans (hzs x hx)) hrun
  refine ⟨hr', fun x hx => ?_⟩
  rw [List.mem_append, not_or] at hx
  exact (hkeep' x hx.1).trans (hkeep x hx.2)

end Secures

/-! ## Lambdas -/

section

variable {g : Ground} {c : Config} {root k : Spot} {r r₁ r₂ q : Registry} {a a₀ a₁ a₂ : Progress}
    {p : Pattern}
  {op : Combinator} {es : List Exp} {cs : Certificates} {s s' : Span} {b : Exp} {f : Lambda}
    {st : Stage} {x : Name}

theorem Registry.Secure.unproduced (h : r.Secure g root a₀ a) (hx : x ∉ letNames g.code.lets) :
    r.producerOf x = none :=
  Option.eq_none_iff_forall_ne_some.2 fun id hid => hx (h.producers x id hid)

/-- What is decided in the operands of a combinator is about names that they bind. -/
theorem Log.names_operands {l : Log} {as : List Operand}
    (hl : l.map Prod.fst = Exp.choicesOperands c es)
    (has : List.Forall₂ (fun e a => Operand.ofExp? e = some a) es as) (hrun : Exp.analyseOperands c
    r es a = .ok (r₁, a₁)) : ∀ x ∈ logNames l, x ∈ Exp.bindersAll es := by
  intro x hx
  obtain ⟨s, hs, hx⟩ := mem_logNames.1 hx
  have hchoice : s.1 ∈ Exp.choicesOperands c es := hl ▸ List.mem_map_of_mem hs
  obtain ⟨t, ht, heq⟩ := List.mem_map.1 ((Exp.decidesOperands es has _ _ _ _ hrun).choices.mem_iff.1
    hchoice)
  obtain ⟨e, he, ht⟩ := Exp.mem_letsAll.1 (List.mem_of_mem_filter ht)
  rw [← heq] at hx
  exact Exp.binders_subset_bindersAll he (Exp.mem_binders_of_lets (mem_letNames.2 ⟨t, ht, hx⟩))

/-- The body of a lambda is analysed as a region. -/
theorem Lambda.analyse_eq_ok (h : f.analyse c r a = .ok (r₁, a₁)) :
    ∃ q, f.body.analyse c none .empty a = .ok (q, a₁)
      ∧ r₁ = r.mergeRegion q (q.consumers.keys ++ f.freeArrays) := by
  obtain ⟨ps, d, ts⟩ := f
  obtain ⟨q, a₁', hq, hrun⟩ := State.bind_eq_ok.1 h
  obtain ⟨rfl, rfl⟩ := State.pure_eq_ok.1 hrun
  exact ⟨q, hq, rfl⟩

/-- What the operands of a combinator bind is new, and bound by none of its lambdas. -/
theorem Spot.Clear.operands (h : k.Clear) (hcode : k.code = .letIn p (.soac op es cs s) b s')
    {x : Name} (hx : x ∈ Exp.bindersAll es) : x ∉ k.site.names
      ∧ ∀ f ∈ op.lambdas, x ∉ Pattern.names f.params ∧ x ∉ f.body.binders := by
  have hnodup := h.nodup
  have hnew := h.new x
  rw [hcode] at hnodup hnew
  refine ⟨hnew (List.mem_append_left _ (List.mem_append_right _ (List.mem_append_right _ hx))),
    fun f hf => ?_⟩
  obtain ⟨hnodup, -, -⟩ := List.nodup_append.1 hnodup
  obtain ⟨-, hnodup, -⟩ := List.nodup_append.1 hnodup
  obtain ⟨-, -, hapart⟩ := List.nodup_append.1 hnodup
  have hnot : x ∉ f.binders := fun hin => hapart x (op.binders_eq ▸
    List.mem_append_left _ (List.mem_flatMap.2 ⟨f, hf, hin⟩)) x hx rfl
  rwa [f.binders_eq, List.mem_append, not_or] at hnot

/-- Behind its lambdas and its operands, a combinator can be copied: its lambda was analysed as a
region. -/
theorem Registry.Secure.copies_lambda (hr : r.Secure g root a₀ a) (hg : g.Sound)
    (hc : c.transposePull = false) (hroot : g.start.Reaches root) (hk : root.Reaches k)
    (hcode : k.code = .letIn p (.soac op es cs s) b s')
    (hst : Stage.ofExp? (.soac op es cs s) = .ok (some st)) (hf : f ∈ op.lambdas) (hbody : Secures g
    ⟨k.site.enter f.params, f.body⟩ f.body.binders fun r => f.body.analyse c none r)
    (hnone : ∀ x ∈ f.body.binders, r.producerOf x = none) (hrun : f.analyse c r a = .ok (r₁, a₁))
    (hr₂ : r₂.Secure g root a₀ a₂)
    (hkeep : ∀ x ∉ Exp.bindersAll es, r₂.producerOf x = r₁.producerOf x)
    (hrun' : Exp.analyseOperands c r₁ es a₁ = .ok (r₂, a₂)) (hroom : a₂.names.InRange) :
    r₂.Copies g root k f := by
  have hreach := hroot.trans hk
  have hclear := hg.clear_at hreach
  have hcomputed : (f.params, f.body) ∈ (Exp.soac op es cs s).computed :=
    List.mem_append_left _ (List.mem_map_of_mem hf)
  have hinner := (Spot.gives_computed hk hcode hcomputed).reached
  have hoffers := hg.offers (r := r) hroot hk hcode hst
  obtain ⟨as, has, rfl⟩ := Stage.ofExp?_eq_ok hst
  have hparams := (hoffers.lambdas f hf).params
  obtain ⟨q, hq, heq⟩ := Lambda.analyse_eq_ok hrun
  obtain ⟨hsecure, hof⟩ := hbody.alone hr.fresh_le hq
  obtain ⟨l, hl, hcourse⟩ := Exp.followsOperands es _ _ _ _ hrun'
  obtain ⟨F, hready⟩ := hsecure.ready hg (hroot.trans hinner) hc hq (hroom.of_le hcourse.count_le)
  obtain ⟨hr₁, -⟩ := Secures.merge hr hnone hg hsecure hinner hof (q.consumers.keys ++ f.freeArrays)
  rw [← heq] at hr₁
  have hnames := Log.names_operands hl has hrun'
  have hapart := fun {x} => hclear.operands hcode (x := x)
  -- the lambda was ready where it was analysed; nothing since then undoes it
  refine hready.copies hg hreach (X := {x | x ∈ f.body.binders ∨ x ∉ letNames g.code.lets})
    (.of_keeps (fun x hx => ?_) fun id K hK => ?_) (fun x hx =>
      hx) ⟨hparams.nodup, hparams.new⟩ fun x hx _ htouch => ?_
  · rcases hx with hx | hx
    · -- a producer of a name that the lambda binds was entered by its own region
      rw [hkeep x fun hes => ((hapart hes).2 f hf).2 hx, heq, Registry.producerOf_mergeRegion, hnone x hx,
        Option.or_none]
    · rw [hr₂.unproduced hx, hsecure.unproduced hx]
  · -- the operands read no kernel of the lambda, so they leave its kernels alone
    have hK₁ : r₁.kernels.find? id = some K := heq ▸ Registry.find?_mergeRegion hK r _
    refine hcourse.keeps_kernel hr₁.indexed hr₁.numbered hr₁.kernels hK₁ fun x hx hlog => ?_
    obtain ⟨kK, eK, hfit⟩ := hready.fits id K hK
    obtain ⟨hnew, hother⟩ := hapart (hnames x hlog)
    rcases hfit.reached.names x (hfit.glued.wholeNames_subset hx) with (hx | hx) | hx
    · exact hnew hx
    · exact (hother f hf).1 hx
    · exact (hother f hf).2 hx
  · refine hcourse.unfusable_subset ?_
    rw [heq]
    rcases htouch with hx | hx
    · exact (Registry.keeps_mergeRegion r q _).unfusable hx
    · exact mem_joined.2 (.inr (mem_joined.2 (.inl (List.mem_append_left _ (Table.mem_keys_iff.2
        (Option.ne_none_iff_exists'.1 hx))))))

/-- The lambdas of a combinator are regions. -/
theorem Secures.lambdas (hg : g.Sound)
    (hinner : ∀ f ∈ op.lambdas, root.Reaches ⟨k.site.enter f.params, f.body⟩)
    (hbodies : ∀ f ∈ op.lambdas,
      Secures g ⟨k.site.enter f.params, f.body⟩ f.body.binders fun r => f.body.analyse c none r)
    (hnodup : (op.lambdas.flatMap (·.body.binders)).Nodup) :
    Secures g root (op.lambdas.flatMap (·.body.binders)) fun r => op.analyseLambdas c r := by
  have hlambda : ∀ f ∈ op.lambdas, Secures g root f.body.binders fun r => f.analyse c r :=
      fun f hf => by
    have hregion := (hbodies f hf).region hg (hinner f hf) fun q => q.consumers.keys ++ f.freeArrays
    obtain ⟨ps, d, ts⟩ := f
    exact hregion.congr fun r => by rw [Lambda.analyse]
  cases op with
  | map f | filter f | reduce f ne | scan f ne =>
    rw [Combinator.lambdas, List.flatMap_singleton]
    exact (hlambda f (List.mem_singleton_self f)).congr fun r => by rw [Combinator.analyseLambdas]
  | redomap f h ne =>
    rw [Combinator.lambdas, List.flatMap_cons, List.flatMap_singleton] at hnodup ⊢
    have hswap : (h.body.binders ++ f.body.binders).Nodup :=
      List.perm_append_comm.nodup_iff.1 hnodup
    exact (((hlambda f (List.mem_cons_self)).seq
      (hlambda h (List.mem_cons_of_mem _ (List.mem_singleton_self h)))
      hswap).congr fun r => by rw [Combinator.analyseLambdas]).sub List.perm_append_comm.subset

/-- A map or a filter has one lambda and no neutral elements. -/
theorem Combinator.analyse_of_kind {f : Lambda} (hkind : op.kind = .map ∨ op.kind = .filter)
    (hf : f ∈ op.lambdas) (r : Registry) :
    op.analyseLambdas c r = f.analyse c r ∧ op.analyseNeutral c r = return r := by
  cases op with
  | map f' | filter f' =>
    obtain rfl := List.mem_singleton.1 hf
    exact ⟨by rw [Combinator.analyseLambdas], by rw [Combinator.analyseNeutral]⟩
  | _ => exact absurd hkind (by simp [Combinator.kind])

/-- What is bound in the neutral elements, the operands and the bodies of the lambdas is bound by the
combinator. -/
theorem Exp.count_inner_soac_le (x : Name) :
    (Exp.bindersAll op.neutral ++ (Exp.bindersAll es ++ op.lambdas.flatMap (·.body.binders))).count x
      ≤ (Exp.soac op es cs s).binders.count x := by
  have hcount := op.count_binders_eq x
  rw [← Exp.bindersAll_eq] at hcount
  simp only [Exp.binders, List.count_append]
  omega

/-- A combinator that a `let` binds, behind what is in it. -/
theorem Secures.combinator (hg : g.Sound) (hc : c.transposePull = false)
    (hroot : g.start.Reaches root) (hk : root.Reaches k)
    (hcode : k.code = .letIn p (.soac op es cs s) b s') (hbodies : ∀ f ∈ op.lambdas,
      Secures g ⟨k.site.enter f.params, f.body⟩ f.body.binders fun r => f.body.analyse c none r)
    (hoperands : Secures g root (Exp.bindersAll es) fun r => Exp.analyseOperands c r es)
    (hneutral : Secures g root (Exp.bindersAll op.neutral) fun r => op.analyseNeutral c r) :
    Secures g root (p.names ++ (Exp.soac op es cs s).binders) fun r =>
      (Exp.soac op es cs s).analyse c (some p) r := by
  have hcomputed : ∀ f ∈ op.lambdas, (f.params, f.body) ∈ (Exp.soac op es cs s).computed :=
      fun f hf =>
    List.mem_append_left _ (List.mem_map_of_mem hf)
  have hall := (hg.clear_at (hroot.trans hk)).nodup
  rw [hcode] at hall
  -- the parts are analysed in the order lambdas, operands, neutral elements
  have hcount : ∀ x, (p.names ++ (Exp.bindersAll op.neutral ++ (Exp.bindersAll es
      ++ op.lambdas.flatMap (·.body.binders)))).count x
      ≤ (p.names ++ (Exp.soac op es cs s).binders).count x := fun x =>
    calc
      _ = p.names.count x + _ := List.count_append
      _ ≤ p.names.count x + _ := Nat.add_le_add_left (Exp.count_inner_soac_le x) _
      _ = _ := List.count_append.symm
  have hnodup := List.nodup_iff_count_le_one.2 fun x =>
    (hcount x).trans (List.nodup_iff_count_le_one.1 (List.nodup_append.1 hall).1 x)
  refine Secures.sub ?_ fun x hx =>
    List.count_pos_iff.1 (Nat.lt_of_lt_of_le (List.count_pos_iff.2 hx) (hcount x))
  obtain ⟨-, hparts, hp⟩ := List.nodup_append.1 hnodup
  obtain ⟨-, hinputs, hn⟩ := List.nodup_append.1 hparts
  obtain ⟨-, hl, he⟩ := List.nodup_append.1 hinputs
  have hlambdas := Secures.lambdas (c := c) hg (fun f hf =>
    (Spot.gives_computed hk hcode (hcomputed f hf)).reached)
    hbodies hl
  intro a₀ r a r' d hr hnone hrun
  obtain ⟨hpnone, hnone⟩ := List.forall_mem_append.1 hnone
  obtain ⟨hnnone, hnone⟩ := List.forall_mem_append.1 hnone
  obtain ⟨henone, hlnone⟩ := List.forall_mem_append.1 hnone
  obtain ⟨st, hst, -, hrun⟩ := Exp.analyse_soac_eq_ok hrun
  obtain ⟨r₁, a₁, h₁, hrun⟩ := State.bind_eq_ok.1 hrun
  obtain ⟨r₂, a₂, h₂, hrun⟩ := State.bind_eq_ok.1 hrun
  obtain ⟨r₃, a₃, h₃, hplace⟩ := State.bind_eq_ok.1 hrun
  obtain ⟨hr₁, hkeep₁⟩ := hlambdas _ _ _ _ _ hr hlnone h₁
  obtain ⟨hr₂, hkeep₂⟩ := hoperands _ _ _ _ _ hr₁ (fun x hx =>
    (hkeep₁ x fun hin => he x hx x hin rfl).trans (henone x hx)) h₂
  have hkeep : ∀ x, x ∉ Exp.bindersAll es ++ op.lambdas.flatMap (·.body.binders) →
      r₂.producerOf x = r.producerOf x := fun x hx => by
    rw [List.mem_append, not_or] at hx
    exact (hkeep₂ x hx.1).trans (hkeep₁ x hx.2)
  obtain ⟨hr₃, hkeep₃⟩ := hneutral _ _ _ _ _ hr₂ (fun x hx =>
    (hkeep x fun hin => hn x hx x hin rfl).trans (hnnone x hx)) h₃
  have hkeep : ∀ x, x ∉ Exp.bindersAll op.neutral ++ (Exp.bindersAll es
      ++ op.lambdas.flatMap (·.body.binders)) → r₃.producerOf x = r.producerOf x := fun x hx => by
    rw [List.mem_append, not_or] at hx
    exact (hkeep₃ x hx.1).trans (hkeep x hx.2)
  -- a map or a filter has no neutral elements, so its lambda comes right before the operands
  have hcopies : a₃.names.InRange → st.kind = .map ∨ st.kind = .filter →
      ∀ f ∈ st.op.lambdas, r₃.Copies g root k f := by
    obtain ⟨as, -, rfl⟩ := Stage.ofExp?_eq_ok hst
    intro hroom hkind f hf
    obtain ⟨hanalyse, -⟩ := Combinator.analyse_of_kind (c := c) hkind hf r
    obtain ⟨-, hreturn⟩ := Combinator.analyse_of_kind (c := c) hkind hf r₂
    rw [hanalyse] at h₁
    rw [hreturn] at h₃
    obtain ⟨rfl, rfl⟩ := State.pure_eq_ok.1 h₃
    exact hr.copies_lambda hg hc hroot hk hcode hst hf (hbodies f hf)
      (fun x hx => hlnone x (List.mem_flatMap.2 ⟨f, hf, hx⟩)) h₁ hr₂ hkeep₂ h₂ hroom
  obtain ⟨hr', hkeep'⟩ := hr₃.place_combinator hg hroot hk hcode (fun x hx =>
    (hkeep x fun hin => hp x hx x hin rfl).trans (hpnone x hx)) hc hst hcopies hplace
  refine ⟨hr', fun x hx => ?_⟩
  rw [List.mem_append, not_or] at hx
  exact (hkeep' x hx.1).trans (hkeep x hx.2)

end

/-! ## Expressions -/

/-- An expression stands somewhere in the code at a spot, by itself or as what a `let` binds. -/
def Spot.Stands (root : Spot) (Δ : Site) (e : Exp) : Option Pattern → Prop
  | none => root.Reaches ⟨Δ, e⟩
  | some p => ∃ b s, root.Reaches ⟨Δ, .letIn p e b s⟩

section

variable {g : Ground} {c : Config} {root : Spot} {Δ : Site} {e : Exp} {site : Option Pattern}
    {r : Registry}

theorem Spot.Stands.reaches (h : root.Stands Δ e site) (hsoac : e.isSoac = false) :
    root.Reaches ⟨Δ, e⟩ := by
  cases site with
  | none => exact h
  | some p =>
    obtain ⟨b, s, h⟩ := h
    have hcomputed : ([], e) ∈ e.computed := by
      cases e with
      | soac => cases hsoac
      | _ => exact List.mem_singleton_self _
    simpa only [Site.enter_nil] using h.tail (Spot.inner_computed hcomputed)

theorem Spot.Stands.part (h : root.Stands Δ e site) (hsoac : e.isSoac = false)
    (hlet : ∀ p r b s, e ≠ .letIn p r b s) {q : Pattern × Exp} (hq : q ∈ e.parts) :
    root.Reaches ⟨Δ.enter q.1, q.2⟩ :=
  (h.reaches hsoac).tail (Spot.inner_part hlet hq)

theorem Spot.Stands.nodup (h : root.Stands Δ e site) (hg : g.Sound) (hroot : g.start.Reaches root) :
    (boundNames site ++ e.binders).Nodup := by
  cases site with
  | none => exact (hg.clear_at (hroot.trans h)).nodup
  | some p =>
    obtain ⟨b, s, h⟩ := h
    exact (List.nodup_append.1 (hg.clear_at (hroot.trans h)).nodup).1

/-- A replicated value, if a `let` binds it. -/
theorem Secures.replicate {n v : Exp} {s : Span} (hg : g.Sound) (hroot : g.start.Reaches root)
    (h : root.Stands Δ (.replicate n v s) site) :
    Secures g root (boundNames site) fun r => placeReplicate c site n v s r := by
  cases site with
  | none => exact .pure
  | some p =>
    obtain ⟨b, s', hk⟩ := h
    exact fun a₀ r a r' b hr hnone hrun => hr.place_replicate hg hroot hk hnone rfl hrun

mutual

/-- The analysis of an expression keeps the registry secure. -/
theorem Exp.secures (hg : g.Sound) (hc : c.transposePull = false) :
    ∀ (e : Exp) (site : Option Pattern) {root : Spot} {Δ : Site}, g.start.Reaches root →
    root.Stands Δ e site → Secures g root (boundNames site ++ e.binders) fun r => e.analyse c site r
  | .lit _ _, _, _, _, _, _ => .pure
  | .var x _, _, _, _, _, _ => by
    by_cases hx : x.isArray
    · exact (Secures.pure.forbid hg [x.name]).congr fun r => by rw [Exp.analyse, if_pos hx]
    · exact Secures.pure.congr fun r => by rw [Exp.analyse, if_neg hx]
  | .tuple es _, _, _, _, hroot, h | .array es _ _, _, _, _, hroot, h | .call _ es _ _, _, _, _,
      hroot, h => by
    have hes := Exp.securesAll hg hc es hroot (fun d hd =>
      ⟨_, h.part rfl nofun (List.mem_map_of_mem hd)⟩)
      (List.nodup_append.1 (h.nodup hg hroot)).2.1
    exact (hes.sub (List.subset_append_right _ _)).congr fun r => by rw [Exp.analyse]
  | .unary _ e _, _, _, _, hroot, h => by
    have he := e.secures hg hc none hroot (h.part rfl nofun (List.mem_singleton_self _))
    exact (he.sub (List.subset_append_right _ _)).congr fun r => by rw [Exp.analyse]
  | .binary _ a b _ _, _, _, _, hroot, h => by
    have ha := a.secures hg hc none hroot (h.part rfl nofun List.mem_cons_self)
    have hb := b.secures hg hc none hroot (h.part rfl
      nofun (List.mem_cons_of_mem _ List.mem_cons_self))
    exact ((hb.seq ha (List.nodup_append.1 (h.nodup hg hroot)).2.1).sub
      (List.subset_append_right _ _)).congr fun r => by rw [Exp.analyse]
  | .cond e a b _ _, _, _, _, hroot, h => by
    have he := e.secures hg hc none hroot (h.part rfl nofun List.mem_cons_self)
    have ha := a.secures hg hc none hroot (h.part rfl
      nofun (List.mem_cons_of_mem _ List.mem_cons_self))
    have hb := b.secures hg hc none hroot (h.part rfl nofun
      (List.mem_cons_of_mem _ (List.mem_cons_of_mem _ List.mem_cons_self)))
    exact ((ha.branches hb he hg (List.nodup_append.1 (h.nodup hg hroot)).2.1).sub
      (List.subset_append_right _ _)).congr fun r => by rw [Exp.analyse]
  | .letIn p e b s, _, _, _, hroot, h => by
    have hreach := h.reaches rfl
    have he := e.secures hg hc (some p) hroot ⟨b, s, hreach⟩
    have hb := b.secures hg hc none hroot (hreach.tail Spot.inner_body)
    exact ((hb.seq he (List.nodup_append.1 (h.nodup hg hroot)).2.1).sub
      (List.subset_append_right _ _)).congr fun r => by rw [Exp.analyse]
  | .update x y is v b _, _, _, _, hroot, h => by
    have hnodup := (List.nodup_cons.1 (List.nodup_append.1 (h.nodup hg hroot)).2.1).2
    obtain ⟨hinputs, -, -⟩ := List.nodup_append.1 hnodup
    have his := Exp.securesAll hg hc is hroot (fun d hd => ⟨_, h.part rfl nofun
      (List.mem_append_left _ (List.mem_map_of_mem hd))⟩) (List.nodup_append.1 hinputs).1
    have hv := v.secures hg hc none hroot (h.part rfl
      nofun (List.mem_append_right _ List.mem_cons_self))
    have hb := b.secures hg hc none hroot (h.part rfl nofun
      (List.mem_append_right _ (List.mem_cons_of_mem _ List.mem_cons_self)))
    have hfirst := (hv.seq his hinputs).after (fun r =>
      (r.noteUpdate y.name).forbid [y.name, x.name])
      (fun _ _ _ hr => (hr.noteUpdate y.name).forbid hg _) fun _ _ => rfl
    exact ((hb.seq hfirst hnodup).sub fun z hz =>
      List.mem_append_right _ (List.mem_cons_of_mem _ hz)).congr
      fun r => by rw [Exp.analyse]
  | .index x is _, _, _, _, hroot, h => by
    have his := Exp.securesAll hg hc is hroot (fun d hd =>
      ⟨_, h.part rfl nofun (List.mem_map_of_mem hd)⟩)
      (List.nodup_append.1 (h.nodup hg hroot)).2.1
    exact ((his.forbid hg [x.name]).sub (List.subset_append_right _ _)).congr fun r =>
      by rw [Exp.analyse]
  | .replicate n v s, site, _, _, hroot, h => by
    have hn := n.secures hg hc none hroot (h.part rfl nofun List.mem_cons_self)
    have hv := v.secures hg hc none hroot (h.part rfl
      nofun (List.mem_cons_of_mem _ List.mem_cons_self))
    have hnodup := h.nodup hg hroot
    have hparts := hv.seq hn (List.nodup_append.1 hnodup).2.1
    exact (((Secures.replicate (c := c) hg hroot h).seq hparts
      (List.perm_append_comm.nodup_iff.1 hnodup)).sub
      List.perm_append_comm.subset).congr fun r => Exp.analyse_replicate c site r n v s
  | .loop p is i n b e _, _, _, _, hroot, h => by
    have hnodup := (List.nodup_cons.1 (List.nodup_append.1 (h.nodup hg hroot)).2.1).2
    rw [List.append_assoc, List.append_assoc, List.append_assoc] at hnodup
    obtain ⟨-, hnodup, -⟩ := List.nodup_append.1 hnodup
    rw [← List.append_assoc, ← List.append_assoc] at hnodup
    obtain ⟨hbehind, -, -⟩ := List.nodup_append.1 hnodup
    obtain ⟨hinputs, -, -⟩ := List.nodup_append.1 hbehind
    have his := Exp.securesAll hg hc is hroot (fun d hd => ⟨_, h.part rfl nofun
      (List.mem_append_left _ (List.mem_map_of_mem hd))⟩) (List.nodup_append.1 hinputs).1
    have hn := n.secures hg hc none hroot (h.part rfl
      nofun (List.mem_append_right _ List.mem_cons_self))
    have hb := b.secures hg hc none hroot (h.part rfl nofun
      (List.mem_append_right _ (List.mem_cons_of_mem _ List.mem_cons_self)))
    have he := e.secures hg hc none hroot (h.part rfl nofun
      (List.mem_append_right _ (List.mem_cons_of_mem _
        (List.mem_cons_of_mem _ List.mem_cons_self))))
    have hregion := hb.region hg .refl fun q => q.consumers.keys
    refine ((he.seq (hregion.seq (hn.seq his hinputs) hbehind) hnodup).sub
      fun z hz => ?_).congr fun r => ?_
    · refine List.mem_append_right _ (List.mem_cons_of_mem _ ?_)
      rw [List.append_assoc, List.append_assoc] at hz
      rw [List.append_assoc, List.append_assoc, List.append_assoc]
      exact List.mem_append_right _ hz
    · simp only [Exp.analyse, bind_assoc, pure_bind]
  | .soac .., none, _, _, _, _ => fun _ _ _ _ _ _ _ h => nomatch h
  | .soac op es cs s, some p, _, _, hroot, h => by
    have hnodup := (List.nodup_append.1 (h.nodup hg hroot)).2.1
    obtain ⟨b, s', hk⟩ := h
    obtain ⟨hop, hes, -⟩ := List.nodup_append.1 hnodup
    rw [op.binders_eq] at hop
    -- what has to be computed before the combinator runs
    have hpart : ∀ d ∈ op.neutral ++ es.flatMap Exp.inner, ∃ Δ, Reaches _ ⟨Δ, d⟩ := fun d hd =>
      ⟨_, (Spot.gives_computed hk rfl (List.mem_append_right _ (List.mem_map_of_mem hd))).reached⟩
    obtain ⟨hneutral, hinner⟩ := List.forall_mem_append.1 hpart
    refine .combinator hg hc hroot hk rfl (fun f hf => op.securesBodies hg hc f hf (hroot.trans
      (Spot.gives_computed hk rfl (List.mem_append_left _ (List.mem_map_of_mem hf))).reached))
      (Exp.securesOperands hg hc es hroot (fun e he d hd =>
        hinner d (List.mem_flatMap.2 ⟨e, he, hd⟩)) hes)
      (op.securesNeutral hg hc hroot hneutral (List.nodup_append.1 hop).2.1)

/-- The analysis of a list of expressions keeps the registry secure. -/
theorem Exp.securesAll (hg : g.Sound) (hc : c.transposePull = false) :
    ∀ (es : List Exp) {root : Spot}, g.start.Reaches root →
    (∀ d ∈ es, ∃ Δ, root.Reaches ⟨Δ, d⟩) → (Exp.bindersAll es).Nodup →
      Secures g root (Exp.bindersAll es) fun r => Exp.analyseAll c r es
  | [], _, _, _, _ => .pure
  | e :: es, _, hroot, h, hnodup => by
    obtain ⟨⟨Δ, hΔ⟩, h⟩ := List.forall_mem_cons.1 h
    exact ((Exp.securesAll hg hc es hroot h (List.nodup_append.1 hnodup).2.1).seq
      (e.secures hg hc none hroot hΔ) hnodup).congr fun r => by rw [Exp.analyseAll]

/-- The analysis of what the operands of a combinator compute keeps the registry secure. -/
theorem Exp.securesOperands (hg : g.Sound) (hc : c.transposePull = false) :
    ∀ (es : List Exp) {root : Spot}, g.start.Reaches root →
    (∀ e ∈ es, ∀ d ∈ e.inner, ∃ Δ, root.Reaches ⟨Δ, d⟩) → (Exp.bindersAll es).Nodup →
      Secures g root (Exp.bindersAll es) fun r => Exp.analyseOperands c r es
  | [], _, _, _, _ => .pure
  | .index y is s :: es, _, hroot, h, hnodup => by
    obtain ⟨his, h⟩ := List.forall_mem_cons.1 h
    obtain ⟨hfirst, hrest, -⟩ := List.nodup_append.1 hnodup
    exact ((Exp.securesOperands hg hc es hroot h hrest).seq
      (Exp.securesAll hg hc is hroot his hfirst) hnodup).congr
      fun r => by rw [Exp.analyseOperands]
  | .unary .iota n s :: es, _, hroot, h, hnodup => by
    obtain ⟨hn, h⟩ := List.forall_mem_cons.1 h
    obtain ⟨Δ, hn⟩ := hn n (List.mem_singleton_self n)
    exact ((Exp.securesOperands hg hc es hroot h (List.nodup_append.1 hnodup).2.1).seq
      (n.secures hg hc none hroot hn) hnodup).congr fun r => by rw [Exp.analyseOperands]
  | .unary .not _ _ :: es, _, hroot, h, hnodup | .unary .negate _ _ :: es, _, hroot, h, hnodup
  | .unary .size _ _ :: es, _, hroot, h, hnodup | .unary .transpose _ _ :: es, _, hroot, h, hnodup
  | .lit .. :: es, _, hroot, h, hnodup | .var .. :: es, _, hroot, h, hnodup
  | .tuple .. :: es, _, hroot, h, hnodup | .array .. :: es, _, hroot, h, hnodup
  | .binary .. :: es, _, hroot, h, hnodup | .cond .. :: es, _, hroot, h, hnodup
  | .call .. :: es, _, hroot, h, hnodup | .letIn .. :: es, _, hroot, h, hnodup
  | .update .. :: es, _, hroot, h, hnodup | .replicate .. :: es, _, hroot, h, hnodup
  | .loop .. :: es, _, hroot, h, hnodup | .soac .. :: es, _, hroot, h, hnodup => by
    have hes := Exp.securesOperands hg hc es hroot (List.forall_mem_cons.1 h).2
      (List.nodup_append.1 hnodup).2.1
    refine (hes.sub (List.subset_append_right _ _)).congr fun r => ?_
    rw [Exp.analyseOperands]
    exact bind_pure _

/-- The analysis of the body of a lambda keeps the registry secure. -/
theorem Lambda.secures (hg : g.Sound) (hc : c.transposePull = false) :
    ∀ (f : Lambda) {Δ : Site}, g.start.Reaches ⟨Δ, f.body⟩ →
    Secures g ⟨Δ, f.body⟩ f.body.binders fun r => f.body.analyse c none r
  | ⟨_, b, _⟩, _, hroot => b.secures hg hc none hroot .refl

/-- The analysis of the bodies of lambdas keeps the registry secure. -/
theorem Combinator.securesBodies (hg : g.Sound) (hc : c.transposePull = false) :
    ∀ (op : Combinator), ∀ f ∈ op.lambdas, ∀ {Δ : Site},
    g.start.Reaches ⟨Δ, f.body⟩ → Secures g ⟨Δ, f.body⟩ f.body.binders fun r =>
    f.body.analyse c none r
  | .map f | .filter f | .reduce f _ | .scan f _ => List.forall_mem_singleton.2 (f.secures hg hc)
  | .redomap f h _ => List.forall_mem_cons.2
    ⟨f.secures hg hc, List.forall_mem_singleton.2 (h.secures hg hc)⟩

/-- The analysis of neutral elements keeps the registry secure. -/
theorem Combinator.securesNeutral (hg : g.Sound) (hc : c.transposePull = false) :
    ∀ (op : Combinator) {root : Spot}, g.start.Reaches root →
    (∀ d ∈ op.neutral, ∃ Δ, root.Reaches ⟨Δ, d⟩) → (Exp.bindersAll op.neutral).Nodup →
      Secures g root (Exp.bindersAll op.neutral) fun r => op.analyseNeutral c r
  | .map _, _, _, _, _ | .filter _, _, _, _, _ =>
    Secures.pure.congr fun r => by rw [Combinator.analyseNeutral]
  | .reduce _ ne, _, hroot, h, hnodup | .scan _ ne, _, hroot, h, hnodup | .redomap _ _ ne, _, hroot,
    h, hnodup =>
    (Exp.securesAll hg hc ne hroot h hnodup).congr fun r => by rw [Combinator.analyseNeutral]

end

end

end ArrayFusion
