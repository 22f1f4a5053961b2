import ArrayFusion.Proofs.Course
import ArrayFusion.Proofs.FusedKernels
import ArrayFusion.Proofs.NormalPass

/-!
# Compatible stages are composed

`compatible` looks at the kinds of two stages and at how the operands of the consumer read the
outputs of the producer, before the consumer is made a redomap.  The recipes look at the kinds of
the two afterwards, and go through the parameters of the consumer.  Whenever `compatible` says yes
there is a recipe to follow (`applies_of_compatible`), and no recipe is given up on the way
(`Recipe.Applies.compose_ne_none`); so a fusion of compatible stages ends with a kernel, or with an
error about numbers of parameters or results. If these numbers fit, it ends with a kernel
(`Producer.exists_fuseInto`).

The pass asks `compatible` about a stage and every kernel that it is to be fused into, and fuses
copies of the stage, which are compatible with the same kernels.  So it never reports that a
composition was declined (`compatible_never_declined`).
-/

namespace ArrayFusion

open Recipe (link)

/-! ## Recipes -/

namespace Recipe

/-- There is a recipe for the two: a map goes into a map or a redomap, and a filter into a filter or
a redomap that reads nothing but its outputs. -/
inductive Applies (p : Producer) (c : Stage) : Prop
  | mapMap {f g : Lambda} : p.stage.op = .map f → c.op = .map g → Applies p c
  | mapFold {f outer g : Lambda} {ne : List Exp} :
    p.stage.op = .map f → c.op = .redomap outer g ne →
    Applies p c
  | filterFilter {f g : Lambda} : p.stage.op = .filter f → c.op = .filter g →
    (∀ a ∈ c.operands, ∃ i, link p.outputs a = some i) → Applies p c
  | filterFold {f outer g : Lambda} {ne : List Exp} :
    p.stage.op = .filter f → c.op = .redomap outer g ne →
    (∀ a ∈ c.operands, ∃ i, link p.outputs a = some i) → Applies p c

/-- If every operand reads an output as a whole, there is a source for each parameter. -/
theorem exists_readers {ss : List Source} (params : List Ident) {operands : List Operand}
    (hlink : ∀ a ∈ operands, ∃ i, link (ss.map (·.output)) a = some i) :
    ∃ readers, readers? ss params operands = some readers := by
  refine (exists_forall₂ fun e he => ?_).imp fun readers => Option.mapM_eq_some.2
  obtain ⟨i, hi⟩ := hlink e.2 (List.of_mem_zip he).2
  obtain ⟨-, x, -, hx, -⟩ := link_eq_some hi
  rw [List.getElem?_map, Option.map_eq_some_iff] at hx
  obtain ⟨s, hs, -⟩ := hx
  refine ⟨(e.1, i, s), ?_⟩
  dsimp only
  rw [hi]
  simp [hs]

section

variable {p c : Lambda} {pOperands cOperands : List Operand} {outs : List Ident} {s s' : NameSupply}
  (houts : outs.length = pOperands.length) (hlink : ∀ a ∈ cOperands, ∃ i, link outs a = some i)
include houts hlink

/-- A fold behind a filter is not declined. -/
theorem foldAfterFilter_ne_none {acc : Nat} :
    foldAfterFilter p pOperands outs c acc cOperands s ≠ .ok (none, s') := by
  intro h
  obtain ⟨_, s₁, hp, h₁⟩ := State.bind_eq_ok.1 h
  obtain ⟨_, s₂, -, h₂⟩ := State.bind_eq_ok.1 h₁
  have hparams := checkParams_eq_ok.1 (Fresh.lift_eq_ok.1 hp).1
  rw [← map_output_sources houts hparams] at hlink
  obtain ⟨readers, hreaders⟩ := exists_readers (c.params.drop acc) hlink
  rw [hreaders] at h₂
  obtain ⟨body, s₃, -, h₃⟩ := State.bind_eq_ok.1 h₂
  cases (State.pure_eq_ok.1 h₃).1

/-- A filter behind a filter is not declined. -/
theorem filterAfterFilter_ne_none {cOutputs : List Ident} :
    filterAfterFilter p pOperands outs c cOperands cOutputs s ≠ .ok (none, s') := by
  intro h
  obtain ⟨_, s₁, hp, h₁⟩ := State.bind_eq_ok.1 h
  obtain ⟨_, s₂, -, h₂⟩ := State.bind_eq_ok.1 h₁
  have hparams := checkParams_eq_ok.1 (Fresh.lift_eq_ok.1 hp).1
  rw [← map_output_sources houts hparams] at hlink
  obtain ⟨readers, hreaders⟩ := exists_readers c.params hlink
  dsimp only at h₂
  rw [hreaders] at h₂
  obtain ⟨read, s₃, -, h₃⟩ := State.bind_eq_ok.1 h₂
  obtain ⟨unused, s₄, -, h₄⟩ := State.bind_eq_ok.1 h₃
  obtain ⟨body, s₅, -, h₅⟩ := State.bind_eq_ok.1 h₄
  cases (State.pure_eq_ok.1 h₅).1

end

/-- No recipe that applies is given up. -/
theorem Applies.compose_ne_none {p : Producer} {c : Stage} (h : Applies p c)
    (houts : p.stage.arity = p.outputs.length) {outs : List Ident} {s s' : NameSupply} :
    p.compose c outs s ≠ .ok (none, s') := by
  have hfilter : ∀ f, p.stage.op = .filter f → p.outputs.length = p.stage.operands.length := by
    intro f hp
    rw [← houts, Stage.arity, hp]
    rfl
  intro hnone
  unfold Producer.compose at hnone
  -- a map composes with anything; a filter only has to find the operands that are linked to it
  cases h with
  | mapMap hp hc | mapFold hp hc =>
    rw [hp, hc] at hnone
    obtain ⟨r, s₁, -, h₁⟩ := State.bind_eq_ok.1 hnone
    cases (State.pure_eq_ok.1 h₁).1
  | filterFilter hp hc hlink =>
    rw [hp, hc] at hnone
    obtain ⟨r, s₁, hr, h₁⟩ := State.bind_eq_ok.1 hnone
    cases r with
    | none => exact filterAfterFilter_ne_none (hfilter _ hp) hlink hr
    | some r => cases (State.pure_eq_ok.1 h₁).1
  | filterFold hp hc hlink =>
    rw [hp, hc] at hnone
    obtain ⟨r, s₁, hr, h₁⟩ := State.bind_eq_ok.1 hnone
    cases r with
    | none => exact foldAfterFilter_ne_none (hfilter _ hp) hlink hr
    | some r => cases (State.pure_eq_ok.1 h₁).1

end Recipe

/-! ## Compatible stages -/

/-- Compatible stages have a recipe, the consumer being made a redomap if it is a reduction. -/
theorem applies_of_compatible {c : Config} {p : Producer} {k : Kernel}
    (h : compatible c p.stage p.names k = true) (s : NameSupply) :
    Recipe.Applies p (k.stage.asRedomap s).1 := by
  have hlink : (c.filterFusion && !k.stage.operands.isEmpty && k.stage.operands.all fun a =>
      p.names.any fun x => a.whole?.any (·.name == x)) = true →
      ∀ a ∈ (k.stage.asRedomap s).1.operands, ∃ i, link p.outputs a = some i := by
    intro hall a ha
    rw [Stage.operands_asRedomap] at ha
    obtain ⟨x, hx, hreads⟩ := List.any_eq_true.1
      (List.all_eq_true.1 (Bool.and_eq_true_iff.1 hall).2 a ha)
    exact Recipe.exists_link hx hreads
  -- of the pairs of kinds that are compatible each has a recipe
  unfold compatible Stage.kind at h
  rcases k.stage.asRedomap_cases s with ⟨heq, hstays⟩ | ⟨f, ne, hk, heq⟩
  · rw [heq] at hlink ⊢
    cases hp : p.stage.op with
    | map f =>
      cases hk : k.stage.op with
      | map g => exact .mapMap hp hk
      | redomap outer g ne => exact .mapFold hp hk
      | reduce g ne => exact absurd hk (hstays g ne)
      | scan | filter =>
        rw [hp, hk] at h
        cases h
    | filter f =>
      cases hk : k.stage.op with
      | filter g =>
        rw [hp, hk] at h
        exact .filterFilter hp hk (hlink h)
      | redomap outer g ne =>
        rw [hp, hk] at h
        exact .filterFold hp hk (hlink h)
      | reduce g ne => exact absurd hk (hstays g ne)
      | scan | map =>
        rw [hp, hk] at h
        cases h
    | reduce | scan | redomap =>
      rw [hp] at h
      cases h
  · -- a reduction is a redomap by now
    have hredomap : (k.stage.asRedomap s).1.op = .redomap (f.freshen s).1 f ne := by rw [heq]
    cases hp : p.stage.op with
    | map f => exact .mapFold hp hredomap
    | filter f =>
      rw [hp, hk] at h
      exact .filterFold hp hredomap (hlink h)
    | reduce | scan | redomap =>
      rw [hp] at h
      cases h

/-- Fusing compatible stages never ends without a kernel. -/
theorem Producer.fuseInto_ne_none {c : Config} {p : Producer} {k : Kernel} {s s' : NameSupply}
    (h : compatible c p.stage p.names k = true) : p.fuseInto k s ≠ .ok (none, s') := by
  intro hnone
  obtain ⟨_, s₁, hp, h₁⟩ := State.bind_eq_ok.1 hnone
  obtain ⟨_, s₂, -, h₂⟩ := State.bind_eq_ok.1 h₁
  obtain ⟨d, s₃, hd, h₃⟩ := State.bind_eq_ok.1 h₂
  obtain ⟨r, s₄, hr, h₄⟩ := State.bind_eq_ok.1 h₃
  have houts := Producer.checkOutputs_eq_ok.1 (Fresh.lift_eq_ok.1 hp).1
  have hd : k.stage.asRedomap s₂ = (d, s₃) := Except.ok.inj hd
  have happlies := applies_of_compatible h s₂
  rw [hd] at happlies
  cases r with
  | none => exact happlies.compose_ne_none houts hr
  | some r =>
    obtain ⟨_, s₅, -, h₅⟩ := State.bind_eq_ok.1 h₄
    cases (State.pure_eq_ok.1 h₅).1

/-- The lambda for the elements takes the accumulators and an element of each operand. -/
def Stage.ParamsFit (g : Stage) : Prop :=
  g.op.element.params.length = g.op.neutral.length + g.operands.length

instance (g : Stage) : Decidable g.ParamsFit := inferInstanceAs (Decidable (_ = _))

/-- Compatible stages are fused if both have an output for each result and lambdas for their
operands. -/
theorem Producer.exists_fuseInto {c : Config} {p : Producer} {k : Kernel}
    (h : compatible c p.stage p.names k = true) (hp : p.stage.arity = p.outputs.length)
    (hk : k.outputs.length = k.stage.arity) (hpParams : p.stage.ParamsFit)
    (hkParams : k.stage.ParamsFit) (s : NameSupply) :
    ∃ k' s', p.fuseInto k s = .ok (some k', s') := by
  have hends := Producer.failsWith_fuseInto (E := fun _ => False) hp hk
    (fun e he => he.1 hpParams) (fun e he => he.1 hkParams) s
  cases hrun : p.fuseInto k s with
  | error e => exact (hends.of_error hrun).2.elim
  | ok r =>
    obtain ⟨k', s'⟩ := r
    cases k' with
    | none => exact absurd hrun (Producer.fuseInto_ne_none h)
    | some k' => exact ⟨k', s', rfl⟩

/-! ## The pass -/

/-- Why the combinator stays, if it does. -/
def Decision.reason? : Decision → Option Reason
  | .fused _ _ _ => none
  | .kept _ _ _ reason => some reason

/-- It depends on the kind of a producer alone what it is compatible with. -/
theorem compatible_congr {c : Config} {g g' : Stage} (hkind : g'.kind = g.kind) (outs : List Name)
    (k : Kernel) : compatible c g' outs k = compatible c g outs k := by
  unfold compatible
  rw [hkind]

namespace Registry

variable {r : Registry} {c : Config} {g : Stage} {s s' : NameSupply}

/-- A copy of a stage is of its kind. -/
theorem kind_copyOf {g' : Stage} (h : r.copyOf g s = .ok (g', s')) : g'.kind = g.kind := by
  obtain ⟨-, op', rfl, hpaired⟩ := copyOf_paired (P := fun _ _ => True) h fun _ _ _ _ _ _ _ =>
    trivial
  obtain ⟨op, operands, certs, span⟩ := g
  cases hpaired <;> rfl

/-- Fusing a stage into kernels it is compatible with is not declined. -/
theorem fuseIntoAll_ne_none {outs : List Ident} {first : Bool} {ks : List Kernel}
    (h : ∀ k ∈ ks, compatible c g (Pattern.names outs) k = true) :
    r.fuseIntoAll g outs first ks s ≠ .ok (none, s') := by
  induction ks generalizing first s s' with
  | nil =>
    intro hnone
    cases (State.pure_eq_ok.1 hnone).1
  | cons k ks ih =>
    obtain ⟨hk, hks⟩ := List.forall_mem_cons.1 h
    intro hnone
    rw [fuseIntoAll_cons] at hnone
    obtain ⟨g', s₁, hg, h₁⟩ := State.bind_eq_ok.1 hnone
    obtain ⟨k', s₂, hfuse, h₂⟩ := State.bind_eq_ok.1 h₁
    -- the stage itself or a copy of it
    have hkind : g'.kind = g.kind := by
      cases first with
      | true => rw [(State.pure_eq_ok.1 hg).1]
      | false => exact kind_copyOf hg
    cases k' with
    | none =>
      refine Producer.fuseInto_ne_none (c := c) ?_ hfuse
      exact (compatible_congr hkind _ k).trans hk
    | some k' =>
      obtain ⟨rest, s₃, hrest, h₃⟩ := State.bind_eq_ok.1 h₂
      cases rest with
      | none => exact ih hks hrest
      | some rest => cases (State.pure_eq_ok.1 h₃).1

/-- Whatever keeps a stage where it is, it is not that a composition was declined. -/
theorem tryFuse_ne_declined {o : Origin} {p : Pattern} {reason : Reason}
    (h : r.tryFuse c o p g s = .ok (.error reason, s')) : reason ≠ .declined := by
  rintro rfl
  unfold tryFuse at h
  split at h
  · cases (State.pure_eq_ok.1 h).1
  -- each earlier check gives a reason of its own, and past them no recipe declines
  cases hids : r.candidates p.names with
  | nil =>
    rw [hids] at h
    cases (State.pure_eq_ok.1 h).1
  | cons id ids =>
    rw [hids] at h
    obtain ⟨ks, s₁, -, h₁⟩ := State.bind_eq_ok.1 h
    split at h₁
    · cases (State.pure_eq_ok.1 h₁).1
    rename_i hcompatible
    split at h₁
    · cases (State.pure_eq_ok.1 h₁).1
    obtain ⟨fused, s₂, hfused, h₂⟩ := State.bind_eq_ok.1 h₁
    cases fused with
    | none => exact fuseIntoAll_ne_none (c := c) (by simpa using hcompatible) hfused
    | some fused => cases (State.pure_eq_ok.1 h₂).1

end Registry

/-- In the course of the decisions nothing is kept for the reason that it was declined. -/
theorem Course.reason_ne_declined {c : Config} {l : Log} {r r' : Registry} {a b : Progress}
    (h : Course c l r a r' b) : ∀ e ∈ l, e.2.reason? ≠ some .declined := by
  induction h with
  | nil | forbid | noteUpdate => exact nofun
  | append _ _ ih ih' => exact List.forall_mem_append.2 ⟨ih, ih'⟩
  | meet _ _ _ _ ih => exact ih
  | place _ _ _ _ _ hdecided =>
    rw [List.forall_mem_singleton]
    cases hdecided with
    | fused => exact nofun
    | stays _ htry | registered _ htry =>
      intro hreason
      exact Registry.tryFuse_ne_declined htry (Option.some.inj hreason)

/-- No decision that is reported gives that reason. -/
theorem FunDef.fuse_reason_ne_declined {c : Config} {f : FunDef} {r : FusedFun}
    (h : f.fuse c = .ok r) : ∀ d ∈ r.report.decisions, d.reason? ≠ some .declined := by
  rcases FunDef.decisions_of_fuse h with ⟨-, hnil⟩ | ⟨q, b, hanalyse, -, heq, -⟩
  · rw [hnil]
    exact nofun
  · obtain ⟨l, -, hcourse⟩ := Exp.analyse_course hanalyse
    intro d hd
    rw [heq, hcourse.decisions, List.nil_append] at hd
    obtain ⟨e, he, rfl⟩ := List.mem_map.1 hd
    exact hcourse.reason_ne_declined e he

/-- A report about a function has no such decision, whether the fusion succeeds or is given up. -/
theorem FunDef.fuseOrKeep_reason_ne_declined (c : Config) (f : FunDef) :
    ∀ d ∈ (f.fuseOrKeep c).2.decisions, d.reason? ≠ some .declined := by
  unfold FunDef.fuseOrKeep
  cases h : f.fuse c with
  | error e => exact nofun
  | ok r => exact FunDef.fuse_reason_ne_declined h

/-- Fusing a compatible producer and kernel never ends without a kernel.  It ends with one if both
have an output for each result and lambdas for their operands.  And no run of the pass reports that
a composition was declined: neither a run on one function nor a run on a program. -/
theorem compatible_never_declined (c : Config) :
    (∀ (p : Producer) (k : Kernel) (s : NameSupply), compatible c p.stage p.names k = true →
      (∀ s', p.fuseInto k s ≠ .ok (none, s'))
      ∧ (p.stage.arity = p.outputs.length → k.outputs.length = k.stage.arity → p.stage.ParamsFit →
        k.stage.ParamsFit → ∃ k' s', p.fuseInto k s = .ok (some k', s')))
    ∧ (∀ (f : FunDef) (r : FusedFun), f.fuse c = .ok r →
      ∀ d ∈ r.report.decisions, d.reason? ≠ some .declined)
    ∧ ∀ (prog : Program), ∀ report ∈ (prog.fuse c).2.functions,
      ∀ d ∈ report.decisions, d.reason? ≠ some .declined := by
  refine ⟨fun p k s h => ⟨fun s' => Producer.fuseInto_ne_none h, fun hp hk hpParams hkParams =>
    Producer.exists_fuseInto h hp hk hpParams hkParams s⟩, fun f r h =>
      FunDef.fuse_reason_ne_declined h, ?_⟩
  intro prog report hreport
  obtain ⟨result, hresult, rfl⟩ := List.mem_map.1 hreport
  obtain ⟨f, -, rfl⟩ := List.mem_map.1 hresult
  exact f.fuseOrKeep_reason_ne_declined c

theorem compatible_never_declined_largeProducts :
    let p := Producer.risingRows
    let k := Kernel.largeProducts
    compatible .default p.stage p.names k = true ∧ (∀ s', p.fuseInto k ⟨15⟩ ≠ .ok (none, s'))
      ∧ (p.stage.arity = p.outputs.length ∧ k.outputs.length = k.stage.arity ∧ p.stage.ParamsFit
        ∧ k.stage.ParamsFit)
      ∧ (∃ k' s', p.fuseInto k ⟨15⟩ = .ok (some k', s'))
      ∧ ∃ r, negatedTwice.fuse .default = .ok r ∧ r.report.decisions.length = 2
        ∧ ∀ d ∈ r.report.decisions, d.reason? ≠ some .declined := by
  intro p k
  have hcompatible : compatible .default p.stage p.names k = true := by decide
  have hp : p.stage.arity = p.outputs.length := by decide
  have hk : k.outputs.length = k.stage.arity := by decide
  have hpParams : p.stage.ParamsFit := by decide
  have hkParams : k.stage.ParamsFit := by decide
  obtain ⟨hpairs, hruns, -⟩ := compatible_never_declined .default
  obtain ⟨hnone, hsome⟩ := hpairs p k ⟨15⟩ hcompatible
  -- the run is evaluated once, for the reasons of its two decisions
  have hdecisions : (negatedTwice.fuse .default).toOption.any (·.report.decisions.length = 2) =
      true := by
    decide +kernel
  obtain ⟨r, h, hdecisions⟩ := Except.exists_of_any hdecisions
  exact ⟨hcompatible, hnone, ⟨hp, hk, hpParams, hkParams⟩, hsome hp hk hpParams hkParams, r, h,
    of_decide_eq_true hdecisions, hruns negatedTwice r h⟩

end ArrayFusion
