import ArrayFusion.Proofs.Faultless
import ArrayFusion.Proofs.FreeNames
import ArrayFusion.Proofs.ResultShapes

/-!
# Fused kernels compute what they stand for

Behind a `let` that binds the results of a producer to its outputs, a kernel reads the outputs.
With the producer fused into it, the kernel has the same results in front of that `let`: there is a
recipe at work (`Composed.yields`) that does not look at the outputs at all
(`Composed.free_element`), and so it makes no difference that they are not bound
(`Producer.yields_fuseInto`).

A map that has no outputs has nothing to share with the kernel, and then the rows of the two need
not be as many (`Producer.fuseInto_without_outputs`).  The pass never gets there, as it looks for
kernels that read an output.

A map that is fused takes no names, since the kernel reads all its outputs.  A filter takes one for
its guard at least, and there must be tags for what it takes: behind the largest tag the guard may
have a name that is free in the kernel (`Producer.foldBehindFilter_captures`,
`Producer.filterBehindFilter_captures`).
-/

namespace ArrayFusion

open Eval (Yields Uniform)
open Recipe (link)

/-! ## Stages and their environment -/

section

variable {w : String → Nat} {call : Callee} {env env' : Env}

/-- The outer lambda of a redomap is never applied. -/
theorem Combinator.eval_congr_element {τ : Type} {call : CalleeOver τ} {width : Nat}
    {rows : Evaluation τ (List (List Value))} {op : Combinator}
    (helement : Env.AgreeOn (op.element.free false) env env')
    (hneutral : Env.AgreeOn (Exp.freeAll false op.neutral) env env') :
    op.eval call env width rows = op.eval call env' width rows := by
  cases op with
  | map f => exact Combinator.eval_congr call _ helement
  | filter f => exact Combinator.eval_congr call _ helement
  | reduce f ne => exact Combinator.eval_congr call _ fun x hx => hx.elim (helement x) (hneutral x)
  | scan f ne => exact Combinator.eval_congr call _ fun x hx => hx.elim (helement x) (hneutral x)
  | redomap outer f ne =>
    rw [Combinator.eval, Combinator.eval, f.apply_congr call helement,
      Exp.evalAll_congr call ne hneutral]

theorem Operand.free_toExp {b : Bool} (a : Operand) (s : Span) :
    (a.toExp s).free b = (a.toExp .dummy).free b := by
  cases a <;> rfl

/-- What a stage computes depends on its operands, its lambda for the elements and its neutral
elements. -/
theorem Stage.eval_congr {g : Stage} (helement : Env.AgreeOn (g.op.element.free false) env env')
    (hneutral : Env.AgreeOn (Exp.freeAll false g.op.neutral) env env')
    (hoperands : ∀ a ∈ g.operands, Env.AgreeOn ((a.toExp g.span).free false) env env') :
    g.toExp.eval call env = g.toExp.eval call env' := by
  have hargs : Env.AgreeOn (Exp.freeAll false (g.operands.map (·.toExp g.span))) env env' := by
    intro x hx
    obtain ⟨e, he, hx⟩ := Exp.mem_freeAll_iff.1 hx
    obtain ⟨a, ha, rfl⟩ := List.mem_map.1 he
    exact hoperands a ha x hx
  rw [Stage.toExp, Exp.eval, Exp.eval, Exp.evalArrays_congr call _ hargs,
    Combinator.eval_congr_element helement hneutral]

theorem Combinator.Shaped.balanced {op : Combinator} (h : op.Shaped) : op.Balanced := by
  cases op with
  | map f => exact .inl rfl
  | filter p => exact .inr (.inl rfl)
  | reduce f ne => exact .inr (.inr h)
  | scan f ne => exact .inr (.inr h)
  | redomap outer f ne => exact .inr (.inr h)

end

/-! ## Compatible stages -/

theorem Recipe.exists_link {outs : List Ident} {a : Operand} {x : Name}
    (hx : x ∈ Pattern.names outs) (ha : a.whole?.any (·.name == x) = true) :
    ∃ i, link outs a = some i := by
  cases hlink : link outs a with
  | some i => exact ⟨i, rfl⟩
  | none =>
    cases a with
    | whole y => exact absurd (beq_iff_eq.1 ha ▸ hx) (Recipe.link_eq_none hlink rfl)
    | _ => cases ha

/-- A stage that reads an output of another one as a whole is linked to it. -/
theorem Stage.exists_link {g : Stage} {outs : List Ident} {x : Name}
    (hx : x ∈ Pattern.names outs) (hread : x ∈ g.wholeNames) :
    ∃ a ∈ g.operands, ∃ i, Recipe.link outs a = some i := by
  obtain ⟨a, ha, hwhole⟩ := List.mem_filterMap.1 hread
  obtain ⟨y, hy, rfl⟩ := Option.map_eq_some_iff.1 hwhole
  refine ⟨a, ha, Recipe.exists_link hx ?_⟩
  rw [hy]
  exact beq_self_eq_true _

/-- A kernel that may take a map in reads each of its outputs as a whole. -/
theorem link_of_compatible {c : Config} {g : Stage} {outs : List Ident} {k : Kernel}
    (hkind : g.kind = .map) (hnodup : (Pattern.names outs).Nodup)
    (h : compatible c g (Pattern.names outs) k = true) :
    ∀ i < outs.length, ∃ a ∈ k.stage.operands, link outs a = some i := by
  -- every output is read as a whole by the kernel
  have hreads : ∀ x ∈ Pattern.names outs, ∃ a ∈ k.stage.operands, a.whole?.any (·.name == x) =
      true := by
    unfold compatible at h
    cases hk : k.stage.kind with
    | map | reduce | redomap =>
      rw [hkind, hk] at h
      exact fun x hx => List.any_eq_true.1 (List.all_eq_true.1 (Bool.and_eq_true_iff.1 h).1 x hx)
    | scan | filter =>
      rw [hkind, hk] at h
      cases h
  intro i hi
  obtain ⟨a, ha, hx⟩ := hreads _ (List.mem_map_of_mem (List.getElem_mem hi))
  obtain ⟨j, hj⟩ := Recipe.exists_link (List.mem_map_of_mem (List.getElem_mem hi)) hx
  obtain ⟨y, z, hy, hz, hzy⟩ := Recipe.link_eq_some hj
  obtain ⟨hjlt, rfl⟩ := List.getElem?_eq_some_iff.1 hz
  -- the output that the operand is linked to has the name of this one
  rw [hy, Operand.whole?, Option.any_some, beq_iff_eq, ← hzy] at hx
  have hname (k : Nat) (hk : k < outs.length) : (Pattern.names outs)[k]? = some outs[k].name := by
    rw [Pattern.names, List.getElem?_map, List.getElem?_eq_getElem hk, Option.map_some]
  have hlt : j < (Pattern.names outs).length := by rwa [Pattern.length_names]
  have heq : j = i := (List.getElem?_inj hlt hnodup).1 (by rw [hname j hjlt, hname i hi, hx])
  exact ⟨a, ha, heq ▸ hj⟩

/-- A kernel that may take a producer in reads an output of it, unless that is a map without
outputs. -/
theorem exists_link_of_compatible {c : Config} {g : Stage} {outs : List Ident} {k : Kernel}
    (h : compatible c g (Pattern.names outs) k = true) (hne : g.kind = .map → outs ≠ []) :
    ∃ a ∈ k.stage.operands, ∃ i, link outs a = some i := by
  -- behind a map each output is read, and there is one
  have hmap : ∀ b : Bool, g.kind = .map → ((Pattern.names outs).all (fun x =>
      k.stage.operands.any fun a => a.whole?.any (·.name == x)) && b) = true →
      ∃ a ∈ k.stage.operands, ∃ i, link outs a = some i := by
    intro b hkind hall
    obtain ⟨x, hx⟩ := List.exists_mem_of_ne_nil _ (hne hkind)
    have hx := List.mem_map_of_mem (f := (·.name)) hx
    obtain ⟨a, ha, hreads⟩ := List.any_eq_true.1
      (List.all_eq_true.1 (Bool.and_eq_true_iff.1 hall).1 _ hx)
    exact ⟨a, ha, Recipe.exists_link hx hreads⟩
  -- behind a filter each operand is an output, and there is one
  have hfilter : ∀ b : Bool, (b && !k.stage.operands.isEmpty && k.stage.operands.all fun a =>
      (Pattern.names outs).any fun x => a.whole?.any (·.name == x)) = true →
      ∃ a ∈ k.stage.operands, ∃ i, link outs a = some i := by
    intro b hall
    rw [Bool.and_eq_true_iff, Bool.and_eq_true_iff, Bool.not_eq_true', List.isEmpty_eq_false_iff]
      at hall
    obtain ⟨a, ha⟩ := List.exists_mem_of_ne_nil _ hall.1.2
    obtain ⟨x, hx, hreads⟩ := List.any_eq_true.1 (List.all_eq_true.1 hall.2 a ha)
    exact ⟨a, ha, Recipe.exists_link hx hreads⟩
  unfold compatible at h
  dsimp only at h
  split at h
  iterate 3 exact hmap _ ‹_› h
  iterate 3 exact hfilter _ h
  cases h

/-! ## A kernel with its producer -/

theorem Stage.shaped_asRedomap {g : Stage} (h : g.op.Shaped) (s : NameSupply) :
    (g.asRedomap s).1.op.Shaped := by
  rcases g.asRedomap_cases s with ⟨heq, -⟩ | ⟨f, ne, hop, heq⟩
  · rwa [heq]
  · rw [hop] at h
    rw [heq]
    exact h

section

variable {g c : Stage} {outs cOutputs outputs : List Ident} {s s' : NameSupply} {op : Combinator}
  {operands : List Operand} (h : Composed g outs c cOutputs s s' op operands outputs)
include h

theorem Composed.kind_consumer : c.kind = .map ∨ c.kind = .filter ∨ c.kind = .redomap := by
  cases h with
  | mapMap _ hc _ | mapFold _ hc _ | filterFilter _ hc _ | filterFold _ hc _ =>
    rw [Stage.kind, hc]
    simp [Combinator.kind]

/-- Only a composition of two filters has more outputs than the consumer. -/
theorem Composed.outputs_eq (hkind : c.kind ≠ .filter) : outputs = cOutputs := by
  cases h with
  | mapMap | mapFold | filterFold => rfl
  | filterFilter _ hc _ =>
    rw [Stage.kind, hc] at hkind
    exact absurd rfl hkind

end

namespace Producer

/-- What a producer and a kernel must not share, besides the outputs that the kernel reads as a
whole: no parameter of one lambda is one of the other or free in it, the outputs are distinct, and
all of these names were handed out before. -/
structure Separate (p : Producer) (k : Kernel) (s : NameSupply) : Prop where
  apart : Recipe.Apart p.stage.op.element k.stage.op.element s
  outputs : p.names.Nodup
  unused : ∀ x ∈ p.names, x ∉ p.stage.toExp.free false
  unread : ∀ x ∈ p.names, x ∉ k.stage.op.free false
  operands : ∀ x ∈ p.names, ∀ a ∈ k.stage.operands, a.whole? = none →
    x ∉ (a.toExp .dummy).free false

section

variable {p : Producer} {k k' : Kernel} {s s' : NameSupply}

/-- The conditions in terms of the free variables that are collected. -/
theorem Separate.of_freeVars
    (hparams : (Pattern.names (k.stage.op.element.params ++ p.stage.op.element.params)).Nodup)
    (hbelow : ∀ x ∈ Pattern.names (k.stage.op.element.params ++ p.stage.op.element.params)
      ++ Pattern.names (p.stage.op.element.freeVars ++ k.stage.op.element.freeVars),
        x.tag < s.count)
    (hfree : ∀ x ∈ Pattern.names (k.stage.op.element.params ++ p.stage.op.element.params),
      x ∉ Pattern.names (p.stage.op.element.freeVars ++ k.stage.op.element.freeVars))
    (houtputs : p.names.Nodup) (hunused : ∀ x ∈ p.names, x ∉ Pattern.names p.stage.toExp.freeVars)
    (hunread : ∀ x ∈ p.names, x ∉ Pattern.names (k.stage.op.lambdas.flatMap (·.freeVars)
      ++ k.stage.op.neutral.flatMap (·.freeVars)))
    (hoperands : ∀ x ∈ p.names, ∀ a ∈ k.stage.operands, a.whole? = none →
      x ∉ Pattern.names (a.toExp .dummy).freeVars) : p.Separate k s := by
  have hexp : ∀ {e : Exp} {x : Name}, x ∈ e.free false → x ∈ Pattern.names e.freeVars :=
      fun {e _} hx =>
    e.mem_freeVars.2 (e.free_subset hx)
  have hlambda : ∀ {f : Lambda} {x : Name}, x ∈ f.free false → x ∈ Pattern.names f.freeVars :=
      fun {f _} hx =>
    f.mem_freeVars.2 (f.free_subset hx)
  -- the names that are looked up are among the free variables, which have the certificates besides
  have hboth : ∀ {x : Name}, x ∈ p.stage.op.element.free false ∪ k.stage.op.element.free false →
      x ∈ Pattern.names (p.stage.op.element.freeVars ++ k.stage.op.element.freeVars) := fun hx =>
    Pattern.mem_names_append.2 (hx.imp hlambda hlambda)
  refine ⟨⟨hparams, fun x hx hmem => ?_, fun x hx hmem => ?_, fun x hx => ?_, fun x hx => ?_⟩,
    houtputs, fun x hx hmem => hunused x hx (hexp hmem), fun x hx hmem => hunread x hx ?_,
    fun x hx a ha hwhole hmem => hoperands x hx a ha hwhole (hexp hmem)⟩
  · exact hfree x (Pattern.mem_names_append.2 (.inr hx)) (hboth (.inr hmem))
  · exact hfree x (Pattern.mem_names_append.2 (.inl hx)) (hboth (.inl hmem))
  · exact hbelow x (List.mem_append_left _ hx)
  · exact hbelow x (List.mem_append_right _ (hboth hx))
  · rcases Combinator.mem_free_iff.1 hmem with ⟨f, hf, hx⟩ | hx
    · obtain ⟨y, hy, rfl⟩ := List.mem_map.1 (hlambda hx)
      exact List.mem_map_of_mem (List.mem_append_left _ (List.mem_flatMap.2 ⟨f, hf, hy⟩))
    · obtain ⟨e, he, hx⟩ := Exp.mem_freeAll_iff.1 hx
      obtain ⟨y, hy, rfl⟩ := List.mem_map.1 (hexp hx)
      exact List.mem_map_of_mem (List.mem_append_right _ (List.mem_flatMap.2 ⟨e, he, hy⟩))

/-- The lambdas are as far apart when a reduction is made a redomap. -/
theorem Separate.apart_asRedomap (h : p.Separate k s) :
    Recipe.Apart p.stage.op.element (k.stage.asRedomap s).1.op.element (k.stage.asRedomap s).2 := by
  have hle := k.stage.count_le_asRedomap s
  rw [k.stage.element_asRedomap]
  exact { h.apart with
    below := fun x hx => Nat.lt_of_lt_of_le (h.apart.below x hx) hle
    free := fun x hx => Nat.lt_of_lt_of_le (h.apart.free x hx) hle }

/-- A composition does not look at the outputs of the producer. -/
theorem Separate.eval_eq (h : p.Separate k s) {op : Combinator} {operands : List Operand}
    {outputs : List Ident} {certs : Certificates} {span : Span} {call : Callee} {env env' : Env}
    (harity : p.stage.arity = p.outputs.length)
    (hcomposed : Composed p.stage p.outputs (k.stage.asRedomap s).1 k.outputs
    (k.stage.asRedomap s).2 s' op operands outputs)
    (henv : Env.AgreeOn {x | x ∉ p.names} env env') :
    (Stage.mk op operands certs span).toExp.eval call env
      = (Stage.mk op operands certs span).toExp.eval call env' := by
  have helement := hcomposed.free_element (b := false) harity
  have hneutral := hcomposed.neutral_eq
  rw [k.stage.element_asRedomap] at helement
  rw [k.stage.neutral_asRedomap] at hneutral
  refine Stage.eval_congr (fun x hx => henv x fun hmem => ?_) (fun x hx => henv x fun hmem => ?_)
    fun a ha x hx => henv x fun hmem => ?_
  · -- what the composed lambda uses is used by the producer or by the kernel
    rcases helement hx with hx | hx
    · exact h.unused x hmem
        (.inr (.inl (Combinator.mem_free_iff.2 (.inl ⟨_, p.stage.op.element_mem_lambdas, hx⟩))))
    · exact h.unread x hmem (Combinator.mem_free_iff.2
        (.inl ⟨_, k.stage.op.element_mem_lambdas, hx⟩))
  · exact h.unread x hmem (Combinator.mem_free_iff.2 (.inr (hneutral ▸ hx)))
  · rw [Operand.free_toExp] at hx
    rcases hcomposed.mem_operands ha with ha | ⟨ha, hlink⟩
    · refine h.unused x hmem (.inr (.inr (Exp.mem_freeAll_iff.2 ⟨_, List.mem_map_of_mem ha, ?_⟩)))
      rwa [Operand.free_toExp]
    · rw [k.stage.operands_asRedomap] at ha
      -- an operand that is read as a whole and is no output was none before
      cases hwhole : a.whole? with
      | none => exact h.operands x hmem a ha hwhole hx
      | some y =>
        cases a with
        | whole z =>
          rw [Set.mem_singleton_iff.1 hx] at hmem
          exact Recipe.link_eq_none hlink rfl hmem
        | _ => cases hwhole

/-- What a `let` of the outputs yields in front of the kernel, the kernel yields with the producer
fused into it.  There may be more results behind those. -/
theorem yields_fuseInto {w : String → Nat} {call : Callee} (hu : ∀ fn args, Uniform (call fn args))
    (h : p.fuseInto k s = .ok (some k', s')) (hroom : (k.stage.asRedomap s).2.Serves s')
    (hsep : p.Separate k s) (hp : p.stage.op.Shaped) (hk : k.stage.op.Shaped)
    (hread : ∃ a ∈ k.stage.operands, ∃ i, link p.outputs a = some i) {env : Env} {span : Span}
    {v : Value} {j : Nat} (hv : Yields w
    ((Exp.letIn p.outputs p.stage.toExp k.stage.toExp span).eval call env) v j) :
    ∃ us ws i, v = .ofResults us ∧ us.length = k.outputs.length
      ∧ Yields w (k'.stage.toExp.eval call env) (.ofResults (us ++ ws)) i
      ∧ (us ++ ws).length = k'.outputs.length := by
  obtain ⟨hparity, hkarity, op, operands, outputs, hcomposed, rfl, -⟩ := fuseInto_eq_ok h
  obtain ⟨u, i, vs, j', hproducer, hvs, hconsumer⟩ := yields_letIn hu hv
  have hlength : p.names.length = vs.length := by
    rw [Value.length_of_results hvs]
    exact List.length_map _
  have hagree : Env.AgreeOn {x | x ∉ p.names} (env.extendMany (p.names.zip vs)) env := fun x hx =>
    Env.lookup?_extendMany_of_notMem (by rwa [Env.map_fst_zip hlength])
  have hbound : p.names.map (env.extendMany (p.names.zip vs)).lookup? = vs.map some :=
    Env.map_lookup?_extendMany_zip hsep.outputs hlength
  -- the producer and the kernel, where the outputs are bound
  rw [← p.stage.toExp.eval_congr call (hagree.mono fun x hx hmem => hsep.unused x hmem hx)]
    at hproducer
  rw [← Stage.eval_asRedomap call _ k.stage s] at hconsumer
  have hshaped := Stage.shaped_asRedomap hk s
  have harity := hkarity.trans (k.stage.arity_asRedomap s).symm
  obtain ⟨n, us, -, rfl, hfit⟩ := Stage.resultsFit_of_yields hu hconsumer hshaped.balanced
  have hus := hfit.arity
  obtain ⟨ws, i', hws, hresults⟩ := hcomposed.yields hu hroom hsep.apart_asRedomap hp hshaped
    hparity harity (by rwa [k.stage.operands_asRedomap]) hproducer hvs hbound
      (hus.trans harity.symm) hconsumer
  refine ⟨us, ws, i', rfl, hus.trans harity.symm, ?_, hresults⟩
  -- the composition does not read the outputs any more, so they need not be bound
  rwa [hsep.eval_eq hparity hcomposed hagree] at hws

/-- The same in a session. -/
theorem evaluate_fuseInto (h : p.fuseInto k s = .ok (some k', s'))
    (hroom : (k.stage.asRedomap s).2.Serves s') (hsep : p.Separate k s)
    (hp : p.stage.op.Shaped) (hk : k.stage.op.Shaped)
    (hread : ∃ a ∈ k.stage.operands, ∃ i, link p.outputs a = some i) {prog : Program} {env : Env}
    {t : Session} {span : Span} {v : Value}
    (hv : (prog.evaluate env (.letIn p.outputs p.stage.toExp k.stage.toExp span) t).1 = .ok v) :
    ∃ us ws, v = .ofResults us ∧ us.length = k.outputs.length
      ∧ (prog.evaluate env k'.stage.toExp t).1 = .ok (.ofResults (us ++ ws))
      ∧ (us ++ ws).length = k'.outputs.length := by
  obtain ⟨j, hj⟩ := (Program.evaluate_eq_ok 0).1 hv
  obtain ⟨us, ws, i, rfl, hus, hi, hlength⟩ :=
    yields_fuseInto (prog.callWithin_uniform _) h hroom hsep hp hk hread hj
  exact ⟨us, ws, rfl, hus, (Program.evaluate_eq_ok 0).2 ⟨i, hi⟩, hlength⟩

theorem outputs_fuseInto (h : p.fuseInto k s = .ok (some k', s'))
    (hroom : (k.stage.asRedomap s).2.Serves s') : ∃ unused,
    k'.outputs = k.outputs ++ unused ∧ (Pattern.names unused).Nodup
      ∧ ∀ x ∈ Pattern.names unused, x ∈ s.until s' := by
  obtain ⟨-, -, op, operands, outputs, hcomposed, rfl, -⟩ := fuseInto_eq_ok h
  obtain ⟨unused, heq, hnodup, hfresh⟩ := hcomposed.outputs
  exact ⟨unused, heq, hnodup hroom, fun x hx =>
    NameSupply.until_subset (k.stage.count_le_asRedomap s) (Nat.le_refl _) (hfresh x hx)⟩

theorem kind_fuseInto (h : p.fuseInto k s = .ok (some k', s')) :
    k'.stage.kind = (k.stage.asRedomap s).1.kind := by
  obtain ⟨-, -, op, operands, outputs, hcomposed, rfl, -⟩ := fuseInto_eq_ok h
  exact hcomposed.kind_eq

/-- A map takes no names besides those for making a reduction a redomap. -/
theorem supply_fuseInto {c : Config} (hkind : p.stage.kind = .map) (hnodup : p.names.Nodup)
    (hcompatible : compatible c p.stage p.names k = true) (h : p.fuseInto k s = .ok (some k', s')) :
    s' = (k.stage.asRedomap s).2 := by
  have hall := link_of_compatible hkind hnodup hcompatible
  rw [← k.stage.operands_asRedomap s] at hall
  obtain ⟨-, -, op, operands, outputs, hcomposed, -, -⟩ := fuseInto_eq_ok h
  cases hcomposed with
  | mapMap _ _ hr | mapFold _ _ hr => exact Recipe.supply_afterMap hr hall
  | filterFilter hop | filterFold hop =>
    rw [Stage.kind, hop] at hkind
    cases hkind

/-- Unless two filters are fused, the kernel has the very value of the `let`. -/
theorem evaluate_fuseInto_eq (h : p.fuseInto k s = .ok (some k', s'))
    (hroom : (k.stage.asRedomap s).2.Serves s') (hsep : p.Separate k s)
    (hp : p.stage.op.Shaped) (hk : k.stage.op.Shaped)
    (hread : ∃ a ∈ k.stage.operands, ∃ i, link p.outputs a = some i)
    (hkind : k.stage.kind ≠ .filter) {prog : Program} {env : Env} {t : Session} {span : Span}
    {v : Value} (hv : (prog.evaluate env (.letIn p.outputs p.stage.toExp k.stage.toExp span) t).1 =
    .ok v) : (prog.evaluate env k'.stage.toExp t).1 = .ok v := by
  obtain ⟨us, ws, rfl, hus, hvalue, hlength⟩ := evaluate_fuseInto h hroom hsep hp hk hread hv
  obtain ⟨-, -, op, operands, outputs, hcomposed, rfl, -⟩ := fuseInto_eq_ok h
  have hredomap : (k.stage.asRedomap s).1.kind ≠ .filter := by
    rcases k.stage.asRedomap_cases s with ⟨heq, -⟩ | ⟨f, ne, -, heq⟩ <;> rw [heq]
    · exact hkind
    · exact nofun
  have houtputs : outputs = k.outputs := hcomposed.outputs_eq hredomap
  -- apart from a filter the composition has just the outputs of the kernel
  have hws : ws = [] := by
    have hlength : (us ++ ws).length = outputs.length := hlength
    rw [houtputs, List.length_append, hus, Nat.add_eq_left] at hlength
    exact List.length_eq_zero_iff.1 hlength
  rw [hvalue, hws, List.append_nil]

end

end Producer

/-! ## The three recipes -/

section

variable {p : Producer} {k k' : Kernel} {s s' : NameSupply}

/-- A number under the name with that base and tag. -/
def Ident.number (base : String) (tag : Nat) : Ident := ⟨⟨base, tag⟩, .int⟩

/-- An array of numbers under the name with that base and tag. -/
def Ident.numbers (base : String) (tag : Nat) : Ident := ⟨⟨base, tag⟩, .array .int⟩

/-- An operation on two numbers. -/
def Exp.arith (op : BinaryOp) (a b : Exp) : Exp := .binary op a b .int .dummy

/-- A map that is fused into a map, a reduction or a redomap: whenever the `let` of its outputs, of
which there is one at least, has a value in front of the kernel, the fused kernel has that value in
the same environment. -/
theorem Producer.evaluate_behindMap {c : Config} (hkind : p.stage.kind = .map)
    (hcompatible : compatible c p.stage p.names k = true) (hne : p.outputs ≠ [])
    (hsep : p.Separate k s) (hshaped : k.stage.op.Shaped) (h : p.fuseInto k s = .ok (some k', s'))
    (prog : Program) (env : Env) (t : Session) (span : Span) {v : Value}
    (hv : (prog.evaluate env (.letIn p.outputs p.stage.toExp k.stage.toExp span) t).1 = .ok v) :
    (prog.evaluate env k'.stage.toExp t).1 = .ok v := by
  have hp : p.stage.op.Shaped := by
    cases hop : p.stage.op with
    | map f => trivial
    | _ =>
      rw [Stage.kind, hop] at hkind
      cases hkind
  have hfilter : k.stage.kind ≠ .filter := fun hfilter => by
    unfold compatible at hcompatible
    rw [hkind, hfilter] at hcompatible
    cases hcompatible
  -- behind a map no name is taken for an output
  have hroom : (k.stage.asRedomap s).2.Serves s' := fun hlt => by
    rw [Producer.supply_fuseInto hkind hsep.outputs hcompatible h] at hlt
    exact absurd hlt (Nat.lt_irrefl _)
  exact Producer.evaluate_fuseInto_eq h hroom hsep hp hshaped
    (exists_link_of_compatible hcompatible fun _ => hne) hfilter hv

/-- For each number its successor and its square. -/
def Producer.successorsAndSquares : Producer :=
  let a := Ident.number "a" 4
  ⟨⟨.map ⟨[a], .tuple [.arith .plus (.ofIdent a) (.lit (.int 1) .dummy), .arith .times (.ofIdent a)
      (.ofIdent a)] .dummy, [.int, .int]⟩, [.whole (.numbers "xs" 0)], [], .dummy⟩,
        [.numbers "ys" 2, .numbers "zs" 3]⟩

/-- A sum of products.  One output is read twice, and there is an operand besides the outputs. -/
def Kernel.sumOfProducts : Kernel :=
  let acc := Ident.number "acc" 5
  let y := Ident.number "y" 6
  let z := Ident.number "z" 7
  let u := Ident.number "u" 8
  let b := Ident.number "b" 9
  let product (x y : Ident) : Exp := .arith .times (.ofIdent x) (.ofIdent y)
  let step : Lambda :=
    ⟨[acc, y, z, u, b], .arith .plus (.ofIdent acc) (.arith .plus (product y z) (product u b)),
    [.int]⟩
  .new ⟨0⟩ ⟨.reduce step [.lit (.int 0) .dummy],
    [.whole (.numbers "ys" 2), .whole (.numbers "zs" 3),
    .whole (.numbers "ys" 2), .whole (.numbers "bs" 1)], [], .dummy⟩ [.number "sum" 10]

theorem Producer.evaluate_behindMap_sumOfProducts :
    let p := Producer.successorsAndSquares
    let k := Kernel.sumOfProducts
    let env : Env := Env.empty.extendMany [(⟨"xs", 0⟩, .intArray [1, 2, 3]),
      (⟨"bs", 1⟩, .intArray [10, 20, 30])]
    compatible .default p.stage p.names k = true ∧ p.Separate k ⟨11⟩ ∧ k.stage.op.Shaped
      ∧ (Program.evaluate ⟨[]⟩ env (.letIn p.outputs p.stage.toExp k.stage.toExp .dummy) .new).1 =
        .ok (.int 250)
      ∧ ∃ k' s', p.fuseInto k ⟨11⟩ = .ok (some k', s')
        ∧ (Program.evaluate ⟨[]⟩ env k'.stage.toExp .new).1 = .ok (.int 250) := by
  intro p k env
  have hcompatible : compatible .default p.stage p.names k = true := by decide
  have hsep : p.Separate k ⟨11⟩ := .of_freeVars
    (by decide) (by decide) (by decide) (by decide) (by decide)
    (by decide) (by decide)
  have hvalue : (Program.evaluate ⟨[]⟩ env (.letIn p.outputs p.stage.toExp k.stage.toExp .dummy)
      .new).1
      = .ok (.int 250) := rfl
  refine ⟨hcompatible, hsep, rfl, hvalue, _, _, rfl, ?_⟩
  exact Producer.evaluate_behindMap rfl hcompatible nofun hsep rfl rfl ⟨[]⟩ env .new .dummy hvalue

/-- A map without outputs.  It is compatible with a kernel that has another number of rows, and only
the `let` has a value. -/
theorem Producer.fuseInto_without_outputs :
    let a := Ident.number "a" 2
    let b := Ident.number "b" 3
    let p : Producer := ⟨⟨.map ⟨[a], .tuple [] .dummy, []⟩, [.whole (.numbers "xs" 0)], [],
      .dummy⟩, []⟩
    let k : Kernel := .new ⟨0⟩ ⟨.map ⟨[b], .ofIdent b, [.int]⟩, [.whole (.numbers "bs" 1)], [],
      .dummy⟩ [.numbers "cs" 4]
    let env : Env := Env.empty.extendMany [(⟨"xs", 0⟩, .intArray [1]),
      (⟨"bs", 1⟩, .intArray [10, 20])]
    compatible .default p.stage p.names k = true ∧ p.Separate k ⟨5⟩ ∧ k.stage.op.Shaped
      ∧ (Program.evaluate ⟨[]⟩ env (.letIn p.outputs p.stage.toExp k.stage.toExp .dummy) .new).1
        = .ok (.intArray [10, 20])
      ∧ ∃ k' s', p.fuseInto k ⟨5⟩ = .ok (some k', s')
        ∧ (Program.evaluate ⟨[]⟩ env k'.stage.toExp .new).1 =
          .error (.shapeMismatch (.lengths 1 2)) := by
  intro a b p k env
  have hsep : p.Separate k ⟨5⟩ := .of_freeVars
    (by decide) (by decide) (by decide) (by decide) (by decide)
    (by decide) (by decide)
  exact ⟨rfl, hsep, trivial, rfl, _, _, rfl, rfl⟩

/-- A filter that is fused into a reduction or a redomap: the fused kernel is a redomap, and
whenever the `let` of the outputs of the filter has a value in front of the kernel, the redomap has
that value in the same environment.  There have to be tags for the names that are taken. -/
theorem Producer.evaluate_foldBehindFilter {c : Config} (hkind : p.stage.kind = .filter)
    (hfold : k.stage.kind = .reduce ∨ k.stage.kind = .redomap)
    (hcompatible : compatible c p.stage p.names k = true) (hsep : p.Separate k s)
    (hpredicate : p.stage.op.Shaped) (hshaped : k.stage.op.Shaped)
    (h : p.fuseInto k s = .ok (some k', s')) (hroom : s'.InRange) :
    k'.stage.kind = .redomap ∧ ∀ (prog : Program) (env : Env) (t : Session) (span : Span)
      (v : Value),
      (prog.evaluate env (.letIn p.outputs p.stage.toExp k.stage.toExp span) t).1 = .ok v →
        (prog.evaluate env k'.stage.toExp t).1 = .ok v := by
  have hread := exists_link_of_compatible hcompatible fun hmap => by cases hkind.symm.trans hmap
  refine ⟨?_, fun prog env t span v hv =>
    Producer.evaluate_fuseInto_eq h (hroom.serves _) hsep hpredicate hshaped hread ?_ hv⟩
  · rw [Producer.kind_fuseInto h]
    rcases k.stage.asRedomap_cases s with ⟨heq, hreduce⟩ | ⟨f, ne, -, heq⟩
    · rw [heq]
      refine hfold.resolve_left fun hkind => ?_
      -- a reduction is seen as a redomap
      cases hop : k.stage.op with
      | reduce f ne => exact hreduce f ne hop
      | _ =>
        rw [Stage.kind, hop] at hkind
        cases hkind
    · rw [heq]
      rfl
  · rcases hfold with hfold | hfold <;> rw [hfold] <;> rintro ⟨⟩

/-- The rows in which the second number is larger than the first. -/
def Producer.risingRows : Producer :=
  let a := Ident.number "a" 6
  let b := Ident.number "b" 7
  ⟨⟨.filter ⟨[a, b, .number "d" 8], .binary .less (.ofIdent a) (.ofIdent b) .bool .dummy, [.bool]⟩,
    [.whole (.numbers "xs" 0), .whole (.numbers "bs" 1), .whole (.numbers "ds" 2)], [], .dummy⟩,
    [.numbers "ys" 3, .numbers "cs" 4, .numbers "es" 5]⟩

/-- Two accumulators, and one output that is read twice: a sum of products, and how many there
are. -/
def Kernel.sumAndCount : Kernel :=
  let acc := Ident.number "acc" 9
  let n := Ident.number "n" 10
  let c := Ident.number "c" 11
  let y := Ident.number "y" 12
  let u := Ident.number "u" 13
  let step : Lambda := ⟨[acc, n, c, y, u],
    .tuple [.arith .plus (.ofIdent acc) (.arith .plus (.arith .times (.ofIdent c) (.ofIdent y))
      (.ofIdent u)), .arith .plus (.ofIdent n) (.lit (.int 1) .dummy)] .dummy, [.int, .int]⟩
  .new ⟨0⟩ ⟨.reduce step [.lit (.int 0) .dummy, .lit (.int 0) .dummy], [.whole (.numbers "cs" 4),
    .whole (.numbers "ys" 3), .whole (.numbers "cs" 4)], [], .dummy⟩
    [.number "sum" 14, .number "count" 15]

theorem Producer.evaluate_foldBehindFilter_sumAndCount :
    let p := Producer.risingRows
    let k := Kernel.sumAndCount
    let env : Env := Env.empty.extendMany [(⟨"xs", 0⟩, .intArray [1, 5, 3]),
      (⟨"bs", 1⟩, .intArray [2, 4, 6]), (⟨"ds", 2⟩, .intArray [7, 8, 9])]
    let v : Value := .tuple [.int 28, .int 2]
    compatible .default p.stage p.names k = true ∧ p.Separate k ⟨16⟩ ∧ p.stage.op.Shaped
      ∧ k.stage.op.Shaped
      ∧ (Program.evaluate ⟨[]⟩ env (.letIn p.outputs p.stage.toExp k.stage.toExp .dummy)
        .new).1 = .ok v
      ∧ ∃ k' s', p.fuseInto k ⟨16⟩ = .ok (some k', s') ∧ s'.InRange ∧ k'.stage.kind = .redomap
        ∧ (Program.evaluate ⟨[]⟩ env k'.stage.toExp .new).1 = .ok v := by
  intro p k env v
  have hcompatible : compatible .default p.stage p.names k = true := by decide
  have hsep : p.Separate k ⟨16⟩ := .of_freeVars
    (by decide) (by decide) (by decide) (by decide) (by decide)
    (by decide) (by decide)
  have hvalue : (Program.evaluate ⟨[]⟩ env (.letIn p.outputs p.stage.toExp k.stage.toExp .dummy)
      .new).1
      = .ok v := rfl
  refine ⟨hcompatible, hsep, rfl, rfl, hvalue, _, _, rfl, by decide, ?_⟩
  obtain ⟨hkind, hfused⟩ :=
    Producer.evaluate_foldBehindFilter rfl (.inl rfl) hcompatible hsep rfl rfl rfl (by decide)
  exact ⟨hkind, hfused ⟨[]⟩ env .new .dummy v hvalue⟩

/-- The positive numbers of an array. -/
def Producer.positives : Producer :=
  let a := Ident.number "a" 2
  ⟨⟨.filter ⟨[a], .binary .less (.lit (.int 0) .dummy) (.ofIdent a) .bool .dummy, [.bool]⟩,
    [.whole (.numbers "xs" 0)], [], .dummy⟩, [.numbers "ys" 3]⟩

/-- A sum, if a flag that is free in the step is set. -/
def Kernel.sumIfChecked : Kernel :=
  let acc := Ident.number "acc" 4
  let y := Ident.number "y" 5
  let flag : Ident := ⟨⟨"check", 1⟩, .bool⟩
  let step : Lambda := ⟨[acc, y],
    .cond (.ofIdent flag) (.arith .plus (.ofIdent acc) (.ofIdent y)) (.ofIdent acc) .int .dummy,
    [.int]⟩
  .new ⟨0⟩ ⟨.reduce step [.lit (.int 0) .dummy], [.whole (.numbers "ys" 3)], [], .dummy⟩
    [.number "sum" 6]

/-- A supply with one tag left.  The lambda for the accumulators takes that and the first one of
all, and then the guard gets the name of the flag, which is set for all rows that are kept. -/
theorem Producer.foldBehindFilter_captures :
    let p := Producer.positives
    let k := Kernel.sumIfChecked
    let s : NameSupply := ⟨4294967295⟩
    let env : Env := Env.empty.extendMany [(⟨"xs", 0⟩, .intArray [1, -2, 3]),
      (⟨"check", 1⟩, .bool false)]
    compatible .default p.stage p.names k = true ∧ p.Separate k s ∧ p.stage.op.Shaped
      ∧ k.stage.op.Shaped
      ∧ (Program.evaluate ⟨[]⟩ env (.letIn p.outputs p.stage.toExp k.stage.toExp .dummy) .new).1 =
        .ok (.int 0)
      ∧ ∃ k' s', p.fuseInto k s = .ok (some k', s')
        ∧ (Program.evaluate ⟨[]⟩ env k'.stage.toExp .new).1 = .ok (.int 4) := by
  have hsep : Producer.positives.Separate Kernel.sumIfChecked ⟨4294967295⟩ :=
    .of_freeVars (by decide) (by decide) (by decide) (by decide) (by decide) (by decide) (by decide)
  exact ⟨by decide, hsep, rfl, rfl, rfl, _, _, rfl, rfl⟩

/-- A filter that is fused into a filter: the fused kernel is a filter whose outputs are those of
the kernel and fresh ones behind them, and whenever the `let` of the outputs of the first filter has
a value in front of the kernel, the fused one has the results of that value in the same environment,
and more for the fresh outputs. There have to be tags for the names that are taken; then these are
new. -/
theorem Producer.evaluate_filterBehindFilter {c : Config} (hkind : p.stage.kind = .filter)
    (hfilter : k.stage.kind = .filter) (hcompatible : compatible c p.stage p.names k = true)
    (hsep : p.Separate k s) (hpredicate : p.stage.op.Shaped) (hshaped : k.stage.op.Shaped)
    (h : p.fuseInto k s = .ok (some k', s')) (hroom : s'.InRange) :
    k'.stage.kind = .filter ∧ ∃ unused, k'.outputs = k.outputs ++ unused
      ∧ (Pattern.names unused).Nodup
      ∧ (∀ x ∈ Pattern.names unused, s.count ≤ x.tag ∧ x.tag < s'.count)
      ∧ ∀ (prog : Program) (env : Env) (t : Session) (span : Span) (v : Value),
        (prog.evaluate env (.letIn p.outputs p.stage.toExp k.stage.toExp span) t).1 = .ok v →
          ∃ us ws w, v.results k.outputs.length = .ok us
            ∧ (prog.evaluate env k'.stage.toExp t).1 = .ok w
            ∧ w.results k'.outputs.length = .ok (us ++ ws) ∧ ws.length = unused.length := by
  have hread := exists_link_of_compatible hcompatible fun hmap => nomatch hkind.symm.trans hmap
  obtain ⟨unused, houtputs, hnodup, hfresh⟩ := Producer.outputs_fuseInto h (hroom.serves _)
  refine ⟨?_, unused, houtputs, hnodup, fun x hx => ⟨hroom.le_of_mem_until (hfresh x hx),
    NameSupply.lt_of_mem_until (hfresh x hx)⟩, fun prog env t span v hv => ?_⟩
  · rw [Producer.kind_fuseInto h]
    rcases k.stage.asRedomap_cases s with ⟨heq, -⟩ | ⟨f, ne, hop, -⟩
    · rwa [heq]
    · rw [Stage.kind, hop] at hfilter
      cases hfilter
  · obtain ⟨us, ws, rfl, hus, hvalue, hlength⟩ :=
      Producer.evaluate_fuseInto h (hroom.serves _) hsep hpredicate hshaped hread hv
    refine ⟨us, ws, _, hus ▸ Value.results_ofResults us, hvalue,
      hlength ▸ Value.results_ofResults _, ?_⟩
    -- the values behind those of the kernel are as many as the outputs behind its own
    rw [houtputs, List.length_append, List.length_append, hus] at hlength
    exact Nat.add_left_cancel hlength

/-- A filter that reads one output twice and another one not at all. -/
def Kernel.largeProducts : Kernel :=
  let c := Ident.number "c" 9
  let y := Ident.number "y" 10
  .new ⟨0⟩ ⟨.filter ⟨[c, y, .number "u" 11],
      .binary .less (.lit (.int 4) .dummy) (.arith .times (.ofIdent c) (.ofIdent y)) .bool .dummy,
      [.bool]⟩,
    [.whole (.numbers "cs" 4), .whole (.numbers "ys" 3), .whole (.numbers "cs" 4)], [], .dummy⟩
    [.numbers "us" 12, .numbers "vs" 13, .numbers "ws" 14]

theorem Producer.evaluate_filterBehindFilter_largeProducts :
    let p := Producer.risingRows
    let k := Kernel.largeProducts
    let env : Env := Env.empty.extendMany [(⟨"xs", 0⟩, .intArray [1, 5, 3]),
      (⟨"bs", 1⟩, .intArray [2, 4, 6]), (⟨"ds", 2⟩, .intArray [7, 8, 9])]
    let v : Value := .tuple [.intArray [6], .intArray [3], .intArray [6]]
    compatible .default p.stage p.names k = true ∧ p.Separate k ⟨15⟩ ∧ p.stage.op.Shaped
      ∧ k.stage.op.Shaped
      ∧ (Program.evaluate ⟨[]⟩ env (.letIn p.outputs p.stage.toExp k.stage.toExp .dummy)
        .new).1 = .ok v
      ∧ ∃ k' s', p.fuseInto k ⟨15⟩ = .ok (some k', s') ∧ s'.InRange
        ∧ ∃ unused, k'.outputs = k.outputs ++ unused
        ∧ ∃ us ws w, v.results k.outputs.length = .ok us
          ∧ (Program.evaluate ⟨[]⟩ env k'.stage.toExp .new).1 = .ok w
          ∧ w.results k'.outputs.length = .ok (us ++ ws) ∧ ws.length = unused.length := by
  intro p k env v
  have hcompatible : compatible .default p.stage p.names k = true := by decide
  have hsep : p.Separate k ⟨15⟩ := .of_freeVars
    (by decide) (by decide) (by decide) (by decide) (by decide)
    (by decide) (by decide)
  have hvalue : (Program.evaluate ⟨[]⟩ env (.letIn p.outputs p.stage.toExp k.stage.toExp .dummy)
      .new).1
      = .ok v := rfl
  refine ⟨hcompatible, hsep, rfl, rfl, hvalue, _, _, rfl, by decide, ?_⟩
  obtain ⟨-, unused, houtputs, -, -, hfused⟩ :=
    Producer.evaluate_filterBehindFilter rfl rfl hcompatible hsep rfl rfl rfl (by decide)
  exact ⟨unused, houtputs, hfused ⟨[]⟩ env .new .dummy v hvalue⟩

/-- A filter that keeps all rows, if a flag that is free in it is set, and reads one output. -/
def Kernel.allIfChecked : Kernel :=
  .new ⟨0⟩ ⟨.filter ⟨[.number "y" 9], .ofIdent ⟨⟨"check", 0⟩, .bool⟩, [.bool]⟩,
    [.whole (.numbers "ys" 3)], [], .dummy⟩ [.numbers "zs" 10]

/-- A supply with two tags left.  They are for the outputs that are not read, and then the guard
gets the name of the flag, which is set for all rows that the first filter keeps. -/
theorem Producer.filterBehindFilter_captures :
    let p := Producer.risingRows
    let k := Kernel.allIfChecked
    let s : NameSupply := ⟨4294967294⟩
    let env : Env := Env.empty.extendMany [(⟨"xs", 0⟩, .intArray [1, 5, 3]),
      (⟨"bs", 1⟩, .intArray [2, 4, 6]),
      (⟨"ds", 2⟩, .intArray [7, 8, 9]), (⟨"check", 0⟩, .bool false)]
    compatible .default p.stage p.names k = true ∧ p.Separate k s ∧ p.stage.op.Shaped
      ∧ k.stage.op.Shaped
      ∧ (Program.evaluate ⟨[]⟩ env (.letIn p.outputs p.stage.toExp k.stage.toExp .dummy) .new).1
        = .ok (.intArray [])
      ∧ ∃ k' s', p.fuseInto k s = .ok (some k', s')
        ∧ (Program.evaluate ⟨[]⟩ env k'.stage.toExp .new).1
          = .ok (.tuple [.intArray [1, 3], .intArray [2, 6], .intArray [7, 9]]) := by
  have hsep : Producer.risingRows.Separate Kernel.allIfChecked ⟨4294967294⟩ :=
    .of_freeVars (by decide) (by decide) (by decide) (by decide) (by decide) (by decide) (by decide)
  exact ⟨by decide, hsep, rfl, rfl, rfl, _, _, rfl, rfl⟩

end

end ArrayFusion
