import ArrayFusion.Proofs.NormalForm

/-!
# Emitted code is in normal form

Where the code and all kernels are in normal form, so is what is emitted (`Registry.Normal.emit`,
`Registry.Normal.emitLambda`).  A kernel is emitted from its stage, with kernels inside it one level
deeper, so the induction is on the depth and then on the code.
-/

namespace ArrayFusion

/-! ## Stages and kernels -/

/-- The operand is one that can be read back, and the expressions in it are normal. -/
def Operand.Normal (a : Operand) : Prop := ∀ s, (a.toExp s).IsOperand ∧ (a.toExp s).NormalAt none

/-- An operand that is read off a normal expression is normal. -/
theorem Operand.normal_of_ofExp? {e : Exp} {a : Operand} (h : Operand.ofExp? e = some a)
    (he : e.NormalAt none) : a.Normal := by
  intro s
  unfold ofExp? at h
  split at h
  · -- the four forms of an operand
    split at h
    · rename_i hx
      cases h
      exact ⟨Exp.isOperand_iff.2 (.inl ⟨_, _, rfl, hx⟩), trivial⟩
    · cases h
  · cases h
    exact ⟨rfl, he⟩
  · split at h
    · rename_i hx
      cases h
      exact ⟨Exp.isOperand_iff.2 (.inr (.inr (.inl ⟨_, _, _, rfl, hx⟩))), trivial⟩
    · cases h
  · cases h
    exact ⟨rfl, he⟩
  · cases h

/-- An identifier of array type is a normal operand. -/
theorem Operand.normal_whole {x : Ident} (hx : x.isArray) : (Operand.whole x).Normal := fun _ =>
  ⟨Exp.isOperand_iff.2 (.inl ⟨_, _, rfl, hx⟩), trivial⟩

/-- The operands are arrays that can be read, and the lambda for the elements has a parameter for
each of them and for each accumulator. -/
structure Stage.Normal (g : Stage) : Prop where
  op : g.op.Normal
  params : g.op.element.params.length = g.op.neutral.length + g.operands.length
  operands : ∀ a ∈ g.operands, a.Normal

/-- A normal stage as an expression is normal where its results are bound. -/
theorem Stage.Normal.toExp {g : Stage} (h : g.Normal) : g.toExp.NormalAt (some g.arity) := by
  refine ⟨by rw [List.length_map]; rfl, fun e he => ?_, by rw [List.length_map]; exact h.params, h.op,
    Exp.normalAll_iff.2 fun e he => ?_⟩
  · obtain ⟨a, ha, rfl⟩ := List.mem_map.1 he
    exact (h.operands a ha g.span).1
  · obtain ⟨a, ha, rfl⟩ := List.mem_map.1 he
    exact (h.operands a ha g.span).2

/-- The stage is normal, and there is an output for each of its results. -/
structure Kernel.Normal (K : Kernel) : Prop where
  stage : K.stage.Normal
  outputs : K.outputs.length = K.stage.arity

/-- Every kernel is normal. -/
def Registry.Normal (r : Registry) : Prop := ∀ id K, r.kernels.find? id = some K → K.Normal

/-! ## Emission -/

namespace Emit

variable {n : Nat} {q : Registry}

/-- What an operand is emitted as is an operand. -/
theorem isOperand_expAt {e e' : Exp} (h : expAt n q e = .ok e') (he : e.IsOperand) :
    e'.IsOperand := by
  rw [Exp.isOperand_iff] at he ⊢
  obtain ⟨x, s, rfl, hx⟩ | ⟨x, is, s, rfl⟩ | ⟨x, s, s', rfl, hx⟩ | ⟨k, s, rfl⟩ := he
  · cases h
    exact .inl ⟨x, s, rfl, hx⟩
  · obtain ⟨is', -, rfl⟩ := expAt_index_eq_ok.1 h
    exact .inr (.inl ⟨x, is', s, rfl⟩)
  · cases h
    exact .inr (.inr (.inl ⟨x, s, s', rfl, hx⟩))
  · obtain ⟨k', -, rfl⟩ := expAt_unary_eq_ok.1 h
    exact .inr (.inr (.inr ⟨k', s, rfl⟩))

/-- What operands are emitted as are operands. -/
theorem isOperand_allAt {es es' : List Exp} (h : allAt n q es = .ok es')
    (hes : ∀ e ∈ es, e.IsOperand) : ∀ e ∈ es', e.IsOperand := by
  induction es generalizing es' with
  | nil =>
    cases h
    exact nofun
  | cons e es ih =>
    obtain ⟨e₁, he, es₁, hes₁, rfl⟩ := allAt_cons_eq_ok.1 h
    exact List.forall_mem_cons.2 ⟨isOperand_expAt he (hes e List.mem_cons_self),
      ih hes₁ fun e he => hes e (List.mem_cons_of_mem _ he)⟩

/-- An emitted lambda has the same parameters and results. -/
theorem params_lambdaAt {f f' : Lambda} (h : lambdaAt n q f = .ok f') :
    f'.params = f.params ∧ f'.rets = f.rets := by
  obtain ⟨ps, b, ts⟩ := f
  obtain ⟨b', -, rfl⟩ := lambdaAt_eq_ok.1 h
  exact ⟨rfl, rfl⟩

/-- A combinator is emitted as one of its kind, with as many lambdas. -/
theorem alike_opAt {o o' : Combinator} (h : opAt n q o = .ok o') : o.Alike o' := by
  cases o with
  | map f =>
    obtain ⟨f', hf, rfl⟩ := opAt_map_eq_ok.1 h
    obtain ⟨hps, hrets⟩ := params_lambdaAt hf
    exact ⟨fun _ => congrArg List.length hrets, rfl, congrArg List.length hps⟩
  | filter f =>
    obtain ⟨f', hf, rfl⟩ := opAt_filter_eq_ok.1 h
    exact ⟨fun _ => rfl, rfl, congrArg List.length (params_lambdaAt hf).1⟩
  | reduce f ne =>
    obtain ⟨f', hf, ne', hne, rfl⟩ := opAt_reduce_eq_ok.1 h
    exact ⟨fun _ => length_allAt hne, length_allAt hne, congrArg List.length (params_lambdaAt hf).1⟩
  | scan f ne =>
    obtain ⟨f', hf, ne', hne, rfl⟩ := opAt_scan_eq_ok.1 h
    exact ⟨fun _ => length_allAt hne, length_allAt hne, congrArg List.length (params_lambdaAt hf).1⟩
  | redomap f g ne =>
    obtain ⟨f', -, g', hg, ne', hne, rfl⟩ := opAt_redomap_eq_ok.1 h
    exact ⟨fun _ => length_allAt hne, length_allAt hne, congrArg List.length (params_lambdaAt hg).1⟩

end Emit

/-- Binding the transforms of a kernel keeps expressions normal. -/
theorem Kernel.normal_bindTransforms {K : Kernel} {b : Exp} (hb : b.NormalAt none) :
    (K.bindTransforms b).NormalAt none := by
  unfold bindTransforms
  induction K.transforms with
  | nil => exact hb
  | cons t ts ih => exact ⟨trivial, ih⟩

section

variable {n : Nat} {q : Registry}

mutual

/-- Emission keeps code normal if the kernels in it are emitted in normal form. -/
theorem Exp.NormalAt.expAt (hk : ∀ id K e', q.kernels.find? id = some K →
      (Emit.kernelWithin n K).run q = .ok e' → e'.NormalAt (some K.outputs.length)) :
    ∀ {e e' : Exp} {site : Option Nat}, e.NormalAt site → Emit.expAt n q e = .ok e' →
      e'.NormalAt site
  | .lit _ _, _, _, hn, h => by
    cases h
    exact hn
  | .var _ _, _, _, hn, h => by
    cases h
    exact hn
  | .tuple es _, _, _, hn, h => by
    obtain ⟨es', hes, rfl⟩ := Emit.expAt_tuple_eq_ok.1 h
    have hn : Exp.NormalAll es := hn
    exact hn.allAt hk hes
  | .array es _ _, _, _, hn, h => by
    obtain ⟨es', hes, rfl⟩ := Emit.expAt_array_eq_ok.1 h
    have hn : Exp.NormalAll es := hn
    exact hn.allAt hk hes
  | .binary _ _ _ _ _, _, _, hn, h => by
    obtain ⟨a', ha, b', hb, rfl⟩ := Emit.expAt_binary_eq_ok.1 h
    exact ⟨hn.1.expAt hk ha, hn.2.expAt hk hb⟩
  | .unary _ e _, _, _, hn, h => by
    obtain ⟨e₁, he, rfl⟩ := Emit.expAt_unary_eq_ok.1 h
    have hn : e.NormalAt none := hn
    exact hn.expAt hk he
  | .cond _ _ _ _ _, _, _, hn, h => by
    obtain ⟨c', hc, a', ha, b', hb, rfl⟩ := Emit.expAt_cond_eq_ok.1 h
    exact ⟨hn.1.expAt hk hc, hn.2.1.expAt hk ha, hn.2.2.expAt hk hb⟩
  | .call _ es _ _, _, _, hn, h => by
    obtain ⟨es', hes, rfl⟩ := Emit.expAt_call_eq_ok.1 h
    have hn : Exp.NormalAll es := hn
    exact hn.allAt hk hes
  | .letIn _ _ _ _, _, _, hn, h => by
    obtain ⟨e₁, he, b₁, hb, rfl⟩ | hb | ⟨id, K, hK, e₁, he, b₁, hb, rfl⟩ :=
      Emit.expAt_letIn_cases h
    · exact ⟨hn.1.expAt hk he, hn.2.expAt hk hb⟩
    · exact (hn.2.expAt hk hb).rhs _
    · exact ⟨hk id K e₁ hK he, Kernel.normal_bindTransforms (hn.2.expAt hk hb)⟩
  | .update _ _ _ _ _ _, _, _, hn, h => by
    obtain ⟨is', his, v', hv, b', hb, rfl⟩ := Emit.expAt_update_eq_ok.1 h
    exact ⟨hn.1.allAt hk his, hn.2.1.expAt hk hv, hn.2.2.expAt hk hb⟩
  | .index _ is _, _, _, hn, h => by
    obtain ⟨is', his, rfl⟩ := Emit.expAt_index_eq_ok.1 h
    have hn : Exp.NormalAll is := hn
    exact hn.allAt hk his
  | .replicate _ _ _, _, _, hn, h => by
    obtain ⟨k', hk', v', hv, rfl⟩ := Emit.expAt_replicate_eq_ok.1 h
    exact ⟨hn.1.expAt hk hk', hn.2.expAt hk hv⟩
  | .loop _ _ _ _ _ _ _, _, _, hn, h => by
    obtain ⟨is', his, k', hk', b', hb, e₁, he, rfl⟩ := Emit.expAt_loop_eq_ok.1 h
    exact ⟨hn.1.allAt hk his, hn.2.1.expAt hk hk', hn.2.2.1.expAt hk hb, hn.2.2.2.expAt hk he⟩
  | .soac _ _ _ _, _, _, hn, h => by
    obtain ⟨o', ho, es', hes, rfl⟩ := Emit.expAt_soac_eq_ok.1 h
    exact (Emit.alike_opAt ho).normalAt (Emit.length_allAt hes) hn
      (Emit.isOperand_allAt hes hn.2.1) (hn.2.2.2.1.opAt hk ho) (hn.2.2.2.2.allAt hk hes)
termination_by structural e => e

/-- Normal expressions are emitted as normal ones. -/
theorem Exp.NormalAll.allAt (hk : ∀ id K e', q.kernels.find? id = some K →
      (Emit.kernelWithin n K).run q = .ok e' → e'.NormalAt (some K.outputs.length)) :
    ∀ {es es' : List Exp}, Exp.NormalAll es → Emit.allAt n q es = .ok es' → Exp.NormalAll es'
  | [], _, _, h => by
    cases h
    exact trivial
  | _ :: _, _, hn, h => by
    obtain ⟨e₁, he, es₁, hes, rfl⟩ := Emit.allAt_cons_eq_ok.1 h
    exact ⟨hn.1.expAt hk he, hn.2.allAt hk hes⟩
termination_by structural e => e

/-- A normal lambda is emitted as a normal one. -/
theorem Lambda.Normal.lambdaAt (hk : ∀ id K e', q.kernels.find? id = some K →
      (Emit.kernelWithin n K).run q = .ok e' → e'.NormalAt (some K.outputs.length)) :
    ∀ {f f' : Lambda}, f.Normal → Emit.lambdaAt n q f = .ok f' → f'.Normal
  | ⟨_, b, _⟩, _, hn, h => by
    obtain ⟨b', hb, rfl⟩ := Emit.lambdaAt_eq_ok.1 h
    exact Exp.NormalAt.expAt hk (e := b) hn hb
termination_by structural e => e

/-- A normal combinator is emitted as a normal one. -/
theorem Combinator.Normal.opAt (hk : ∀ id K e', q.kernels.find? id = some K →
      (Emit.kernelWithin n K).run q = .ok e' → e'.NormalAt (some K.outputs.length)) :
    ∀ {o o' : Combinator}, o.Normal → Emit.opAt n q o = .ok o' → o'.Normal
  | .map f, _, hn, h => by
    obtain ⟨f', hf, rfl⟩ := Emit.opAt_map_eq_ok.1 h
    exact Lambda.Normal.lambdaAt hk (f := f) hn hf
  | .reduce _ _, _, hn, h => by
    obtain ⟨f', hf, ne', hne, rfl⟩ := Emit.opAt_reduce_eq_ok.1 h
    exact ⟨hn.1.lambdaAt hk hf, hn.2.allAt hk hne⟩
  | .scan _ _, _, hn, h => by
    obtain ⟨f', hf, ne', hne, rfl⟩ := Emit.opAt_scan_eq_ok.1 h
    exact ⟨hn.1.lambdaAt hk hf, hn.2.allAt hk hne⟩
  | .filter f, _, hn, h => by
    obtain ⟨f', hf, rfl⟩ := Emit.opAt_filter_eq_ok.1 h
    exact Lambda.Normal.lambdaAt hk (f := f) hn hf
  | .redomap _ _ _, _, hn, h => by
    obtain ⟨f', hf, g', hg, ne', hne, rfl⟩ := Emit.opAt_redomap_eq_ok.1 h
    exact ⟨hn.1.lambdaAt hk hf, hn.2.1.lambdaAt hk hg, hn.2.2.allAt hk hne⟩
termination_by structural e => e

end

/-- Normal kernels are emitted in normal form, however deep they lie. -/
theorem Registry.Normal.kernelWithin (hq : q.Normal) : ∀ id K e', q.kernels.find? id = some K →
    (Emit.kernelWithin n K).run q = .ok e' → e'.NormalAt (some K.outputs.length) := by
  induction n with
  | zero =>
    intro id K e' hK h
    cases h
  | succ n ih =>
    intro id K e' hK h
    have hstage : K.stage.toExp.NormalAt (some K.outputs.length) := by
      rw [(hq id K hK).outputs]
      exact (hq id K hK).stage.toExp
    exact hstage.expAt ih h

end

/-- Emitted code is normal. -/
theorem Registry.Normal.emit {q : Registry} (hq : q.Normal) {e e' : Exp} (he : e.NormalAt none)
    (h : q.emit e = .ok e') : e'.NormalAt none :=
  he.expAt hq.kernelWithin h

/-- An emitted lambda is normal and has the same parameters and results. -/
theorem Registry.Normal.emitLambda {q : Registry} (hq : q.Normal) {f f' : Lambda} (hf : f.Normal)
    (h : q.emitLambda f = .ok f') : f'.Normal ∧ f'.params = f.params ∧ f'.rets = f.rets :=
  ⟨hf.lambdaAt hq.kernelWithin h, Emit.params_lambdaAt h⟩

end ArrayFusion
