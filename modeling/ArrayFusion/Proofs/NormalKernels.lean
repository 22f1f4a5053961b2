import ArrayFusion.Proofs.NormalEmission
import ArrayFusion.Proofs.StageCopies

/-!
# Compositions are in normal form

Every recipe takes a parameter for an operand and an operand for a parameter, so the lambda that it
makes has one parameter for each operand again (`Lambda.NormalOver`).  Hence the stages that the
pass builds are normal: compositions, fresh copies, and maps that read arrays directly instead of
their transpositions.
-/

namespace ArrayFusion

open Recipe (forward dedupOperands)

/-! ## Lambdas over operands -/

/-- The lambda is normal, and it has `acc` parameters and one more for each operand. -/
structure Lambda.NormalOver (f : Lambda) (acc : Nat) (as : List Operand) : Prop where
  body : f.Normal
  params : f.params.length = acc + as.length
  operands : ∀ a ∈ as, a.Normal

/-- The lambda for the elements of a normal stage fits its operands. -/
theorem Stage.Normal.element {g : Stage} (h : g.Normal) :
    g.op.element.NormalOver g.op.neutral.length g.operands := by
  refine ⟨?_, h.params, h.operands⟩
  -- the lambda for the elements is the last one of each kind
  have hop := h.op
  cases hg : g.op with
  | map f =>
    rw [hg] at hop
    exact hop
  | filter f =>
    rw [hg] at hop
    exact hop
  | reduce f ne =>
    rw [hg] at hop
    exact hop.1
  | scan f ne =>
    rw [hg] at hop
    exact hop.1
  | redomap f f' ne =>
    rw [hg] at hop
    exact hop.2.1

/-- A lambda is normal if its body is. -/
theorem Lambda.normal_iff {f : Lambda} : f.Normal ↔ f.body.NormalAt none := by
  obtain ⟨ps, b, ts⟩ := f
  exact .rfl

/-- Forwarding binds variables, which is normal. -/
theorem Recipe.normal_forward {bs : List (Ident × Ident)} {body : Exp}
    (h : body.NormalAt none) : (forward bs body).NormalAt none := by
  induction bs with
  | nil => exact h
  | cons b bs ih => exact ⟨trivial, ih⟩

/-- Variables are normal. -/
theorem Exp.normalAll_idents (xs : List Ident) : Exp.NormalAll (xs.map Exp.ofIdent) := by
  rw [Exp.normalAll_iff]
  rintro e he
  obtain ⟨x, -, rfl⟩ := List.mem_map.1 he
  exact trivial

/-- Results that are variables are normal. -/
theorem Exp.normal_results (xs : List Ident) :
    (Exp.results (xs.map Exp.ofIdent)).NormalAt none := by
  rcases xs with _ | ⟨x, _ | ⟨y, xs⟩⟩
  · exact trivial
  · exact trivial
  · exact Exp.normalAll_idents (x :: y :: xs)

/-- A lambda is as normal when its operands are read once. -/
theorem Lambda.NormalOver.dedup {f : Lambda} {acc : Nat} {as : List Operand}
    (h : f.NormalOver acc as) :
    (dedupOperands f as acc).1.NormalOver acc (dedupOperands f as acc).2 where
  body := Lambda.normal_iff.2 (Recipe.normal_forward (Lambda.normal_iff.1 h.body))
  params := by
    have hparams := h.params
    simp only [dedupOperands, List.length_append, List.length_take, List.length_map]
    omega
  operands := fun a ha => h.operands a (Recipe.mem_of_mem_dedupOperands ha)

/-! ## The recipes -/

namespace Recipe

variable {p c : Lambda} {pOperands cOperands : List Operand} {outs : List Ident} {acc : Nat}
  {s s' : NameSupply}

/-- A composition with a map is normal if the two lambdas are. -/
theorem normalOver_afterMap {r : Lambda × List Operand}
    (h : afterMap p pOperands outs c acc cOperands s = .ok (r, s')) (hp : p.NormalOver 0 pOperands)
    (hc : c.NormalOver acc cOperands) : r.1.NormalOver acc r.2 := by
  obtain ⟨hpl, hcl, pattern, -, rfl⟩ := afterMap_eq_ok h
  refine Lambda.NormalOver.dedup ⟨?_, length_params_afterMap hpl hcl _, ?_⟩
  · exact ⟨(Lambda.normal_iff.1 hp.body).rhs _, normal_forward (Lambda.normal_iff.1 hc.body)⟩
  · intro a ha
    rcases List.mem_append.1 ha with ha | ha
    · exact hp.operands a ha
    · obtain ⟨e, he, rfl⟩ := List.mem_map.1 ha
      have hmem := ((linking_sorts outs ((c.params.drop acc).zip cOperands)).others e he).1
      exact hc.operands e.2 (List.of_mem_zip hmem).2

/-- A fold behind a filter is normal if the two lambdas are. -/
theorem normalOver_foldAfterFilter {r : Lambda × List Operand}
    (h : foldAfterFilter p pOperands outs c acc cOperands s = .ok (some r, s'))
    (hp : p.NormalOver 0 pOperands) (hc : c.NormalOver acc cOperands) :
    r.1.NormalOver acc r.2 := by
  obtain ⟨hpl, hcl, readers, check, -, -, -, rfl⟩ := foldAfterFilter_eq_ok h
  refine Lambda.NormalOver.dedup ⟨?_, length_params_guarded hpl hcl, hp.operands⟩
  exact ⟨(Lambda.normal_iff.1 hp.body).rhs _, trivial,
    normal_forward (Lambda.normal_iff.1 hc.body), Exp.normal_results _⟩

/-- A filter behind a filter is normal if the two lambdas are. -/
theorem normalOver_filterAfterFilter {cOutputs : List Ident}
    {r : Lambda × List Operand × List Ident}
    (h : filterAfterFilter p pOperands outs c cOperands cOutputs s = .ok (some r, s'))
    (hp : p.NormalOver 0 pOperands) (hc : c.NormalOver 0 cOperands) : r.1.NormalOver 0 r.2.1 := by
  obtain ⟨hpl, hcl, readers, read, s₁, unused, s₂, check, hreaders, hread, -, -, -, rfl⟩ :=
    filterAfterFilter_eq_ok h
  -- what is read of the outputs of the producer are operands of the producer
  have hsources : ∀ i, ∀ a : Source, (sources outs p.params pOperands)[i]? = some a →
      a.operand ∈ pOperands := fun i a ha => List.mem_of_getElem? (sources_getElem? ha).2
  refine ⟨?_, ?_, fun a ha => hp.operands a ?_⟩
  · exact ⟨(Lambda.normal_iff.1 hp.body).rhs _, trivial,
      normal_forward (Lambda.normal_iff.1 hc.body), trivial⟩
  · simp only [List.length_append, List.length_map, Nat.zero_add]
  · rcases List.mem_append.1 ha with ha | ha
    · obtain ⟨e, he, rfl⟩ := List.mem_map.1 ha
      obtain ⟨r, hr, -, heq, -⟩ := exists_of_forall₂ (source_of_readInOrder hread).2 he
      obtain ⟨_, -, -, -, hget⟩ := exists_of_forall₂ (readers_of_readers? hreaders) hr
      rw [heq]
      exact hsources _ _ hget
    · obtain ⟨source, hsource, rfl⟩ := List.mem_map.1 ha
      obtain ⟨i, hi, -⟩ := mem_unreadSources.1 hsource
      exact hsources i source hi

end Recipe

/-! ## Fused kernels -/

/-- A reduction that becomes a redomap stays normal. -/
theorem Stage.Normal.asRedomap {g : Stage} (h : g.Normal) (s : NameSupply) :
    (g.asRedomap s).1.Normal := by
  rcases g.asRedomap_cases s with ⟨heq, -⟩ | ⟨f, ne, hop, heq⟩
  · rw [heq]
    exact h
  · obtain ⟨hn, hp, ha⟩ := h
    rw [hop] at hn hp
    rw [heq]
    exact ⟨⟨(Lambda.freshen_eq rfl).2.2 hn.1, hn.1, hn.2⟩, hp, ha⟩

/-- A composition of normal stages is normal. -/
theorem Composed.normal {g c : Stage} {outs cOutputs outputs : List Ident} {s s' : NameSupply}
    {op : Combinator} {operands : List Operand} {certs : Certificates} {span : Span}
    (h : Composed g outs c cOutputs s s' op operands outputs) (hg : g.Normal) (hc : c.Normal) :
    (Stage.mk op operands certs span).Normal := by
  have hge := hg.element
  have hce := hc.element
  cases h with
  | mapMap hgop hcop hr =>
    rw [hgop] at hge
    rw [hcop] at hce
    have hn := Recipe.normalOver_afterMap hr hge hce
    exact ⟨hn.body, hn.params, hn.operands⟩
  -- the lambda for the accumulators is left as it was
  | mapFold hgop hcop hr =>
    have hop := hc.op
    rw [hgop] at hge
    rw [hcop] at hce hop
    have hn := Recipe.normalOver_afterMap hr hge hce
    exact ⟨⟨hop.1, hn.body, hop.2.2⟩, hn.params, hn.operands⟩
  | filterFilter hgop hcop hr =>
    rw [hgop] at hge
    rw [hcop] at hce
    have hn := Recipe.normalOver_filterAfterFilter hr hge hce
    exact ⟨hn.body, hn.params, hn.operands⟩
  | filterFold hgop hcop hr =>
    have hop := hc.op
    rw [hgop] at hge
    rw [hcop] at hce hop
    have hn := Recipe.normalOver_foldAfterFilter hr hge hce
    exact ⟨⟨hop.1, hn.body, hop.2.2⟩, hn.params, hn.operands⟩

/-- A normal kernel stays normal when a normal stage is fused into it. -/
theorem Producer.normal_fuseInto {p : Producer} {K K' : Kernel} {s s' : NameSupply}
    (h : p.fuseInto K s = .ok (some K', s')) (hp : p.stage.Normal) (hK : K.Normal) :
    K'.Normal := by
  obtain ⟨-, -, op, operands, outputs, hcomposed, heq, harity⟩ := Producer.fuseInto_eq_ok h
  refine ⟨?_, harity⟩
  rw [heq]
  exact hcomposed.normal hp (hK.stage.asRedomap _)

/-! ## Copies of a stage -/

/-- A copied lambda has as many parameters and results. -/
theorem Registry.length_copyLambda {r : Registry} {f f' : Lambda} {s s' : NameSupply}
    (h : r.copyLambda f s = .ok (f', s')) :
    f'.params.length = f.params.length ∧ f'.rets = f.rets := by
  obtain ⟨f₁, hemit, hfreshen⟩ := Registry.copyLambda_eq_ok h
  obtain ⟨hlen, hrets, -⟩ := Lambda.freshen_eq hfreshen
  have hparams : f₁.params = f.params ∧ f₁.rets = f.rets := Emit.params_lambdaAt hemit
  exact ⟨by rw [hlen, hparams.1], by rw [hrets, hparams.2]⟩

/-- A copy of a normal lambda is normal. -/
theorem Registry.Normal.copyLambda {r : Registry} (hr : r.Normal) {f f' : Lambda}
    {s s' : NameSupply} (h : r.copyLambda f s = .ok (f', s')) (hf : f.Normal) : f'.Normal := by
  obtain ⟨f₁, hemit, hfreshen⟩ := Registry.copyLambda_eq_ok h
  exact (Lambda.freshen_eq hfreshen).2.2 (hr.emitLambda hf hemit).1

/-- A copy of a normal stage is normal. -/
theorem Registry.Normal.copyOf {r : Registry} (hr : r.Normal) {g g' : Stage} {s s' : NameSupply}
    (h : r.copyOf g s = .ok (g', s')) (hg : g.Normal) : g'.Normal := by
  obtain ⟨-, op', rfl, hpaired⟩ := Registry.copyOf_paired (P := fun f f' =>
    f'.params.length = f.params.length ∧ (f.Normal → f'.Normal)) h
    fun _ _ _ _ _ _ h => ⟨(Registry.length_copyLambda h).1, hr.copyLambda h⟩
  obtain ⟨op, operands, certs, span⟩ := g
  obtain ⟨hop, hparams, hoperands⟩ := hg
  cases hpaired with
  | map hf => exact ⟨hf.2 hop, hf.1.trans hparams, hoperands⟩
  | filter hf => exact ⟨hf.2 hop, hf.1.trans hparams, hoperands⟩
  | reduce hf => exact ⟨⟨hf.2 hop.1, hop.2⟩, hf.1.trans hparams, hoperands⟩
  | scan hf => exact ⟨⟨hf.2 hop.1, hop.2⟩, hf.1.trans hparams, hoperands⟩
  | redomap hf he => exact ⟨⟨hf.2 hop.1, he.2 hop.2.1, hop.2.2⟩, he.1.trans hparams, hoperands⟩

/-- A copy has as many results. -/
theorem Registry.arity_copyOf {r : Registry} {g g' : Stage} {s s' : NameSupply}
    (h : r.copyOf g s = .ok (g', s')) : g'.arity = g.arity := by
  obtain ⟨-, op', rfl, hpaired⟩ := Registry.copyOf_paired (P := fun f f' => f'.rets = f.rets) h
    fun _ _ _ _ _ _ h => (Registry.length_copyLambda h).2
  obtain ⟨op, operands, certs, span⟩ := g
  cases hpaired with
  | map hf => exact congrArg List.length hf
  | _ => rfl

/-! ## Pulled transpositions -/

/-- The inner map of a nest is normal, and its rows are arrays. -/
structure Nest.Normal (n : Nest) : Prop where
  inner : n.inner.Normal
  params : n.inner.params.length = n.rows.length
  results : n.results.length = n.inner.rets.length
  rows : ∀ x ∈ n.rows, x.isArray

/-- The lambda of a normal nest is normal, and has its rows and its results. -/
theorem Nest.Normal.toLambda {n : Nest} (h : n.Normal) (s : NameSupply) :
    (n.toLambda s).1.Normal ∧ (n.toLambda s).1.params.length = n.rows.length
      ∧ (n.toLambda s).1.rets = n.rets := by
  have hrows := s.length_freshIdents n.rows
  refine ⟨⟨⟨?_, fun e he => ?_, ?_, h.inner, Exp.normalAll_idents _⟩, Exp.normal_results _⟩,
    hrows, rfl⟩
  · rw [NameSupply.length_freshIdents, h.results]
    rfl
  · obtain ⟨x, hx, rfl⟩ := List.mem_map.1 he
    refine Exp.isOperand_iff.2 (.inl ⟨x, _, rfl, ?_⟩)
    -- a fresh row has the type of the row that it stands for
    have hty : x.ty ∈ n.rows.map (·.ty) := by
      rw [← s.freshIdents_types]
      exact List.mem_map_of_mem hx
    obtain ⟨y, hy, hxy⟩ := List.mem_map.1 hty
    rw [Ident.isArray, ← hxy]
    exact h.rows y hy
  · rw [List.length_map, hrows]
    exact h.params.trans (Nat.zero_add _).symm

/-- An operand that is normal when it is transposed is so when it is not. -/
theorem Operand.Normal.whole_of_transposed {x : Ident} (h : (Operand.transposed x).Normal) :
    (Operand.whole x).Normal := by
  refine Operand.normal_whole ?_
  rcases Exp.isOperand_iff.1 (h .dummy).1 with ⟨_, _, heq, _⟩ | ⟨_, _, _, heq⟩ | ⟨y, _, _, heq, hy⟩
    | ⟨_, _, heq⟩
  · cases heq
  · cases heq
  · cases heq
    rw [Ident.isArray]
    cases hty : x.ty with
    | array t => rfl
    | int | real | bool | char | tuple =>
      rw [hty] at hy
      simp [Ty.rank] at hy
  · cases heq

/-- A normal kernel stays normal when it reads arrays directly, if the rows of its nest are
arrays. -/
theorem Kernel.Normal.pullTransposes {K : Kernel} (h : K.Normal)
    (hnest : ∀ f n, K.stage.op = .map f → Nest.ofLambda? f = some n → n.Normal) (s : NameSupply) :
    (K.pullTransposes s).1.Normal := by
  rcases K.pullTransposes_cases s with heq | ⟨arrays, f, nest, hoperands, hop, hn, hlen, heq⟩
  · rw [heq]
    exact h
  · obtain ⟨hf, hparams, hrets⟩ := (hnest f nest hop hn).toLambda s
    rw [heq]
    refine ⟨⟨hf, ?_, fun a ha => ?_⟩, ?_⟩
    · -- there are as many arrays as rows
      change (nest.toLambda s).1.params.length = 0 + (arrays.map Operand.whole).length
      rw [List.length_map, hlen, hparams, Nat.zero_add]
    · obtain ⟨x, hx, rfl⟩ := List.mem_map.1 ha
      refine Operand.Normal.whole_of_transposed (h.stage.operands _ ?_)
      rw [hoperands]
      exact List.mem_map_of_mem hx
    · change (NameSupply.freshIdents _ _).1.length = ((nest.toLambda s).1.rets).length
      rw [NameSupply.length_freshIdents, h.outputs, Stage.arity, hop, hrets,
        ← (Nest.ofLambda?_eq_some hn).2.1]
      rfl

end ArrayFusion
