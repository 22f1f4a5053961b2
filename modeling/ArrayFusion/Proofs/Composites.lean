import ArrayFusion.Proofs.Outputs

/-!
# What a composition computes

`Composed` is the choice between the recipes as a relation.  Where the results of the producer are
bound to its outputs and the consumer yields some results, the composition yields the same ones; a
filter behind a filter yields more behind them, which no one uses (`Composed.yields`).
-/

namespace ArrayFusion

open Eval (Yields Uniform)
open Recipe (link Apart)

/-! ## The recipes -/

/-- The recipe that a composition of the stage `g` with the consumer `c` follows, with the
combinator, the operands and the outputs of the result. -/
inductive Composed (g : Stage) (outs : List Ident) (c : Stage) (cOutputs : List Ident)
    (s s' : NameSupply) : Combinator → List Operand → List Ident → Prop
  | mapMap {p f : Lambda} {r} : g.op = .map p → c.op = .map f →
      Recipe.afterMap p g.operands outs f 0 c.operands s = .ok (r, s') →
      Composed g outs c cOutputs s s' (.map r.1) r.2 cOutputs
  | mapFold {p outer f : Lambda} {ne r} : g.op = .map p → c.op = .redomap outer f ne →
      Recipe.afterMap p g.operands outs f ne.length c.operands s = .ok (r, s') →
      Composed g outs c cOutputs s s' (.redomap outer r.1 ne) r.2 cOutputs
  | filterFilter {p f : Lambda} {r} : g.op = .filter p → c.op = .filter f →
      Recipe.filterAfterFilter p g.operands outs f c.operands cOutputs s = .ok (some r, s') →
      Composed g outs c cOutputs s s' (.filter r.1) r.2.1 r.2.2
  | filterFold {p outer f : Lambda} {ne r} : g.op = .filter p → c.op = .redomap outer f ne →
      Recipe.foldAfterFilter p g.operands outs f ne.length c.operands s = .ok (some r, s') →
      Composed g outs c cOutputs s s' (.redomap outer r.1 ne) r.2 cOutputs

/-- A successful composition is an instance of one of the recipes. -/
theorem Producer.composed {p : Producer} {c : Stage} {cOutputs : List Ident} {s s' : NameSupply}
    {op : Combinator} {operands : List Operand} {outputs : List Ident}
    (h : p.compose c cOutputs s = .ok (some (op, operands, outputs), s')) :
    Composed p.stage p.outputs c cOutputs s s' op operands outputs := by
  unfold Producer.compose at h
  -- four pairs of kinds have a recipe
  cases hp : p.stage.op with
  | map f =>
    cases hc : c.op with
    | map g =>
      rw [hp, hc] at h
      obtain ⟨r, s₁, hr, h₁⟩ := State.bind_eq_ok.1 h
      obtain ⟨heq, rfl⟩ := State.pure_eq_ok.1 h₁
      cases heq
      exact .mapMap hp hc hr
    | redomap outer g ne =>
      rw [hp, hc] at h
      obtain ⟨r, s₁, hr, h₁⟩ := State.bind_eq_ok.1 h
      obtain ⟨heq, rfl⟩ := State.pure_eq_ok.1 h₁
      cases heq
      exact .mapFold hp hc hr
    | _ =>
      rw [hp, hc] at h
      cases (State.pure_eq_ok.1 h).1
  | filter f =>
    cases hc : c.op with
    | filter g =>
      rw [hp, hc] at h
      obtain ⟨r, s₁, hr, h₁⟩ := State.bind_eq_ok.1 h
      rcases r with _ | r
      · cases (State.pure_eq_ok.1 h₁).1
      · obtain ⟨heq, rfl⟩ := State.pure_eq_ok.1 h₁
        cases heq
        exact .filterFilter hp hc hr
    | redomap outer g ne =>
      rw [hp, hc] at h
      obtain ⟨r, s₁, hr, h₁⟩ := State.bind_eq_ok.1 h
      rcases r with _ | r
      · cases (State.pure_eq_ok.1 h₁).1
      · obtain ⟨heq, rfl⟩ := State.pure_eq_ok.1 h₁
        cases heq
        exact .filterFold hp hc hr
    | _ =>
      rw [hp, hc] at h
      cases (State.pure_eq_ok.1 h).1
  | _ =>
    rw [hp] at h
    cases (State.pure_eq_ok.1 h).1

/-- A composition keeps the outputs of the consumer, and the others are names that are handed out,
distinct ones if there are tags for them. -/
theorem Composed.outputs {g c : Stage} {outs cOutputs outputs : List Ident} {s s' : NameSupply}
    {op : Combinator} {operands : List Operand}
    (h : Composed g outs c cOutputs s s' op operands outputs) :
    ∃ unused, outputs = cOutputs ++ unused ∧ (s.Serves s' → (Pattern.names unused).Nodup)
      ∧ ∀ x ∈ Pattern.names unused, x ∈ s.until s' := by
  cases h with
  | mapMap | mapFold | filterFold =>
    exact ⟨[], (List.append_nil _).symm, fun _ =>
      List.nodup_nil, nofun⟩
  | filterFilter _ _ hr =>
    obtain ⟨-, -, readers, read, s₁, unused, s₂, check, -, hread, hunused, -, hcount, rfl⟩ :=
      Recipe.filterAfterFilter_eq_ok hr
    have hle := (Recipe.source_of_readInOrder hread).1
    have hhanded := (Recipe.handedOut_mapM hunused).1
    have hle₂ := hhanded.supply
    exact ⟨unused, rfl, fun hroom => hhanded.nodup ((hroom (by omega)).of_le (by omega)),
        fun x hx =>
      NameSupply.until_subset hle (hcount ▸ Nat.le_succ _) (hhanded.fresh x hx)⟩

/-- The fused combinator is of the kind of the consumer. -/
theorem Composed.kind_eq {g c : Stage} {outs cOutputs outputs : List Ident} {s s' : NameSupply}
    {op : Combinator} {operands : List Operand}
    (h : Composed g outs c cOutputs s s' op operands outputs) : op.kind = c.kind := by
  cases h with
  | mapMap _ hc _ | mapFold _ hc _ | filterFilter _ hc _ | filterFold _ hc _ =>
    rw [Stage.kind, hc]
    rfl

/-- A reduction is seen as a redomap over a copy of its lambda; other stages stay as they are. -/
theorem Stage.asRedomap_cases (g : Stage) (s : NameSupply) :
    g.asRedomap s = (g, s) ∧ (∀ f ne, g.op ≠ .reduce f ne) ∨ ∃ f ne, g.op = .reduce f ne
      ∧ g.asRedomap s = ({ g with op := .redomap (f.freshen s).1 f ne }, (f.freshen s).2) := by
  obtain ⟨op, operands, certs, span⟩ := g
  cases op with
  | reduce f ne => exact .inr ⟨f, ne, rfl, rfl⟩
  | map _ => exact .inl ⟨rfl, nofun⟩
  | scan _ _ => exact .inl ⟨rfl, nofun⟩
  | filter _ => exact .inl ⟨rfl, nofun⟩
  | redomap _ _ _ => exact .inl ⟨rfl, nofun⟩

theorem Stage.element_asRedomap (g : Stage) (s : NameSupply) :
    (g.asRedomap s).1.op.element = g.op.element := by
  rcases g.asRedomap_cases s with ⟨h, -⟩ | ⟨f, ne, hop, h⟩
  · rw [h]
  · rw [h, hop]
    rfl

/-- The neutral elements of a reduction are those of the redomap. -/
theorem Stage.neutral_asRedomap (g : Stage) (s : NameSupply) :
    (g.asRedomap s).1.op.neutral = g.op.neutral := by
  rcases g.asRedomap_cases s with ⟨h, -⟩ | ⟨f, ne, hop, h⟩
  · rw [h]
  · rw [h, hop]
    rfl

/-- A reduction reads what the redomap reads. -/
theorem Stage.operands_asRedomap (g : Stage) (s : NameSupply) :
    (g.asRedomap s).1.operands = g.operands := by
  rcases g.asRedomap_cases s with ⟨h, -⟩ | ⟨f, ne, -, h⟩ <;> rw [h]

/-- A reduction computes the same as a redomap. -/
theorem Stage.eval_asRedomap (call : Callee) (env : Env) (g : Stage) (s : NameSupply) :
    (g.asRedomap s).1.toExp.eval call env = g.toExp.eval call env := by
  rcases g.asRedomap_cases s with ⟨h, -⟩ | ⟨f, ne, hop, h⟩
  · rw [h]
  · rw [h, Stage.eval_toExp, Stage.eval_toExp, hop]
    rfl

/-- The outputs of a producer are checked to be as many as its combinator has. -/
theorem Producer.checkOutputs_eq_ok {p : Producer} {u : Unit} :
    p.checkOutputs = .ok u ↔ p.stage.arity = p.outputs.length := by
  unfold checkOutputs
  split
  · exact ⟨fun _ => ‹_›, fun _ => rfl⟩
  · exact ⟨nofun, fun h => absurd h ‹_›⟩

/-- The outputs of a kernel are checked to be as many as its combinator has. -/
theorem Kernel.checkArity_eq_ok {K : Kernel} {u : Unit} :
    K.checkArity = .ok u ↔ K.outputs.length = K.stage.arity := by
  unfold checkArity
  split
  · exact ⟨fun _ => ‹_›, fun _ => rfl⟩
  · exact ⟨nofun, fun h => absurd h ‹_›⟩

/-- What a fused kernel is: the composed combinator with the certificates of both stages, at the
position of the consumer, which is seen as a redomap if it is a reduction. -/
theorem Producer.fuseInto_eq_ok {p : Producer} {K K' : Kernel} {s s' : NameSupply}
    (h : p.fuseInto K s = .ok (some K', s')) :
    p.stage.arity = p.outputs.length ∧ K.outputs.length = K.stage.arity ∧
      ∃ op operands outputs, Composed p.stage p.outputs (K.stage.asRedomap s).1 K.outputs
          (K.stage.asRedomap s).2 s' op operands outputs
        ∧ K' = { K with
          stage := ⟨op, operands, Certificates.union p.stage.certs K.stage.certs, K.stage.span⟩
          outputs
          fused := K.fused ++ p.names }
        ∧ K'.outputs.length = K'.stage.arity := by
  unfold Producer.fuseInto at h
  obtain ⟨_, s₁, hp, h₁⟩ := State.bind_eq_ok.1 h
  obtain ⟨hoks, rfl⟩ := Fresh.lift_eq_ok.1 hp
  obtain ⟨_, s₂, hK, h₂⟩ := State.bind_eq_ok.1 h₁
  obtain ⟨hKoks, rfl⟩ := Fresh.lift_eq_ok.1 hK
  refine ⟨Producer.checkOutputs_eq_ok.1 hoks, Kernel.checkArity_eq_ok.1 hKoks, ?_⟩
  obtain ⟨c, s₃, hc, h₃⟩ := State.bind_eq_ok.1 h₂
  have hc : K.stage.asRedomap s₂ = (c, s₃) := Except.ok.inj hc
  obtain ⟨r, s₄, hr, h₄⟩ := State.bind_eq_ok.1 h₃
  rcases r with _ | ⟨op, operands, outputs⟩
  · cases (State.pure_eq_ok.1 h₄).1
  obtain ⟨_, s₅, hfused, h₅⟩ := State.bind_eq_ok.1 h₄
  -- the arity of the fused kernel is checked at the end as well
  obtain ⟨hfusedOks, rfl⟩ := Fresh.lift_eq_ok.1 hfused
  obtain ⟨heq, rfl⟩ := State.pure_eq_ok.1 h₅
  cases heq
  rw [hc]
  exact ⟨op, operands, outputs, Producer.composed hr, rfl, Kernel.checkArity_eq_ok.1 hfusedOks⟩

/-! ## Behind a map -/

/-- Operands of the same source hold the same elements. -/
theorem Operand.cell_eq_of_sameSource (call : Callee) (env : Env) (i : Nat) {a b : Operand}
    (h : a.sameSource b = true) : a.cell call env i = b.cell call env i := by
  rw [cell, cell, array_eq_of_sameSource call env h]

section

variable {w : String → Nat} {call : Callee} {env : Env}

/-- Operands that come from two aligned lists are aligned. -/
theorem Aligned.of_mem {as bs cs : List Operand} {n : Nat} (ha : Aligned w call env as n)
    (hb : Aligned w call env bs n) (h : ∀ c ∈ cs, c ∈ as ∨ c ∈ bs) (hnil : cs = [] → as = []) :
    Aligned w call env cs n where
  succeeds := fun c hc => (h c hc).elim (ha.succeeds c) (hb.succeeds c)
  length := fun c hc => (h c hc).elim (ha.length c) (hb.length c)
  nil := fun hc => ha.nil (hnil hc)

/-- Operands that are aligned have one length. -/
theorem Aligned.unique {as : List Operand} {n k : Nat} (h : Aligned w call env as n) {a : Operand}
    (ha : a ∈ as) {rows : List Value} (hrows : Yields w (a.array call env) rows k) :
    n = rows.length := by
  rw [← h.length a ha, hrows.eq_value.1]

theorem getElem!_map_range {f : Nat → Value} {n i : Nat} (hi : i ∈ List.range n) :
    ((List.range n).map f)[i]! = f i := by
  have hlt := List.mem_range.1 hi
  rw [getElem!_pos _ _ (by rw [List.length_map, List.length_range]; exact hlt), List.getElem_map,
    List.getElem_range]

variable {g c : Stage} {outs : List Ident} {n : Nat}

section

variable {p f : Lambda} {acc : Nat} {s s' : NameSupply} {r : Lambda × List Operand}
  (hu : ∀ fn args, Uniform (call fn args))
  (hr : Recipe.afterMap p g.operands outs f acc c.operands s = .ok (r, s')) (hroom : s.Serves s')
  (hapart : Apart p f s) (houts : outs.length = p.rets.length)
    (haligned : Aligned w call env g.operands n)
  (hsucceeds : ∀ i ∈ List.range n,
    Eval.Succeeds w (p.apply call env (cells call env g.operands i)))
  (hreads : ∀ a k, link outs a = some k → Yields w (a.array call env) ((List.range n).map fun i =>
    (Eval.value (p.apply call env (cells call env g.operands i)))[k]!) 0)
include hu hr hroom hapart houts hsucceeds hreads

/-- Behind a map the lambda does at each row what the consumer does on the outputs. -/
theorem yields_row_afterMap {i : Nat} (hi : i ∈ List.range n) {us t : List Value} {j : Nat}
    (hus : us.length = acc)
    (ht : Yields w (f.apply call env (us ++ cells call env c.operands i)) t j) :
    ∃ k, Yields w (r.1.apply call env (us ++ cells call env r.2 i)) t k := by
  refine ⟨_, Recipe.afterMap_apply hr hapart hroom hu houts
    (fun a b => Operand.cell_eq_of_sameSource call env i) hus (hsucceeds i hi)
    (fun a _ k hk => ?_) ht⟩
  obtain ⟨x, y, -, hy, -⟩ := Recipe.link_eq_some hk
  have hlt : k < (Eval.value (p.apply call env (cells call env g.operands i))).length := by
    rw [Lambda.length_of_yields hu (hsucceeds i hi), ← houts]
    exact (List.getElem?_eq_some_iff.1 hy).1
  rw [Operand.cell, ← (hreads a k hk).eq_value.1, getElem!_map_range hi,
    List.getElem?_eq_getElem hlt,
    getElem!_pos (Eval.value (p.apply call env (cells call env g.operands i))) k hlt]

omit hu hroom hapart houts hsucceeds hreads in
/-- The operands of a consumer behind a map have the common length of the operands of both stages.
-/
theorem aligned_afterMap (haligned : Aligned w call env g.operands n)
    (hc : Aligned w call env c.operands n) : Aligned w call env r.2 n :=
  haligned.of_mem hc (fun _ ha => (Recipe.mem_of_mem_afterMap hr ha).imp_right And.left)
    (Recipe.eq_nil_of_afterMap hr)

/-- A map behind a map. -/
theorem yields_mapMap (haligned : Aligned w call env g.operands n) (hacc : acc = 0)
    (hop : c.op = .map f) (hread : ∃ a ∈ c.operands, ∃ k, link outs a = some k)
    {certs : Certificates} {span : Span} {v : Value} {k : Nat}
    (hc : Yields w (c.toExp.eval call env) v k) :
    ∃ k, Yields w ((Stage.mk (.map r.1) r.2 certs span).toExp.eval call env) v k := by
  obtain ⟨n', halignedC, hsucceedsC, rfl, -⟩ := (Stage.yields_map_iff hu hop).1 hc
  obtain ⟨a, ha, k, hk⟩ := hread
  have hn := halignedC.unique ha (hreads a k hk)
  rw [List.length_map, List.length_range] at hn
  subst hn
  have hnil : ([] : List Value).length = acc := hacc.symm
  have hrow : ∀ i ∈ List.range n', ∃ k, Yields w (r.1.apply call env (cells call env r.2 i))
      (Eval.value (f.apply call env (cells call env c.operands i))) k := fun i hi =>
    yields_row_afterMap hu hr hroom hapart houts hsucceeds hreads hi hnil (hsucceedsC i hi)
  refine ⟨_, (Stage.yields_map_iff hu rfl).2 ⟨n', aligned_afterMap hr haligned halignedC,
    fun i hi => ?_, ?_, rfl⟩⟩
  · obtain ⟨k, hk⟩ := hrow i hi
    exact hk.succeeds
  · rw [Recipe.afterMap_rets hr]
    refine congrArg _ (List.map_congr_left fun j _ =>
      congrArg _ (List.map_congr_left fun i hi => ?_))
    obtain ⟨k, hk⟩ := hrow i hi
    rw [hk.eq_value.1]

/-- A fold behind a map. -/
theorem yields_mapFold (haligned : Aligned w call env g.operands n) {outer : Lambda}
    {ne : List Exp} (hacc : acc = ne.length) (hop : c.op = .redomap outer f ne)
    (hrets : f.rets.length = ne.length) (hread : ∃ a ∈ c.operands, ∃ k, link outs a = some k)
    {certs : Certificates} {span : Span} {v : Value} {k : Nat}
    (hc : Yields w (c.toExp.eval call env) v k) :
    ∃ k, Yields w ((Stage.mk (.redomap outer r.1 ne) r.2 certs span).toExp.eval call env) v k := by
  obtain ⟨n', start, t, i, j, halignedC, hstart, hfold, rfl, -⟩ :=
    (Stage.yields_redomap_iff hu hop).1 hc
  obtain ⟨a, ha, k, hk⟩ := hread
  have hn := halignedC.unique ha (hreads a k hk)
  rw [List.length_map, List.length_range] at hn
  subst hn
  obtain ⟨-, j', hj'⟩ := hfold.foldlM_of (S := fun us : List Value => us.length = ne.length)
    (fun _ _ => f.apply_uniform hu env _) (fun i hi us hus t k ht =>
      ⟨(Lambda.length_of_yields hu ht).trans hrets,
        yields_row_afterMap hu hr hroom hapart houts hsucceeds
        hreads hi (hus.trans hacc.symm) ht⟩) (Exp.length_of_yields_evalAll hu hstart)
  exact ⟨_, (Stage.yields_redomap_iff hu rfl).2 ⟨n', start, t, i, j',
    aligned_afterMap hr haligned halignedC, hstart, hj', rfl, rfl⟩⟩

end

/-! ## Behind a filter -/

/-- The rows that a predicate accepts. -/
def accepted (call : Callee) (env : Env) (p : Lambda) (operands : List Operand) (n : Nat) :
    List Nat :=
  (List.range n).filter fun i => (p.test call env (cells call env operands i)).value

/-- What an operand that reads an output of a filter has for a row of the filter. -/
def sourceCell (call : Callee) (env : Env) (outs : List Ident) (operands : List Operand) (i : Nat)
    (a : Operand) : Value :=
  (((link outs a).bind (operands[·]?)).map (·.cell call env i)).getD default

/-- What is read of an output that a filter passes on is an element of the operand it filters. -/
theorem sourceCell_eq {a b : Operand} {k i : Nat} (hk : link outs a = some k)
    (hb : g.operands[k]? = some b) :
    sourceCell call env outs g.operands i a = b.cell call env i := by
  rw [sourceCell, hk, Option.bind_some, hb]
  rfl

section

variable {p f : Lambda} (hreads : ∀ a k, link outs a = some k → ∃ b, g.operands[k]? = some b
  ∧ Yields w (a.array call env) ((accepted call env p g.operands n).map (b.cell call env)) 0)
include hreads

/-- An operand that reads an output has there what its source has at the accepted rows. -/
theorem cell_accepted {a : Operand} {k j : Nat} (hk : link outs a = some k)
    (hj : j ∈ List.range (accepted call env p g.operands n).length) : a.cell call env j
      = sourceCell call env outs g.operands (accepted call env p g.operands n)[j]! a := by
  obtain ⟨b, hb, ha⟩ := hreads a k hk
  have hlt := List.mem_range.1 hj
  rw [sourceCell_eq hk hb, Operand.cell, ← ha.eq_value.1,
    getElem!_pos _ _ (by rwa [List.length_map]), List.getElem_map,
    getElem!_pos (accepted call env p g.operands n) j hlt]

/-- The elements of a row that the consumer gets are those of the row that the producer has accepted
in its place. -/
theorem cells_accepted {as : List Operand} {j : Nat} (has : ∀ a ∈ as, ∃ k, link outs a = some k)
    (hj : j ∈ List.range (accepted call env p g.operands n).length) : cells call env as j
      = as.map (sourceCell call env outs g.operands (accepted call env p g.operands n)[j]!) :=
  List.map_congr_left fun a ha => cell_accepted hreads (has a ha).choose_spec hj

/-- A consumer of the outputs has as many rows as the filter accepts. -/
theorem length_accepted {as : List Operand} {n' : Nat} (h : Aligned w call env as n')
    (hread : ∃ a ∈ as, ∃ k, link outs a = some k) :
    n' = (accepted call env p g.operands n).length := by
  obtain ⟨a, ha, k, hk⟩ := hread
  obtain ⟨b, -, hb⟩ := hreads a k hk
  rw [h.unique ha hb, List.length_map]

end

section

variable {p f : Lambda} {s s' : NameSupply} (hu : ∀ fn args, Uniform (call fn args))
  (hroom : s.Serves s') (hapart : Apart p f s) (hp : p.rets.length = 1)
    (houts : outs.length = g.operands.length) (haligned : Aligned w call env g.operands n)
  (hsucceeds : ∀ i ∈ List.range n, Eval.Succeeds w (p.test call env (cells call env g.operands i)))
  (hreads : ∀ a k, link outs a = some k → ∃ b, g.operands[k]? = some b
    ∧ Yields w (a.array call env) ((accepted call env p g.operands n).map (b.cell call env)) 0)
  (hread : ∃ a ∈ c.operands, ∃ k, link outs a = some k)
include hu hroom hapart hp houts haligned hsucceeds hreads hread

omit hu hroom hapart hp houts hsucceeds hreads hread in
/-- The operands of a fold behind a filter have the length of the operands of the filter. -/
theorem aligned_foldAfterFilter {acc : Nat} {r : Lambda × List Operand}
    (hr : Recipe.foldAfterFilter p g.operands outs f acc c.operands s = .ok (some r, s')) :
    Aligned w call env r.2 n := by
  obtain ⟨hp, hf, readers, check, -, -, -, rfl⟩ := Recipe.foldAfterFilter_eq_ok hr
  exact haligned.of_mem haligned (fun _ ha => .inl (Recipe.mem_of_mem_dedupOperands ha))
    (Recipe.eq_nil_of_dedupOperands (Recipe.length_params_guarded hp hf))

/-- A fold behind a filter. -/
theorem yields_filterFold {acc : Nat} {r : Lambda × List Operand}
    (hr : Recipe.foldAfterFilter p g.operands outs f acc c.operands s = .ok (some r, s'))
    {outer : Lambda} {ne : List Exp} (hacc : acc = ne.length) (hop : c.op = .redomap outer f ne)
    (hrets : f.rets.length = ne.length) {certs : Certificates} {span : Span} {v : Value} {k : Nat}
    (hc : Yields w (c.toExp.eval call env) v k) :
    ∃ k, Yields w ((Stage.mk (.redomap outer r.1 ne) r.2 certs span).toExp.eval call env) v k := by
  obtain ⟨n', start, t, i, j, halignedC, hstart, hfold, rfl, -⟩ :=
    (Stage.yields_redomap_iff hu hop).1 hc
  obtain rfl := length_accepted hreads halignedC hread
  have hlinked : ∀ a ∈ c.operands, ∃ k, link outs a = some k := fun _ =>
    Recipe.linked_foldAfterFilter hr houts
  -- the fold over the rows that the filter accepts
  obtain ⟨k', hk'⟩ : ∃ k, Yields w ((accepted call env p g.operands n).foldlM (fun us i =>
      f.apply call env (us ++ c.operands.map (sourceCell call env outs g.operands i))) start) t
        k := by
    rw [List.eq_map_range (accepted call env p g.operands n), List.foldlM_map]
    refine (hfold.foldlM_of (S := fun _ => True) (fun _ _ => f.apply_uniform hu env _)
      (fun j hj us _ t k ht => ⟨trivial, k, ?_⟩) trivial).2
    rwa [← cells_accepted hreads hlinked hj]
  -- the fold over all rows
  have hrow : ∀ i ∈ List.range n, ∀ us : List Value, us.length = ne.length → ∀ flag,
      (p.test call env (cells call env g.operands i)).value = flag → ∀ t j,
      (if flag then Yields w (f.apply call env
          (us ++ c.operands.map (sourceCell call env outs g.operands i))) t j else t = us ∧ j = 0) →
        ∃ k, Yields w (r.1.apply call env (us ++ cells call env r.2 i)) t k := by
    intro i hi us hus flag hflag t j ht
    have hi := hsucceeds i hi
    rw [Eval.Succeeds, hflag] at hi
    exact ⟨_, Recipe.foldAfterFilter_apply hr hroom hapart hp hu houts (hrets.trans hacc.symm)
      (fun _ _ => Operand.cell_eq_of_sameSource call env i) (hus.trans hacc.symm) hi
      (fun _ a _ k b hk hb => sourceCell_eq hk hb) ht⟩
  obtain ⟨j', hj'⟩ : ∃ k, Yields w ((List.range n).foldlM (fun us i =>
      r.1.apply call env (us ++ cells call env r.2 i)) start) t k :=
    (hk'.foldlM_filter (S := fun us : List Value => us.length = ne.length)
      (fun _ _ => f.apply_uniform hu env _)
      (fun i hi hflag us hus t k ht => ⟨(Lambda.length_of_yields hu ht).trans hrets,
        hrow i hi us hus true hflag t k ht⟩)
      (fun i hi hflag us hus => hrow i hi us hus false hflag us 0 ⟨rfl, rfl⟩)
      (Exp.length_of_yields_evalAll hu hstart)).2
  exact ⟨_, (Stage.yields_redomap_iff hu rfl).2 ⟨n, start, t, i, j',
    aligned_foldAfterFilter haligned hr, hstart, hj', rfl, rfl⟩⟩

omit hu hroom hapart hp houts haligned hsucceeds hread in
/-- What a filter behind a filter keeps of an operand that reads an output is what the two keep of
its source. -/
theorem kept_eq {a b : Operand} {k : Nat} (hlinked : ∀ a ∈ c.operands, ∃ k, link outs a = some k)
    (hk : link outs a = some k) (hb : g.operands[k]? = some b) :
    (((List.range (accepted call env p g.operands n).length).filter fun j =>
        (f.test call env (cells call env c.operands j)).value).map (a.cell call env))
      = ((accepted call env p g.operands n).filter fun i => (f.test call env
          (c.operands.map (sourceCell call env outs g.operands i))).value).map
    (b.cell call env) := by
  conv_rhs => rw [List.eq_map_range (accepted call env p g.operands n)]
  rw [List.filter_map, List.map_map]
  have hfilter : ∀ j ∈ List.range (accepted call env p g.operands n).length,
      (f.test call env (cells call env c.operands j)).value
        = ((fun i => (f.test call env
          (c.operands.map (sourceCell call env outs g.operands i))).value)
            ∘ fun j => (accepted call env p g.operands n)[j]!) j := fun j hj => by
    rw [cells_accepted hreads hlinked hj]
    rfl
  rw [List.filter_congr hfilter]
  refine List.map_congr_left fun j hj => ?_
  rw [cell_accepted hreads hk (List.mem_filter.1 hj).1, sourceCell_eq hk hb]
  rfl

section

variable {cOutputs : List Ident} {r : Lambda × List Operand × List Ident}
  (hr : Recipe.filterAfterFilter p g.operands outs f c.operands cOutputs s = .ok (some r, s'))
include hr

omit hu hp haligned hsucceeds hreads hread in
/-- Of a filter behind a filter every operand is an output of the producer. -/
theorem linked_filterAfterFilter : ∀ a ∈ c.operands, ∃ k, link outs a = some k := by
  intro a ha
  obtain ⟨-, hf, _, _, read, unread, _, _, hchain, -⟩ :=
    Recipe.filterAfterFilter_chain hr hroom hapart houts
  rw [← List.map_snd_zip (Nat.le_of_eq hf.symm)] at ha
  obtain ⟨e, he, rfl⟩ := List.mem_map.1 ha
  obtain ⟨d, -, -, k, hk, -⟩ := Recipe.exists_of_forall₂ hchain.reads.flip he
  exact ⟨k, hk⟩

omit hu hp hsucceeds hreads hread in
/-- The operands of a filter behind a filter have the length of the operands of the producer. -/
theorem aligned_filterAfterFilter : Aligned w call env r.2.1 n := by
  obtain ⟨hp, -, _, _, read, unread, _, _, hchain, -, -, -, -, rfl⟩ :=
    Recipe.filterAfterFilter_chain hr hroom hapart houts
  refine haligned.of_mem haligned (fun b hb => .inl ?_) fun hnil => ?_
  · obtain ⟨e, he, rfl⟩ := List.mem_map.1 hb
    exact (hchain.source e he).1
  · rw [← List.map_snd_zip (Nat.le_of_eq hp.symm), List.map_eq_nil_iff,
      List.eq_nil_iff_forall_not_mem]
    intro e he
    have hmem := hchain.covers e he
    rw [List.map_eq_nil_iff.1 hnil] at hmem
    cases hmem

omit haligned hread in
/-- The predicate of the composition holds where that of the producer does and that of the consumer
does on what the outputs have there. -/
theorem yields_test_filterAfterFilter (hf : f.rets.length = 1)
    (hsucceedsC : ∀ j ∈ List.range (accepted call env p g.operands n).length,
      Eval.Succeeds w (f.test call env (cells call env c.operands j))) {i : Nat}
    (hi : i ∈ List.range n) : ∃ k, Yields w (r.1.test call env (cells call env r.2.1 i))
      ((p.test call env (cells call env g.operands i)).value && (f.test call env
        (c.operands.map (sourceCell call env outs g.operands i))).value) k := by
  have hflag := hsucceeds i hi
  have hlink : ∀ a ∈ c.operands, ∀ k b, link outs a = some k → g.operands[k]? = some b →
      sourceCell call env outs g.operands i a = b.cell call env i :=
    fun a _ k b hk hb => sourceCell_eq hk hb
  cases hp' : (p.test call env (cells call env g.operands i)).value with
  | false =>
    rw [Eval.Succeeds, hp'] at hflag
    exact ⟨_, Recipe.filterAfterFilter_test hr hroom hapart hp hf hu houts hflag (fun _ => hlink)
      ⟨rfl, rfl⟩⟩
  | true =>
    rw [Eval.Succeeds, hp'] at hflag
    have hmem : i ∈ accepted call env p g.operands n := List.mem_filter.2 ⟨hi, hp'⟩
    rw [List.eq_map_range (accepted call env p g.operands n)] at hmem
    obtain ⟨j, hj, rfl⟩ := List.mem_map.1 hmem
    have ht := hsucceedsC j hj
    rw [cells_accepted hreads (linked_filterAfterFilter hroom hapart houts hr) hj] at ht
    exact ⟨_, Recipe.filterAfterFilter_test hr hroom hapart hp hf hu houts hflag
      (fun _ => hlink) ht⟩

/-- A filter behind a filter. -/
theorem yields_filterFilter (hop : c.op = .filter f) (hf : f.rets.length = 1)
    {certs : Certificates} {span : Span} {us : List Value} (hus : us.length = c.operands.length)
    {k : Nat} (hc : Yields w (c.toExp.eval call env) (.ofResults us) k) :
    ∃ ws k, Yields w ((Stage.mk (.filter r.1) r.2.1 certs span).toExp.eval call env)
      (.ofResults (us ++ ws)) k ∧ (us ++ ws).length = r.2.1.length := by
  obtain ⟨n', halignedC, hsucceedsC, hv, -⟩ := (Stage.yields_filter_iff hu hop).1 hc
  obtain rfl := length_accepted hreads halignedC hread
  have hlinked := linked_filterAfterFilter hroom hapart houts hr
  have htest := fun i hi =>
    yields_test_filterAfterFilter (i := i) hu hroom hapart hp houts hsucceeds hreads hr hf
      hsucceedsC hi
  -- a row is kept if the producer accepts it and the consumer accepts what it makes of it
  have hkept : (List.range n).filter (fun i => (r.1.test call env (cells call env r.2.1 i)).value)
      = (accepted call env p g.operands n).filter fun i => (f.test call env
          (c.operands.map (sourceCell call env outs g.operands i))).value := by
    rw [accepted, List.filter_filter]
    refine List.filter_congr fun i hi => ?_
    obtain ⟨k, hk⟩ := htest i hi
    rw [← hk.eq_value.1, Bool.and_comm]
  have hus' := Value.eq_of_results (hv ▸ Value.results_ofResults us) (by rw [List.length_map, hus])
  -- what the fused filter keeps of an operand
  let column (b : Operand) : Value := .array (((List.range n).filter fun i =>
    (r.1.test call env (cells call env r.2.1 i)).value).map (b.cell call env))
  obtain ⟨-, hfLength, _, _, read, unread, _, _, hchain, -, -, -, -, heq⟩ :=
    Recipe.filterAfterFilter_chain hr hroom hapart houts
  -- what the consumer keeps of an operand, from what the producer has kept
  let consumed (a : Operand) : Value := .array (((List.range (accepted call env p g.operands
    n).length).filter fun j => (f.test call env (cells call env c.operands j)).value).map
      (a.cell call env))
  have hcolumns : List.Forall₂ Eq ((f.params.zip c.operands).map fun e => consumed e.2)
      (read.map fun d => column d.2.2) := by
    rw [List.forall₂_map_left_iff, List.forall₂_map_right_iff]
    refine hchain.reads.imp fun e d ⟨_, k, hk, hget⟩ => ?_
    simp only [column, hkept]
    exact congrArg Value.array (kept_eq hreads hlinked hk hget)
  rw [List.forall₂_eq_eq_eq] at hcolumns
  -- the operands that are read come first, and those of the producer alone behind them
  have hread : us = read.map fun d => column d.2.2 := by
    have hzip : ((f.params.zip c.operands).map Prod.snd).map consumed =
        c.operands.map consumed := by
      rw [List.map_snd_zip (Nat.le_of_eq hfLength.symm)]
    rw [← hcolumns, hus', ← show _ = c.operands.map consumed from hzip, List.map_map]
    rfl
  have hoperands : r.2.1.map column
      = (read.map fun d => column d.2.2) ++ unread.map fun d => column d.2 := by
    rw [heq, List.map_map, List.map_append, List.map_map]
    rfl
  have hall : us ++ unread.map (fun d => column d.2) = r.2.1.map column :=
    (congrArg (· ++ _) hread).trans hoperands.symm
  refine ⟨unread.map fun d => column d.2, _, (Stage.yields_filter_iff hu rfl).2 ⟨n,
    aligned_filterAfterFilter hroom hapart houts haligned hr, fun i hi =>
    (htest i hi).choose_spec.succeeds, ?_, rfl⟩, ?_⟩
  · exact congrArg Value.ofResults hall
  · exact (congrArg List.length hall).trans (List.length_map _)

omit hu hp haligned hsucceeds hreads hread in
/-- The composition of two filters has an output for each operand if the consumer has. -/
theorem length_filterAfterFilter (hcOutputs : cOutputs.length = c.operands.length) :
    r.2.2.length = r.2.1.length := by
  obtain ⟨-, hparams, _, _, read, unread, unused, _, hchain, -, hunused, -, -, rfl⟩ :=
    Recipe.filterAfterFilter_chain hr hroom hapart houts
  have hread : read.length = c.operands.length := by
    rw [← hchain.reads.length_eq, List.length_zip, hparams, Nat.min_self]
  simp only [List.length_append, List.length_map, hread, hunused, hcOutputs]

end

end

/-! ## Any two stages -/

/-- The folds return as many results as they have accumulators, and predicates return one. -/
def Combinator.Shaped : Combinator → Prop
  | .map _ => True
  | .reduce f ne => f.rets.length = ne.length
  | .scan f ne => f.rets.length = ne.length
  | .filter p => p.rets.length = 1
  | .redomap _ g ne => g.rets.length = ne.length

/-- A lambda that yields its results yields them with no others behind. -/
theorem yields_append_nil {x : Eval Value} {us : List Value} {n : Nat} (hus : us.length = n)
    (h : ∃ k, Yields w x (.ofResults us) k) :
    ∃ ws k, Yields w x (.ofResults (us ++ ws)) k ∧ (us ++ ws).length = n := by
  obtain ⟨k, hk⟩ := h
  exact ⟨[], k, (List.append_nil us).symm ▸ ⟨hk, hus⟩⟩

/-- Where the results of the producer are bound to its outputs and the consumer yields some results,
the composition yields the same ones and possibly more behind them. -/
theorem Composed.yields {cOutputs outputs : List Ident} {s s' : NameSupply} {op : Combinator}
    {operands : List Operand} (h : Composed g outs c cOutputs s s' op operands outputs)
    (hu : ∀ fn args, Uniform (call fn args)) (hroom : s.Serves s')
    (hapart : Apart g.op.element c.op.element s) (hg : g.op.Shaped) (hshaped : c.op.Shaped)
    (houts : g.arity = outs.length) (hcOutputs : cOutputs.length = c.arity)
    (hread : ∃ a ∈ c.operands, ∃ k, link outs a = some k) {certs : Certificates} {span : Span}
    {v : Value} {vs : List Value} {k : Nat} (hv : Yields w (g.toExp.eval call env) v k)
    (hvs : v.results outs.length = .ok vs)
    (hlookup : (Pattern.names outs).map env.lookup? = vs.map some) {us : List Value}
    (hus : us.length = cOutputs.length) {j : Nat}
    (hc : Yields w (c.toExp.eval call env) (.ofResults us) j) :
    ∃ ws k, Yields w ((Stage.mk op operands certs span).toExp.eval call env)
      (.ofResults (us ++ ws)) k ∧ (us ++ ws).length = outputs.length := by
  -- what the outputs are bound to is what the consumer reads of the producer
  cases h with
  | mapMap hp hf hr =>
    rw [hp, hf] at hapart
    obtain ⟨n, haligned, hsucceeds, hreads⟩ := Stage.reads_map hu hp houts hv hvs hlookup
    rw [Stage.arity, hp] at houts
    exact yields_append_nil hus (yields_mapMap hu hr hroom hapart houts.symm hsucceeds hreads
      haligned rfl hf hread hc)
  | mapFold hp hf hr =>
    rw [hp, hf] at hapart
    rw [hf] at hshaped
    obtain ⟨n, haligned, hsucceeds, hreads⟩ := Stage.reads_map hu hp houts hv hvs hlookup
    rw [Stage.arity, hp] at houts
    exact yields_append_nil hus (yields_mapFold hu hr hroom hapart houts.symm hsucceeds hreads
      haligned rfl hf hshaped hread hc)
  -- a filter hands the rows that it keeps on, so the outputs are read at those
  -- a filter hands the rows that it keeps on, so the outputs are read at those
  | filterFilter hp hf hr =>
    rw [hp, hf] at hapart
    rw [hp] at hg
    rw [hf] at hshaped
    rw [Stage.arity, hf] at hcOutputs
    obtain ⟨n, haligned, hsucceeds, hreads⟩ := Stage.reads_filter hu hp houts hv hvs hlookup
    rw [Stage.arity, hp] at houts
    rw [length_filterAfterFilter hroom hapart houts.symm hr hcOutputs]
    exact yields_filterFilter hu hroom hapart hg houts.symm haligned hsucceeds hreads hread hr hf
      hshaped (hus.trans hcOutputs) hc
  | filterFold hp hf hr =>
    rw [hp, hf] at hapart
    rw [hp] at hg
    rw [hf] at hshaped
    obtain ⟨n, haligned, hsucceeds, hreads⟩ := Stage.reads_filter hu hp houts hv hvs hlookup
    rw [Stage.arity, hp] at houts
    exact yields_append_nil hus (yields_filterFold hu hroom hapart hg houts.symm haligned hsucceeds
      hreads hread hr rfl hf hshaped hc)

end

end ArrayFusion
