import ArrayFusion.Proofs.Course
import ArrayFusion.Proofs.NormalKernels

/-!
# What fused kernels read as a whole

A kernel that takes a stage in reads what the stage reads as a whole, and what it read before except
for the outputs of the stage (`Kernel.Extends`).  No operand is lost on the way: operands are only
left out of a composition in favour of another one for the same array, and a filter passes on the
operands that no one reads.
-/

namespace ArrayFusion

/-- The names read whole are those of the operands that are plain identifiers. -/
theorem Stage.mem_wholeNames {g : Stage} {x : Name} :
    x ∈ g.wholeNames ↔ ∃ y : Ident, .whole y ∈ g.operands ∧ y.name = x := by
  unfold wholeNames
  rw [List.mem_filterMap]
  constructor
  · rintro ⟨a, ha, hx⟩
    cases a with
    | whole y => exact ⟨y, ha, Option.some.inj hx⟩
    | _ => cases hx
  · rintro ⟨y, hy, rfl⟩
    exact ⟨_, hy, rfl⟩

/-- What is read whole is read. -/
theorem Stage.wholeNames_subset {g : Stage} : g.wholeNames ⊆ g.operandReads := fun x hx => by
  obtain ⟨y, hy, rfl⟩ := mem_wholeNames.1 hx
  exact List.mem_flatMap.2 ⟨_, hy, List.mem_cons_self⟩

/-- What has the source of an identifier is an identifier of that name. -/
theorem Operand.sameSource_whole {a : Operand} {x : Ident} (h : a.sameSource (.whole x) = true) :
    ∃ y : Ident, a = .whole y ∧ y.name = x.name := by
  cases a with
  | whole y => exact ⟨y, rfl, beq_iff_eq.1 h⟩
  | _ => cases h

namespace Recipe

/-! ## The recipes -/

/-- An operand is left out only if another one for the same source is kept. -/
theorem Coalesced.exists_kept (es : List (Ident × Operand)) : ∀ e ∈ es,
    ∃ k ∈ (es.foldl Coalesced.add ⟨[], []⟩).kept, k.2 = e.2 ∨ k.2.sameSource e.2 = true := by
  induction es using List.reverseRecOn with
  | nil => exact nofun
  | append_singleton es e ih =>
    rw [List.foldl_append, List.foldl_cons, List.foldl_nil]
    generalize es.foldl Coalesced.add ⟨[], []⟩ = l at ih
    -- adding an operand keeps what was kept, and stands for the operand itself
    have hkept : (∀ k ∈ l.kept, k ∈ (l.add e).kept)
        ∧ ∃ k ∈ (l.add e).kept, k.2 = e.2 ∨ k.2.sameSource e.2 = true := by
      unfold Coalesced.add
      split
      · rename_i k hk
        have hsame := List.find?_some hk
        exact ⟨fun _ => id, k, List.mem_of_find?_eq_some hk, .inr hsame⟩
      · exact ⟨fun _ => List.mem_append_left _, e, by simp, .inl rfl⟩
    intro d hd
    rcases List.mem_append.1 hd with hd | hd
    · obtain ⟨k, hk, hsame⟩ := ih d hd
      exact ⟨k, hkept.1 k hk, hsame⟩
    · rw [List.mem_singleton.1 hd]
      exact hkept.2

/-- No operand is left out without one for the same source. -/
theorem exists_mem_dedupOperands {f : Lambda} {operands : List Operand} {acc : Nat}
    (hparams : f.params.length = acc + operands.length) {a : Operand} (ha : a ∈ operands) :
    ∃ b ∈ (dedupOperands f operands acc).2, b = a ∨ b.sameSource a = true := by
  rw [← map_snd_params hparams] at ha
  obtain ⟨e, he, rfl⟩ := List.mem_map.1 ha
  obtain ⟨k, hk, hsame⟩ := Coalesced.exists_kept _ e he
  exact ⟨k.2, List.mem_map_of_mem hk, hsame⟩

/-- The arrays that are read as a whole stay the same when operands are left out. -/
theorem whole_dedupOperands {f : Lambda} {operands : List Operand} {acc : Nat}
    (hparams : f.params.length = acc + operands.length) {x : Name} :
    (∃ y : Ident, .whole y ∈ (dedupOperands f operands acc).2 ∧ y.name = x)
      ↔ ∃ y : Ident, .whole y ∈ operands ∧ y.name = x := by
  constructor
  · rintro ⟨y, hy, hx⟩
    exact ⟨y, mem_of_mem_dedupOperands hy, hx⟩
  · rintro ⟨y, hy, rfl⟩
    obtain ⟨b, hb, rfl | hsame⟩ := exists_mem_dedupOperands hparams hy
    · exact ⟨y, hb, rfl⟩
    · obtain ⟨z, rfl, hname⟩ := Operand.sameSource_whole hsame
      exact ⟨z, hb, hname⟩

/-- The other parameters are exactly those that read no output. -/
theorem linking_others (outs : List Ident) (es : List (Ident × Operand)) :
    (linking outs es).others = es.filter fun e => (link outs e.2).isNone := by
  unfold linking
  induction es using List.reverseRecOn with
  | nil => rfl
  | append_singleton es e ih =>
    rw [List.foldl_append, List.foldl_cons, List.foldl_nil, List.filter_append, ← ih]
    unfold Linking.add
    cases hlink : link outs e.2 with
    | none => simp [hlink]
    | some i =>
      simp only [List.filter_cons, hlink, Option.isNone_some, Bool.false_eq_true, if_false,
        List.filter_nil, List.append_nil]
      split <;> rfl

/-- An identifier is linked to no output if it is none. -/
theorem link_whole {outs : List Ident} {x : Ident} :
    (link outs (.whole x)).isNone ↔ x.name ∉ Pattern.names outs := by
  rw [Option.isNone_iff_eq_none]
  refine ⟨fun h => link_eq_none h rfl, fun h => ?_⟩
  rw [Option.eq_none_iff_forall_ne_some]
  intro k hk
  obtain ⟨y, z, hy, hz, hzy⟩ := link_eq_some hk
  cases hy
  exact h (hzy ▸ List.mem_map_of_mem (List.mem_of_getElem? hz))

section

variable {p c : Lambda} {pOperands cOperands : List Operand} {outs : List Ident} {acc : Nat}
  {s s' : NameSupply} {x : Name}

/-- What is read whole behind a map is what the producer reads whole, and what the consumer reads
whole apart from the outputs. -/
theorem whole_afterMap {r : Lambda × List Operand}
    (h : afterMap p pOperands outs c acc cOperands s = .ok (r, s')) :
    (∃ y : Ident, .whole y ∈ r.2 ∧ y.name = x) ↔ (∃ y : Ident, .whole y ∈ pOperands ∧ y.name = x)
      ∨ (∃ y : Ident, .whole y ∈ cOperands ∧ y.name = x) ∧ x ∉ Pattern.names outs := by
  obtain ⟨hp, hc, pattern, -, rfl⟩ := afterMap_eq_ok h
  -- the operands are those of the producer and the others of the consumer
  rw [whole_dedupOperands (length_params_afterMap hp hc _), linking_others]
  simp only [List.mem_append, or_and_right, exists_or]
  refine or_congr_right ⟨?_, ?_⟩
  · rintro ⟨y, hy, rfl⟩
    obtain ⟨e, he, hey⟩ := List.mem_map.1 hy
    obtain ⟨hmem, hlink⟩ := List.mem_filter.1 he
    rw [hey] at hlink
    exact ⟨⟨y, hey ▸ (List.of_mem_zip hmem).2, rfl⟩, link_whole.1 hlink⟩
  · rintro ⟨⟨y, hy, rfl⟩, hout⟩
    rw [← map_snd_params hc] at hy
    obtain ⟨e, he, hey⟩ := List.mem_map.1 hy
    exact ⟨y, List.mem_map.2 ⟨e, List.mem_filter.2 ⟨he, hey ▸ link_whole.2 hout⟩, hey⟩, rfl⟩

/-- The operands of the producer are read, and those of the consumer that read no output. -/
theorem exists_mem_afterMap {r : Lambda × List Operand}
    (h : afterMap p pOperands outs c acc cOperands s = .ok (r, s')) {a : Operand}
    (ha : a ∈ pOperands ∨ a ∈ cOperands ∧ link outs a = none) :
    ∃ b ∈ r.2, b = a ∨ b.sameSource a = true := by
  obtain ⟨hp, hc, pattern, -, rfl⟩ := afterMap_eq_ok h
  refine exists_mem_dedupOperands (length_params_afterMap hp hc _) (List.mem_append.2 ?_)
  refine ha.imp_right fun ⟨ha, hlink⟩ => ?_
  rw [← map_snd_params hc] at ha
  obtain ⟨e, he, rfl⟩ := List.mem_map.1 ha
  rw [linking_others]
  exact List.mem_map_of_mem (List.mem_filter.2 ⟨he, Option.isNone_iff_eq_none.2 hlink⟩)

/-- Whoever reads nothing but the outputs of a filter reads each operand as a whole. -/
theorem whole_of_readers? {params params' : List Ident} {operands operands' : List Operand}
    {readers : List (Ident × Nat × Source)}
    (h : readers? (sources outs params' operands') params operands = some readers)
    (hlen : params.length = operands.length) {a : Operand} (ha : a ∈ operands) :
    ∃ y : Ident, a = .whole y ∧ y.name ∈ Pattern.names outs := by
  have hzip : (params.zip operands).map (·.2) = operands :=
    List.map_snd_zip (Nat.le_of_eq hlen.symm)
  rw [← hzip] at ha
  obtain ⟨e, he, rfl⟩ := List.mem_map.1 ha
  obtain ⟨r, -, -, hlink, -⟩ := exists_of_forall₂ (readers_of_readers? h).flip he
  obtain ⟨y, z, hy, hz, hzy⟩ := link_eq_some hlink
  obtain ⟨source, hsource, rfl⟩ := List.mem_map.1 (List.mem_of_getElem? hz)
  obtain ⟨d, hd, rfl⟩ := List.mem_map.1 hsource
  exact ⟨y, hy, hzy ▸ List.mem_map_of_mem (List.of_mem_zip hd).1⟩

/-- A fold behind a filter reads whole what the producer does, all of its operands, and nothing of
the consumer but the outputs. -/
theorem whole_foldAfterFilter {r : Lambda × List Operand}
    (h : foldAfterFilter p pOperands outs c acc cOperands s = .ok (some r, s')) :
    ((∃ y : Ident, .whole y ∈ r.2 ∧ y.name = x) ↔ ∃ y : Ident, .whole y ∈ pOperands ∧ y.name = x)
      ∧ (∀ a ∈ pOperands, ∃ b ∈ r.2, b = a ∨ b.sameSource a = true)
      ∧ ∀ a ∈ cOperands, ∃ y : Ident, a = .whole y ∧ y.name ∈ Pattern.names outs := by
  obtain ⟨hp, hc, readers, check, hreaders, -, -, rfl⟩ := foldAfterFilter_eq_ok h
  have hparams := length_params_guarded hp hc
  exact ⟨whole_dedupOperands hparams, fun a => exists_mem_dedupOperands hparams,
    fun a => whole_of_readers? hreaders (by rw [List.length_drop]; omega)⟩

/-- A filter behind a filter reads what the producer reads, and nothing of the consumer but the
outputs. -/
theorem whole_filterAfterFilter {cOutputs : List Ident} {r : Lambda × List Operand × List Ident}
    (h : filterAfterFilter p pOperands outs c cOperands cOutputs s = .ok (some r, s'))
    (houts : outs.length = pOperands.length) :
    (∀ a, a ∈ r.2.1 ↔ a ∈ pOperands)
      ∧ ∀ a ∈ cOperands, ∃ y : Ident, a = .whole y ∧ y.name ∈ Pattern.names outs := by
  obtain ⟨hp, hc, readers, read, s₁, unused, s₂, check, hreaders, hread, -, -, -, rfl⟩ :=
    filterAfterFilter_eq_ok h
  obtain ⟨-, hsame⟩ := source_of_readInOrder hread
  have hread := readers_of_readers? hreaders
  refine ⟨fun a => ⟨fun ha => ?_, fun ha => ?_⟩, fun a => whole_of_readers? hreaders hc⟩
  · -- read or not, the operand is one of the producer
    rcases List.mem_append.1 ha with ha | ha
    · obtain ⟨e, he, rfl⟩ := List.mem_map.1 ha
      obtain ⟨r, hr, -, heq, -⟩ := exists_of_forall₂ hsame he
      obtain ⟨_, -, -, -, hget⟩ := exists_of_forall₂ hread hr
      rw [heq]
      exact List.mem_of_getElem? (sources_getElem? hget).2
    · obtain ⟨source, hsource, rfl⟩ := List.mem_map.1 ha
      obtain ⟨i, hi, -⟩ := mem_unreadSources.1 hsource
      exact List.mem_of_getElem? (sources_getElem? hi).2
  · -- the operand belongs to some source, and either someone reads that source or no one does
    obtain ⟨i, hlt, hi⟩ := List.getElem_of_mem ha
    obtain ⟨output, param, hsources⟩ : ∃ output param,
        (sources outs p.params pOperands)[i]? = some ⟨output, param, a⟩ := by
      rw [sources, List.getElem?_map, List.getElem?_eq_getElem (by
        simp only [List.length_zip, houts, hp, Nat.min_self]
        exact hlt), List.getElem_zip, List.getElem_zip, hi]
      exact ⟨_, _, rfl⟩
    by_cases hunread : ∀ r ∈ readers, r.2.1 ≠ i
    · exact List.mem_append_right _ (List.mem_map.2
        ⟨_, mem_unreadSources.2 ⟨i, hsources, hunread⟩, rfl⟩)
    · push Not at hunread
      obtain ⟨r, hr, rfl⟩ := hunread
      obtain ⟨_, -, -, -, hget⟩ := exists_of_forall₂ hread hr
      obtain ⟨e, he, -, heq, -⟩ := exists_of_forall₂ hsame.flip hr
      refine List.mem_append_left _ (List.mem_map.2 ⟨e, he, ?_⟩)
      rw [heq, Option.some.inj (hget.symm.trans hsources)]

end

end Recipe

/-! ## Compatible stages -/

/-- An operand is found to be an identifier of a name if it is one. -/
theorem Operand.any_whole?_iff {a : Operand} {x : Name} :
    a.whole?.any (·.name == x) = true ↔ ∃ y : Ident, a = .whole y ∧ y.name = x := by
  cases a <;> simp [whole?]

/-- Only maps and filters are fused. -/
theorem kind_of_compatible {c : Config} {g : Stage} {outs : List Name} {K : Kernel}
    (h : compatible c g outs K = true) : g.kind = .map ∨ g.kind = .filter := by
  unfold compatible at h
  dsimp only at h
  split at h <;> simp_all

section

variable {c : Config} {g : Stage} {outs : List Name} {K : Kernel}

/-- A map may be fused into a kernel that reads each of its results as a whole and none of them
transposed. -/
theorem compatible_map_iff (hg : g.kind = .map) : compatible c g outs K = true ↔
    K.stage.kind ∈ [Combinator.Kind.map, .reduce, .redomap] ∧ (∀ x ∈ outs, x ∈ K.stage.wholeNames)
      ∧ ∀ y : Ident, .transposed y ∈ K.stage.operands → y.name ∉ outs := by
  -- the two tests of the check, one for the results and one for the operands
  have hwhole : (∀ x ∈ outs, ∃ a ∈ K.stage.operands, a.whole?.any (·.name == x) = true)
      ↔ ∀ x ∈ outs, x ∈ K.stage.wholeNames := by
    simp only [Operand.any_whole?_iff, Stage.mem_wholeNames]
    exact forall₂_congr fun x _ => ⟨fun ⟨_, ha, y, hy, hx⟩ => ⟨y, hy ▸ ha, hx⟩,
      fun ⟨y, hy, hx⟩ => ⟨_, hy, y, rfl, hx⟩⟩
  have htouched : (∀ a ∈ K.stage.operands, (∃ x ∈ outs, a.whole?.any (·.name == x) = true)
        ∨ a.name?.any outs.contains = false)
      ↔ ∀ y : Ident, .transposed y ∈ K.stage.operands → y.name ∉ outs := by
    refine ⟨fun h y hy => by simpa [Operand.whole?, Operand.name?] using h _ hy, fun h a ha => ?_⟩
    cases a with
    | transposed y => exact .inr (by simpa [Operand.name?] using h y ha)
    | whole y => by_cases hy : y.name ∈ outs <;> simp [Operand.whole?, Operand.name?, hy]
    | row | range => exact .inr rfl
  unfold compatible
  rw [hg]
  cases hk : K.stage.kind <;> simp [← hwhole, ← htouched]

/-- A filter may be fused into a kernel that reads nothing but its results, as a whole. -/
theorem compatible_filter_iff (hg : g.kind = .filter) : compatible c g outs K = true ↔
    K.stage.kind ∈ [Combinator.Kind.filter, .reduce, .redomap] ∧ c.filterFusion = true
      ∧ K.stage.operands ≠ [] ∧ ∀ a ∈ K.stage.operands, ∃ y : Ident, a = .whole y ∧
        y.name ∈ outs := by
  have hwhole : ∀ a : Operand, (∃ x ∈ outs, a.whole?.any (·.name == x) = true)
      ↔ ∃ y : Ident, a = .whole y ∧ y.name ∈ outs := fun a => by
    simp only [Operand.any_whole?_iff]
    exact ⟨fun ⟨_, hx, y, hy, hxy⟩ => ⟨y, hy, hxy ▸ hx⟩, fun ⟨y, hy, hx⟩ => ⟨_, hx, y, hy, rfl⟩⟩
  unfold compatible
  rw [hg]
  cases hk : K.stage.kind <;> simp [hwhole, and_assoc]

end

/-! ## Kernels -/

/-- A composition reads as a whole what the producer reads, and what else the consumer does. -/
theorem Composed.mem_wholeNames {g c : Stage} {outs cOutputs outputs : List Ident}
    {s s' : NameSupply} {op : Combinator} {operands : List Operand} {x : Name}
    (h : Composed g outs c cOutputs s s' op operands outputs) (houts : g.arity = outs.length)
    (certs : Certificates) (span : Span) : x ∈ (Stage.mk op operands certs span).wholeNames
      ↔ x ∈ g.wholeNames ∨ x ∈ c.wholeNames ∧ x ∉ Pattern.names outs := by
  simp only [Stage.mem_wholeNames]
  cases h with
  | mapMap _ _ hr => exact Recipe.whole_afterMap hr
  | mapFold _ _ hr => exact Recipe.whole_afterMap hr
  | filterFilter hgop _ hr =>
    rw [Stage.arity, hgop] at houts
    obtain ⟨hoperands, hreads⟩ := Recipe.whole_filterAfterFilter hr houts.symm
    simp only [hoperands]
    -- the consumer reads nothing but results
    refine (or_iff_left ?_).symm
    rintro ⟨⟨y, hy, rfl⟩, hout⟩
    obtain ⟨_, ⟨⟩, hmem⟩ := hreads _ hy
    exact hout hmem
  | filterFold _ _ hr =>
    obtain ⟨hoperands, -, hreads⟩ := Recipe.whole_foldAfterFilter (x := x) hr
    rw [hoperands]
    refine (or_iff_left ?_).symm
    rintro ⟨⟨y, hy, rfl⟩, hout⟩
    obtain ⟨_, ⟨⟩, hmem⟩ := hreads _ hy
    exact hout hmem

/-- The operands of the producer are read, and those of the consumer that read no output. -/
theorem Composed.exists_operand {g c : Stage} {outs cOutputs outputs : List Ident}
    {s s' : NameSupply} {op : Combinator} {operands : List Operand}
    (h : Composed g outs c cOutputs s s' op operands outputs) (houts : g.arity = outs.length)
    {a : Operand} (ha : a ∈ g.operands ∨ a ∈ c.operands ∧ Recipe.link outs a = none) :
    ∃ b ∈ operands, b = a ∨ b.sameSource a = true := by
  -- of a consumer that reads nothing but results no operand is left
  have hreads : (∀ a ∈ c.operands, ∃ y : Ident, a = .whole y ∧ y.name ∈ Pattern.names outs) →
      a ∈ g.operands := fun hreads => ha.resolve_right fun ⟨ha, hlink⟩ => by
    obtain ⟨y, rfl, hy⟩ := hreads a ha
    exact Recipe.link_whole.1 (Option.isNone_iff_eq_none.2 hlink) hy
  cases h with
  | mapMap _ _ hr | mapFold _ _ hr => exact Recipe.exists_mem_afterMap hr ha
  | filterFilter hgop _ hr =>
    rw [Stage.arity, hgop] at houts
    obtain ⟨hoperands, hwhole⟩ := Recipe.whole_filterAfterFilter hr houts.symm
    exact ⟨a, (hoperands a).2 (hreads hwhole), .inl rfl⟩
  | filterFold _ _ hr =>
    obtain ⟨-, hoperands, hwhole⟩ := Recipe.whole_foldAfterFilter (x := default) hr
    exact hoperands a (hreads hwhole)

/-- The kernel `K'` is `K` with a stage fused into it that computes the names `xs`. -/
structure Kernel.Extends (xs : List Name) (g : Stage) (K K' : Kernel) : Prop where
  id : K'.id = K.id
  pattern : K'.pattern = K.pattern
  inplace : K'.inplace = K.inplace
  fused : K'.fused = K.fused ++ xs
  kind : K'.stage.kind = K.stage.kind ∨ K.stage.kind = .reduce ∧ K'.stage.kind = .redomap
  wholeNames : ∀ x, x ∈ K'.stage.wholeNames
    ↔ x ∈ g.wholeNames ∨ x ∈ K.stage.wholeNames ∧ x ∉ xs
  operands : ∀ a, (a ∈ g.operands ∨ a ∈ K.stage.operands ∧ ∀ y : Ident, a = .whole y →
    y.name ∉ xs) → ∃ b ∈ K'.stage.operands, b = a ∨ b.sameSource a = true

/-- The kernel into which a producer is fused reads what the producer reads, and its outputs no
more. -/
theorem Producer.extends_fuseInto {p : Producer} {K K' : Kernel} {s s' : NameSupply}
    (h : p.fuseInto K s = .ok (some K', s')) : Kernel.Extends p.names p.stage K K' := by
  obtain ⟨harity, -, op, operands, outputs, hcomposed, rfl, -⟩ := Producer.fuseInto_eq_ok h
  refine ⟨rfl, rfl, rfl, rfl, ?_, fun x => ?_, fun a ha => hcomposed.exists_operand harity ?_⟩
  · have hkind := hcomposed.kind_eq
    rcases K.stage.asRedomap_cases s with ⟨heq, -⟩ | ⟨f, ne, hop, heq⟩ <;> rw [heq] at hkind
    · exact .inl hkind
    · exact .inr ⟨congrArg Combinator.kind hop, hkind⟩
  · -- to see a reduction as a redomap changes no operand
    have hconsumer : (K.stage.asRedomap s).1.wholeNames = K.stage.wholeNames := by
      rw [Stage.wholeNames, Stage.wholeNames, K.stage.operands_asRedomap s]
    rw [← hconsumer]
    exact hcomposed.mem_wholeNames harity _ _
  · refine ha.imp_right fun ⟨ha, hwhole⟩ => ⟨(K.stage.operands_asRedomap s).symm ▸ ha, ?_⟩
    rw [Option.eq_none_iff_forall_ne_some]
    intro i hi
    obtain ⟨y, z, rfl, hz, hzy⟩ := Recipe.link_eq_some hi
    exact hwhole y rfl (hzy ▸ List.mem_map_of_mem (List.mem_of_getElem? hz))

namespace Registry

variable {r : Registry} {g : Stage} {outs : List Ident}

/-- Each kernel of a fusion reads what the stage reads, and the outputs of that no more. -/
theorem FusedInto.extends {first : Bool} {Ks Ks' : List Kernel} {s s' : NameSupply}
    (h : r.FusedInto g outs first Ks s Ks' s') :
    List.Forall₂ (Kernel.Extends (Pattern.names outs) g) Ks Ks' := by
  induction h with
  | nil => exact .nil
  | first hK _ ih => exact .cons (Producer.extends_fuseInto hK) ih
  | copy hcopy hK _ ih =>
    obtain ⟨op', -, rfl⟩ := copyOf_eq_ok hcopy
    exact .cons { Producer.extends_fuseInto hK with } ih

/-- Every kernel that reads an output takes the stage in, and no others do. -/
theorem TriedFusion.extends {c : Config} {o : Origin} {p : Pattern} {s s' : NameSupply}
    {Ks' : List Kernel} (h : r.TriedFusion c o p g s Ks' s') : List.Forall₂ (fun id K' =>
      ∃ K, r.kernels.find? id = some K ∧ Kernel.Extends p.names g K K')
        (r.candidates p.names) Ks' := by
  obtain ⟨Ks, hKs, -, -, hfused⟩ := h.compatible
  exact Recipe.forall₂_of_two (mem_of_mapM_kernel hKs) hfused.extends
    fun id K _ K' hK hK' => ⟨K, hK, hK'⟩

/-- A stage is fused into at least one kernel. -/
theorem TriedFusion.ne_nil {c : Config} {o : Origin} {p : Pattern} {s s' : NameSupply}
    {Ks' : List Kernel} (h : r.TriedFusion c o p g s Ks' s') : Ks' ≠ [] := by
  rintro rfl
  exact h.candidates (List.length_eq_zero_iff.1 h.extends.length_eq)

end Registry

end ArrayFusion
