import ArrayFusion.Proofs.Composites
import ArrayFusion.Proofs.ComposedLets

/-!
# What compositions use

A composition uses nothing on its own.  Every name that is free in its lambda for the elements is
free in that of the producer or in that of the consumer (`Composed.free_element`), and every operand
is one of the producer, or one of the consumer that does not read an output of the producer
(`Composed.mem_operands`). Nothing is assumed about the binders of the two, as whatever a recipe
binds can only hide a use.
-/

namespace ArrayFusion

open Recipe (link)

theorem Lambda.mem_free {b : Bool} {f : Lambda} {x : Name} :
    x ∈ f.free b ↔ x ∈ f.body.free b ∧ x ∉ Pattern.names f.params := by
  cases f
  rfl

theorem Pattern.mem_names_append {p q : Pattern} {x : Name} :
    x ∈ Pattern.names (p ++ q) ↔ x ∈ p.names ∨ x ∈ q.names := by
  rw [Pattern.names_append, List.mem_append]

theorem Pattern.mem_names_of_perm {p q : Pattern} (h : p.Perm q) {x : Name} :
    x ∈ p.names ↔ x ∈ q.names :=
  (h.map _).mem_iff

theorem Exp.free_results {b : Bool} (xs : List Ident) :
    (Exp.results (xs.map .ofIdent)).free b ⊆ Pattern.nameSet xs := by
  have hall : Exp.freeAll b (xs.map .ofIdent) ⊆ Pattern.nameSet xs := by
    induction xs with
    | nil => exact Set.empty_subset _
    | cons x xs ih =>
      rintro y (rfl | hy)
      · exact List.mem_cons_self
      · exact List.mem_cons_of_mem _ (ih hy)
  rcases xs with _ | ⟨x, _ | ⟨y, xs⟩⟩
  · exact Set.empty_subset _
  · rintro y rfl
    exact List.mem_cons_self
  · exact hall

namespace Recipe

variable {b : Bool} {p c : Lambda} {pOperands cOperands : List Operand} {outs cOutputs : List Ident}
  {acc : Nat} {s s' : NameSupply}

/-- Forwarding uses the sources in place of what it binds. -/
theorem free_forward (bs : List (Ident × Ident)) (body : Exp) : (forward bs body).free b
    ⊆ Pattern.nameSet (bs.map (·.2)) ∪ body.free b \ Pattern.nameSet (bs.map (·.1)) := by
  induction bs with
  | nil => exact fun x hx => .inr ⟨hx, List.not_mem_nil⟩
  | cons d bs ih =>
    rintro x (hx | ⟨hx, hne⟩)
    · exact .inl (List.mem_cons.2 (.inl hx))
    · refine (ih hx).imp (List.mem_cons_of_mem _) fun hx => ⟨hx.1, fun hmem => ?_⟩
      rcases List.mem_cons.1 hmem with h | h
      · exact hne (List.mem_singleton.2 h)
      · exact hx.2 h

/-- With one parameter for each source a lambda uses what it used before. -/
theorem free_dedupOperands {f : Lambda} {operands : List Operand}
    (hparams : f.params.length = acc + operands.length) :
    (dedupOperands f operands acc).1.free b ⊆ f.free b := by
  have hcovers := Coalesced.covers ((f.params.drop acc).zip operands)
  intro x hx
  obtain ⟨hbody, hkept⟩ := Lambda.mem_free.1 hx
  have hkept := fun hmem => hkept (Pattern.mem_names_append.2 (.inr hmem))
  -- what is forwarded is bound to a parameter that was kept, and what is free besides was free
  -- before
  rcases free_forward _ _ hbody with hsource | ⟨hbody, hforward⟩
  · obtain ⟨y, hy, rfl⟩ := List.mem_map.1 hsource
    obtain ⟨d, hd, rfl⟩ := List.mem_map.1 hy
    obtain ⟨a, a', -, ha', -⟩ := hcovers.forwards d hd
    exact absurd (List.mem_map_of_mem (List.mem_map.2 ⟨_, ha', rfl⟩)) hkept
  · refine Lambda.mem_free.2 ⟨hbody, fun hmem => ?_⟩
    rw [← List.take_append_drop acc f.params] at hmem
    rcases Pattern.mem_names_append.1 hmem with hmem | hmem
    · exact (Lambda.mem_free.1 hx).2 (Pattern.mem_names_append.2 (.inl hmem))
    · rw [← map_fst_params hparams, ← Pattern.mem_names_of_perm hcovers.perm] at hmem
      exact (Pattern.mem_names_append.1 hmem).elim hkept hforward

/-- Whatever reads an output first is bound to the result of the map for it. -/
theorem Linking.binders_subset_pattern {es : List (Ident × Operand)} {rets : List Ty}
    {pattern : Pattern} (houts : outs.length = rets.length)
    (h : (linking outs es).pattern outs rets s = .ok (pattern, s')) :
    ∀ d ∈ (linking outs es).binders, d.2 ∈ pattern := by
  rintro ⟨i, x⟩ hd
  have hsorts := linking_sorts outs es
  obtain ⟨a, -, hlink⟩ := hsorts.binders _ hd
  obtain ⟨_, y, -, hy, -⟩ := link_eq_some hlink
  obtain ⟨hi, -⟩ := List.getElem?_eq_some_iff.1 hy
  -- the linking has one binder for each output, and the pattern takes it
  have hlookup : (linking outs es).binders.lookup i = some x :=
    (Table.find?_eq_some_iff (t := ⟨(linking outs es).binders, hsorts.keys⟩)).2 hd
  have hret : i < rets.length := houts ▸ hi
  have hmem : ((outs[i], rets[i]), i) ∈ (outs.zip rets).zipIdx := by
    rw [List.mk_mem_zipIdx_iff_getElem?, List.getElem?_zip_eq_some]
    exact ⟨List.getElem?_eq_getElem hi, List.getElem?_eq_getElem hret⟩
  obtain ⟨z, hz, s₁, s₂, hstep⟩ := State.exists_of_mapM_eq_ok h hmem
  dsimp only at hstep
  rw [hlookup] at hstep
  obtain ⟨rfl, -⟩ := State.pure_eq_ok.1 hstep
  exact hz

/-- Behind a map a lambda uses what the two use, if the map has a result for each output. -/
theorem free_afterMap {r : Lambda × List Operand}
    (h : afterMap p pOperands outs c acc cOperands s = .ok (r, s'))
    (houts : outs.length = p.rets.length) : r.1.free b ⊆ p.free b ∪ c.free b := by
  obtain ⟨hp, hc, pattern, hpattern, rfl⟩ := afterMap_eq_ok h
  have hsorts := linking_sorts outs ((c.params.drop acc).zip cOperands)
  have hbound := Linking.binders_subset_pattern houts hpattern
  generalize linking outs ((c.params.drop acc).zip cOperands) = l at *
  refine (free_dedupOperands (length_params_afterMap hp hc _)).trans fun x hx => ?_
  obtain ⟨hx, hparams⟩ := Lambda.mem_free.1 hx
  simp only [Pattern.mem_names_append, not_or] at hparams
  obtain ⟨haccs, hproducer, hothers⟩ := hparams
  rcases hx with hx | ⟨hx, hnew⟩
  · exact .inl (Lambda.mem_free.2 ⟨hx, hproducer⟩)
  rcases free_forward _ _ hx with hsource | ⟨hx, hforwards⟩
  · -- whatever is forwarded is bound to a result of the map
    obtain ⟨y, hy, rfl⟩ := List.mem_map.1 hsource
    obtain ⟨d, hd, rfl⟩ := List.mem_map.1 hy
    obtain ⟨a, i, -, -, hi⟩ := hsorts.forwards d hd
    exact absurd (List.mem_map_of_mem (hbound _ hi)) hnew
  · -- a parameter of the consumer is bound to a result, forwarded, or kept
    refine .inr (Lambda.mem_free.2 ⟨hx, fun hmem => ?_⟩)
    rw [← List.take_append_drop acc c.params] at hmem
    rcases Pattern.mem_names_append.1 hmem with hmem | hmem
    · exact haccs hmem
    rw [← map_fst_params hc, ← Pattern.mem_names_of_perm hsorts.perm] at hmem
    simp only [Pattern.mem_names_append] at hmem
    rcases hmem with (hmem | hmem) | hmem
    · obtain ⟨y, hy, rfl⟩ := List.mem_map.1 hmem
      obtain ⟨d, hd, rfl⟩ := List.mem_map.1 hy
      exact hnew (List.mem_map_of_mem (hbound _ hd))
    · exact hforwards hmem
    · exact hothers hmem

/-- Guarded code uses what the predicate and the two arms use. -/
theorem free_guarded {check : Ident} {yes no : Exp} {ty : Ty} :
    (Exp.bind [check] p.body (.cond (.ofIdent check) yes no ty .dummy)).free b
      ⊆ p.body.free b ∪ (yes.free b ∪ no.free b) := by
  rintro x (hx | ⟨hcheck | hx, hnew⟩)
  · exact .inl hx
  · exact absurd (List.mem_singleton.2 hcheck) hnew
  · exact .inr hx

/-- Behind a filter the body of the consumer uses what the consumer uses and what its parameters
read. -/
theorem free_forward_readers {accs : Pattern} {forwards : List (Ident × Ident)}
    (hparams : c.params = accs ++ forwards.map (·.1)) : (forward forwards c.body).free b
      ⊆ c.free b ∪ (accs.nameSet ∪ Pattern.nameSet (forwards.map (·.2))) := by
  intro x hx
  rcases free_forward _ _ hx with hx | ⟨hx, hforwards⟩
  · exact .inr (.inr hx)
  by_cases haccs : x ∈ accs.names
  · exact .inr (.inl haccs)
  · refine .inl (Lambda.mem_free.2 ⟨hx, ?_⟩)
    rw [hparams, Pattern.mem_names_append]
    exact fun hmem => hmem.elim haccs hforwards

/-- Behind a filter the step of a fold uses what the two use. -/
theorem free_foldAfterFilter {r : Lambda × List Operand}
    (h : foldAfterFilter p pOperands outs c acc cOperands s = .ok (some r, s')) :
    r.1.free b ⊆ p.free b ∪ c.free b := by
  obtain ⟨hp, hc, readers, check, hreaders?, -, -, rfl⟩ := foldAfterFilter_eq_ok h
  have hreaders := readers_of_readers? hreaders?
  -- every parameter of the elements is forwarded to one of the producer
  have hforwards : c.params = c.params.take acc
      ++ (readers.map fun r => (r.1, r.2.2.param)).map (·.1) := by
    conv_lhs => rw [← List.take_append_drop acc c.params, ← map_fst_params hc]
    rw [List.map_map, ← map_fst_of_forall₂ (fun _ _ h => h.1) hreaders]
    rfl
  refine (free_dedupOperands (length_params_guarded hp hc)).trans fun x hx => ?_
  obtain ⟨hx, hparams⟩ := Lambda.mem_free.1 hx
  rw [Pattern.mem_names_append, not_or] at hparams
  rcases free_guarded hx with hx | hx | hx
  · exact .inl (Lambda.mem_free.2 ⟨hx, hparams.2⟩)
  · rcases free_forward_readers hforwards hx with hx | hx | hx
    · exact .inr hx
    · exact absurd hx hparams.1
    · obtain ⟨y, hy, rfl⟩ := List.mem_map.1 hx
      obtain ⟨d, hd, rfl⟩ := List.mem_map.1 hy
      obtain ⟨e, he, rfl⟩ := List.mem_map.1 hd
      obtain ⟨_, -, -, -, hsource⟩ := exists_of_forall₂ hreaders he
      exact absurd (List.mem_map_of_mem (List.of_mem_zip (sources_getElem? hsource).1).1) hparams.2
  · -- if the flag is false, then the accumulators are returned
    exact absurd (Exp.free_results _ hx) hparams.1

/-- The first time that a source is read, its own parameter reads it. -/
theorem param_mem_of_readInOrder {seen : List Nat} {readers : List (Ident × Nat × Source)}
    {read : List (Ident × Ident × Operand)} (h : readInOrder seen readers s = .ok (read, s'))
    {r : Ident × Nat × Source} (hr : r ∈ readers) (hseen : r.2.1 ∉ seen) :
    ∃ r' ∈ readers, r'.2.1 = r.2.1 ∧ r'.2.2.param ∈ read.map (·.2.1) := by
  induction readers generalizing seen s read with
  | nil => cases hr
  | cons d readers ih =>
    obtain ⟨q, i, source⟩ := d
    obtain ⟨x, s₁, rest, hx, hrest, rfl⟩ := readInOrder_cons_eq_ok h
    -- the first reader of an output gets the parameter itself
    by_cases hi : r.2.1 = i
    · rcases hx with ⟨hmem, -⟩ | ⟨-, rfl, -⟩
      · exact absurd (hi ▸ hmem) hseen
      · exact ⟨_, List.mem_cons_self, hi.symm, List.mem_cons_self⟩
    · rcases List.mem_cons.1 hr with rfl | hr
      · exact absurd rfl hi
      · obtain ⟨r', hr', heq, hmem⟩ := ih hrest hr fun h => (List.mem_cons.1 h).elim hi hseen
        exact ⟨r', List.mem_cons_of_mem _ hr', heq, List.mem_cons_of_mem _ hmem⟩

/-- Behind a filter the predicate of a filter uses what the two use, if the first one has an output
for each operand. -/
theorem free_filterAfterFilter {r : Lambda × List Operand × List Ident}
    (h : filterAfterFilter p pOperands outs c cOperands cOutputs s = .ok (some r, s'))
    (houts : outs.length = pOperands.length) : r.1.free b ⊆ p.free b ∪ c.free b := by
  obtain ⟨hp, hc, readers, read, s₁, unused, s₂, check, hreaders?, hread, -, -, -, rfl⟩ :=
    filterAfterFilter_eq_ok h
  have hreaders := readers_of_readers? hreaders?
  have hget : ∀ r ∈ readers, (sources outs p.params pOperands)[r.2.1]? = some r.2.2 :=
      fun r hr => by
    obtain ⟨_, -, -, -, hsource⟩ := exists_of_forall₂ hreaders hr
    exact hsource
  -- every parameter of the consumer is forwarded
  have hforwards : c.params = [] ++ (read.map fun d => (d.1, d.2.1)).map (·.1) := by
    have hsame := map_fst_of_forall₂ (fun _ _ h => h.1) (source_of_readInOrder hread).2
    rw [List.nil_append, List.map_map, ← List.map_fst_zip (Nat.le_of_eq hc),
      ← map_fst_of_forall₂ (fun _ _ h => h.1) hreaders, ← hsame]
    rfl
  -- every parameter of the first predicate is one of the composition
  have hproducer : ∀ y ∈ p.params, y ∈ read.map (·.2.1)
      ++ (unreadSources (sources outs p.params pOperands) readers).map (·.param) := by
    intro y hy
    rw [← List.map_fst_zip (Nat.le_of_eq hp), ← map_param_sources houts hp, List.map_map] at hy
    obtain ⟨a, ha, rfl⟩ := List.mem_map.1 hy
    obtain ⟨i, hi⟩ := List.mem_iff_getElem?.1 ha
    by_cases hreader : ∃ r ∈ readers, r.2.1 = i
    · obtain ⟨r, hr, rfl⟩ := hreader
      obtain ⟨r', hr', heq, hmem⟩ := param_mem_of_readInOrder hread hr List.not_mem_nil
      refine List.mem_append_left _ ?_
      rwa [Option.some.inj ((hget r' hr').symm.trans (heq ▸ hi))] at hmem
    · refine List.mem_append_right _ (List.mem_map_of_mem (mem_unreadSources.2 ⟨i, hi, ?_⟩))
      exact fun r hr h => hreader ⟨r, hr, h⟩
  intro x hx
  obtain ⟨hx, hparams⟩ := Lambda.mem_free.1 hx
  rcases free_guarded hx with hx | hx | hx
  · refine .inl (Lambda.mem_free.2 ⟨hx, fun hmem => hparams ?_⟩)
    obtain ⟨y, hy, rfl⟩ := List.mem_map.1 hmem
    exact List.mem_map_of_mem (hproducer y hy)
  · rcases free_forward_readers hforwards hx with hx | hx | hx
    · exact .inr hx
    · cases hx
    · obtain ⟨y, hy, rfl⟩ := List.mem_map.1 hx
      obtain ⟨d, hd, rfl⟩ := List.mem_map.1 hy
      obtain ⟨e, he, rfl⟩ := List.mem_map.1 hd
      exact absurd (List.mem_map_of_mem (List.mem_append_left _ (List.mem_map_of_mem he))) hparams
  · cases hx

/-- The operands of a composition of two filters are those of the first one. -/
theorem mem_of_mem_filterAfterFilter {r : Lambda × List Operand × List Ident}
    (h : filterAfterFilter p pOperands outs c cOperands cOutputs s = .ok (some r, s')) {a : Operand}
    (ha : a ∈ r.2.1) : a ∈ pOperands := by
  obtain ⟨-, -, readers, read, s₁, unused, s₂, check, hreaders?, hread, -, -, -, rfl⟩ :=
    filterAfterFilter_eq_ok h
  have hreaders := readers_of_readers? hreaders?
  rcases List.mem_append.1 ha with ha | ha
  · obtain ⟨d, hd, rfl⟩ := List.mem_map.1 ha
    obtain ⟨r, hr, -, hoperand, -⟩ := exists_of_forall₂ (source_of_readInOrder hread).2 hd
    obtain ⟨_, -, -, -, hsource⟩ := exists_of_forall₂ hreaders hr
    rw [hoperand]
    exact List.mem_of_getElem? (sources_getElem? hsource).2
  · obtain ⟨d, hd, rfl⟩ := List.mem_map.1 ha
    obtain ⟨i, hi, -⟩ := mem_unreadSources.1 hd
    exact List.mem_of_getElem? (sources_getElem? hi).2

end Recipe

/-! ## Any two stages -/

section

variable {b : Bool} {g c : Stage} {outs cOutputs outputs : List Ident} {s s' : NameSupply}
  {op : Combinator} {operands : List Operand}
    (h : Composed g outs c cOutputs s s' op operands outputs)
include h

/-- The lambda of a composition uses what those of the two stages use. -/
theorem Composed.free_element (houts : g.arity = outs.length) :
    op.element.free b ⊆ g.op.element.free b ∪ c.op.element.free b := by
  cases h with
  | mapMap hp hf hr =>
    rw [Stage.arity, hp] at houts
    rw [hp, hf]
    exact Recipe.free_afterMap hr houts.symm
  | mapFold hp hf hr =>
    rw [Stage.arity, hp] at houts
    rw [hp, hf]
    exact Recipe.free_afterMap hr houts.symm
  | filterFilter hp hf hr =>
    rw [Stage.arity, hp] at houts
    rw [hp, hf]
    exact Recipe.free_filterAfterFilter hr houts.symm
  | filterFold hp hf hr =>
    rw [hp, hf]
    exact Recipe.free_foldAfterFilter hr

/-- The operands of a composition are those of the producer, and those of the consumer that read
none of its outputs. -/
theorem Composed.mem_operands {a : Operand} (ha : a ∈ operands) :
    a ∈ g.operands ∨ a ∈ c.operands ∧ link outs a = none := by
  cases h with
  | mapMap _ _ hr => exact Recipe.mem_of_mem_afterMap hr ha
  | mapFold _ _ hr => exact Recipe.mem_of_mem_afterMap hr ha
  | filterFilter _ _ hr => exact .inl (Recipe.mem_of_mem_filterAfterFilter hr ha)
  | filterFold _ _ hr =>
    obtain ⟨-, -, readers, check, -, -, -, rfl⟩ := Recipe.foldAfterFilter_eq_ok hr
    exact .inl (Recipe.mem_of_mem_dedupOperands ha)

/-- A composition starts from the neutral elements of the consumer. -/
theorem Composed.neutral_eq : op.neutral = c.op.neutral := by
  cases h with
  | mapMap _ hf _ => rw [hf]; rfl
  | mapFold _ hf _ => rw [hf]; rfl
  | filterFilter _ hf _ => rw [hf]; rfl
  | filterFold _ hf _ => rw [hf]; rfl

end

end ArrayFusion
