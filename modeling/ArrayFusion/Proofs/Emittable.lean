import ArrayFusion.Proofs.Emission
import ArrayFusion.Proofs.Registries

/-!
# When emission succeeds

Emission fails only at a `let`: where its names are produced by different kernels, where their
kernel is missing, or where the kernel cannot be emitted.  So code is emitted if all of its `let`s
are `Emittable` (`Emit.exists_expAt`).

A kernel can be emitted if kernels are not nested in a circle.  This is said with a list of all
kernels in which every kernel stands in front of the kernels inside it
(`Registry.exists_kernelWithin`).
-/

namespace ArrayFusion

namespace Emit

/-- A `let` of the pattern `p` can be emitted: its names have one producer, if any, and where that
kernel stands for the `let` it can be emitted, too. -/
structure Emittable (n : Nat) (q : Registry) (p : Pattern) : Prop where
  together : ∀ x ∈ p.names, ∀ y ∈ p.names, q.producerOf x = q.producerOf y
  kernel : ∀ x ∈ p.names, ∀ id, q.producerOf x = some id → ∃ K, q.kernels.find? id = some K
    ∧ (K.pattern.names = p.names → ∃ e', (kernelWithin n K).run q = .ok e')

variable {n : Nat} {q : Registry}

/-- A `let` is emitted if its pattern is emittable and its parts are emitted. -/
theorem exists_letIn {p : Pattern} {e b e₁ b₁ : Exp} {s : Span} (hp : Emittable n q p)
    (he : expAt n q e = .ok e₁) (hb : expAt n q b = .ok b₁) :
    ∃ e', expAt n q (.letIn p e b s) = .ok e' := by
  rcases p with _ | ⟨x, p⟩
  · exact ⟨_, (expAt_bind_eq_ok fun _ hx => absurd hx List.not_mem_nil).2 ⟨e₁, he, b₁, hb, rfl⟩⟩
  have hx : x.name ∈ Pattern.names (x :: p) := List.mem_cons_self
  -- all names of the pattern have one producer, or none
  have hsame : ∀ y ∈ Pattern.names (x :: p), q.producerOf y = q.producerOf x.name := fun y hy =>
    hp.together y hy x.name hx
  cases hid : q.producerOf x.name with
  | none =>
    have hnone := fun y hy => (hsame y hy).trans hid
    exact ⟨_, (expAt_bind_eq_ok hnone).2 ⟨e₁, he, b₁, hb, rfl⟩⟩
  | some id =>
    have hsome := fun y hy => (hsame y hy).trans hid
    have hne : x :: p ≠ [] := List.cons_ne_nil _ _
    obtain ⟨K, hK, hemit⟩ := hp.kernel x.name hx id hid
    -- the kernel stands for this `let`, or the `let` is dropped for it
    by_cases hpat : K.pattern.names = Pattern.names (x :: p)
    · by_cases hfused : K.fused = []
      · exact ⟨_, (expAt_unfused_eq_ok hne hsome hK hpat hfused).2 ⟨e₁, he, b₁, hb, rfl⟩⟩
      · obtain ⟨k, hk⟩ := hemit hpat
        exact ⟨_, (expAt_fused_eq_ok hne hsome hK hpat hfused).2 ⟨k, hk, b₁, hb, rfl⟩⟩
    · exact ⟨b₁, (expAt_drop hne hsome hK hpat).trans hb⟩

mutual

/-- An expression is emitted if all patterns in it are emittable. -/
theorem exists_expAt : ∀ {e : Exp}, (∀ l ∈ e.lets, Emittable n q l.1) → ∃ e', expAt n q e = .ok e'
  | .lit v s, _ => ⟨_, expAt_lit v s⟩
  | .var x s, _ => ⟨_, expAt_var x s⟩
  | .tuple es s, h => by
    obtain ⟨es', hes⟩ : ∃ es', allAt n q es = .ok es' := exists_allAt h
    exact ⟨_, expAt_tuple_eq_ok.2 ⟨es', hes, rfl⟩⟩
  | .array es t s, h => by
    obtain ⟨es', hes⟩ : ∃ es', allAt n q es = .ok es' := exists_allAt h
    exact ⟨_, expAt_array_eq_ok.2 ⟨es', hes, rfl⟩⟩
  | .binary o a b t s, h => by
    obtain ⟨ha, hb⟩ := List.forall_mem_append.1 h
    obtain ⟨a', ha⟩ := exists_expAt ha
    obtain ⟨b', hb⟩ := exists_expAt hb
    exact ⟨_, expAt_binary_eq_ok.2 ⟨a', ha, b', hb, rfl⟩⟩
  | .unary o e s, h => by
    obtain ⟨e', he⟩ := exists_expAt (e := e) h
    exact ⟨_, expAt_unary_eq_ok.2 ⟨e', he, rfl⟩⟩
  | .cond c a b t s, h => by
    obtain ⟨hca, hb⟩ := List.forall_mem_append.1 h
    obtain ⟨hc, ha⟩ := List.forall_mem_append.1 hca
    obtain ⟨c', hc⟩ := exists_expAt hc
    obtain ⟨a', ha⟩ := exists_expAt ha
    obtain ⟨b', hb⟩ := exists_expAt hb
    exact ⟨_, expAt_cond_eq_ok.2 ⟨c', hc, a', ha, b', hb, rfl⟩⟩
  | .call f es t s, h => by
    obtain ⟨es', hes⟩ : ∃ es', allAt n q es = .ok es' := exists_allAt h
    exact ⟨_, expAt_call_eq_ok.2 ⟨es', hes, rfl⟩⟩
  | .letIn p e b s, h => by
    obtain ⟨hp, heb⟩ := List.forall_mem_cons.1 h
    obtain ⟨he, hb⟩ := List.forall_mem_append.1 heb
    obtain ⟨e', he⟩ := exists_expAt he
    obtain ⟨b', hb⟩ := exists_expAt hb
    -- only here a kernel may take the place of the code
    exact exists_letIn hp he hb
  | .update x y is v b s, h => by
    obtain ⟨hiv, hb⟩ := List.forall_mem_append.1 h
    obtain ⟨hi, hv⟩ := List.forall_mem_append.1 hiv
    obtain ⟨is', hi⟩ := exists_allAt hi
    obtain ⟨v', hv⟩ := exists_expAt hv
    obtain ⟨b', hb⟩ := exists_expAt hb
    exact ⟨_, expAt_update_eq_ok.2 ⟨is', hi, v', hv, b', hb, rfl⟩⟩
  | .index x is s, h => by
    obtain ⟨is', hi⟩ : ∃ is', allAt n q is = .ok is' := exists_allAt h
    exact ⟨_, expAt_index_eq_ok.2 ⟨is', hi, rfl⟩⟩
  | .replicate k v s, h => by
    obtain ⟨hk, hv⟩ := List.forall_mem_append.1 h
    obtain ⟨k', hk⟩ := exists_expAt hk
    obtain ⟨v', hv⟩ := exists_expAt hv
    exact ⟨_, expAt_replicate_eq_ok.2 ⟨k', hk, v', hv, rfl⟩⟩
  | .loop p is i k b e s, h => by
    obtain ⟨hikb, he⟩ := List.forall_mem_append.1 h
    obtain ⟨hik, hb⟩ := List.forall_mem_append.1 hikb
    obtain ⟨hi, hk⟩ := List.forall_mem_append.1 hik
    obtain ⟨is', hi⟩ := exists_allAt hi
    obtain ⟨k', hk⟩ := exists_expAt hk
    obtain ⟨b', hb⟩ := exists_expAt hb
    obtain ⟨e', he⟩ := exists_expAt he
    exact ⟨_, expAt_loop_eq_ok.2 ⟨is', hi, k', hk, b', hb, e', he, rfl⟩⟩
  | .soac op es cs s, h => by
    obtain ⟨hop, hes⟩ := List.forall_mem_append.1 h
    obtain ⟨op', hop⟩ := exists_opAt hop
    obtain ⟨es', hes⟩ := exists_allAt hes
    exact ⟨_, expAt_soac_eq_ok.2 ⟨op', hop, es', hes, rfl⟩⟩

/-- A list of expressions is emitted if all patterns in it are emittable. -/
theorem exists_allAt : ∀ {es : List Exp}, (∀ l ∈ Exp.letsAll es, Emittable n q l.1) →
    ∃ es', allAt n q es = .ok es'
  | [], _ => ⟨_, allAt_nil⟩
  | e :: es, h => by
    obtain ⟨he, hes⟩ := List.forall_mem_append.1 h
    obtain ⟨e', he⟩ := exists_expAt he
    obtain ⟨es', hes⟩ := exists_allAt hes
    exact ⟨_, allAt_cons_eq_ok.2 ⟨e', he, es', hes, rfl⟩⟩

/-- A lambda is emitted if all patterns in it are emittable. -/
theorem exists_lambdaAt : ∀ {f : Lambda}, (∀ l ∈ f.lets, Emittable n q l.1) →
    ∃ f', lambdaAt n q f = .ok f'
  | ⟨ps, b, ts⟩, h => by
    obtain ⟨b', hb⟩ := exists_expAt (e := b) h
    exact ⟨_, lambdaAt_eq_ok.2 ⟨b', hb, rfl⟩⟩

/-- A combinator is emitted if all patterns in it are emittable. -/
theorem exists_opAt : ∀ {op : Combinator}, (∀ l ∈ op.lets, Emittable n q l.1) →
    ∃ op', opAt n q op = .ok op'
  | .map f, h => by
    obtain ⟨f', hf⟩ := exists_lambdaAt (f := f) h
    exact ⟨_, opAt_map_eq_ok.2 ⟨f', hf, rfl⟩⟩
  | .filter f, h => by
    obtain ⟨f', hf⟩ := exists_lambdaAt (f := f) h
    exact ⟨_, opAt_filter_eq_ok.2 ⟨f', hf, rfl⟩⟩
  | .reduce f ne, h => by
    obtain ⟨hf, hne⟩ := List.forall_mem_append.1 h
    obtain ⟨f', hf⟩ := exists_lambdaAt hf
    obtain ⟨ne', hne⟩ := exists_allAt hne
    exact ⟨_, opAt_reduce_eq_ok.2 ⟨f', hf, ne', hne, rfl⟩⟩
  | .scan f ne, h => by
    obtain ⟨hf, hne⟩ := List.forall_mem_append.1 h
    obtain ⟨f', hf⟩ := exists_lambdaAt hf
    obtain ⟨ne', hne⟩ := exists_allAt hne
    exact ⟨_, opAt_scan_eq_ok.2 ⟨f', hf, ne', hne, rfl⟩⟩
  | .redomap f g ne, h => by
    obtain ⟨hfg, hne⟩ := List.forall_mem_append.1 h
    obtain ⟨hf, hg⟩ := List.forall_mem_append.1 hfg
    obtain ⟨f', hf⟩ := exists_lambdaAt hf
    obtain ⟨g', hg⟩ := exists_lambdaAt hg
    obtain ⟨ne', hne⟩ := exists_allAt hne
    exact ⟨_, opAt_redomap_eq_ok.2 ⟨f', hf, g', hg, ne', hne, rfl⟩⟩

end

end Emit

/-! ## Kernels -/

/-- A `let` of the pattern `p` in the kernel `id` can be emitted if the kernels inside that kernel
can: its names have one producer, if any, and where that kernel stands for the `let` it comes behind
`id` in the list `o`. -/
structure Registry.Nests (q : Registry) (o : List KernelId) (id : KernelId) (p : Pattern) :
    Prop where
  together : ∀ x ∈ p.names, ∀ y ∈ p.names, q.producerOf x = q.producerOf y
  inside : ∀ x ∈ p.names, ∀ id', q.producerOf x = some id' → ∃ K, q.kernels.find? id' = some K
    ∧ (K.pattern.names = p.names → [id, id'].Sublist o)

/-- What stands in front of something else has the smaller index. -/
theorem idxOf_lt_of_pair {α : Type} [DecidableEq α] {xs : List α} (h : xs.Nodup) {a b : α}
    (hab : [a, b].Sublist xs) : xs.idxOf a < xs.idxOf b := by
  induction xs with
  | nil => cases hab
  | cons x xs ih =>
    obtain ⟨hx, hxs⟩ := List.nodup_cons.1 h
    cases hab with
    | cons _ hab =>
      have ha : x ≠ a := fun heq => hx (heq ▸ hab.subset List.mem_cons_self)
      have hb : x ≠ b := fun heq => hx (heq ▸ hab.subset (by simp))
      rw [List.idxOf_cons_ne _ ha, List.idxOf_cons_ne _ hb]
      exact Nat.succ_lt_succ (ih hxs hab)
    | cons_cons _ hab =>
      have hb : a ≠ b := fun heq => hx (heq ▸ hab.subset List.mem_cons_self)
      rw [List.idxOf_cons_self, List.idxOf_cons_ne _ hb]
      exact Nat.succ_pos _

/-- As many kernels as stand behind a kernel in the order, and it itself, are depth enough for
it. -/
theorem Registry.exists_kernelWithin {q : Registry} {o : List KernelId} (hnodup : o.Nodup)
    (hmem : ∀ id K, q.kernels.find? id = some K → id ∈ o)
    (hnests : ∀ id K, q.kernels.find? id = some K → ∀ l ∈ K.stage.toExp.lets, q.Nests o id l.1) :
    ∀ n id K, q.kernels.find? id = some K → o.length ≤ o.idxOf id + n →
      ∃ e', (Emit.kernelWithin n K).run q = .ok e'
  | 0, id, K, hK, hlen => by
    have := List.idxOf_lt_length_of_mem (hmem id K hK)
    omega
  | n + 1, id, K, hK, hlen => by
    refine Emit.exists_expAt (e := K.stage.toExp) fun l hl => ?_
    obtain ⟨htogether, hinside⟩ := hnests id K hK l hl
    refine ⟨htogether, fun x hx id' hid' => ?_⟩
    obtain ⟨K', hK', hpair⟩ := hinside x hx id' hid'
    refine ⟨K', hK', fun hpat => Registry.exists_kernelWithin hnodup hmem hnests n id' K' hK' ?_⟩
    have := idxOf_lt_of_pair hnodup (hpair hpat)
    omega

end ArrayFusion
