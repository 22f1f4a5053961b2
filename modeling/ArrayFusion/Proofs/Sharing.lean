import ArrayFusion.Proofs.Calls
import ArrayFusion.Proofs.FirstUses

/-!
# One reader for each producer

If filters are not fused, only a kernel that reads all results of a producer can take it in.  So a
producer that two kernels read would be computed twice, and its results are forbidden wherever two
readers meet: behind one another, in the arms of a conditional, across the border of a region, and
where a kernel comes to read what was fused into it (`Course.unshared`).  Hence a combinator is
fused into one kernel only (`FunDef.unshared_of_calls`).
-/

namespace ArrayFusion

/-- A list without duplicates whose members are equal has one. -/
theorem eq_singleton_of_nodup {α : Type} {xs : List α} (hnodup : xs.Nodup) (hne : xs ≠ [])
    (hsame : ∀ a ∈ xs, ∀ b ∈ xs, a = b) : ∃ a, xs = [a] := by
  rcases xs with _ | ⟨a, _ | ⟨b, xs⟩⟩
  · exact absurd rfl hne
  · exact ⟨a, rfl⟩
  · exact absurd (hsame a (by simp) b (by simp)) fun heq =>
      (List.nodup_cons.1 hnodup).1 (by simp [heq])

/-- The check for the same members decides just that. -/
theorem sameMembers_eq_true {α : Type} [BEq α] [LawfulBEq α] {xs ys : List α} :
    sameMembers xs ys = true ↔ ∀ x, x ∈ xs ↔ x ∈ ys := by
  simp only [sameMembers, Bool.and_eq_true, List.all_eq_true, List.contains_iff_mem]
  exact ⟨fun h x => ⟨h.1 x, h.2 x⟩, fun h => ⟨fun x => (h x).1, fun x => (h x).2⟩⟩

/-- Without the fusion of filters, a kernel that can take a producer in reads all of its results. -/
theorem mem_wholeNames_of_compatible {c : Config} {g : Stage} {outs : List Name} {K : Kernel}
    (h : compatible c g outs K = true) (hc : c.filterFusion = false) :
    ∀ x ∈ outs, x ∈ K.stage.wholeNames := by
  rcases kind_of_compatible h with hkind | hkind
  · exact ((compatible_map_iff hkind).1 h).2.1
  · cases hc.symm.trans ((compatible_filter_iff hkind).1 h).2.1

namespace Registry

variable {r q : Registry} {m n k : Nat}

theorem nodup_candidates (r : Registry) (xs : List Name) : (r.candidates xs).Nodup :=
  (List.mergeSort_perm _ _).nodup_iff.2 (nodup_eraseDups _)

/-- A name that two kernels read as a whole must not be fused. -/
def Unshared (r : Registry) : Prop :=
  ∀ x i j, i ∈ r.consumersOf x → j ∈ r.consumersOf x → i ≠ j → x ∈ r.unfusable

/-- Nothing is shared in the empty registry. -/
theorem unshared_empty : empty.Unshared := fun _ _ _ h => absurd h List.not_mem_nil

/-- A producer that is fused goes into one kernel. -/
theorem TriedFusion.candidates_eq_singleton {c : Config} {p : Pattern} {g : Stage}
    {s s' : NameSupply} {Ks' : List Kernel} (h : r.TriedFusion c .combinator p g s Ks' s')
    (hc : c.filterFusion = false) (hr : r.Unshared) (hindexed : r.Indexed) :
    ∃ id, r.candidates p.names = [id] := by
  refine eq_singleton_of_nodup (r.nodup_candidates _) h.candidates fun i hi j hj => ?_
  by_contra hne
  obtain ⟨x, hx, -⟩ := mem_candidates.1 hi
  have hreads : ∀ id ∈ r.candidates p.names, id ∈ r.consumersOf x := fun id hid => by
    obtain ⟨Ks, hKs, hcompatible, -, -⟩ := h.compatible
    obtain ⟨K, hK, hfind⟩ := Recipe.exists_of_forall₂ (mem_of_mapM_kernel hKs).flip hid
    exact (hindexed.readers x id).2
      ⟨K, hfind, mem_wholeNames_of_compatible (hcompatible K hK) hc x hx⟩
  exact h.fusable rfl x hx (hr x i j (hreads i hi) (hreads j hj) hne)

namespace Unshared

/-- New readers of an array that are one kernel clash with all others. -/
theorem noted {ids : List KernelId} {xs : List Name} (hr : r.Unshared) (h : Noted ids xs r q)
    (hids : ∀ x ∈ xs, ∀ i ∈ ids, ∀ j ∈ ids, i = j) : q.Unshared := by
  intro x i j hi hj hne
  rcases (h.readers x i).1 hi with hi | ⟨hx, hi⟩ <;> rcases (h.readers x j).1 hj with hj | ⟨hx', hj⟩
  · exact h.unfusable x (hr x i j hi hj hne)
  · exact h.clash x hx' i hi fun hi => hne (hids x hx' i hi j hj)
  · exact h.clash x hx j hj fun hj => hne (hids x hx i hi j hj)
  · exact absurd (hids x hx i hi j hj) hne

/-- What is read in the kernels of a fusion is not shared if it is read in one of them only. -/
theorem fused {o : Origin} {p : Pattern} {g : Stage} {Ks : List Kernel} (hr : r.Unshared)
    (hne : Ks ≠ []) (hids : ∀ x ∈ g.wholeNames, ∀ i ∈ Ks.map (·.id), ∀ j ∈ Ks.map (·.id), i = j) :
    (r.fused o p g Ks).Unshared := by
  obtain ⟨q, hq, hunfusable, hnoted⟩ := noted_fused r o p g hne
  refine Unshared.noted (fun x i j hi hj hij => ?_) hnoted hids
  rw [hunfusable]
  exact hr x i j ((hq x i).1 hi).2 ((hq x j).1 hj).2 hij

/-- Where two pieces of code meet, a name that both read is forbidden: their kernels differ. -/
theorem meet (hr : r.Unshared) (hq : q.Unshared) (hindexed : r.Indexed) (hindexed' : q.Indexed)
    (hrn : r.Numbered m n) (hqn : q.Numbered n k) {xs ys : List Name}
    (hys : ∀ x ks ls, r.consumers.find? x = some ks → q.consumers.find? x = some ls → ks ≠ [] →
      sameMembers ks ls = false → x ∈ ys) : (((r.union q).forbid xs).forbid ys).Unshared := by
  -- a name that is read on both sides has different readers there, for these have different
  -- numbers
  have hmixed : ∀ x i j, i ∈ r.consumersOf x → j ∈ q.consumersOf x → x ∈ ys := by
    intro x i j hi hj
    cases hks : r.consumers.find? x with
    | none =>
      rw [consumersOf, hks] at hi
      cases hi
    | some ks =>
      cases hls : q.consumers.find? x with
      | none =>
        rw [consumersOf, hls] at hj
        cases hj
      | some ls =>
        have hks' : r.consumersOf x = ks := by rw [consumersOf, hks, Option.getD_some]
        have hls' : q.consumersOf x = ls := by rw [consumersOf, hls, Option.getD_some]
        refine hys x ks ls hks hls (List.ne_nil_of_mem (hks' ▸ hi))
          (Bool.eq_false_iff.2 fun hsame => ?_)
        have hi' : i ∈ q.consumersOf x := hls' ▸ (sameMembers_eq_true.1 hsame i).1 (hks' ▸ hi)
        obtain ⟨K, hK, -⟩ := (hindexed.readers x i).1 hi
        obtain ⟨L, hL, -⟩ := (hindexed'.readers x i).1 hi'
        cases (hrn.find?_eq_none hqn hK).symm.trans hL
  intro x i j hi hj hne
  refine mem_joined.2 (or_iff_not_imp_left.2 fun hx => mem_joined.2 (.inr (mem_joined.2 ?_)))
  -- two readers are of one side, or of both
  rcases mem_consumersOf_union hi with hi | hi <;> rcases mem_consumersOf_union hj with hj | hj
  · exact .inr (hr x i j hi hj hne)
  · exact absurd (hmixed x i j hi hj) hx
  · exact absurd (hmixed x j i hj hi) hx
  · exact .inl (hq x i j hi hj hne)

end Unshared

end Registry

/-- A decision about a combinator that was fused has one kernel. -/
def Decision.Sole (o : Origin) (d : Decision) : Prop :=
  o = .combinator → ∀ xs kind ids, d = .fused xs kind ids → ∃ id, ids = [id]

/-- Without filter fusion a decision shares nothing, and a fusion is into one kernel. -/
theorem Decided.unshared {c : Config} {s : Choice} {g : Stage} {r r' : Registry} {a b : Progress}
    {d : Decision} {m : Nat} (h : Decided c s.origin s.pattern g r a d r' b) (hg : s.Stands g)
    (hc : c.filterFusion = false) (hr : r.Unshared) (hindexed : r.Indexed)
    (hn : r.Numbered m a.nextKernel) : r'.Unshared ∧ d.Sole s.origin := by
  cases h with
  | @fused Ks' _ htried =>
    have hids := htried.ids hn
    have hne := htried.ne_nil
    cases hg with
    | combinator hg =>
      -- the results of a combinator are not shared, so one kernel reads them
      obtain ⟨id, hid⟩ := htried.candidates_eq_singleton hc hr hindexed
      rw [hid] at hids
      refine ⟨hr.fused hne fun x _ i hi j hj => ?_, fun _ xs kind ids heq => ?_⟩
      · rw [hids, List.mem_singleton] at hi hj
        rw [hi, hj]
      · cases heq
        exact ⟨id, hids⟩
    -- a replicate reads nothing
    | replicate hatom => exact ⟨hr.fused hne nofun, nofun⟩
  | stays => exact ⟨hr, nofun⟩
  | registered => exact ⟨hr.noted (Registry.noted_register _ _) fun x _ i hi j hj => by
      rw [List.mem_singleton.1 hi, List.mem_singleton.1 hj], nofun⟩

/-- If filters are not fused, no step of an analysis leaves a name fusable that two kernels read. -/
theorem Course.unshared {c : Config} {l : Log} {r r' : Registry} {a b : Progress} {m : Nat}
    (h : Course c l r a r' b) (hc : c.filterFusion = false) (hr : r.Unshared) (hindexed : r.Indexed)
    (hn : r.Numbered m a.nextKernel) (hm : m ≤ a.nextKernel) :
    r'.Unshared ∧ ∀ e ∈ l, e.2.Sole e.1.origin := by
  induction h generalizing m with
  | nil => exact ⟨hr, nofun⟩
  | forbid => exact ⟨fun x i j hi hj hne => mem_joined.2 (.inr (hr x i j hi hj hne)), nofun⟩
  | noteUpdate => exact ⟨hr, nofun⟩
  | append h _ ih ih' =>
    obtain ⟨hle, hn'⟩ := h.numbered hn hm
    obtain ⟨hr', hl⟩ := ih hr hindexed hn hm
    obtain ⟨hr'', hl'⟩ := ih' hr' (h.indexed hindexed hn hm) hn' (Nat.le_trans hm hle)
    exact ⟨hr'', List.forall_mem_append.2 ⟨hl, hl'⟩⟩
  -- only names that are read on both sides could be shared now, and those are forbidden
  | @meet _ _ a _ _ xs ys h hys ih =>
    have hempty := Registry.numbered_empty a.nextKernel a.nextKernel
    obtain ⟨hq, hl⟩ := ih Registry.unshared_empty Registry.indexed_empty hempty (Nat.le_refl _)
    exact ⟨hr.meet hq hindexed (h.indexed Registry.indexed_empty hempty (Nat.le_refl _)) hn
      (h.numbered hempty (Nat.le_refl _)).2 hys, hl⟩
  | place hg _ _ _ _ hdecided =>
    obtain ⟨hr', hd⟩ := hdecided.unshared hg hc hr hindexed hn
    exact ⟨hr', List.forall_mem_singleton.2 hd⟩

/-- If filters are not fused, then in every registry that the analysis of a function starts a call
with or returns from one, a name with two readers must not be fused, and each combinator that was
fused went into one kernel. -/
theorem FunDef.unshared_of_calls {c : Config} {f : FunDef} (hc : c.filterFusion = false) {k : Call}
    (hk : f.Calls c k) : k.registry.Unshared ∧ ∀ r b, k.run c = .ok (r, b) → r.Unshared
      ∧ ∃ ds, b.decisions = k.progress.decisions ++ ds ∧ List.Forall₂
        (fun (s : Choice) d => d.names = s.names ∧ d.Sole s.origin)
    (k.code.choices c k.site) ds := by
  obtain ⟨hr, ho⟩ := hk.invariant (P := fun r a => r.Unshared ∧ r.Ordered a)
    (fun a => ⟨Registry.unshared_empty, Registry.ordered_empty a⟩)
    fun h ⟨hr, ho⟩ => ⟨(h.unshared hc hr ho.1 ho.2 (Nat.zero_le _)).1, h.ordered ho⟩
  refine ⟨hr, fun r b hrun => ?_⟩
  obtain ⟨l, hl, hcourse⟩ := Exp.analyse_course hrun
  obtain ⟨hr', hsole⟩ := hcourse.unshared hc hr ho.1 ho.2 (Nat.zero_le _)
  refine ⟨hr', l.map Prod.snd, hcourse.decisions, ?_⟩
  rw [← hl, List.forall₂_map_left_iff, List.forall₂_map_right_iff, List.forall₂_same]
  exact fun e he => ⟨hcourse.names e he, hsole e he⟩

theorem FunDef.unshared_of_calls_negatedTwice :
    ∃ r b, negatedTwice.call.run { Config.default with filterFusion := false } = .ok (r, b)
      ∧ .fused [⟨"ys", 1⟩] .map [⟨0⟩] ∈ b.decisions ∧ r.Unshared := by
  have hcall : (negatedTwice.call.run { Config.default with filterFusion := false }).toOption.any
      (fun p => p.2.decisions.contains (.fused [⟨"ys", 1⟩] .map [⟨0⟩])) = true := by decide +kernel
  obtain ⟨p, h, hfused⟩ := Except.exists_of_any hcall
  exact ⟨p.1, p.2, h, List.contains_iff_mem.1 hfused,
    ((FunDef.unshared_of_calls rfl .refl).2 _ _ h).1⟩

end ArrayFusion
