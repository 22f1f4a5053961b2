import ArrayFusion.Proofs.ClosedComposites
import ArrayFusion.Proofs.Exposure
import ArrayFusion.Proofs.Indexing
import ArrayFusion.Proofs.Recipes

/-!
# Refusals

When something is decided about a stage, nothing is fused if its results must not be fused, if no
kernel reads them, or if a kernel that does refuses the stage: because there is no recipe for the
two, or because an array that the stage reads is updated between them (`Registry.Refuses`).  There
is no other reason (`Registry.refuses_of_tryFuse`).

A refusal is final.  A kernel that takes in other stages reads what it read before, and more, so it
has a recipe for no stage that it had none for (`Kernel.Extends.refuses`); an update stays where it
is, and a forbidden name is never allowed again.  New readers of a name can only come from code that
uses it (`Course.readers`).  So what is refused at one step of an analysis is refused at every later
one, as long as the code that is analysed in between neither uses nor binds the names that it is
about (`Course.refuses`).
-/

namespace ArrayFusion

/-! ## Kernels -/

/-- A stage with these results is not fused into the kernel: there is no recipe for the two, or an
array that the stage reads is updated between them. -/
def Kernel.Refuses (K : Kernel) (c : Config) (g : Stage) (xs : List Name) : Prop :=
  compatible c g xs K = false ∨ ∃ x ∈ g.reads, x ∈ K.inplace

section

variable {c : Config} {g g' : Stage} {xs ys : List Name} {K K' : Kernel}

theorem Kernel.Refuses.noteUpdate (h : K.Refuses c g xs) (y : Name) :
    (K.noteUpdate y).Refuses c g xs := by
  refine h.imp (fun h => ?_) fun ⟨x, hx, hin⟩ => ⟨x, hx, ?_⟩
  · unfold compatible at h ⊢
    rwa [K.stage_noteUpdate]
  · unfold Kernel.noteUpdate
    split
    · exact hin
    · exact List.mem_cons_of_mem _ hin

/-- A kernel that took another stage in refuses what it refused before.  A stage without operands
could make room for a filter: the kernel would read less then. -/
theorem Kernel.Extends.refuses (h : Kernel.Extends ys g' K K') (hne : g'.operands ≠ [])
    (hxs : ∀ x ∈ xs, x ∉ ys ∧ x ∉ g'.wholeNames) (hK : K.Refuses c g xs) : K'.Refuses c g xs := by
  refine hK.imp (fun hK => ?_) fun ⟨x, hx, hin⟩ => ⟨x, hx, h.inplace ▸ hin⟩
  rw [← Bool.not_eq_true] at hK ⊢
  refine mt (fun hK' => ?_) hK
  -- if the kernel accepted the producer now, then it did before
  rcases kind_of_compatible hK' with hg | hg
  · obtain ⟨hkind, hwhole, htransposed⟩ := (compatible_map_iff hg).1 hK'
    refine (compatible_map_iff hg).2 ⟨?_, fun x hx => ?_, fun y hy hx => ?_⟩
    · rcases h.kind with heq | ⟨heq, -⟩
      · rwa [← heq]
      · rw [heq]
        exact List.mem_cons_of_mem _ List.mem_cons_self
    · exact (((h.wholeNames x).1 (hwhole x hx)).resolve_left (hxs x hx).2).1
    · obtain ⟨b, hb, rfl | hsame⟩ := h.operands (.transposed y) (.inr ⟨hy, nofun⟩)
      · exact htransposed y hb hx
      · cases b with
        | transposed z => exact htransposed z hb (beq_iff_eq.1 hsame ▸ hx)
        | _ => cases hsame
  · -- the kernel reads an operand of the stage, which is no result of the filter
    obtain ⟨-, -, -, hwhole⟩ := (compatible_filter_iff hg).1 hK'
    obtain ⟨a, ha⟩ := List.exists_mem_of_ne_nil _ hne
    obtain ⟨b, hb, hsame⟩ := h.operands a (.inl ha)
    obtain ⟨y, rfl, hy⟩ := hwhole b hb
    refine absurd (Stage.mem_wholeNames.2 ?_) (hxs y.name hy).2
    rcases hsame with rfl | hsame
    · exact ⟨y, ha, rfl⟩
    · cases a with
      | whole z => exact ⟨z, ha, (beq_iff_eq.1 hsame).symm⟩
      | _ => cases hsame

end

/-! ## Registries -/

namespace Registry

theorem consumersOf_noteUpdates (ys : List Name) (r : Registry) (x : Name) :
    (ys.foldl noteUpdate r).consumersOf x = r.consumersOf x := by
  induction ys generalizing r with
  | nil => rfl
  | cons y ys ih => exact ih (r.noteUpdate y)

/-- Why nothing is fused when something is decided about a stage with these results. -/
inductive Refuses (r : Registry) (c : Config) (o : Origin) (g : Stage) (xs : List Name) : Prop
  | forbidden {x : Name} : o = .combinator → x ∈ xs → x ∈ r.unfusable → Refuses r c o g xs
  | unread : (∀ x ∈ xs, ∀ id, id ∉ r.consumersOf x) → Refuses r c o g xs
  | reader {x : Name} {id : KernelId} {K : Kernel} : x ∈ xs → id ∈ r.consumersOf x →
    r.kernels.find? id = some K → K.Refuses c g xs → Refuses r c o g xs

variable {r q : Registry} {c : Config} {o : Origin} {p : Pattern} {g g' : Stage} {xs : List Name}
  {s s' : NameSupply} {m n k : Nat}

/-- There is no other reason. -/
theorem refuses_of_tryFuse {reason : Reason} (h : r.tryFuse c o p g s = .ok (.error reason, s')) :
    r.Refuses c o g p.names := by
  unfold tryFuse at h
  -- the reasons to refuse one after another, as they are tested
  split at h
  · rename_i hunfusable
    obtain ⟨ho, hunfusable⟩ := Bool.and_eq_true_iff.1 hunfusable
    obtain ⟨x, hx, hin⟩ := List.any_eq_true.1 hunfusable
    exact .forbidden (of_decide_eq_true ho) hx (List.contains_iff_mem.1 hin)
  cases hids : r.candidates p.names with
  | nil =>
    refine .unread fun x hx id hid => ?_
    have hmem : id ∈ r.candidates p.names := mem_candidates.2 ⟨x, hx, hid⟩
    rw [hids] at hmem
    cases hmem
  | cons id ids =>
    rw [hids] at h
    obtain ⟨Ks, s₁, hKs, h₁⟩ := State.bind_eq_ok.1 h
    have hfound := mem_of_mapM_kernel (Fresh.lift_eq_ok.1 hKs).1
    -- a kernel that refuses is a reader of the names
    have hreader : ∀ K ∈ Ks, K.Refuses c g p.names → r.Refuses c o g p.names :=
        fun K hK hrefuses => by
      obtain ⟨id', hid', hfind⟩ := Recipe.exists_of_forall₂ hfound hK
      obtain ⟨x, hx, hread⟩ := mem_candidates.1 (hids ▸ hid')
      exact .reader hx hread hfind hrefuses
    split at h₁
    · rename_i hnot
      obtain ⟨K, hK, hnot⟩ := List.all_eq_false.1 ((Bool.not_eq_true' _).mp hnot)
      exact hreader K hK (.inl ((Bool.not_eq_true _).mp hnot))
    rename_i hcompatible
    split at h₁
    · rename_i hhazard
      obtain ⟨K, hK, hhazard⟩ := List.any_eq_true.1 hhazard
      obtain ⟨x, hx, hin⟩ := List.any_eq_true.1 hhazard
      exact hreader K hK (.inr ⟨x, hx, List.contains_iff_mem.1 hin⟩)
    obtain ⟨fused, s₂, hfused, h₂⟩ := State.bind_eq_ok.1 h₁
    cases fused with
    -- with compatible kernels the composition is not declined
    | none => exact absurd hfused (fuseIntoAll_ne_none (c := c) (by simpa using hcompatible))
    | some fused => cases (State.pure_eq_ok.1 h₂).1

namespace Refuses

/-- Each of the reasons is one. -/
theorem tryFuse (h : r.Refuses c o g p.names) (hr : r.Indexed) (s : NameSupply) :
    ∃ reason, r.tryFuse c o p g s = .ok (.error reason, s) := by
  unfold Registry.tryFuse
  split
  · exact ⟨_, rfl⟩
  rename_i hfusable
  cases hids : r.candidates p.names with
  | nil => exact ⟨_, rfl⟩
  | cons id ids =>
    -- an indexed registry has a kernel for each reader
    have hfound : ∀ id' ∈ id :: ids, ∃ K, r.kernels.find? id' = some K := fun id' hid' => by
      obtain ⟨x, -, hread⟩ := mem_candidates.1 (hids.symm ▸ hid')
      obtain ⟨K, hK, -⟩ := (hr.readers x id').1 hread
      exact ⟨K, hK⟩
    obtain ⟨Ks, hKs⟩ := exists_mapM_kernel g.span hfound
    -- the names have readers, so one of these refuses
    obtain ⟨K, hK, hrefuses⟩ : ∃ K ∈ Ks, K.Refuses c g p.names := by
      cases h with
      | forbidden ho hx hin =>
        refine absurd ?_ hfusable
        rw [ho]
        exact List.any_eq_true.2 ⟨_, hx, List.contains_iff_mem.2 hin⟩
      | unread hnone =>
        obtain ⟨x, hx, hread⟩ := mem_candidates.1
          (hids.symm ▸ List.mem_cons_self : id ∈ r.candidates p.names)
        exact absurd hread (hnone x hx id)
      | @reader x id' K hx hread hfind hrefuses =>
        have hid' : id' ∈ id :: ids := hids ▸ mem_candidates.2 ⟨x, hx, hread⟩
        obtain ⟨L, hL, hfind'⟩ := Recipe.exists_of_forall₂ (mem_of_mapM_kernel hKs).flip hid'
        cases hfind.symm.trans hfind'
        exact ⟨_, hL, hrefuses⟩
    have hlift : Fresh.lift ((id :: ids).mapM fun id => r.kernel id g.span) s = .ok (Ks, s) :=
      Fresh.lift_eq_ok.2 ⟨hKs, rfl⟩
    -- it is incompatible, or it knows of an update
    by_cases hcompatible : (!Ks.all (compatible c g p.names)) = true
    · exact ⟨.incompatible, State.bind_eq_ok.2 ⟨Ks, s, hlift, by rw [if_pos hcompatible]; rfl⟩⟩
    · obtain ⟨x, hx, hin⟩ := hrefuses.resolve_left fun hnot =>
        hcompatible (by simpa using ⟨K, hK, hnot⟩)
      refine ⟨.hazard, State.bind_eq_ok.2 ⟨Ks, s, hlift, ?_⟩⟩
      rw [if_neg hcompatible, if_pos]
      · rfl
      · simpa using ⟨K, hK, x, hx, hin⟩

/-- A stage of the same kind that reads as much is refused as well. -/
theorem congr (h : r.Refuses c o g xs) (hkind : g'.kind = g.kind) (hreads : g.reads ⊆ g'.reads) :
    r.Refuses c o g' xs := by
  cases h with
  | forbidden ho hx hin => exact .forbidden ho hx hin
  | unread hnone => exact .unread hnone
  | reader hx hread hfind hrefuses =>
    refine .reader hx hread hfind (hrefuses.imp (fun hnot => ?_) fun ⟨y, hy, hin⟩ =>
      ⟨y, hreads hy, hin⟩)
    rwa [compatible_congr hkind]

theorem forbid (h : r.Refuses c o g xs) (ys : List Name) : (r.forbid ys).Refuses c o g xs := by
  cases h with
  | forbidden ho hx hin => exact .forbidden ho hx (mem_joined.2 (.inr hin))
  | unread hnone => exact .unread hnone
  | reader hx hread hfind hrefuses => exact .reader hx hread hfind hrefuses

theorem noteUpdate (h : r.Refuses c o g xs) (y : Name) : (r.noteUpdate y).Refuses c o g xs := by
  cases h with
  | forbidden ho hx hin => exact .forbidden ho hx hin
  | unread hnone => exact .unread hnone
  | reader hx hread hfind hrefuses =>
    refine .reader hx hread ?_ (hrefuses.noteUpdate y)
    rw [find?_noteUpdate, hfind]
    rfl

/-- What is refused in one of two pieces of code is refused in both together, if no kernel in the
other one reads the names. -/
theorem union_left (h : r.Refuses c o g xs) (hr : r.Numbered m n) (hq : q.Numbered n k)
    (hnone : ∀ x ∈ xs, ∀ id, id ∉ q.consumersOf x) : (r.union q).Refuses c o g xs := by
  cases h with
  | forbidden ho hx hin => exact .forbidden ho hx (mem_joined.2 (.inr hin))
  | unread hnone' =>
    exact .unread fun x hx id hid => (mem_consumersOf_union hid).elim (hnone' x hx id)
      (hnone x hx id)
  | reader hx hread hfind hrefuses =>
    refine .reader hx (mem_consumersOf_union_iff.2 (.inl hread)) ?_ hrefuses
    rw [find?_union, hr.find?_eq_none hq hfind, hfind]
    rfl

theorem union_right (h : q.Refuses c o g xs) (hnone : ∀ x ∈ xs, ∀ id, id ∉ r.consumersOf x) :
    (r.union q).Refuses c o g xs := by
  cases h with
  | forbidden ho hx hin => exact .forbidden ho hx (mem_joined.2 (.inl hin))
  | unread hnone' =>
    exact .unread fun x hx id hid => (mem_consumersOf_union hid).elim (hnone x hx id)
      (hnone' x hx id)
  | reader hx hread hfind hrefuses =>
    refine .reader hx (mem_consumersOf_union_iff.2 (.inr hread)) ?_ hrefuses
    rw [find?_union, hfind]
    rfl

/-- What is refused in a region is refused when it is part of the code around it, unless kernels
there read the names. -/
theorem mergeRegion (h : q.Refuses c o g xs) (hnone : ∀ x ∈ xs, ∀ id, id ∉ r.consumersOf x)
    (ys : List Name) : (r.mergeRegion q ys).Refuses c o g xs :=
  ((h.union_right fun x hx id hid => hnone x hx id
    (consumersOf_noteUpdates q.updated r x ▸ hid)).forbid _).forbid _

/-- A new kernel that does not read the names. -/
theorem register {K : Kernel} (h : r.Refuses c o g xs) (hnew : r.kernels.find? K.id = none)
    (hxs : ∀ x ∈ xs, x ∉ K.stage.wholeNames) : (r.register K).Refuses c o g xs := by
  have hnoted := noted_register r K
  cases h with
  | forbidden ho hx hin => exact .forbidden ho hx (hnoted.unfusable _ hin)
  | unread hnone =>
    exact .unread fun x hx id hid => ((hnoted.readers x id).1 hid).elim (hnone x hx id) fun hid =>
      hxs x hx hid.1
  | reader hx hread hfind hrefuses =>
    refine .reader hx ((hnoted.readers _ _).2 (.inl hread)) ?_ hrefuses
    rw [(registered_register r K).kernels, if_neg, hfind]
    rintro rfl
    cases hnew.symm.trans hfind

/-- A stage that is fused elsewhere, and neither computes nor reads the names. -/
theorem fused {o' : Origin} {Ks' : List Kernel} (h : r.Refuses c o g xs) (hr : r.Numbered m n)
    (htried : r.TriedFusion c o' p g' s Ks' s') (hne : g'.operands ≠ [])
    (hxs : ∀ x ∈ xs, x ∉ p.names ∧ x ∉ g'.wholeNames) : (r.fused o' p g' Ks').Refuses c o g xs := by
  obtain ⟨q, hq, hunfusable, hnoted⟩ := noted_fused r o' p g' htried.ne_nil
  cases h with
  | forbidden ho hx hin => exact .forbidden ho hx (hnoted.unfusable _ (hunfusable ▸ hin))
  | unread hnone =>
    exact .unread fun x hx id hid => ((hnoted.readers x id).1 hid).elim
      (fun hid => hnone x hx id ((hq x id).1 hid).2) fun hid => (hxs x hx).2 hid.1
  | @reader x id K hx hread hfind hrefuses =>
    have hread' : id ∈ (r.fused o' p g' Ks').consumersOf x :=
      (hnoted.readers x id).2 (.inl ((hq x id).2 ⟨(hxs x hx).1, hread⟩))
    obtain ⟨htook, hkept⟩ := htried.find?_fused hr
    -- the kernel took the stage in, or it is as it was
    by_cases hid : id ∈ r.candidates p.names
    · obtain ⟨L, K', hL, hK', hextends⟩ := htook id hid
      cases hL.symm.trans hfind
      exact .reader hx hread' hK' (hextends.refuses hne hxs hrefuses)
    · exact .reader hx hread' ((hkept id hid).trans hfind) hrefuses

end Refuses

end Registry

/-! ## Decisions -/

theorem Stage.wholeNames_subset_names {g : Stage} : g.wholeNames ⊆ g.names := fun x hx => by
  obtain ⟨y, hy, rfl⟩ := mem_wholeNames.1 hx
  exact List.mem_filterMap.2 ⟨_, hy, rfl⟩

/-- A kernel reads the same arrays if it reads them directly. -/
theorem Kernel.names_pullTransposes (K : Kernel) (s : NameSupply) :
    (K.pullTransposes s).1.stage.names = K.stage.names := by
  rcases K.pullTransposes_cases s with heq | ⟨arrays, f, nest, hoperands, -, -, -, heq⟩
  · rw [heq]
  · rw [heq, Stage.names, Stage.names, hoperands]
    change (arrays.map Operand.whole).filterMap _ = _
    rw [List.filterMap_map, List.filterMap_map]
    rfl

section

variable {c : Config} {o o' : Origin} {p : Pattern} {g g' : Stage} {xs : List Name}
    {r r' : Registry} {a b : Progress} {m : Nat}

theorem Placed.names_eq {s s' : NameSupply} {id : KernelId} {K : Kernel}
    (h : c.transposePull = false ∧ K = Kernel.new id g p ∧ s' = s
      ∨ c.transposePull = true ∧ (Kernel.new id g p).pullTransposes s = (K, s')) : K.stage.names =
        g.names := by
  rcases h with ⟨-, rfl, -⟩ | ⟨-, h⟩
  · rfl
  · have hnames := (Kernel.new id g p).names_pullTransposes s
    rwa [h] at hnames

/-- Only a stage that reads a name makes a kernel read it. -/
theorem Placed.readers (h : Placed c o p g r a r' b) {x : Name} {id : KernelId}
    (hid : id ∈ r'.consumersOf x) : id ∈ r.consumersOf x ∨ x ∈ g.names := by
  cases h with
  | fused htried =>
    obtain ⟨q, hq, -, hnoted⟩ := Registry.noted_fused r o p g htried.ne_nil
    exact ((hnoted.readers x id).1 hid).imp (fun hid => ((hq x id).1 hid).2)
      fun hid => Stage.wholeNames_subset_names hid.1
  | stays => exact .inl hid
  | @registered _ _ K _ _ _ _ hK =>
    exact (((Registry.noted_register r K).readers x id).1 hid).imp_right
      fun hid => Placed.names_eq hK ▸ Stage.wholeNames_subset_names hid.1

/-- What was refused before a decision about something else is refused afterwards. -/
theorem Placed.refuses (h : Placed c o' p g' r a r' b) (hr : r.Numbered m a.nextKernel)
    (hne : g'.operands ≠ []) (hxs : ∀ x ∈ xs, x ∉ p.names ∧ x ∉ g'.names)
    (hrefuses : r.Refuses c o g xs) : r'.Refuses c o g xs := by
  cases h with
  | fused htried =>
    exact hrefuses.fused hr htried hne fun x hx =>
      (hxs x hx).imp_right fun hnot hin => hnot (Stage.wholeNames_subset_names hin)
  | stays => exact hrefuses
  | registered _ _ _ hK =>
    exact hrefuses.register ((Placed.isNew hK).id ▸ hr.find?_next) fun x hx hin =>
      (hxs x hx).2 (Placed.names_eq hK ▸ Stage.wholeNames_subset_names hin)

/-- Whatever is decided about a stage, it is refused afterwards. -/
theorem Placed.refused (h : Placed c o p g r a r' b) (hr : r.Numbered m a.nextKernel)
    (hself : ∀ x ∈ p.names, x ∉ g.names) : r'.Refuses c o g p.names := by
  cases h with
  | fused htried =>
    obtain ⟨q, hq, -, hnoted⟩ := Registry.noted_fused r o p g htried.ne_nil
    exact .unread fun x hx id hid => ((hnoted.readers x id).1 hid).elim (fun hid =>
      ((hq x id).1 hid).1 hx) fun hid => hself x hx (Stage.wholeNames_subset_names hid.1)
  | stays _ htry => exact Registry.refuses_of_tryFuse htry
  | registered _ htry _ hK =>
    exact (Registry.refuses_of_tryFuse htry).register
        ((Placed.isNew hK).id ▸ hr.find?_next) fun x hx hin =>
      hself x hx (Placed.names_eq hK ▸ Stage.wholeNames_subset_names hin)

end

/-! ## Choices -/

namespace Choice

variable {s : Choice} {g g' : Stage}

/-- If it is a combinator that the `let` binds, it has arguments. -/
def HasArgs (s : Choice) : Prop := ∀ op cs span, s.rhs ≠ .soac op [] cs span

theorem Stands.operands_ne_nil (h : s.Stands g) (hs : s.HasArgs) : g.operands ≠ [] := by
  cases h with
  | replicate => exact List.cons_ne_nil _ _
  | @combinator p e g hg =>
    cases e with
    | soac op args certs span =>
      obtain ⟨as, has, rfl⟩ := Stage.ofExp?_eq_ok hg
      rintro rfl
      cases has
      exact hs op certs span rfl
    | _ => cases hg

/-- The arrays that the stage reads are used by the right-hand side that it stands for. -/
theorem Stands.names_subset (h : s.Stands g) {x : Name} (hx : x ∈ g.names) :
    x ∈ s.rhs.free false := by
  cases h with
  | replicate => cases hx
  | @combinator p e g hg =>
    cases e with
    | soac op args certs span =>
      obtain ⟨as, has, rfl⟩ := Stage.ofExp?_eq_ok hg
      obtain ⟨a, ha, hx⟩ := List.mem_filterMap.1 hx
      obtain ⟨e, he, hea⟩ := Recipe.exists_of_forall₂ has ha
      refine .inr (.inr (Exp.mem_freeAll_iff.2 ⟨e, he, ?_⟩))
      unfold Operand.ofExp? at hea
      split at hea <;> (try split at hea) <;> cases hea <;> cases hx
      · exact Set.mem_singleton _
      · exact Set.mem_singleton _
    | _ => cases hg

/-- Nothing is fused when something is decided about the `let` once more.  A replicated value stands
for maps whose parameter has any name that the value does not use. -/
def Refused (c : Config) (r : Registry) (s : Choice) : Prop :=
  ∀ g, s.Stands g → (s.origin = .replicate → ∀ x ∈ Pattern.names g.op.element.params,
    x ∉ s.rhs.free true) → r.Refuses c s.origin g s.names

theorem Refused.imp {c : Config} {r r' : Registry} (h : s.Refused c r)
    (himp : ∀ g, r.Refuses c s.origin g s.names → r'.Refuses c s.origin g s.names) :
    s.Refused c r' :=
  fun g hg hfresh => himp g (h g hg hfresh)

/-- The parameter that a replicated value is given makes no difference. -/
theorem Stands.refused {c : Config} {r : Registry} (h : s.Stands g)
    (hr : r.Refuses c s.origin g s.names) : s.Refused c r := by
  intro g' h' hfresh
  cases h with
  | combinator hg =>
    -- a combinator stands for one stage only
    cases h' with
    | combinator hg' =>
      cases hg.symm.trans hg'
      exact hr
  | @replicate x i n v row span =>
    -- a replicate stands for a map that may have another index
    cases h' with
    | @replicate _ j _ _ row' =>
      refine hr.congr rfl fun y hy => ?_
      rcases List.mem_append.1 hy with hy | hy
      · exact List.mem_append_left _ hy
      · refine List.mem_append_right _ ?_
        -- which is free in neither of the two
        obtain ⟨f, hf, hy⟩ := Stage.mem_lambdaFreeVars.1 hy
        obtain rfl := List.mem_singleton.1 hf
        refine Stage.mem_lambdaFreeVars.2 ⟨_, List.mem_singleton_self _, hy.1, fun hj => ?_⟩
        exact hfresh rfl y hj (.inr hy.1)

end Choice

/-! ## Courses -/

namespace Course

variable {c : Config} {o : Origin} {g : Stage} {xs : List Name} {l : Log} {r r' : Registry}
    {a b : Progress} {m : Nat}

/-- Only code that uses a name makes a kernel read it. -/
theorem readers (h : Course c l r a r' b) {x : Name} {id : KernelId} (hid : id ∈ r'.consumersOf x) :
    id ∈ r.consumersOf x ∨ ∃ e ∈ l, x ∈ e.1.rhs.free false := by
  induction h with
  | nil | forbid | noteUpdate => exact .inl hid
  | append _ _ ih ih' =>
    rcases ih' hid with hid | ⟨e, he, hx⟩
    · exact (ih hid).imp_right fun ⟨e, he, hx⟩ => ⟨e, List.mem_append_left _ he, hx⟩
    · exact .inr ⟨e, List.mem_append_right _ he, hx⟩
  | meet _ _ _ _ ih =>
    exact (Registry.mem_consumersOf_union hid).imp_right fun hid =>
      (ih hid).resolve_left List.not_mem_nil
  | place hstands _ _ _ _ hdecided =>
    exact (hdecided.placed.readers hid).imp_right fun hx =>
      ⟨_, List.mem_singleton_self _, hstands.names_subset hx⟩

/-- What is refused stays refused, whatever is decided about code that neither binds nor uses the
names. -/
theorem refuses (h : Course c l r a r' b) (hn : r.Numbered m a.nextKernel) (hm : m ≤ a.nextKernel)
    (hargs : ∀ e ∈ l, e.1.HasArgs) (hl : ∀ e ∈ l, ∀ x ∈ xs, x ∉ e.1.names ∧ x ∉ e.1.rhs.free false)
    (hr : r.Refuses c o g xs) : r'.Refuses c o g xs := by
  induction h generalizing m with
  | nil => exact hr
  | forbid ys => exact hr.forbid ys
  | noteUpdate y => exact hr.noteUpdate y
  | append h _ ih ih' =>
    obtain ⟨hargs, hargs'⟩ := List.forall_mem_append.1 hargs
    obtain ⟨hl, hl'⟩ := List.forall_mem_append.1 hl
    obtain ⟨hle, hn'⟩ := h.numbered hn hm
    exact ih' hn' (Nat.le_trans hm hle) hargs' hl' (ih hn hm hargs hl hr)
  | meet ys zs h =>
    have hq := (h.numbered (Registry.numbered_empty _ _) (Nat.le_refl _)).2
    -- the region starts without kernels, and its own ones read nothing but what it uses
    refine ((hr.union_left hn hq fun x hx id hid => ?_).forbid ys).forbid zs
    obtain ⟨e, he, hin⟩ := (h.readers hid).resolve_left List.not_mem_nil
    exact (hl e he x hx).2 hin
  | place hstands _ _ _ _ hdecided =>
    refine hdecided.placed.refuses hn (hstands.operands_ne_nil
      (hargs _ (List.mem_singleton_self _))) (fun x hx => ?_) hr
    exact (hl _ (List.mem_singleton_self _) x hx).imp_right fun hnot hin =>
      hnot (hstands.names_subset hin)

end Course

end ArrayFusion
