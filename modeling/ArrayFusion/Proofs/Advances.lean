import ArrayFusion.Proofs.Coherence

/-!
# From one registry to the next

`Registry.Advances` is what the analysis of a piece of code does to a coherent registry.  The
binders of the code are not known to anything before, so the analysis adds kernels behind those of
the list and gives producers to the binders only.  Its rules follow the operations of the analysis:
names that are forbidden, updates that are noted, and the two ways in which a region becomes part of
what is known.
-/

namespace ArrayFusion

namespace Registry

variable {Λ : List (Pattern × Exp)}

/-- The registry `r'` comes from `r` by the analysis of code that touches names of `T`, produces
names of `P`, puts `let`s of names of `H` into kernels and adds the kernels `ω` behind the kernels
`o`. -/
structure Advances (Λ : List (Pattern × Exp)) (T P H : Set Name) (o ω : List KernelId)
    (r r' : Registry) : Prop where
  coherent : r'.Coherent Λ (o ++ ω)
  touched : ∀ x, r'.Touches x → r.Touches x ∨ x ∈ T
  produced : ∀ x id, r'.producerOf x = some id →
    r.producerOf x = some id ∨ x ∈ P ∧ (id ∈ ω ∨ r'.Dropped x)
  keeps : ∀ x id, r.producerOf x = some id → r'.producerOf x = some id
  consumers : ∀ x, x ∉ T → x ∉ P → r'.consumers.find? x = r.consumers.find? x
  patterns : ∀ id K, r.kernels.find? id = some K →
    ∃ K', r'.kernels.find? id = some K' ∧ K'.pattern = K.pattern
  held : ∀ id x, r'.Holds id x → x ∈ letNames Λ → r.Holds id x ∨ x ∈ H

variable {r r' r'' q : Registry} {o ω ω' : List KernelId} {T P H T' P' H' : Set Name} {x : Name}
  {id : KernelId}

/-- A coherent registry has advanced to itself. -/
theorem Coherent.advances (h : r.Coherent Λ o) (T P H : Set Name) : r.Advances Λ T P H o [] r where
  coherent := (List.append_nil o).symm ▸ h
  touched := fun _ => .inl
  produced := fun _ _ => .inl
  keeps := fun _ _ => id
  consumers := fun _ _ _ => rfl
  patterns := fun _ K hK => ⟨K, hK, rfl⟩
  held := fun _ _ hx _ => .inl hx

namespace Advances

/-- A name that is no longer computed will not be computed later. -/
theorem dropped (h : r.Advances Λ T P H o ω r') (hx : r.Dropped x) : r'.Dropped x := by
  obtain ⟨id, K, hid, hK, hnot⟩ := hx
  obtain ⟨K', hK', hpat⟩ := h.patterns id K hK
  exact ⟨id, K', h.keeps x id hid, hK', hpat ▸ hnot⟩

/-- Only names of `P` get a producer. -/
theorem unproduced (h : r.Advances Λ T P H o ω r') (hx : r.producerOf x = none) (hP : x ∉ P) :
    r'.producerOf x = none :=
  Option.eq_none_iff_forall_ne_some.2 fun id hid => (h.produced x id hid).elim
    (fun hid => nomatch hx.symm.trans hid) fun hmem => hP hmem.1

/-- What is touched, produced and held may lie in larger sets. -/
theorem mono (h : r.Advances Λ T P H o ω r') (hT : T ⊆ T') (hP : P ⊆ P') (hH : H ⊆ H') :
    r.Advances Λ T' P' H' o ω r' where
  coherent := h.coherent
  touched := fun x hx => (h.touched x hx).imp_right (hT ·)
  produced := fun x id hid => (h.produced x id hid).imp_right fun hx => ⟨hP hx.1, hx.2⟩
  keeps := h.keeps
  consumers := fun x hxT hxP => h.consumers x (fun hx => hxT (hT hx)) fun hx => hxP (hP hx)
  patterns := h.patterns
  held := fun id x hx hΛ => (h.held id x hx hΛ).imp_right (hH ·)

/-- Two advances follow one another. -/
theorem trans (h : r.Advances Λ T P H o ω r') (h' : r'.Advances Λ T P H (o ++ ω) ω' r'') :
    r.Advances Λ T P H o (ω ++ ω') r'' where
  coherent := List.append_assoc o ω ω' ▸ h'.coherent
  touched := fun x hx => (h'.touched x hx).elim (h.touched x) .inr
  produced := fun x id hid => by
    rcases h'.produced x id hid with hid | ⟨hx, hid⟩
    · refine (h.produced x id hid).imp_right fun ⟨hx, hid⟩ => ⟨hx, ?_⟩
      exact hid.imp (List.mem_append_left _) h'.dropped
    · exact .inr ⟨hx, hid.imp_left (List.mem_append_right _)⟩
  keeps := fun x id hid => h'.keeps x id (h.keeps x id hid)
  consumers := fun x hT hP => (h'.consumers x hT hP).trans (h.consumers x hT hP)
  patterns := fun id K hK => by
    obtain ⟨K', hK', hpat⟩ := h.patterns id K hK
    obtain ⟨K'', hK'', hpat'⟩ := h'.patterns id K' hK'
    exact ⟨K'', hK'', hpat'.trans hpat⟩
  held := fun id x hx hΛ => (h'.held id x hx hΛ).elim (h.held id x · hΛ) .inr

/-! ## Names that are forbidden, and updates -/

/-- Names that were not dropped may be forbidden. -/
theorem forbid (h : r.Advances Λ T P H o ω r') {xs : List Name} (hxs : ∀ x ∈ xs, x ∈ T)
    (hdropped : ∀ x ∈ xs, ¬r'.Dropped x) : r.Advances Λ T P H o ω (r'.forbid xs) where
  coherent := { h.coherent with
    dropped := fun x hx ht => (touches_forbid.1 ht).elim (fun hmem => hdropped x hmem hx)
      (h.coherent.dropped x hx) }
  touched := fun x hx => (touches_forbid.1 hx).elim (fun hx => .inr (hxs x hx)) (h.touched x)
  produced := h.produced
  keeps := h.keeps
  consumers := h.consumers
  patterns := h.patterns
  held := h.held

end Advances

/-- The kernels behind a noted update are those in front of it, with the update noted. -/
theorem find?_noteUpdate_eq_some {L : Kernel} : (r.noteUpdate x).kernels.find? id = some L ↔
    ∃ K, r.kernels.find? id = some K ∧ K.noteUpdate x = L := by
  rw [find?_noteUpdate, Option.map_eq_some_iff]

/-- An update can be noted at any time. -/
theorem Coherent.advances_noteUpdate (h : r.Coherent Λ o) (y : Name) (T P H : Set Name) :
    r.Advances Λ T P H o [] (r.noteUpdate y) := by
  -- a kernel that notes an update keeps its pattern, its outputs and its stage
  have hdropped : ∀ x, (r.noteUpdate y).Dropped x ↔ r.Dropped x := fun x => by
    constructor
    · rintro ⟨id, L, hid, hL, hnot⟩
      obtain ⟨K, hK, rfl⟩ := find?_noteUpdate_eq_some.1 hL
      exact ⟨id, K, hid, hK, K.pattern_noteUpdate y ▸ hnot⟩
    · rintro ⟨id, K, hid, hK, hnot⟩
      exact ⟨id, _, hid, find?_noteUpdate_eq_some.2 ⟨K, hK, rfl⟩, K.pattern_noteUpdate y ▸ hnot⟩
  have hholds : ∀ {id x}, (r.noteUpdate y).Holds id x → r.Holds id x := by
    rintro id x ⟨L, hL, hx⟩
    obtain ⟨K, hK, rfl⟩ := find?_noteUpdate_eq_some.1 hL
    exact ⟨K, hK, K.stage_noteUpdate y ▸ hx⟩
  refine ⟨?_, fun _ => .inl, fun _ _ => .inl, fun _ _ => id, fun _ _ _ => rfl,
    fun id K hK => ⟨_, find?_noteUpdate_eq_some.2 ⟨K, hK, rfl⟩, K.pattern_noteUpdate y⟩,
    fun _ _ hx _ => .inl (hholds hx)⟩
  -- no kernel was added, so it remains that the registry is coherent
  rw [List.append_nil]
  refine ⟨h.nodup, fun id => (h.listed id).trans ?_, fun id L hL => ?_,
    h.sound.noteUpdate (fun K x hK => ?_) y, h.producers, h.together, fun id L hL x hx => ?_,
    h.readers, fun x hx => h.dropped x ((hdropped x).1 hx), fun id x id' hx hid' =>
      (h.nested id x id' (hholds hx) hid').imp_left (hdropped x).2⟩
  · exact ⟨fun ⟨K, hK⟩ => ⟨_, find?_noteUpdate_eq_some.2 ⟨K, hK, rfl⟩⟩, fun ⟨L, hL⟩ =>
      ⟨_, (find?_noteUpdate_eq_some.1 hL).choose_spec.1⟩⟩
  · obtain ⟨K, hK, rfl⟩ := find?_noteUpdate_eq_some.1 hL
    exact (K.id_noteUpdate y).trans (h.ids id K hK)
  · obtain ⟨hover, houtputs, hpattern⟩ := hK
    refine ⟨?_, ?_, ?_⟩
    · rwa [K.stage_noteUpdate]
    · rwa [K.stage_noteUpdate, K.outputs_noteUpdate]
    · rwa [K.pattern_noteUpdate]
  · obtain ⟨K, hK, rfl⟩ := find?_noteUpdate_eq_some.1 hL
    rw [K.pattern_noteUpdate] at hx
    exact h.patterns id K hK x hx

/-- So can a list of updates. -/
theorem Coherent.advances_noteUpdates (h : r.Coherent Λ o) (ys : List Name) (T P H : Set Name) :
    r.Advances Λ T P H o [] (ys.foldl noteUpdate r) := by
  induction ys using List.reverseRecOn with
  | nil => exact h.advances T P H
  | append_singleton ys y ih =>
    rw [List.foldl_append]
    exact ih.trans (ih.coherent.advances_noteUpdate y T P H)

/-! ## Regions -/

/-- The region `q` was analysed on its own, from nothing.  The code behind it knows none of its
kernels and none of its binders, and has no producer for a name that the region reads. -/
structure Apart (Λ : List (Pattern × Exp)) (T P : Set Name) (o ω : List KernelId)
    (r q : Registry) : Prop where
  outer : r.Coherent Λ o
  region : empty.Advances Λ T P P [] ω q
  ids : ∀ id ∈ ω, id ∉ o
  reads : ∀ x ∈ T, r.producerOf x = none
  untouched : ∀ x ∈ P, ¬r.Touches x
  unproduced : ∀ x ∈ P, r.producerOf x = none

namespace Apart

/-- What was analysed apart is coherent. -/
theorem inner (h : r.Apart Λ T P o ω q) : q.Coherent Λ ω := h.region.coherent

/-- What was analysed apart produces names of its own code only. -/
theorem mem_of_producerOf (h : r.Apart Λ T P o ω q) (hid : q.producerOf x = some id) : x ∈ P :=
  (h.region.produced x id hid).elim (fun hnone => nomatch hnone) (·.1)

/-- What was analysed apart touches names of its own code only. -/
theorem mem_of_touches (h : r.Apart Λ T P o ω q) (hx : q.Touches x) : x ∈ T :=
  (h.region.touched x hx).elim (fun hx => absurd hx not_touches_empty) (·)

/-- The kernels of what was analysed apart hold names of its own code only. -/
theorem mem_of_holds (h : r.Apart Λ T P o ω q) (hx : q.Holds id x) (hΛ : x ∈ letNames Λ) : x ∈ P :=
  (h.region.held id x hx hΛ).elim (fun hx => absurd hx not_holds_empty) (·)

/-- A name has a producer in both registries together if it has one in either. -/
theorem producerOf_eq_some (h : r.Apart Λ T P o ω q) : (r.union q).producerOf x = some id ↔
    q.producerOf x = some id ∨ r.producerOf x = some id := by
  rw [producerOf_union, Option.or_eq_some_iff]
  refine or_congr_right ⟨And.right, fun hid => ⟨?_, hid⟩⟩
  exact Option.eq_none_iff_forall_ne_some.2 fun id' hid' =>
    nomatch (h.unproduced x (h.mem_of_producerOf hid')).symm.trans hid

/-- A kernel is in both registries together if it is in either. -/
theorem find?_eq_some (h : r.Apart Λ T P o ω q) {K : Kernel} :
    (r.union q).kernels.find? id = some K ↔
      q.kernels.find? id = some K ∨ r.kernels.find? id = some K := by
  rw [find?_union, Option.or_eq_some_iff]
  refine or_congr_right ⟨And.right, fun hK => ⟨?_, hK⟩⟩
  exact Option.eq_none_iff_forall_ne_some.2 fun L hL =>
    h.ids id ((h.inner.listed id).2 ⟨L, hL⟩) ((h.outer.listed id).2 ⟨K, hK⟩)

/-- A name is dropped in both registries together if it is in either. -/
theorem dropped_iff (h : r.Apart Λ T P o ω q) :
    (r.union q).Dropped x ↔ q.Dropped x ∨ r.Dropped x := by
  constructor
  · rintro ⟨id, K, hid, hK, hx⟩
    rcases h.producerOf_eq_some.1 hid with hid | hid
    · obtain ⟨L, hL⟩ := h.inner.exists_kernel hid
      cases hK.symm.trans (h.find?_eq_some.2 (.inl hL))
      exact .inl ⟨id, K, hid, hL, hx⟩
    · obtain ⟨L, hL⟩ := h.outer.exists_kernel hid
      cases hK.symm.trans (h.find?_eq_some.2 (.inr hL))
      exact .inr ⟨id, K, hid, hL, hx⟩
  · rintro (⟨id, K, hid, hK, hx⟩ | ⟨id, K, hid, hK, hx⟩)
    · exact ⟨id, K, h.producerOf_eq_some.2 (.inl hid), h.find?_eq_some.2 (.inl hK), hx⟩
    · exact ⟨id, K, h.producerOf_eq_some.2 (.inr hid), h.find?_eq_some.2 (.inr hK), hx⟩

/-- What the region reads is still computed if the region computes it. -/
theorem not_dropped (h : r.Apart Λ T P o ω q) (hx : x ∈ T) (hq : ¬q.Dropped x) :
    ¬(r.union q).Dropped x := fun hdropped =>
  (h.dropped_iff.1 hdropped).elim hq fun hr => Coherent.not_dropped (h.reads x hx) hr

/-- A name that is held in both registries together is held in one of them. -/
theorem holds_or (h : r.Apart Λ T P o ω q) (hx : (r.union q).Holds id x) :
    q.Holds id x ∨ r.Holds id x := by
  obtain ⟨K, hK, hx⟩ := hx
  exact (h.find?_eq_some.1 hK).imp (fun hK => ⟨K, hK, hx⟩) fun hK => ⟨K, hK, hx⟩

/-- What is known about a region does not contradict what is known about the code behind it. -/
theorem coherent_union (h : r.Apart Λ T P o ω q) : (r.union q).Coherent Λ (o ++ ω) where
  nodup := List.nodup_append.2 ⟨h.outer.nodup, h.inner.nodup, fun id hid id' hid' heq =>
    h.ids id' hid' (heq ▸ hid)⟩
  listed := fun id => by
    rw [List.mem_append, h.outer.listed id, h.inner.listed id, ← exists_or]
    exact exists_congr fun K => or_comm.trans h.find?_eq_some.symm
  ids := fun id K hK => (h.find?_eq_some.1 hK).elim (h.inner.ids id K) (h.outer.ids id K)
  sound := h.outer.sound.union h.inner.sound
  producers := fun x id hid => by
    rcases h.producerOf_eq_some.1 hid with hid | hid
    · exact (h.inner.producers x id hid).imp_left (List.mem_append_right _)
    · exact (h.outer.producers x id hid).imp_left (List.mem_append_left _)
  together := fun p hp x hx y hy => by
    rw [producerOf_union, producerOf_union, h.inner.together p hp x hx y hy,
      h.outer.together p hp x hx y hy]
  patterns := fun id K hK x hx => h.producerOf_eq_some.2 ((h.find?_eq_some.1 hK).imp
    (fun hK => h.inner.patterns id K hK x hx) fun hK => h.outer.patterns id K hK x hx)
  readers := fun x id hid => List.mem_append.2
    ((mem_consumersOf_union hid).imp (h.outer.readers x id) (h.inner.readers x id))
  dropped := fun x hx ht => by
    -- what one side drops is touched by none of the two
    rcases h.dropped_iff.1 hx with hx | hx <;> rcases touches_union.1 ht with ht | ht
    · obtain ⟨id, K, hid, -, -⟩ := hx
      exact h.untouched x (h.mem_of_producerOf hid) ht
    · exact h.inner.dropped x hx ht
    · exact h.outer.dropped x hx ht
    · exact Coherent.not_dropped (h.reads x (h.mem_of_touches ht)) hx
  nested := fun id x id' hx hid' => by
    -- the kernel that holds the name and the one that produces it may be of different sides
    rcases h.holds_or hx with hx | hx <;> rcases h.producerOf_eq_some.1 hid' with hid' | hid'
    · exact (h.inner.nested id x id' hx hid').imp (fun hx => h.dropped_iff.2 (.inl hx)) fun hsub =>
        hsub.trans (List.sublist_append_right _ _)
    · have hΛ := (h.outer.producers x id' hid').2
      -- the code behind has no producer for a binder of the region
      exact nomatch (h.unproduced x (h.mem_of_holds hx hΛ)).symm.trans hid'
    · obtain ⟨K, hK, -⟩ := hx
      -- all kernels of the region come behind those that were there
      exact .inr (pair_sublist_append ((h.outer.listed id).2 ⟨K, hK⟩)
        (h.inner.producers x id' hid').1)
    · exact (h.outer.nested id x id' hx hid').imp (fun hx => h.dropped_iff.2 (.inr hx)) fun hsub =>
        hsub.trans (List.sublist_append_left _ _)

/-- The code in front of what was analysed apart advances to both registries together. -/
theorem advances_union (h : r.Apart Λ T P o ω q) : r.Advances Λ T P P o ω (r.union q) where
  coherent := h.coherent_union
  touched := fun x hx => (touches_union.1 hx).imp_right h.mem_of_touches
  produced := fun x id hid => by
    rcases h.producerOf_eq_some.1 hid with hid | hid
    · exact .inr ⟨h.mem_of_producerOf hid, .inl (h.inner.producers x id hid).1⟩
    · exact .inl hid
  keeps := fun x id hid => h.producerOf_eq_some.2 (.inr hid)
  consumers := fun x hxT hxP => by
    rw [find?_consumers_union, show q.consumers.find? x = none from h.region.consumers x hxT hxP]
    cases r.consumers.find? x <;> rfl
  patterns := fun id K hK => ⟨K, h.find?_eq_some.2 (.inr hK), rfl⟩
  held := fun id x hx hΛ => (h.holds_or hx).symm.imp_right fun hx => h.mem_of_holds hx hΛ

/-- What has readers is touched. -/
theorem touches_of_mem_keys (hx : x ∈ q.consumers.keys) : q.Touches x := by
  obtain ⟨ids, hids⟩ := Table.mem_keys_iff.1 hx
  refine .inr fun hnone => ?_
  cases hids.symm.trans hnone

/-- A region becomes part of what is known. -/
theorem advances_mergeRegion (h : r.Apart Λ T P o ω q) {xs : List Name} (hT : ∀ x ∈ xs, x ∈ T)
    (hq : ∀ x ∈ xs, ¬q.Dropped x) : r.Advances Λ T P P o ω (r.mergeRegion q xs) := by
  -- the kernels behind note what the region updates, and then the registries are joined
  have hupdates := h.outer.advances_noteUpdates q.updated T P P
  have hupdates' := h.outer.advances_noteUpdates q.updated ∅ ∅ ∅
  have hnone : ∀ x, r.producerOf x = none → (q.updated.foldl noteUpdate r).producerOf x = none :=
    fun x hx => hupdates'.unproduced hx (Set.notMem_empty x)
  -- the region stands apart from the registry with these updates, too
  have hapart : (q.updated.foldl noteUpdate r).Apart Λ T P o ω q := by
    refine ⟨?_, h.region, h.ids, fun x hx => hnone x (h.reads x hx), fun x hx ht => ?_,
      fun x hx => hnone x (h.unproduced x hx)⟩
    · have hcoherent := hupdates'.coherent
      rwa [List.append_nil] at hcoherent
    · exact (hupdates'.touched x ht).elim (h.untouched x hx) fun hx => hx
  have hunion := hapart.advances_union
  rw [← List.append_nil o] at hunion
  -- what escapes from the region is forbidden, and what both sides read
  refine ((hupdates.trans hunion).forbid hT fun x hx =>
    hapart.not_dropped (hT x hx) (hq x hx)).forbid
    (fun x hx => ?_) fun x hx => ?_
  · exact h.mem_of_touches (touches_of_mem_keys (List.mem_filter.1 hx).1)
  · have ht := touches_of_mem_keys (List.mem_filter.1 hx).1
    exact hapart.not_dropped (h.mem_of_touches ht) fun hdropped => h.inner.dropped x hdropped ht

/-- The arms of a conditional are analysed apart from each other. -/
theorem advances_unionBranches {T₁ P₁ : Set Name} (hr : empty.Advances Λ T₁ P₁ P₁ [] o r)
    (h : r.Apart Λ T P o ω q) :
    empty.Advances Λ (T₁ ∪ T) (P₁ ∪ P) (P₁ ∪ P) [] (o ++ ω) (r.unionBranches q) := by
  -- the first branch starts from nothing, and the second one is joined to it
  have hleft : empty.Advances Λ (T₁ ∪ T) (P₁ ∪ P) (P₁ ∪ P) [] o r :=
    hr.mono Set.subset_union_left Set.subset_union_left Set.subset_union_left
  have hunion : r.Advances Λ (T₁ ∪ T) (P₁ ∪ P) (P₁ ∪ P) o ω (r.union q) :=
    h.advances_union.mono Set.subset_union_right Set.subset_union_right Set.subset_union_right
  have hboth := hleft.trans hunion
  -- only what the second branch touches can be read in both, or read in one and produced in the
  -- other
  have hconflict : ∀ x ∈ r.conflicts q, q.Touches x := fun x hx => by
    rcases List.mem_append.1 hx with hx | hx
    · obtain ⟨-, hx⟩ := List.mem_filter.1 hx
      split at hx
      · rename_i hids
        exact .inr fun hnone => nomatch hids.symm.trans hnone
      · cases hx
    · obtain ⟨-, hx⟩ := List.mem_filter.1 hx
      split at hx
      · rename_i hid hid'
        exact nomatch (h.unproduced x (h.mem_of_producerOf hid')).symm.trans hid
      · cases hx
  exact hboth.forbid (fun x hx => .inr (h.mem_of_touches (hconflict x hx))) fun x hx =>
    h.not_dropped (h.mem_of_touches (hconflict x hx)) fun hdropped =>
      h.inner.dropped x hdropped (hconflict x hx)

end Apart

end Registry

end ArrayFusion
