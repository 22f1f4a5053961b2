import ArrayFusion.Proofs.Fitting

/-!
# Registries whose kernels fit

During the analysis of some code, all kernels of the registry fit in that code, and each of them
owns names that the supply has handed out since the analysis began (`Registry.Secure`).  This is
kept when names are forbidden, when updates are noted, when a region becomes part of the code around
it, and when something is decided about a `let`.
-/

namespace ArrayFusion

open Eval (Yields Uniform Refines)
open Spot (Reaches)

/-! ## Names for kernels -/

section

variable {g : Ground} {t t' t'' : NameSupply} {F F' : KernelId → Set Name}

namespace NameSupply.Shares

theorem empty (t : NameSupply) : t.Shares t fun _ => ∅ := ⟨fun _ => Set.empty_subset _, nofun⟩

/-- What was handed out to kernels above the fresh names is a hoard, if the source has not wrapped.
-/
theorem hoard (h : t.Shares t' F) (hroom : t'.InRange) (hfresh : g.fresh ≤ t.count) : g.Hoard F :=
  ⟨fun id _ hx => Nat.le_trans hfresh (hroom.le_of_mem_until (h.handedOut id hx)), h.apart⟩

/-- Shares of a source are shares of what it comes to. -/
theorem mono (h : t.Shares t' F) (hle : t'.count ≤ t''.count) : t.Shares t'' F :=
  ⟨fun id _ hx => until_subset (Nat.le_refl _) hle (h.handedOut id hx), h.apart⟩

/-- Shares of what was handed out first and of what was handed out then. -/
theorem union (h : t.Shares t' F) (h' : t'.Shares t'' F') (hroom : t''.InRange)
    (hle : t.count ≤ t'.count) (hle' : t'.count ≤ t''.count) :
    t.Shares t'' fun id => F id ∪ F' id where
  handedOut := fun id x hx => hx.elim (fun hx =>
    until_subset (Nat.le_refl _) hle' (h.handedOut id hx))
    fun hx => until_subset hle (Nat.le_refl _) (h'.handedOut id hx)
  apart := by
    -- what was handed out first is below what was handed out then
    have hapart : ∀ {id id' x}, x ∈ F id → x ∈ F' id' → id = id' := fun hx hx' =>
      absurd (lt_of_mem_until (h.handedOut _ hx))
        (Nat.not_lt.2 (hroom.le_of_mem_until (h'.handedOut _ hx')))
    rintro id id' x (hx | hx) (hx' | hx')
    · exact h.apart id id' x hx hx'
    · exact hapart hx hx'
    · exact (hapart hx' hx).symm
    · exact h'.apart id id' x hx hx'

end NameSupply.Shares

end

/-! ## Regions -/

namespace Registry

variable {r q : Registry} {id : KernelId} {K : Kernel}

@[simp] theorem producerOf_noteUpdates (ys : List Name) (r : Registry) (x : Name) :
    (ys.foldl noteUpdate r).producerOf x = r.producerOf x := by
  induction ys generalizing r with
  | nil => rfl
  | cons y ys ih => exact ih (r.noteUpdate y)

/-- After a region is merged, names are produced by its kernels or as before. -/
theorem producerOf_mergeRegion (r q : Registry) (xs : List Name) (x : Name) :
    (r.mergeRegion q xs).producerOf x = (q.producerOf x).or (r.producerOf x) := by
  rw [mergeRegion, producerOf_forbid, producerOf_forbid, producerOf_union, producerOf_noteUpdates]

/-- The kernels of a region are not changed when it becomes part of the code around it. -/
theorem find?_mergeRegion (h : q.kernels.find? id = some K) (r : Registry) (xs : List Name) :
    (r.mergeRegion q xs).kernels.find? id = some K := by
  rw [mergeRegion, kernels_forbid, kernels_forbid, find?_union, h]
  rfl

end Registry

/-! ## Secure registries -/

/-- A kernel fits whatever is updated in place before it. -/
theorem Kernel.FitsAt.alike {g : Ground} {root k : Spot} {fixed G : Set Name} {e : Exp}
    {K K' : Kernel} (h : K.FitsAt g root fixed G k e) (hK : K.Alike K') :
    K'.FitsAt g root fixed G k e := by
  obtain ⟨xs, rfl⟩ := hK
  exact { h with }

/-- All kernels fit in the root, with names that were handed out since the analysis was at `a₀`, if
there were tags for those. -/
structure Registry.Secure (g : Ground) (root : Spot) (a₀ : Progress) (r : Registry) (a : Progress) :
    Prop where
  fresh : g.fresh ≤ a₀.names.count
  names : a₀.names.count ≤ a.names.count
  kernels : a₀.nextKernel ≤ a.nextKernel
  numbered : r.Numbered a₀.nextKernel a.nextKernel
  indexed : r.Indexed
  producers : ∀ x id, r.producerOf x = some id → x ∈ letNames g.code.lets
  fits : a.names.InRange → ∃ F, a₀.names.Shares a.names F
    ∧ ∀ id K, r.kernels.find? id = some K → K.Fits g root r F id

namespace Registry.Secure

variable {g : Ground} {root root' : Spot} {a₀ a b : Progress} {r q : Registry}

/-- The source has come past the first of the fresh names. -/
theorem fresh_le (h : r.Secure g root a₀ a) :
    g.fresh ≤ a.names.count := Nat.le_trans h.fresh h.names

/-- The empty registry is secure. -/
theorem empty (hfresh : g.fresh ≤ a.names.count) : Registry.empty.Secure g root a a where
  fresh := hfresh
  names := Nat.le_refl _
  kernels := Nat.le_refl _
  numbered := numbered_empty _ _
  indexed := indexed_empty
  producers := nofun
  fits := fun _ => ⟨_, .empty _, nofun⟩

/-- To forbid names keeps a registry secure. -/
theorem forbid (h : r.Secure g root a₀ a) (hg : g.Sound) (xs : List Name) :
    (r.forbid xs).Secure g root a₀ a :=
  { h with
    indexed := h.indexed.forbid xs
    fits := fun hroom => by
      obtain ⟨F, hF, hfits⟩ := h.fits hroom
      exact ⟨F, hF, fun id K hK => (hfits id K hK).mono hg (hF.hoard hroom h.fresh)
        (fun x hx => mem_joined.2 (.inr hx)) (fun _ _ hid => hid) (fun _ => subset_rfl) .refl⟩ }

/-- To note an update keeps a registry secure. -/
theorem noteUpdate (h : r.Secure g root a₀ a) (y : Name) : (r.noteUpdate y).Secure g root a₀ a :=
  { h with
    numbered := h.numbered.noteUpdate y
    indexed := h.indexed.noteUpdate y
    fits := fun hroom => by
      obtain ⟨F, hF, hfits⟩ := h.fits hroom
      refine ⟨F, hF, fun id K hK => ?_⟩
      obtain ⟨K, hK', rfl⟩ := find?_noteUpdate_eq_some.1 hK
      obtain ⟨k, e, hk⟩ := hfits id K hK'
      exact ⟨k, e, hk.alike ((Kernel.Alike.refl K).noteUpdate y)⟩ }

/-- Two pieces of code, the second of which was analysed behind the first one. -/
theorem union (h : r.Secure g root a₀ a) (hg : g.Sound) (h' : q.Secure g root' a b)
    (hroot : root.Reaches root') (hapart : ∀ x id, q.producerOf x = some id → r.producerOf x =
    none) : (r.union q).Secure g root a₀ b where
  fresh := h.fresh
  names := Nat.le_trans h.names h'.names
  kernels := Nat.le_trans h.kernels h'.kernels
  numbered := h.numbered.union h'.numbered h.kernels h'.kernels
  indexed := h.indexed.union h'.indexed h.numbered h'.numbered
  producers := fun x id hid => by
    rw [producerOf_union, Option.or_eq_some_iff] at hid
    exact hid.elim (h'.producers x id) fun hid => h.producers x id hid.2
  -- each side's kernels own fresh names of its own stretch of the supply
  fits := fun hroom => by
    have hroom' := hroom.of_le h'.names
    obtain ⟨F, hF, hfits⟩ := h.fits hroom'
    obtain ⟨F', hF', hfits'⟩ := h'.fits hroom
    refine ⟨_, hF.union hF' hroom h.names h'.names, fun id K hK => ?_⟩
    rw [find?_union, Option.or_eq_some_iff] at hK
    rcases hK with hK | ⟨-, hK⟩
    · refine (hfits' id K hK).mono hg (hF'.hoard hroom h'.fresh) (fun x hx =>
        mem_joined.2 (.inl hx)) (fun x id hid => ?_) (fun id => Set.subset_union_right) hroot
      rw [producerOf_union, hid]
      rfl
    · refine (hfits id K hK).mono hg (hF.hoard hroom' h.fresh) (fun x hx => mem_joined.2 (.inr hx))
        (fun x id hid => ?_) (fun id => Set.subset_union_left) .refl
      cases hq : q.producerOf x with
      | none => rw [producerOf_union, hq, hid]; rfl
      | some id' => exact absurd (hid.symm.trans (hapart x id' hq)) nofun

/-- A region becomes part of the code around it. -/
theorem mergeRegion (h : r.Secure g root a₀ a) (hg : g.Sound) (h' : q.Secure g root' a b)
    (hroot : root.Reaches root') (hapart : ∀ x id, q.producerOf x = some id → r.producerOf x = none)
    (xs : List Name) : (r.mergeRegion q xs).Secure g root a₀ b := by
  have hnoted : (q.updated.foldl Registry.noteUpdate r).Secure g root a₀ a := by
    generalize q.updated = ys
    clear hapart h'
    induction ys generalizing r with
    | nil => exact h
    | cons y ys ih => exact ih (h.noteUpdate y)
  exact ((hnoted.union hg h' hroot fun x id hid =>
    (producerOf_noteUpdates _ _ _).trans (hapart x id hid)).forbid
    hg xs).forbid hg _

end Registry.Secure

/-! ## Decisions -/

section

variable {g : Ground} {root k : Spot} {a₀ a b : Progress} {r r' : Registry} {p : Pattern}
    {e d : Exp} {s : Span}
  {G : Set Name} {st : Stage} {F : KernelId → Set Name} {id : KernelId} {K : Kernel}

/-- A kernel fits as well where more names are forbidden. -/
theorem Kernel.FitsAt.fix (h : K.FitsAt g root (r.fixed g root) (g.binds r' F id k) k e)
    (hg : g.Sound) (hF : g.Hoard F) (hunfusable : r.unfusable ⊆ r'.unfusable) :
    K.Fits g root r' F id := by
  refine ⟨k, e, h.change .refl (Registry.fixed_mono hunfusable .refl) (fun x _ => ?_) subset_rfl⟩
  by_cases hx : x ∈ g.arrays
  · exact .inr fun hown => hg.notMem_owns hF (Ground.arrays_subset hx) hown.1
  · exact .inl fun ha => absurd ha hx

variable (hg : g.Sound) (hroot : g.start.Reaches root) (hk : root.Reaches k)
    (hcode : k.code = .letIn p e d s)
  (h : r.Secure g root a₀ a) (hunproduced : ∀ x ∈ p.names, r.producerOf x = none)
include hg hroot hk hcode h hunproduced

/-- A combinator that stays gets a kernel. -/
theorem Registry.Secure.fits_register (hne : p ≠ [])
    (hst : st.Offers g root k (r.register (.new id st p)) (g.params p) e)
    (hstage : Stage.ofExp? e = .ok (some st)) (hroom : a.names.InRange) :
    ∃ F, a₀.names.Shares a.names F ∧ ∀ id' K', (r.register (.new id st p)).kernels.find? id' =
      some K' → K'.Fits g root (r.register (.new id st p)) F id' := by
  obtain ⟨F, hF, hfits⟩ := h.fits hroom
  have hregistered := registered_register r (.new id st p)
  refine ⟨F, hF, fun id' K' hK' => ?_⟩
  rw [hregistered.kernels] at hK'
  split at hK'
  · rename_i hid
    cases hK'
    refine ⟨k, e, hst.fits_new hg hroot hk hcode hstage
      (fun x hx => .inr ⟨p, hne, hx, fun y hy => ?_⟩) id⟩
    rw [hregistered.producers, hid]
    exact if_pos hy
  · refine (hfits id' K' hK').mono hg (hF.hoard hroom h.fresh)
      (fun x hx => (noted_register r _).unfusable x hx) (fun x id'' hid => ?_)
      (fun _ => subset_rfl) .refl
    rw [hregistered.producers, if_neg fun hx => ?_]
    · exact hid
    · exact absurd (hid.symm.trans (hunproduced x hx)) (Option.some_ne_none _)

omit hg hroot hk hcode hunproduced in
/-- The kernels that read a result of a `let` wait for what computes it. -/
theorem Registry.Secure.awaits {Ks : List Kernel}
    (hfits : ∀ id K, r.kernels.find? id = some K → K.Fits g root r F id)
    (hfound : List.Forall₂ (fun id K => r.kernels.find? id = some K) (r.candidates p.names) Ks) :
    Ks.map (·.id) = r.candidates p.names ∧ ∀ K ∈ Ks, K.Awaits g root r (g.Owns r F) p := by
  refine ⟨?_, fun K hK => ?_⟩
  · clear hfits
    generalize r.candidates p.names = ids at hfound
    induction hfound with
    | nil => rfl
    | cons hK _ ih => rw [List.map_cons, ih, (h.numbered _ _ hK).1]
  · obtain ⟨id, hid, hfind⟩ := Recipe.exists_of_forall₂ hfound hK
    obtain ⟨x, hx, hreads⟩ := Registry.mem_candidates.1 hid
    obtain ⟨K₁, hK₁, hwhole⟩ := (h.indexed.readers x id).1 hreads
    obtain rfl := Option.some.inj (hfind.symm.trans hK₁)
    obtain rfl := (h.numbered id K hfind).1
    exact ⟨hfits _ K hfind, x, hx, hwhole⟩

omit hroot hk hcode hunproduced in
/-- What a kernel owns is old, and no array of the function. -/
theorem Registry.Secure.owned (hF : a₀.names.Shares a.names F) (hroom : a.names.InRange) {x : Name}
    (hx : x ∈ g.Owns r F id) : x.tag < a.names.count ∧ x ∉ g.arrays := by
  refine ⟨?_, fun ha => hg.notMem_owns (hF.hoard hroom h.fresh) (Ground.arrays_subset ha) hx⟩
  rcases hx with hx | ⟨p', -, hx, -⟩
  · exact NameSupply.lt_of_mem_until (hF.handedOut id hx)
  · exact Nat.lt_of_lt_of_le (hg.tag_params hx) h.fresh_le

omit hroot hk hcode in
/-- No kernel owns a new name, or a parameter of the combinator that is decided about. -/
theorem Registry.Secure.not_owned (hF : a₀.names.Shares a.names F) (hroom : a.names.InRange)
    {x : Name} (hx : a.names.count ≤ x.tag ∨ x ∈ g.params p) :
    x ∉ g.arrays ∧ ∀ id, x ∉ g.Owns r F id := by
  have hhoard := hF.hoard hroom h.fresh
  rcases hx with hnew | hparam
  · have hfresh : g.fresh ≤ x.tag := Nat.le_trans h.fresh_le hnew
    refine ⟨hg.notMem_arrays hfresh, fun id hown => ?_⟩
    rcases hown with hx | ⟨p', -, hx, -⟩
    · exact absurd (NameSupply.lt_of_mem_until (hF.handedOut id hx)) (Nat.not_lt.2 hnew)
    · exact absurd (hg.tag_params hx) (Nat.not_lt.2 hfresh)
  · refine ⟨fun ha => ?_, fun id hown => ?_⟩
    · exact hg.notMem_slots (Ground.arrays_subset ha) (Ground.slots_of_params hparam)
    · rcases hown with hx | ⟨p', hne', hx, hid⟩
      · exact absurd (hg.tag_params hparam) (Nat.not_lt.2 (hhoard.fresh id x hx))
      · obtain rfl := hg.params_inj hparam hx
        obtain ⟨y, hy⟩ := List.exists_mem_of_ne_nil _ hne'
        have hy : y.name ∈ p.names := List.mem_map_of_mem hy
        exact absurd ((hid _ hy).symm.trans (hunproduced _ hy)) nofun

/-- A stage that is fused into all kernels that read its results: the first kernel owns what the
stage binds. -/
theorem Registry.Secure.fits_fused {c : Config} {o : Origin} {t t' : NameSupply} {Ks' : List Kernel}
    (htried : r.TriedFusion c o p st t Ks' t') (hroom : t'.InRange) (hst : st.Offers g root k r G e)
    (hkind : st.kind = .map ∨ st.kind = .filter)
    (hcopies : ∀ f ∈ st.op.lambdas, r.Copies g root k f) (harrays : ∀ x ∈ p.names, x ∈ g.arrays)
    (hle : a.names.count ≤ t.count)
    (hG : ∀ x ∈ G, x ∈ a.names.until t ∨ o = .combinator ∧ x ∈ g.params p) :
    ∃ F, a₀.names.Shares t' F ∧ ∀ id' K', (r.fused o p st Ks').kernels.find? id' = some K' →
      K'.Fits g root (r.fused o p st Ks') F id' := by
  obtain ⟨Ks, hKs, -, -, hinto⟩ := htried.compatible
  have hle' := hinto.takes.1
  have hroom₀ : a.names.InRange := hroom.of_le (Nat.le_trans hle hle')
  obtain ⟨F, hF, hfits⟩ := h.fits hroom₀
  have hhoard := hF.hoard hroom₀ h.fresh
  have hfresh : g.fresh ≤ t.count := Nat.le_trans h.fresh_le hle
  obtain ⟨hids, hawaits⟩ := h.awaits hfits (Registry.mem_of_mapM_kernel hKs)
  rcases Ks with _ | ⟨K₀, Ks⟩
  · exact absurd hids.symm htried.candidates
  have hne : p ≠ [] := by
    rintro rfl
    refine htried.candidates (List.eq_nil_iff_forall_not_mem.2 fun id hid => ?_)
    obtain ⟨x, hx, -⟩ := Registry.mem_candidates.1 hid
    cases hx
  have hO : ∀ id, ∀ x ∈ g.Owns r F id, x.tag < t.count ∧ x ∉ g.arrays := fun id x hx =>
    (h.owned hg hF hroom₀ hx).imp_left (Nat.lt_of_lt_of_le · hle)
  -- no kernel owns what the stage binds
  have hGO : ∀ x ∈ G, (x.tag < t.count ∧ x ∉ g.arrays) ∧ ∀ id, x ∉ g.Owns r F id := fun x hx => by
    obtain ⟨hlt, hnew⟩ : x.tag < t.count ∧ (a.names.count ≤ x.tag ∨ x ∈ g.params p) :=
      (hG x hx).elim (fun hx =>
          ⟨NameSupply.lt_of_mem_until hx, .inl ((hroom.of_le hle').le_of_mem_until hx)⟩)
        fun hx => ⟨Nat.lt_of_lt_of_le (hg.tag_params hx.2) hfresh, .inr hx.2⟩
    obtain ⟨harray, howned⟩ := h.not_owned hg hunproduced hF hroom₀ hnew
    exact ⟨⟨hlt, harray⟩, howned⟩
  obtain ⟨N, hN, hfits'⟩ := hinto.fits hg hroot hk hcode hst harrays hfresh hO hroom hkind
    hcopies (hids ▸ r.nodup_candidates _) hawaits hGO
  -- what the stage binds and comes from the supply is handed out for the first kernel
  let E : KernelId → Set Name := fun id => {x | x ∈ G ∧ x ∈ a.names.until t ∧ id = K₀.id}
  have hE : a.names.Shares t E := ⟨fun id x hx => hx.2.1, fun id id' x hx hx' =>
    hx.2.2.trans hx'.2.2.symm⟩
  have hF' := (hF.union hE (hroom.of_le hle') h.names hle).union hN hroom
    (Nat.le_trans h.names hle) hle'
  have hhoard' := hF'.hoard hroom h.fresh
  obtain ⟨K₁, Ks₁, hK₁, -, rfl⟩ := List.forall₂_cons_left_iff.1 hinto.extends
  have habsorbed := absorbed_fused r o p st K₁ Ks₁
  have hunfusable : r.unfusable ⊆ (r.fused o p st (K₁ :: Ks₁)).unfusable := fun x hx =>
    Registry.unfusable_fused r o p st (List.cons_ne_nil _ _) hx
  have hproducers : ∀ x id, r.producerOf x = some id → (r.fused o p st (K₁ :: Ks₁)).producerOf x =
      some id :=
    fun x id hid => by
      rw [habsorbed.producers, if_neg fun hx => ?_]
      · exact hid
      · exact absurd (hid.symm.trans (hunproduced x hx.1)) nofun
  -- a kernel that took the stage fits anew, any other one fits as before
  refine ⟨_, hF', fun id' K' hK' => ?_⟩
  rw [kernels_fused] at hK'
  rcases of_find?_putKernels hK' with ⟨hmem, rfl⟩ | ⟨hK', -⟩
  · obtain ⟨kK, eK, hfits₁⟩ := hfits' K' hmem
    refine Kernel.FitsAt.fix (hfits₁.widen (Ground.confine_mono fun x hx => ?_)) hg hhoard'
      hunfusable
    rcases hx with (hx | ⟨hx, hid⟩) | hx
    · exact Ground.owns_mono hproducers (fun id _ hx => .inl (.inl hx)) hx
    · rcases hG x hx with hnew | ⟨rfl, hparam⟩
      · exact .inl (.inl (.inr ⟨hx, hnew, hid⟩))
      · refine .inr ⟨p, hne, hparam, fun y hy => ?_⟩
        rw [habsorbed.producers, if_pos ⟨hy, .inl rfl⟩, hK₁.id, hid]
    · exact .inl (.inr hx)
  · exact (hfits id' K' hK').mono hg hhoard hunfusable hproducers
      (fun id _ hx => .inl (.inl hx)) .refl

end

section

variable {g : Ground} {root k : Spot} {a₀ a b : Progress} {r r' : Registry} {p : Pattern}
    {e d : Exp} {s : Span} {st : Stage} {c : Config} {o : Origin} {t : NameSupply}

/-- What a decision keeps besides that kernels fit. -/
theorem Registry.Secure.of_decided (h : r.Secure g root a₀ a) {δ : Decision}
    (hle : a.names.count ≤ t.count) (hdecided : Decided c o p st r { a with names := t } δ r' b)
    (hp : ∀ x ∈ p.names, x ∈ letNames g.code.lets)
    (hfits : b.names.InRange → ∃ F, a₀.names.Shares b.names F
      ∧ ∀ id K, r'.kernels.find? id = some K → K.Fits g root r' F id) :
    r'.Secure g root a₀ b ∧ ∀ x ∉ p.names, r'.producerOf x = r.producerOf x := by
  obtain ⟨hkernels, hnumbered⟩ := hdecided.numbered h.numbered h.kernels
  have hnext := hdecided.count_le
  -- only the names of the stage get another producer
  have hstep : r'.Indexed ∧ ∀ x, x ∈ p.names ∨ r'.producerOf x = r.producerOf x := by
    cases hdecided with
    | @fused Ks' _ htried =>
      refine ⟨h.indexed.fused h.numbered htried, fun x => or_iff_not_imp_left.2 fun hx => ?_⟩
      obtain ⟨K, Ks, rfl⟩ := List.exists_cons_of_ne_nil htried.ne_nil
      rw [(absorbed_fused r o p st K Ks).producers, if_neg fun h => hx h.1]
    | stays => exact ⟨h.indexed, fun _ => .inr rfl⟩
    | @registered _ _ K _ _ _ _ hK =>
      have hnew := Placed.isNew hK
      refine ⟨h.indexed.register (hnew.id ▸ h.numbered.find?_next), fun x =>
        or_iff_not_imp_left.2 fun hx => ?_⟩
      rw [(registered_register r K).producers, hnew.pattern, if_neg hx]
  refine ⟨⟨h.fresh, Nat.le_trans h.names (Nat.le_trans hle hnext), Nat.le_trans h.kernels hkernels,
    hnumbered, hstep.1, fun x id hid => ?_, hfits⟩, fun x hx => (hstep.2 x).resolve_left hx⟩
  rcases hstep.2 x with hx | hsame
  · exact hp x hx
  · exact h.producers x id (hsame ▸ hid)

variable (hg : g.Sound) (hroot : g.start.Reaches root) (hk : root.Reaches k)
    (hcode : k.code = .letIn p e d s)
  (h : r.Secure g root a₀ a) (hunproduced : ∀ x ∈ p.names, r.producerOf x = none)
include hg hroot hk hcode h hunproduced

/-- All kernels fit after a decision about a combinator. -/
theorem Registry.Secure.place_combinator (hc : c.transposePull = false)
    (hstage : Stage.ofExp? e = .ok (some st)) (hcopies : a.names.InRange → st.kind = .map ∨
    st.kind = .filter → ∀ f ∈ st.op.lambdas, r.Copies g root k f)
    (hrun : place c .combinator p st r a = .ok (r', b)) :
    r'.Secure g root a₀ b ∧ ∀ x ∉ p.names, r'.producerOf x = r.producerOf x := by
  obtain ⟨hmem, -⟩ := hg.let_facts (hroot.trans hk) hcode
  cases e with
  | soac op es cs s₁ =>
    have hbind := hg.mayBind _ hmem op es cs s₁ rfl
    have hop : st.op = op := by
      obtain ⟨as, -, rfl⟩ := Stage.ofExp?_eq_ok hstage
      rfl
    obtain ⟨δ, -, hdecided⟩ := decided_of_place hrun
    refine h.of_decided (t := a.names) (Nat.le_refl _) hdecided (fun x hx =>
      List.mem_flatMap.2 ⟨_, hmem, hx⟩) fun hroom => ?_
    have hroom₀ : a.names.InRange := hroom.of_le hdecided.count_le
    cases hdecided with
    | fused htried =>
      obtain ⟨Ks, hKs, hcompatible, -, -⟩ := htried.compatible
      -- only a map or a filter has recipes as a producer
      have hkind : st.kind = .map ∨ st.kind = .filter := by
        obtain ⟨id, hid⟩ := List.exists_mem_of_ne_nil _ htried.candidates
        obtain ⟨K, hK, -⟩ := Recipe.exists_of_forall₂ (Registry.mem_of_mapM_kernel hKs).flip hid
        exact kind_of_compatible (hcompatible K hK)
      refine h.fits_fused hg hroot hk hcode hunproduced htried hroom
        (hg.offers hroot hk hcode hstage) hkind
        (hcopies hroom₀ hkind) (fun x hx => ?_) (Nat.le_refl _) fun x hx => .inr ⟨rfl, hx⟩
      obtain ⟨y, hy, rfl⟩ := List.mem_map.1 hx
      exact ⟨_, hmem, y, hy, rfl, hbind.arrays (hop ▸ hkind) y hy⟩
    | stays ho => cases ho
    | registered _ htry _ hK =>
      rcases hK with ⟨-, rfl, hnames⟩ | ⟨hc', -⟩
      · -- without pulling the new kernel takes no fresh name
        obtain ⟨F, hF, hfits⟩ := h.fits_register hg hroot hk hcode hunproduced hbind.nonempty
          (hg.offers hroot hk hcode hstage) hstage hroom₀
        refine ⟨F, hF.mono ?_, hfits⟩
        rw [hnames]
        exact (Registry.grows_tryFuse _ _ _ _ _ _).of_ok htry
      · cases hc'.symm.trans hc
  | _ => cases hstage

omit hcode in
/-- All kernels fit after a decision about a replicated value. -/
theorem Registry.Secure.place_replicate {n v : Exp} {s' : Span}
    (hcode : k.code = .letIn p (.replicate n v s') d s)
    (hrun : placeReplicate c (some p) n v s' r a = .ok (r', b)) :
    r'.Secure g root a₀ b ∧ ∀ x ∉ p.names, r'.producerOf x = r.producerOf x := by
  obtain ⟨hmem, -⟩ := hg.let_facts (hroot.trans hk) hcode
  obtain ⟨st, a₁, hfresh, hplace⟩ := State.bind_eq_ok.1 hrun
  obtain ⟨t, hst, rfl⟩ := Analysis.fresh_eq_ok.1 hfresh
  rcases replicateStage_cases hst with ⟨rfl, rfl⟩ | ⟨hatom, x, row, rfl, hrow, hnext, rfl⟩
  · -- a replicate that is no operand is left as it is
    obtain ⟨rfl, rfl⟩ := State.pure_eq_ok.1 hplace
    exact ⟨h, fun _ _ => rfl⟩
  have hlt : a.names.count < t.count := hnext ▸ Nat.lt_succ_self _
  have hle := Nat.le_of_lt hlt
  obtain ⟨δ, -, hdecided⟩ := decided_of_place hplace
  refine h.of_decided hle hdecided (fun x hx => List.mem_flatMap.2 ⟨_, hmem, hx⟩) fun hroom => ?_
  -- the index is new, as there was a tag for it
  have hroom' : t.InRange := hroom.of_le hdecided.count_le
  have hnew : g.fresh ≤ (Name.mk "i" a.names.next).tag := (hroom'.next_eq hlt).symm ▸ h.fresh_le
  cases hdecided with
  | fused htried =>
    refine h.fits_fused hg hroot hk hcode hunproduced htried hroom
      (hg.offers_replicated hroot hk hcode (i := ⟨_, .int⟩) hnew) (.inl rfl)
      (List.forall_mem_singleton.2 (hg.copies_atom hroot hk hcode hnew hatom)) ?_ hle ?_
    · have hx : x.isArray = true := by rw [x.isArray_eq_row?, hrow]; rfl
      exact List.forall_mem_singleton.2 ⟨_, hmem, x, List.mem_singleton_self x, rfl, hx⟩
    · rintro _ rfl
      exact .inl (NameSupply.mem_until_of_tag_eq rfl hlt)
  | stays _ htry =>
    obtain ⟨F, hF, hfits⟩ := h.fits (hroom'.of_le hle)
    exact ⟨F, hF.mono (Nat.le_trans hle ((Registry.grows_tryFuse _ _ _ _ _ _).of_ok htry)), hfits⟩
  | registered ho => cases ho

end

end ArrayFusion
