import Mathlib.Data.List.Nodup
import Mathlib.Data.List.Perm.Subperm
import ArrayFusion.Proofs.Emittable
import ArrayFusion.Proofs.Faultless

/-!
# Registries without contradictions

What a registry says about a function has to fit together: a kernel that a name refers to is there,
the names of one `let` have one producer, and a name that is no longer computed is read by no kernel
and not forbidden.  A registry is coherent with a list of its kernels in which each stands in front
of the kernels inside it, so no kernel lies inside itself.

A coherent registry can emit everything that the pass builds (`Registry.Coherent.emittable`), and it
passes the final check, also when the kernels are dropped that nothing was fused into.
-/

namespace ArrayFusion

/-! ## The lets of the function -/

/-- The names that are bound by none of the `let`s. -/
def foreign (Λ : List (Pattern × Exp)) : Set Name := {x | x ∉ letNames Λ}

/-- The patterns of code that the pass builds from the `let`s: one of theirs, or one of other
names. -/
def LetOf (Λ : List (Pattern × Exp)) (p : Pattern) : Prop :=
  p ∈ Λ.map (·.1) ∨ ∀ x ∈ p.names, x ∈ foreign Λ

variable {Λ : List (Pattern × Exp)}

/-- The names in the pattern of a `let` are names of `let`s. -/
theorem mem_letNames_of_pattern {p : Pattern} (hp : p ∈ Λ.map (·.1)) {x : Name} (hx : x ∈ p.names) :
    x ∈ letNames Λ := by
  obtain ⟨l, hl, rfl⟩ := List.mem_map.1 hp
  exact mem_letNames.2 ⟨l, hl, hx⟩

/-- Two members that give the same thing are the same, if nothing is given twice. -/
theorem eq_of_mem_flatMap {α β : Type} {xs : List α} {f : α → List β} (h : (xs.flatMap f).Nodup)
    {a b : α} (ha : a ∈ xs) (hb : b ∈ xs) {x : β} (hxa : x ∈ f a) (hxb : x ∈ f b) : a = b := by
  have hsymm : Std.Symm (Function.onFun List.Disjoint f) := ⟨fun _ _ => List.disjoint_symm⟩
  by_contra hne
  exact (List.nodup_flatMap.1 h).2.forall ha hb hne hxa hxb

/-- Different `let`s bind different names. -/
theorem pattern_eq_of_mem (hΛ : (letNames Λ).Nodup) {p q : Pattern} (hp : p ∈ Λ.map (·.1))
    (hq : q ∈ Λ.map (·.1)) {x : Name} (hxp : x ∈ p.names) (hxq : x ∈ q.names) : p = q := by
  obtain ⟨l, hl, rfl⟩ := List.mem_map.1 hp
  obtain ⟨m, hm, rfl⟩ := List.mem_map.1 hq
  rw [eq_of_mem_flatMap hΛ hl hm hxp hxq]

/-- Members of two lists stand one behind the other in both lists together. -/
theorem pair_sublist_append {α : Type} {xs ys : List α} {a b : α} (ha : a ∈ xs) (hb : b ∈ ys) :
    [a, b].Sublist (xs ++ ys) :=
  (List.singleton_sublist.2 ha).append (List.singleton_sublist.2 hb)

/-- A kernel as it should be: its stage binds names of the function by the `let`s of the function
only, it has an output for each result, and it stands for one of the `let`s. -/
structure Kernel.Sound (Λ : List (Pattern × Exp)) (K : Kernel) : Prop where
  binds : K.stage.Over (foreign Λ) (LetOf Λ)
  outputs : K.outputs.length = K.stage.arity
  pattern : K.pattern ∈ Λ.map (·.1)

theorem Kernel.pattern_noteUpdate (x : Name) (K : Kernel) :
    (K.noteUpdate x).pattern = K.pattern := by
  unfold noteUpdate
  split <;> rfl

theorem Kernel.id_noteUpdate (x : Name) (K : Kernel) : (K.noteUpdate x).id = K.id := by
  unfold noteUpdate
  split <;> rfl

namespace Registry

/-- The kernel of the id has a `let` in its stage that binds the name. -/
def Holds (r : Registry) (id : KernelId) (x : Name) : Prop :=
  ∃ K, r.kernels.find? id = some K ∧ x ∈ letNames K.stage.toExp.lets

/-- Nothing that the registry says contradicts the rest, and `o` lists its kernels, each in front of
the kernels inside it. -/
structure Coherent (Λ : List (Pattern × Exp)) (o : List KernelId) (r : Registry) : Prop where
  nodup : o.Nodup
  listed : ∀ id, id ∈ o ↔ ∃ K, r.kernels.find? id = some K
  ids : ∀ id K, r.kernels.find? id = some K → K.id = id
  sound : r.All (Kernel.Sound Λ)
  producers : ∀ x id, r.producerOf x = some id → id ∈ o ∧ x ∈ letNames Λ
  together : ∀ p ∈ Λ.map (·.1), ∀ x ∈ p.names, ∀ y ∈ p.names, r.producerOf x = r.producerOf y
  patterns : ∀ id K, r.kernels.find? id = some K → ∀ x ∈ K.pattern.names, r.producerOf x = some id
  readers : ∀ x, ∀ id ∈ r.consumersOf x, id ∈ o
  dropped : ∀ x, r.Dropped x → ¬r.Touches x
  nested : ∀ id x id', r.Holds id x → r.producerOf x = some id' →
    r.Dropped x ∨ [id, id'].Sublist o

variable {r q : Registry} {o ω : List KernelId} {x : Name} {id : KernelId} {K : Kernel}

/-- No kernel of an empty registry holds a name. -/
theorem not_holds_empty : ¬empty.Holds id x := fun ⟨_, h, _⟩ => nomatch h

/-- An empty registry is coherent, whatever the `let`s are. -/
theorem coherent_empty (Λ : List (Pattern × Exp)) : empty.Coherent Λ [] where
  nodup := .nil
  listed := fun _ => ⟨nofun, fun ⟨_, h⟩ => nomatch h⟩
  ids := nofun
  sound := all_empty
  producers := nofun
  together := fun _ _ _ _ _ _ => rfl
  patterns := nofun
  readers := nofun
  dropped := fun _ ⟨_, _, h, _⟩ => nomatch h
  nested := fun _ _ _ _ h => nomatch h

namespace Coherent

/-- If a name has a producer, that is a kernel of the registry. -/
theorem exists_kernel (h : r.Coherent Λ o) (hid : r.producerOf x = some id) :
    ∃ K, r.kernels.find? id = some K := (h.listed id).1 (h.producers x id hid).1

/-- A name without a producer was not dropped. -/
theorem not_dropped (hid : r.producerOf x = none) : ¬r.Dropped x :=
  fun ⟨_, _, hsome, _⟩ => nomatch hid.symm.trans hsome

/-! ## Emission -/

/-- There are at most as many kernels in order as there are kernels. -/
theorem length_le_size (h : r.Coherent Λ o) : o.length ≤ r.kernels.size := by
  have hsub : o ⊆ r.kernels.keys := fun id hid => Table.mem_keys_iff.2 ((h.listed id).1 hid)
  have hlen := (List.Nodup.subperm h.nodup hsub).length_le
  rwa [Table.keys, List.length_map] at hlen

/-- All names of a pattern have the same producer, or none has one. -/
theorem together_of_letOf (h : r.Coherent Λ o) {p : Pattern} (hp : LetOf Λ p) :
    ∀ x ∈ p.names, ∀ y ∈ p.names, r.producerOf x = r.producerOf y := by
  rcases hp with hp | hp
  · exact h.together p hp
  · have hnone : ∀ x ∈ p.names, r.producerOf x = none := fun x hx =>
      Option.eq_none_iff_forall_ne_some.2 fun id hid => hp x hx (h.producers x id hid).2
    exact fun x hx y hy => (hnone x hx).trans (hnone y hy).symm

/-- The `let`s in a kernel are those of kernels inside of it, or have no kernel. -/
theorem nests (h : r.Coherent Λ o) (hK : r.kernels.find? id = some K) :
    ∀ l ∈ K.stage.toExp.lets, r.Nests o id l.1 := by
  intro l hl
  refine ⟨h.together_of_letOf ((h.sound id K hK).binds.toExp l hl), fun x hx id' hid' => ?_⟩
  obtain ⟨K', hK'⟩ := h.exists_kernel hid'
  refine ⟨K', hK', fun hpat => ?_⟩
  rcases h.nested id x id' ⟨K, hK, mem_letNames.2 ⟨l, hl, hx⟩⟩ hid' with hdropped | hsub
  · obtain ⟨_, L, hid, hL, hnot⟩ := hdropped
    cases hid.symm.trans hid'
    cases hL.symm.trans hK'
    exact absurd (hpat ▸ hx) hnot
  · exact hsub

/-- Every `let` that the pass builds can be emitted by a coherent registry. -/
theorem emittable (h : r.Coherent Λ o) {p : Pattern} (hp : LetOf Λ p) :
    Emit.Emittable r.kernels.size r p := by
  refine ⟨h.together_of_letOf hp, fun x hx id hid => ?_⟩
  obtain ⟨K, hK⟩ := h.exists_kernel hid
  refine ⟨K, hK, fun _ => exists_kernelWithin h.nodup (fun id K hK => (h.listed id).2 ⟨K, hK⟩)
    (fun _ _ => h.nests) _ id K hK ?_⟩
  have := h.length_le_size
  omega

/-! ## The registry that the function is emitted by -/

/-- A kernel that is not there counts as alive. -/
theorem isAlive_eq_true : r.isAlive id = true ↔
    ∀ K, r.kernels.find? id = some K → K.isFused = true := by
  unfold isAlive
  cases r.kernels.find? id with
  | none => simp
  | some K => simp

/-- The kernels that are left are those into which something was fused. -/
theorem find?_dropUnfused : r.dropUnfused.kernels.find? id = some K ↔
    r.kernels.find? id = some K ∧ r.isAlive id = true := by
  change (r.kernels.retain _).find? id = _ ↔ _
  rw [Table.find?_retain, Option.filter_eq_some_iff, isAlive_eq_true]
  refine and_congr_right fun hK => ⟨fun h L hL => ?_, fun h => h K hK⟩
  cases hK.symm.trans hL
  exact h

/-- Something was fused into each kernel that is left. -/
theorem all_isFused_dropUnfused : r.dropUnfused.All fun K => K.isFused = true := fun _ K hK =>
  have ⟨hfind, halive⟩ := find?_dropUnfused.1 hK
  isAlive_eq_true.1 halive K hfind

/-- The producers that are left are kernels that are left. -/
theorem producerOf_dropUnfused : r.dropUnfused.producerOf x = some id ↔
    r.producerOf x = some id ∧ r.isAlive id = true := by
  change (r.producers.retain _).find? x = _ ↔ _
  rw [Table.find?_retain, Option.filter_eq_some_iff]
  rfl

/-- A reader that is left is a kernel that is left. -/
theorem mem_consumersOf_dropUnfused (h : id ∈ r.dropUnfused.consumersOf x) :
    id ∈ r.consumersOf x ∧ r.isAlive id = true := by
  change id ∈ (((r.consumers.mapValues _).retain _).find? x).getD [] at h
  rw [Table.find?_retain, Table.find?_mapValues] at h
  unfold consumersOf
  cases hids : r.consumers.find? x with
  | none =>
    rw [hids] at h
    cases h
  | some ids =>
    rw [hids, Option.map_some, Option.filter_some] at h
    split at h
    · exact List.mem_filter.1 h
    · cases h

/-- Dropping kernels that nothing was fused into leaves a registry coherent. -/
theorem dropUnfused (h : r.Coherent Λ o) : r.dropUnfused.Coherent Λ (o.filter r.isAlive) := by
  -- nothing is dropped or touched that was not before
  have hdropped : ∀ x, r.dropUnfused.Dropped x → r.Dropped x := fun x ⟨id, K, hid, hK, hx⟩ =>
    ⟨id, K, (producerOf_dropUnfused.1 hid).1, (find?_dropUnfused.1 hK).1, hx⟩
  have htouches : ∀ x, r.dropUnfused.Touches x → r.Touches x := by
    rintro x (hx | hx)
    · exact .inl hx
    · refine .inr fun hnone => hx ?_
      change ((r.consumers.mapValues _).retain _).find? x = none
      rw [Table.find?_retain, Table.find?_mapValues, hnone]
      rfl
  refine ⟨h.nodup.filter _, fun id => ?_, fun id K hK => h.ids id K (find?_dropUnfused.1 hK).1,
    h.sound.dropUnfused, fun x id hid => ?_, fun p hp x hx y hy => ?_, fun id K hK x hx => ?_,
    fun x id hid => ?_, fun x hx ht => h.dropped x (hdropped x hx) (htouches x ht),
    fun id x id' hholds hid' => ?_⟩
  · rw [List.mem_filter, h.listed id]
    exact ⟨fun ⟨⟨K, hK⟩, halive⟩ => ⟨K, find?_dropUnfused.2 ⟨hK, halive⟩⟩, fun ⟨K, hK⟩ =>
      ⟨⟨K, (find?_dropUnfused.1 hK).1⟩, (find?_dropUnfused.1 hK).2⟩⟩
  · obtain ⟨hid, halive⟩ := producerOf_dropUnfused.1 hid
    exact ⟨List.mem_filter.2 ⟨(h.producers x id hid).1, halive⟩, (h.producers x id hid).2⟩
  · refine Option.ext fun id => ?_
    rw [producerOf_dropUnfused, producerOf_dropUnfused, h.together p hp x hx y hy]
  · obtain ⟨hK, halive⟩ := find?_dropUnfused.1 hK
    exact producerOf_dropUnfused.2 ⟨h.patterns id K hK x hx, halive⟩
  · obtain ⟨hid, halive⟩ := mem_consumersOf_dropUnfused hid
    exact List.mem_filter.2 ⟨h.readers x id hid, halive⟩
  · obtain ⟨hid', halive'⟩ := producerOf_dropUnfused.1 hid'
    obtain ⟨K, hK, hx⟩ := hholds
    obtain ⟨hK, halive⟩ := find?_dropUnfused.1 hK
    -- the kernel that holds a name stands in front of its producer, unless that was dropped
    rcases h.nested id x id' ⟨K, hK, hx⟩ hid' with ⟨id₁, K₁, hid₁, hK₁, hx₁⟩ | hsub
    · cases hid₁.symm.trans hid'
      exact .inl ⟨id', K₁, producerOf_dropUnfused.2 ⟨hid', halive'⟩,
        find?_dropUnfused.2 ⟨hK₁, halive'⟩, hx₁⟩
    · -- both are alive, so they are left in this order
      have hfilter := hsub.filter r.isAlive
      rw [List.filter_cons_of_pos halive, List.filter_cons_of_pos halive', List.filter_nil]
        at hfilter
      exact .inr hfilter

/-- A coherent registry passes the check of its invariants. -/
theorem check_eq_ok (h : r.Coherent Λ o) (s : Span) : r.check s = .ok () := by
  refine Except.bind_eq_ok.2 ⟨(), Except.forM_eq_ok fun ⟨x, id⟩ he => ?_,
    Except.forM_eq_ok fun ⟨x, ids⟩ he => ?_⟩
  · have hid : r.producerOf x = some id := Table.find?_eq_some_iff.2 he
    obtain ⟨K, hK⟩ := h.exists_kernel hid
    refine Except.bind_eq_ok.2 ⟨K, kernel_eq_ok.2 hK, if_neg fun hcond => ?_⟩
    rw [Bool.and_eq_true, Bool.not_eq_true', ← Bool.not_eq_true, List.contains_iff_mem] at hcond
    exact h.dropped x ⟨id, K, hid, hK, hcond.1⟩ (.inl (List.contains_iff_mem.1 hcond.2))
  · refine Except.forM_eq_ok fun id hid => ?_
    have hreads : id ∈ r.consumersOf x := by
      unfold consumersOf
      rw [Table.find?_eq_some_iff.2 he]
      exact hid
    obtain ⟨K, hK⟩ := (h.listed id).1 (h.readers x id hreads)
    exact Except.bind_eq_ok.2 ⟨K, kernel_eq_ok.2 hK, rfl⟩

end Coherent

end Registry

end ArrayFusion
