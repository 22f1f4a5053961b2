import Mathlib.Data.List.Induction
import ArrayFusion.Fusion.Analysis

/-!
# What each operation does to a registry

Every operation of the analysis changes a few tables of a registry and leaves the others.  The
lemmas here say for each operation and each table what is known afterwards, so that no proof has to
open an operation.
-/

namespace ArrayFusion

/-- What is joined holds what one of the two lists holds. -/
theorem mem_joined {α : Type} [BEq α] [LawfulBEq α] {xs ys : List α} {x : α} :
    x ∈ joined xs ys ↔ x ∈ xs ∨ x ∈ ys := by
  unfold joined
  induction xs with
  | nil => simp
  | cons y xs ih => rw [List.foldr_cons, List.mem_insert_iff, ih, List.mem_cons, or_assoc]

namespace Registry

variable {r q : Registry} {x y : Name} {id : KernelId} {K : Kernel}

/-! ## Kernels -/

/-- A kernel is found by its id if the registry has it, and otherwise there is an error. -/
theorem kernel_eq_ok {s : Span} : r.kernel id s = .ok K ↔ r.kernels.find? id = some K := by
  unfold kernel
  cases r.kernels.find? id with
  | none => exact ⟨nofun, nofun⟩
  | some k => simp

/-- Forbidding names does not touch the kernels. -/
@[simp] theorem kernels_forbid (r : Registry) (xs : List Name) :
    (r.forbid xs).kernels = r.kernels := rfl

/-- An update is noted in every kernel. -/
theorem find?_noteUpdate (r : Registry) (x : Name) (id : KernelId) :
    (r.noteUpdate x).kernels.find? id = (r.kernels.find? id).map (·.noteUpdate x) :=
  Table.find?_mapValues _ _ _

/-- Where both registries know a kernel, the second one counts. -/
theorem find?_union (r q : Registry) (id : KernelId) :
    (r.union q).kernels.find? id = (q.kernels.find? id).or (r.kernels.find? id) :=
  Table.find?_union _ _ _

/-- Noting who reads an operand does not touch the kernels. -/
@[simp] theorem kernels_recordOperand (ids : List KernelId) (r : Registry) (a : Operand) :
    (recordOperand ids r a).kernels = r.kernels := by
  unfold recordOperand
  cases a with
  | whole x =>
    dsimp only
    split <;> rfl
  | _ => rfl

/-- Nor does noting who reads the operands of a stage. -/
@[simp] theorem kernels_recordOperands (r : Registry) (ids : List KernelId) (g : Stage) :
    (r.recordOperands ids g).kernels = r.kernels := by
  unfold recordOperands
  induction g.operands generalizing r with
  | nil => rfl
  | cons a as ih => rw [List.foldl_cons, ih, kernels_recordOperand]

/-- Noting readers does not count as a fusion. -/
theorem succeeded_recordOperands (r : Registry) (ids : List KernelId) (g : Stage) :
    (r.recordOperands ids g).succeeded = r.succeeded := by
  unfold recordOperands
  induction g.operands generalizing r with
  | nil => rfl
  | cons a as ih =>
    rw [List.foldl_cons, ih]
    unfold recordOperand
    split
    · dsimp only
      split <;> rfl
    all_goals rfl

/-- Noting that an array was fused does not touch the kernels. -/
@[simp] theorem kernels_recordFused (o : Origin) (id : KernelId) (r : Registry) (x : Name) :
    (recordFused o id r x).kernels = r.kernels := by
  unfold recordFused
  dsimp only
  split <;> rfl

@[simp] theorem kernels_foldl_recordFused (o : Origin) (id : KernelId) (xs : List Name)
    (r : Registry) : (xs.foldl (recordFused o id) r).kernels = r.kernels := by
  induction xs generalizing r with
  | nil => rfl
  | cons x xs ih => rw [List.foldl_cons, ih, kernels_recordFused]

/-- When a stage was fused, the kernels that took it in are put in the place of the old ones. -/
@[simp] theorem kernels_fused (r : Registry) (o : Origin) (p : Pattern) (g : Stage)
    (ks : List Kernel) : (r.fused o p g ks).kernels = (r.putKernels ks).kernels := by
  unfold fused
  rw [kernels_recordOperands]
  cases ks with
  | nil => rfl
  | cons k ks =>
    change ((k :: ks).foldl _ (List.foldl _ r p.names).kernels) = _
    rw [kernels_foldl_recordFused]
    rfl

/-- Behind an id there is one of the kernels that were put in place, or none of them has that id and
it is what it was. -/
theorem find?_putKernels (r : Registry) (ks : List Kernel) (id : KernelId) :
    (∃ k ∈ ks, k.id = id ∧ (r.putKernels ks).kernels.find? id = some k)
      ∨ (∀ k ∈ ks, k.id ≠ id) ∧ (r.putKernels ks).kernels.find? id = r.kernels.find? id := by
  unfold putKernels
  dsimp only
  -- the last kernel of the list that has the number is the one that is found
  induction ks using List.reverseRecOn with
  | nil => exact .inr ⟨nofun, rfl⟩
  | append_singleton ks k ih =>
    rw [List.foldl_append, List.foldl_cons, List.foldl_nil, Table.find?_insert]
    split
    · rename_i hid
      exact .inl ⟨k, by simp, hid.symm, rfl⟩
    · rename_i hid
      -- another kernel is put last, so it was found among those before or not at all
      rcases ih with ⟨l, hl, hlid, hfind⟩ | ⟨hne, hfind⟩
      · exact .inl ⟨l, List.mem_append_left _ hl, hlid, hfind⟩
      · refine .inr ⟨fun l hl => ?_, hfind⟩
        rcases List.mem_append.1 hl with hl | hl
        · exact hne l hl
        · rw [List.mem_singleton.1 hl]
          exact fun heq => hid heq.symm

/-- A kernel that was put in place, or one that was there. -/
theorem of_find?_putKernels {ks : List Kernel} (h : (r.putKernels ks).kernels.find? id = some K) :
    K ∈ ks ∧ K.id = id ∨ r.kernels.find? id = some K ∧ ∀ k ∈ ks, k.id ≠ id := by
  rcases find?_putKernels r ks id with ⟨k, hk, hid, hfind⟩ | ⟨hne, hfind⟩
  · cases h.symm.trans hfind
    exact .inl ⟨hk, hid⟩
  · exact .inr ⟨hfind ▸ h, hne⟩

end Registry

/-! ## Producers, readers and names that must not be fused -/

namespace Registry

variable {r q : Registry} {x y : Name} {id : KernelId}

/-- Some kernel reads the name as a whole, or the name must not be fused. -/
def Touches (r : Registry) (x : Name) : Prop := x ∈ r.unfusable ∨ r.consumers.find? x ≠ none

/-- The name is no longer computed, because its producer went into a kernel that stands for another
`let`. -/
def Dropped (r : Registry) (x : Name) : Prop :=
  ∃ id K, r.producerOf x = some id ∧ r.kernels.find? id = some K ∧ x ∉ K.pattern.names

/-- An empty registry touches no name. -/
theorem not_touches_empty : ¬ empty.Touches x := fun h => h.elim List.not_mem_nil fun h => h rfl

@[simp] theorem producerOf_forbid (r : Registry) (xs : List Name) (x : Name) :
    (r.forbid xs).producerOf x = r.producerOf x := rfl

/-- Where both registries know who produces a name, the second one counts. -/
@[simp] theorem producerOf_union (r q : Registry) (x : Name) :
    (r.union q).producerOf x = (q.producerOf x).or (r.producerOf x) := Table.find?_union _ _ _

/-- A registry touches the names that it forbids, besides those that it touched before. -/
theorem touches_forbid {xs : List Name} : (r.forbid xs).Touches x ↔ x ∈ xs ∨ r.Touches x := by
  unfold Touches
  change x ∈ joined xs r.unfusable ∨ _ ↔ _
  rw [mem_joined, or_assoc]
  rfl

/-- The readers of a name in two registries are those of one or the other. -/
theorem find?_consumers_union (r q : Registry) (x : Name) : (r.union q).consumers.find? x =
    match r.consumers.find? x, q.consumers.find? x with
    | some ids, some ids' => some (joined ids ids')
    | some ids, none => some ids
    | none, ids => ids := by
  change (r.consumers.unionWith joined q.consumers).find? x = _
  rw [Table.find?_unionWith]
  cases r.consumers.find? x <;> cases q.consumers.find? x <;> rfl

/-- Two registries together touch what one of them touches. -/
theorem touches_union : (r.union q).Touches x ↔ r.Touches x ∨ q.Touches x := by
  have hconsumers : (r.union q).consumers.find? x ≠ none ↔
      r.consumers.find? x ≠ none ∨ q.consumers.find? x ≠ none := by
    rw [find?_consumers_union]
    cases r.consumers.find? x <;> cases q.consumers.find? x <;> simp
  unfold Touches
  rw [hconsumers]
  change x ∈ joined q.unfusable r.unfusable ∨ _ ↔ _
  rw [mem_joined]
  tauto

/-- A reader in two registries together is a reader in one of them. -/
theorem mem_consumersOf_union (h : id ∈ (r.union q).consumersOf x) :
    id ∈ r.consumersOf x ∨ id ∈ q.consumersOf x := by
  unfold consumersOf at h ⊢
  rw [find?_consumers_union] at h
  cases hr : r.consumers.find? x with
  | none => simp_all
  | some ids =>
    cases hq : q.consumers.find? x with
    | none => simp_all
    | some ids' =>
      rw [hr, hq] at h
      exact mem_joined.1 h

/-! ## Operands that were noted -/

/-- What a registry knows after some operands were noted: about other names nothing has changed. -/
structure Recorded (ids : List KernelId) (xs : List Name) (r r' : Registry) : Prop where
  producers : ∀ x, r'.producerOf x = r.producerOf x
  consumers : ∀ x, x ∉ xs → r'.consumers.find? x = r.consumers.find? x
  touches : ∀ x, r'.Touches x → r.Touches x ∨ x ∈ xs
  readers : ∀ x, ∀ id ∈ r'.consumersOf x, id ∈ ids ∨ id ∈ r.consumersOf x

/-- Forbidding names that were read is part of noting who reads them. -/
theorem Recorded.forbid {ids : List KernelId} {xs ys : List Name} {r r' : Registry}
    (h : Recorded ids xs r r') (hys : ∀ y ∈ ys, y ∈ xs) : Recorded ids xs r (r'.forbid ys) where
  producers := h.producers
  consumers := h.consumers
  touches := fun x hx => (touches_forbid.1 hx).elim (fun hx => .inr (hys x hx)) (h.touches x)
  readers := h.readers

/-- Nothing has to be noted to begin with. -/
theorem Recorded.refl (ids : List KernelId) (xs : List Name) (r : Registry) : Recorded ids xs r r :=
  ⟨fun _ => rfl, fun _ _ => rfl, fun _ => .inl, fun _ _ => .inr⟩

/-- An operand that is read as a whole gets readers, and the names of others are forbidden. -/
theorem recorded_recordOperand (ids : List KernelId) (r : Registry) (a : Operand) :
    Recorded ids a.reads r (recordOperand ids r a) := by
  cases a with
  | whole y =>
    -- an array that is read whole gets the kernels as readers
    have hinsert : Recorded ids [y.name] r { r with
        consumers := r.consumers.insert y.name (joined ids (r.consumersOf y.name)) } := by
      refine ⟨fun _ => rfl, fun x hx => ?_, fun x hx => ?_, fun x id hid => ?_⟩
      · change (r.consumers.insert _ _).find? x = _
        rw [Table.find?_insert, if_neg fun h => hx (List.mem_singleton.2 h)]
      · rcases hx with hx | hx
        · exact .inl (.inl hx)
        · change (r.consumers.insert _ _).find? x ≠ none at hx
          rw [Table.find?_insert] at hx
          -- what no kernel may produce any more is forbidden besides
          split at hx
          · exact .inr (List.mem_singleton.2 ‹_›)
          · exact .inl (.inr hx)
      · unfold consumersOf at hid
        rw [Table.find?_insert] at hid
        split at hid
        · rename_i hx
          subst hx
          exact mem_joined.1 hid
        · exact .inr hid
    unfold recordOperand
    dsimp only
    split
    · exact hinsert
    · exact hinsert.forbid fun _ hy => hy
  -- an array that is not read whole is forbidden, and gets no reader
  | transposed y => exact (Recorded.refl _ _ r).forbid fun _ hy => hy
  | row y is =>
    exact (Recorded.refl _ _ r).forbid fun x hx => List.mem_singleton.1 hx ▸ List.mem_cons_self
  | range n => exact .refl _ _ r

/-- Readers are noted for one list of names after another. -/
theorem Recorded.trans {ids : List KernelId} {xs ys : List Name} {r r' r'' : Registry}
    (h : Recorded ids xs r r') (h' : Recorded ids ys r' r'') : Recorded ids (xs ++ ys) r r'' where
  producers := fun x => (h'.producers x).trans (h.producers x)
  consumers := fun x hx => by
    rw [List.mem_append, not_or] at hx
    exact (h'.consumers x hx.2).trans (h.consumers x hx.1)
  touches := fun x hx => by
    rcases h'.touches x hx with hx | hx
    · exact (h.touches x hx).imp_right (List.mem_append_left _)
    · exact .inr (List.mem_append_right _ hx)
  readers := fun x id hid => (h'.readers x id hid).elim .inl (h.readers x id)

/-- The readers of the operands of a stage are noted for all names that the stage reads. -/
theorem recorded_recordOperands (r : Registry) (ids : List KernelId) (g : Stage) :
    Recorded ids g.operandReads r (r.recordOperands ids g) := by
  unfold recordOperands Stage.operandReads
  induction g.operands generalizing r with
  | nil => exact .refl _ _ r
  | cons a as ih => exact (recorded_recordOperand ids r a).trans (ih _)

/-! ## Stages that were fused, and kernels that were registered -/

/-- What a registry knows after the results of a stage were given to a kernel. -/
theorem foldl_recordFused (o : Origin) (id : KernelId) (xs : List Name) (r : Registry) :
    (xs.foldl (recordFused o id) r).unfusable = r.unfusable
      ∧ (∀ x, (xs.foldl (recordFused o id) r).consumers.find? x
        = if x ∈ xs then none else r.consumers.find? x)
      ∧ ∀ x, (xs.foldl (recordFused o id) r).producerOf x
        = if x ∈ xs ∧ (o = .combinator ∨ x ∉ r.unfusable) then some id else r.producerOf x := by
  induction xs generalizing r with
  | nil => exact ⟨rfl, fun _ => rfl, fun x => (if_neg fun h => List.not_mem_nil h.1).symm⟩
  | cons y xs ih =>
    obtain ⟨hunfusable, hconsumers, hproducers⟩ := ih (recordFused o id r y)
    -- what the first name does; the others see a registry that forbids the same
    have hstep : (recordFused o id r y).unfusable = r.unfusable
        ∧ (recordFused o id r y).consumers = r.consumers.erase y
        ∧ ∀ x, (recordFused o id r y).producerOf x
          = if x = y ∧ (o = .combinator ∨ x ∉ r.unfusable) then some id else r.producerOf x := by
      unfold recordFused
      dsimp only
      split
      · rename_i h
        refine ⟨rfl, rfl, fun x => ?_⟩
        change (r.producers.insert y id).find? x = _
        rw [Table.find?_insert]
        by_cases hx : x = y
        · subst hx
          rw [if_pos rfl, if_pos ⟨rfl, by simpa [isUnfusable] using h⟩]
        · rw [if_neg hx, if_neg fun h => hx h.1]
          rfl
      · rename_i h
        refine ⟨rfl, rfl, fun x => (if_neg ?_).symm⟩
        -- a replicated name that is forbidden keeps its producer, or has none
        rintro ⟨rfl, hx⟩
        exact h (by simpa [isUnfusable] using hx)
    obtain ⟨hu, hc, hp⟩ := hstep
    refine ⟨hunfusable.trans hu, fun x => ?_, fun x => ?_⟩
    · rw [List.foldl_cons, hconsumers, hc, Table.find?_erase]
      by_cases hx : x = y <;> by_cases hxs : x ∈ xs <;> simp [hx, hxs]
    · rw [List.foldl_cons, hproducers, hp, hu]
      by_cases hf : o = .combinator ∨ x ∉ r.unfusable
      · simp only [hf, and_true, List.mem_cons]
        by_cases hx : x = y <;> by_cases hxs : x ∈ xs <;> simp [hx, hxs]
      · simp only [hf, and_false, if_false]

/-- What a registry knows after a stage was fused into kernels, the first of which has the id
`id`. -/
structure Absorbed (o : Origin) (p : Pattern) (g : Stage) (id : KernelId) (ids : List KernelId)
    (r r' : Registry) : Prop where
  producers : ∀ x, r'.producerOf x
    = if x ∈ p.names ∧ (o = .combinator ∨ x ∉ r.unfusable) then some id else r.producerOf x
  consumers : ∀ x, x ∉ p.names → x ∉ g.operandReads → r'.consumers.find? x = r.consumers.find? x
  touches : ∀ x, r'.Touches x →
    x ∈ g.operandReads ∨ x ∈ r.unfusable ∨ x ∉ p.names ∧ r.consumers.find? x ≠ none
  readers : ∀ x, ∀ id' ∈ r'.consumersOf x, id' ∈ ids ∨ id' ∈ r.consumersOf x

/-- What is noted when a stage is fused into kernels, of which the first one stands for the stage.
-/
theorem absorbed_fused (r : Registry) (o : Origin) (p : Pattern) (g : Stage) (k : Kernel)
    (ks : List Kernel) :
    Absorbed o p g k.id ((k :: ks).map (·.id)) r (r.fused o p g (k :: ks)) := by
  -- first the names are taken from their readers, then the operands are recorded
  obtain ⟨hunfusable, hconsumers, hproducers⟩ := foldl_recordFused o k.id p.names r
  have hrec : Recorded _ _ _ (r.fused o p g (k :: ks)) := recorded_recordOperands
    { (p.names.foldl (recordFused o k.id) r).putKernels (k :: ks) with succeeded := true }
    ((k :: ks).map (·.id)) g
  refine ⟨fun x => (hrec.producers x).trans (hproducers x), fun x hx hreads => ?_, fun x hx => ?_,
    fun x id' hid => ?_⟩
  · exact (hrec.consumers x hreads).trans ((hconsumers x).trans (if_neg hx))
  · -- what is touched was so before, or it is read by the stage
    rcases hrec.touches x hx with (hx | hx) | hx
    · exact .inr (.inl (hunfusable ▸ hx))
    · change (p.names.foldl (recordFused o k.id) r).consumers.find? x ≠ none at hx
      rw [hconsumers] at hx
      split at hx
      · exact absurd rfl hx
      · exact .inr (.inr ⟨‹_›, hx⟩)
    · exact .inl hx
  · -- a reader is one of the kernels, or it was a reader of a name that is not fused
    refine (hrec.readers x id' hid).imp_right fun hid => ?_
    change id' ∈ ((p.names.foldl (recordFused o k.id) r).consumers.find? x).getD [] at hid
    rw [hconsumers] at hid
    split at hid
    · cases hid
    · exact hid

/-- What a registry knows after a kernel was registered. -/
structure Registered (k : Kernel) (r r' : Registry) : Prop where
  producers : ∀ x, r'.producerOf x = if x ∈ k.pattern.names then some k.id else r.producerOf x
  consumers : ∀ x, x ∉ k.stage.operandReads → r'.consumers.find? x = r.consumers.find? x
  touches : ∀ x, r'.Touches x → r.Touches x ∨ x ∈ k.stage.operandReads
  readers : ∀ x, ∀ id ∈ r'.consumersOf x, id = k.id ∨ id ∈ r.consumersOf x
  kernels : ∀ id, r'.kernels.find? id = if id = k.id then some k else r.kernels.find? id

/-- What is noted when a combinator gets a kernel of its own. -/
theorem registered_register (r : Registry) (k : Kernel) : Registered k r (r.register k) := by
  -- the names of the pattern get the kernel as their producer
  have hinsert : ∀ (xs : List Name) (t : Table Name KernelId) (x : Name),
      (xs.foldl (fun t x => t.insert x k.id) t).find? x =
        if x ∈ xs then some k.id else t.find? x := by
    intro xs
    induction xs with
    | nil => exact fun t x => (if_neg List.not_mem_nil).symm
    | cons y xs ih =>
      intro t x
      rw [List.foldl_cons, ih, Table.find?_insert]
      by_cases hx : x = y <;> by_cases hxs : x ∈ xs <;> simp [hx, hxs]
  -- and then the operands are recorded, which changes no producer
  have hrec := recorded_recordOperands { r with
    producers := k.pattern.names.foldl (fun t x => t.insert x k.id) r.producers } [k.id] k.stage
  refine ⟨fun x => (hrec.producers x).trans (hinsert _ _ x), hrec.consumers, hrec.touches,
    fun x id hid => (hrec.readers x id hid).imp_left List.mem_singleton.1, fun id => ?_⟩
  change ((recordOperands _ _ _).kernels.insert k.id k).find? id = _
  rw [Table.find?_insert, kernels_recordOperands]

end Registry

/-! ## What holds of every kernel -/

@[simp] theorem Kernel.stage_noteUpdate (x : Name) (K : Kernel) :
    (K.noteUpdate x).stage = K.stage := by
  unfold noteUpdate
  split <;> rfl

@[simp] theorem Kernel.outputs_noteUpdate (x : Name) (K : Kernel) :
    (K.noteUpdate x).outputs = K.outputs := by
  unfold noteUpdate
  split <;> rfl

namespace Registry

/-- Every kernel of the registry has the property. -/
def All (P : Kernel → Prop) (r : Registry) : Prop := ∀ id K, r.kernels.find? id = some K → P K

variable {P : Kernel → Prop} {r q : Registry}

/-- An empty registry has no kernels. -/
theorem all_empty : All P .empty := nofun

/-- What all kernels have, they have in another registry that has the same ones. -/
theorem All.of_kernels (h : r.All P) (hq : q.kernels = r.kernels) : q.All P := by
  intro id K hK
  rw [hq] at hK
  exact h id K hK

theorem All.forbid (h : r.All P) (xs : List Name) : (r.forbid xs).All P := h

/-- What all kernels have and updates keep, all kernels have when an update is noted. -/
theorem All.noteUpdate (hP : ∀ K x, P K → P (K.noteUpdate x)) (h : r.All P) (x : Name) :
    (r.noteUpdate x).All P := by
  intro id K hK
  rw [find?_noteUpdate] at hK
  obtain ⟨L, hL, rfl⟩ := Option.map_eq_some_iff.1 hK
  exact hP L x (h id L hL)

/-- What the kernels of two registries have, those of both together have. -/
theorem All.union (h : r.All P) (h' : q.All P) : (r.union q).All P := by
  intro id K hK
  rw [find?_union] at hK
  rcases Option.or_eq_some_iff.1 hK with hK | ⟨-, hK⟩
  · exact h' id K hK
  · exact h id K hK

theorem All.unionBranches (h : r.All P) (h' : q.All P) : (r.unionBranches q).All P := h.union h'

/-- What the kernels of a region and of the code behind it have, those of both together have. -/
theorem All.mergeRegion (hP : ∀ K x, P K → P (K.noteUpdate x)) (h : r.All P) (h' : q.All P)
    (xs : List Name) : (r.mergeRegion q xs).All P := by
  have hupdates : ∀ us : List Name, (us.foldl Registry.noteUpdate r).All P := by
    intro us
    induction us using List.reverseRecOn with
    | nil => exact h
    | append_singleton us u ih =>
      rw [List.foldl_append]
      exact ih.noteUpdate hP u
  exact (hupdates q.updated).union h'

/-- Kernels are put in the place of others, so nothing changes if they have what all others have. -/
theorem All.putKernels (h : r.All P) {ks : List Kernel} (hks : ∀ k ∈ ks, P k) :
    (r.putKernels ks).All P := by
  intro id K hK
  rcases of_find?_putKernels hK with ⟨hmem, -⟩ | ⟨hfind, -⟩
  · exact hks K hmem
  · exact h id K hfind

/-- What all kernels have, they have after a fusion if those that took the stage in have it. -/
theorem All.fused (h : r.All P) (o : Origin) (p : Pattern) (g : Stage) {ks : List Kernel}
    (hks : ∀ k ∈ ks, P k) : (r.fused o p g ks).All P :=
  (h.putKernels hks).of_kernels (kernels_fused r o p g ks)

/-- What all kernels have, they have together with a new one that has it. -/
theorem All.register (h : r.All P) {k : Kernel} (hk : P k) : (r.register k).All P := by
  unfold Registry.register
  refine All.putKernels ?_ fun l hl => ?_
  · exact h.of_kernels (kernels_recordOperands _ _ _)
  · rw [List.mem_singleton.1 hl]
    exact hk

/-- What all kernels have, those have that are left when the others are dropped. -/
theorem All.dropUnfused (h : r.All P) : r.dropUnfused.All P := by
  intro id K hK
  change (r.kernels.retain _).find? id = _ at hK
  rw [Table.find?_retain] at hK
  exact h id K (Option.filter_eq_some_iff.1 hK).1

end Registry

end ArrayFusion
