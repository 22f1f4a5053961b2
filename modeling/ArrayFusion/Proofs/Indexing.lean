import ArrayFusion.Proofs.Placing
import ArrayFusion.Proofs.WholeReads

/-!
# The index of a registry

A registry says twice who reads an array as a whole: its kernels have operands, and `consumers`
lists their ids under the names.  The two agree (`Registry.Indexed`), and a producer that is listed
under a name is a kernel that computes the name or took in what did.  Every step of an analysis
keeps this (`Course.indexed`): what is read on one side only of a composition, a region or a branch
is found on the same side of the index, because different kernels have different numbers
(`Registry.Numbered`).
-/

namespace ArrayFusion

theorem Kernel.fused_noteUpdate (x : Name) (K : Kernel) : (K.noteUpdate x).fused = K.fused := by
  unfold noteUpdate
  split <;> rfl

namespace Registry

variable {r q : Registry} {x : Name} {id : KernelId} {K : Kernel} {m n k : Nat}

/-! ## Numbers -/

/-- Every kernel is found under its own id, and the ids are numbers from `m` on below `n`. -/
def Numbered (m n : Nat) (r : Registry) : Prop :=
  ∀ id K, r.kernels.find? id = some K → K.id = id ∧ m ≤ id.index ∧ id.index < n

/-- An empty registry has no ids. -/
theorem numbered_empty (m n : Nat) : empty.Numbered m n := nofun

namespace Numbered

/-- The ids depend on the kernels alone. -/
theorem of_kernels (h : r.Numbered m n) (hq : q.kernels = r.kernels) : q.Numbered m n := by
  intro id K hK
  rw [hq] at hK
  exact h id K hK

/-- Ids below a number are below a larger one. -/
theorem mono (h : r.Numbered m n) (hn : n ≤ k) : r.Numbered m k := fun id K hK =>
  have ⟨hid, hm, hlt⟩ := h id K hK
  ⟨hid, hm, Nat.lt_of_lt_of_le hlt hn⟩

theorem noteUpdate (h : r.Numbered m n) (x : Name) : (r.noteUpdate x).Numbered m n := by
  intro id L hL
  obtain ⟨K, hK, rfl⟩ := Option.map_eq_some_iff.1 ((r.find?_noteUpdate x id).symm.trans hL)
  rw [K.id_noteUpdate]
  exact h id K hK

/-- Ids that follow one another stay apart. -/
theorem union (h : r.Numbered m n) (h' : q.Numbered n k) (hm : m ≤ n) (hk : n ≤ k) :
    (r.union q).Numbered m k := by
  intro id K hK
  rw [find?_union] at hK
  rcases Option.or_eq_some_iff.1 hK with hK | ⟨-, hK⟩
  · have := h' id K hK
    exact ⟨this.1, by omega, this.2.2⟩
  · have := h id K hK
    exact ⟨this.1, this.2.1, by omega⟩

/-- No kernel has the number of one from a later analysis. -/
theorem find?_eq_none (h : r.Numbered m n) (h' : q.Numbered n k)
    (hK : r.kernels.find? id = some K) : q.kernels.find? id = none :=
  Option.eq_none_iff_forall_ne_some.2 fun L hL => by
    have := (h id K hK).2.2
    have := (h' id L hL).2.1
    omega

/-- The next number is not in use. -/
theorem find?_next (h : r.Numbered m n) : r.kernels.find? ⟨n⟩ = none :=
  Option.eq_none_iff_forall_ne_some.2 fun L hL => Nat.lt_irrefl _ (h _ L hL).2.2

/-- Kernels whose ids are in range may be put in the place of others. -/
theorem putKernels (h : r.Numbered m n) {ks : List Kernel}
    (hks : ∀ k ∈ ks, m ≤ k.id.index ∧ k.id.index < n) : (r.putKernels ks).Numbered m n := by
  intro id K hK
  rcases of_find?_putKernels hK with ⟨hmem, rfl⟩ | ⟨hfind, -⟩
  · exact ⟨rfl, hks K hmem⟩
  · exact h id K hfind

end Numbered

/-- The kernels that take a stage in are those that read its results. -/
theorem TriedFusion.ids {c : Config} {o : Origin} {p : Pattern} {g : Stage} {s s' : NameSupply}
    {Ks' : List Kernel} (h : r.TriedFusion c o p g s Ks' s') (hr : r.Numbered m n) :
    Ks'.map (·.id) = r.candidates p.names := by
  have hall := h.extends
  clear h
  generalize r.candidates p.names = ids at hall
  induction hall with
  | nil => rfl
  | @cons id K' _ _ hK _ ih =>
    obtain ⟨K, hK, hextends⟩ := hK
    rw [List.map_cons, ih, hextends.id, (hr id K hK).1]

/-- A kernel that took a stage in is one of those that were there. -/
theorem TriedFusion.exists_kernel {c : Config} {o : Origin} {p : Pattern} {g : Stage}
    {s s' : NameSupply} {Ks' : List Kernel} (h : r.TriedFusion c o p g s Ks' s')
    (hr : r.Numbered m n) {K' : Kernel} (hK' : K' ∈ Ks') :
    ∃ K, r.kernels.find? K'.id = some K ∧ Kernel.Extends p.names g K K' := by
  obtain ⟨id, -, K, hK, hextends⟩ := Recipe.exists_of_forall₂ h.extends hK'
  refine ⟨K, ?_, hextends⟩
  rwa [hextends.id, (hr id K hK).1]

/-- Behind an id there is a kernel that took the stage in, or what was there. -/
theorem TriedFusion.find?_fused {c : Config} {o : Origin} {p : Pattern} {g : Stage}
    {s s' : NameSupply} {Ks' : List Kernel} (h : r.TriedFusion c o p g s Ks' s')
    (hr : r.Numbered m n) :
    (∀ id ∈ r.candidates p.names, ∃ K K', r.kernels.find? id = some K
        ∧ (r.fused o p g Ks').kernels.find? id = some K' ∧ Kernel.Extends p.names g K K')
      ∧ ∀ id, id ∉ r.candidates p.names →
        (r.fused o p g Ks').kernels.find? id = r.kernels.find? id := by
  rw [kernels_fused, ← h.ids hr]
  refine ⟨fun id hid => ?_, fun id hid => ?_⟩ <;>
    rcases find?_putKernels r Ks' id with ⟨K', hK', rfl, hfind⟩ | ⟨hnot, hfind⟩
  · obtain ⟨K, hK, hextends⟩ := h.exists_kernel hr hK'
    exact ⟨K, K', hK, hfind, hextends⟩
  · obtain ⟨K', hK', heq⟩ := List.mem_map.1 hid
    exact absurd heq (hnot K' hK')
  · exact absurd (List.mem_map_of_mem hK') hid
  · exact hfind

end Registry

/-- A decision keeps the kernels numbered. -/
theorem Decided.numbered {c : Config} {o : Origin} {p : Pattern} {g : Stage} {r r' : Registry}
    {a b : Progress} {d : Decision} {m : Nat} (h : Decided c o p g r a d r' b)
    (hr : r.Numbered m a.nextKernel) (hm : m ≤ a.nextKernel) :
    a.nextKernel ≤ b.nextKernel ∧ r'.Numbered m b.nextKernel := by
  cases h with
  -- no number is given out, and the kernels keep theirs
  | fused htried hnext =>
    refine ⟨Nat.le_of_eq hnext.symm, ?_⟩
    rw [hnext]
    refine Registry.Numbered.of_kernels (hr.putKernels
      fun K' hK' => ?_) (Registry.kernels_fused _ _ _ _ _)
    obtain ⟨K, hK, -⟩ := htried.exists_kernel hr hK'
    exact (hr _ K hK).2
  | stays _ _ hnext => exact ⟨Nat.le_of_eq hnext.symm, hnext ▸ hr⟩
  | registered _ _ hnext hK =>
    -- the new kernel has the next number
    have hid := (Placed.isNew hK).id
    rw [hnext]
    refine ⟨Nat.le_succ _, fun id L hL => ?_⟩
    rw [(Registry.registered_register _ _).kernels] at hL
    split at hL
    · cases hL
      subst_vars
      rw [hid]
      exact ⟨rfl, hm, Nat.lt_succ_self _⟩
    · exact hr.mono (Nat.le_succ _) id L hL

/-- An analysis numbers its kernels onwards. -/
theorem Course.numbered {c : Config} {l : Log} {r r' : Registry} {a b : Progress} {m : Nat}
    (h : Course c l r a r' b) (hr : r.Numbered m a.nextKernel) (hm : m ≤ a.nextKernel) :
    a.nextKernel ≤ b.nextKernel ∧ r'.Numbered m b.nextKernel := by
  induction h generalizing m with
  | nil => exact ⟨Nat.le_refl _, hr⟩
  | forbid => exact ⟨Nat.le_refl _, hr⟩
  | noteUpdate x => exact ⟨Nat.le_refl _, hr.noteUpdate x⟩
  | append _ _ ih ih' =>
    obtain ⟨hle, hr'⟩ := ih hr hm
    obtain ⟨hle', hr''⟩ := ih' hr' (Nat.le_trans hm hle)
    exact ⟨Nat.le_trans hle hle', hr''⟩
  | meet xs ys _ _ ih =>
    obtain ⟨hle, hq⟩ := ih (Registry.numbered_empty _ _) (Nat.le_refl _)
    exact ⟨hle, hr.union hq hm hle⟩
  | place _ _ _ _ _ hdecided => exact hdecided.numbered hr hm

namespace Registry

variable {r q : Registry} {x : Name} {id : KernelId} {K : Kernel} {m n k : Nat}

/-! ## Readers that are noted -/

/-- The readers of a name in two registries together are those of both. -/
theorem mem_consumersOf_union_iff :
    id ∈ (r.union q).consumersOf x ↔ id ∈ r.consumersOf x ∨ id ∈ q.consumersOf x := by
  unfold consumersOf
  rw [find?_consumers_union]
  cases r.consumers.find? x <;> cases q.consumers.find? x <;> simp [mem_joined]

/-- The readers that are left are the kernels that are left. -/
theorem mem_consumersOf_dropUnfused_iff :
    id ∈ r.dropUnfused.consumersOf x ↔ id ∈ r.consumersOf x ∧ r.isAlive id = true := by
  refine ⟨Coherent.mem_consumersOf_dropUnfused, fun ⟨hid, halive⟩ => ?_⟩
  change id ∈ (((r.consumers.mapValues _).retain _).find? x).getD []
  rw [Table.find?_retain, Table.find?_mapValues]
  unfold consumersOf at hid
  cases hids : r.consumers.find? x with
  | none =>
    rw [hids] at hid
    cases hid
  | some ids =>
    rw [hids] at hid
    have hmem := List.mem_filter.2 ⟨hid, halive⟩
    rwa [Option.map_some, Option.filter_some, if_pos]
    simpa using ⟨id, hid, halive⟩

/-- What a registry knows after it was noted that the kernels `ids` read the names `xs` as a
whole. -/
structure Noted (ids : List KernelId) (xs : List Name) (r r' : Registry) : Prop where
  readers : ∀ x id, id ∈ r'.consumersOf x ↔ id ∈ r.consumersOf x ∨ x ∈ xs ∧ id ∈ ids
  unfusable : ∀ x ∈ r.unfusable, x ∈ r'.unfusable
  /-- A name that other kernels read as a whole must not be fused any more. -/
  clash : ∀ x ∈ xs, ∀ id ∈ r.consumersOf x, id ∉ ids → x ∈ r'.unfusable

/-- Nothing has to be noted to begin with. -/
theorem Noted.refl (ids : List KernelId) (r : Registry) : Noted ids [] r r :=
  ⟨fun _ _ => by simp, fun _ => id, nofun⟩

/-- Forbidding names changes no readers. -/
theorem Noted.forbid {ids : List KernelId} {xs : List Name} {r r' : Registry}
    (h : Noted ids xs r r') (ys : List Name) : Noted ids xs r (r'.forbid ys) where
  readers := h.readers
  unfusable := fun x hx => mem_joined.2 (.inr (h.unfusable x hx))
  clash := fun x hx id hid hnot => mem_joined.2 (.inr (h.clash x hx id hid hnot))

/-- Readers are noted for one list of names after another. -/
theorem Noted.trans {ids : List KernelId} {xs ys : List Name} {r r' r'' : Registry}
    (h : Noted ids xs r r') (h' : Noted ids ys r' r'') : Noted ids (xs ++ ys) r r'' where
  readers := fun x id => by
    rw [h'.readers, h.readers, List.mem_append]
    tauto
  unfusable := fun x hx => h'.unfusable x (h.unfusable x hx)
  clash := fun x hx id hid hnot => (List.mem_append.1 hx).elim
    (fun hx => h'.unfusable x (h.clash x hx id hid hnot))
    fun hx => h'.clash x hx id ((h.readers x id).2 (.inl hid)) hnot

/-- An operand that is read as a whole gets readers. -/
theorem noted_recordOperand (ids : List KernelId) (r : Registry) (a : Operand) :
    Noted ids (a.whole?.map (·.name)).toList r (recordOperand ids r a) := by
  cases a with
  | transposed y => exact (Noted.refl ids r).forbid _
  | row y is => exact (Noted.refl ids r).forbid _
  | range n => exact .refl ids r
  | whole y =>
    -- only the name itself gets readers
    have hreaders : ∀ x id, id ∈ consumersOf { r with
        consumers := r.consumers.insert y.name (joined ids (r.consumersOf y.name)) } x ↔
          id ∈ r.consumersOf x ∨ x ∈ [y.name] ∧ id ∈ ids := by
      intro x id
      unfold consumersOf
      dsimp only
      rw [Table.find?_insert, List.mem_singleton]
      -- it is forbidden if another kernel reads it, too
      split
      · rename_i hx
        subst hx
        rw [Option.getD_some, mem_joined]
        tauto
      · tauto
    have hother : (r.consumersOf y.name).all ids.contains = true ↔
        ∀ id ∈ r.consumersOf y.name, id ∈ ids := by simp
    unfold recordOperand
    dsimp only
    split
    · rename_i hall
      refine ⟨hreaders, fun _ => id, fun x hx id hid hnot => ?_⟩
      rw [List.mem_singleton.1 hx] at hid
      exact absurd (hother.1 hall id hid) hnot
    · exact ⟨hreaders, fun x hx => mem_joined.2 (.inr hx), fun x hx id hid hnot =>
        mem_joined.2 (.inl hx)⟩

/-- So do all operands of a stage that are read as a whole. -/
theorem noted_recordOperands (r : Registry) (ids : List KernelId) (g : Stage) :
    Noted ids g.wholeNames r (r.recordOperands ids g) := by
  unfold recordOperands Stage.wholeNames
  induction g.operands generalizing r with
  | nil => exact .refl ids r
  | cons a as ih =>
    have hnames : ((a :: as).filterMap fun a => a.whole?.map (·.name))
        = (a.whole?.map (·.name)).toList ++ as.filterMap fun a => a.whole?.map (·.name) := by
      rw [List.filterMap_cons]
      cases a.whole?.map (·.name) <;> rfl
    rw [hnames, List.foldl_cons]
    exact (noted_recordOperand ids r a).trans (ih _)

/-- What a registry knows of readers after a stage was fused into kernels, among others `K`. -/
theorem noted_fused (r : Registry) (o : Origin) (p : Pattern) (g : Stage) {ks : List Kernel}
    (hks : ks ≠ []) : ∃ q : Registry,
    (∀ x id, id ∈ q.consumersOf x ↔ x ∉ p.names ∧ id ∈ r.consumersOf x)
      ∧ q.unfusable = r.unfusable ∧ Noted (ks.map (·.id)) g.wholeNames q (r.fused o p g ks) := by
  obtain ⟨K, ks, rfl⟩ := List.exists_cons_of_ne_nil hks
  obtain ⟨hunfusable, hconsumers, -⟩ := foldl_recordFused o K.id p.names r
  refine ⟨{ (p.names.foldl (recordFused o K.id) r).putKernels (K :: ks) with succeeded := true },
    fun x id => ?_, hunfusable, noted_recordOperands _ _ g⟩
  change id ∈ ((p.names.foldl (recordFused o K.id) r).consumers.find? x).getD [] ↔ _
  rw [hconsumers]
  split
  · simp_all
  · simp_all [consumersOf]

/-- A new kernel is noted as a reader of what it reads as a whole. -/
theorem noted_register (r : Registry) (K : Kernel) :
    Noted [K.id] K.stage.wholeNames r (r.register K) := by
  obtain ⟨hreaders, hunfusable, hclash⟩ := noted_recordOperands { r with
    producers := K.pattern.names.foldl (fun t x => t.insert x K.id) r.producers } [K.id] K.stage
  exact ⟨hreaders, hunfusable, hclash⟩

/-! ## The index -/

/-- Exactly the kernels that read an array as a whole are listed as its consumers, and what is
listed as the producer of a name is a kernel whose `let` binds the name, or that took in a stage
that did. -/
structure Indexed (r : Registry) : Prop where
  readers : ∀ x id, id ∈ r.consumersOf x ↔
    ∃ K, r.kernels.find? id = some K ∧ x ∈ K.stage.wholeNames
  producers : ∀ x id, r.producerOf x = some id →
    ∃ K, r.kernels.find? id = some K ∧ (x ∈ K.pattern.names ∨ x ∈ K.fused)

/-- An empty registry has an index. -/
theorem indexed_empty : empty.Indexed where
  readers := fun _ _ => ⟨nofun, fun ⟨_, h, _⟩ => nomatch h⟩
  producers := nofun

namespace Indexed

/-- Forbidding names changes no index. -/
theorem forbid (h : r.Indexed) (xs : List Name) : (r.forbid xs).Indexed := ⟨h.readers, h.producers⟩

theorem noteUpdate (h : r.Indexed) (y : Name) : (r.noteUpdate y).Indexed where
  readers := fun x id => by
    refine (h.readers x id).trans ⟨fun ⟨K, hK, hx⟩ => ?_, fun ⟨L, hL, hx⟩ => ?_⟩
    · exact ⟨K.noteUpdate y, by rw [find?_noteUpdate, hK]; rfl, by rwa [K.stage_noteUpdate]⟩
    · obtain ⟨K, hK, rfl⟩ := Option.map_eq_some_iff.1 ((r.find?_noteUpdate y id).symm.trans hL)
      rw [K.stage_noteUpdate] at hx
      exact ⟨K, hK, hx⟩
  producers := fun x id hid => by
    obtain ⟨K, hK, hx⟩ := h.producers x id hid
    refine ⟨K.noteUpdate y, by rw [find?_noteUpdate, hK]; rfl, ?_⟩
    rwa [K.pattern_noteUpdate, K.fused_noteUpdate]

/-- Kernels of different numbers do not get in each other's way. -/
theorem union (h : r.Indexed) (h' : q.Indexed) (hr : r.Numbered m n) (hq : q.Numbered n k) :
    (r.union q).Indexed := by
  have hfind : ∀ id K, (r.union q).kernels.find? id = some K ↔
      r.kernels.find? id = some K ∨ q.kernels.find? id = some K := fun id K => by
    rw [find?_union, Option.or_eq_some_iff, or_comm]
    exact or_congr_left ⟨And.right, fun hK => ⟨hr.find?_eq_none hq hK, hK⟩⟩
  refine ⟨fun x id => ?_, fun x id hid => ?_⟩
  · rw [mem_consumersOf_union_iff, h.readers, h'.readers, ← exists_or]
    exact exists_congr fun K => by rw [hfind, or_and_right]
  · rw [producerOf_union, Option.or_eq_some_iff] at hid
    rcases hid with hid | ⟨-, hid⟩
    · obtain ⟨K, hK, hx⟩ := h'.producers x id hid
      exact ⟨K, (hfind id K).2 (.inr hK), hx⟩
    · obtain ⟨K, hK, hx⟩ := h.producers x id hid
      exact ⟨K, (hfind id K).2 (.inl hK), hx⟩

/-- The kernels that read the results of a stage read its arrays instead once it is fused into
them. -/
theorem fused {c : Config} {o : Origin} {p : Pattern} {g : Stage} {s s' : NameSupply}
    {Ks' : List Kernel} (h : r.Indexed) (hr : r.Numbered m n)
    (htried : r.TriedFusion c o p g s Ks' s') : (r.fused o p g Ks').Indexed := by
  -- the kernels that read the outputs have changed, and no others
  obtain ⟨htook, hkept⟩ := htried.find?_fused hr
  have hids := htried.ids hr
  have hne := htried.ne_nil
  obtain ⟨q, hq, -, hnoted⟩ := noted_fused r o p g hne
  rw [hids] at hnoted
  refine ⟨fun x id => ?_, fun x id hid => ?_⟩
  · rw [hnoted.readers, hq]
    -- a kernel of the fusion reads what it read and what the stage reads, without the outputs
    by_cases hin : id ∈ r.candidates p.names
    · obtain ⟨K, K', hK, hK', hextends⟩ := htook id hin
      rw [h.readers]
      simp only [hK, hK', Option.some.injEq, exists_eq_left', hextends.wholeNames, hin]
      tauto
    · rw [hkept id hin, ← h.readers]
      -- any other kernel reads what it read, and no output is among that
      refine ⟨fun hx => hx.elim And.right fun hx => absurd hx.2 hin, fun hx =>
        .inl ⟨fun hp => ?_, hx⟩⟩
      exact hin (mem_candidates.2 ⟨x, hp, hx⟩)
  · -- a name is produced by the first of the kernels if it was fused, or as before
    obtain ⟨k, ks, rfl⟩ := List.exists_cons_of_ne_nil hne
    rw [(absorbed_fused r o p g k ks).producers] at hid
    split at hid
    · rename_i hx
      cases hid
      obtain ⟨K, K', -, hK', hextends⟩ := htook k.id (hids ▸ List.mem_cons_self)
      exact ⟨K', hK', .inr (hextends.fused ▸ List.mem_append_right _ hx.1)⟩
    · obtain ⟨K, hK, hx⟩ := h.producers x id hid
      by_cases hin : id ∈ r.candidates p.names
      · obtain ⟨L, K', hL, hK', hextends⟩ := htook id hin
        cases hL.symm.trans hK
        refine ⟨K', hK', ?_⟩
        rw [hextends.pattern, hextends.fused, List.mem_append]
        exact hx.imp_right .inl
      · exact ⟨K, hkept id hin ▸ hK, hx⟩

/-- A new kernel is listed as a reader of what it reads, and as the producer of what it computes. -/
theorem register (h : r.Indexed) (hK : r.kernels.find? K.id = none) : (r.register K).Indexed := by
  have hregistered := registered_register r K
  refine ⟨fun x id => ?_, fun x id hid => ?_⟩
  · rw [(noted_register r K).readers, h.readers, hregistered.kernels, List.mem_singleton]
    -- nothing was known of the new kernel, so its names are those of its stage
    by_cases hid : id = K.id
    · subst hid
      simp [hK]
    · simp [hid]
  · simp only [hregistered.kernels]
    rw [hregistered.producers] at hid
    split at hid
    · cases hid
      exact ⟨K, if_pos rfl, .inl ‹_›⟩
    · obtain ⟨L, hL, hx⟩ := h.producers x id hid
      refine ⟨L, ?_, hx⟩
      rwa [if_neg]
      rintro rfl
      cases hK.symm.trans hL

/-- What is left behind agrees when the kernels are dropped that nothing was fused into. -/
theorem dropUnfused (h : r.Indexed) : r.dropUnfused.Indexed := by
  refine ⟨fun x id => ?_, fun x id hid => ?_⟩
  · rw [mem_consumersOf_dropUnfused_iff, h.readers]
    simp only [Coherent.find?_dropUnfused]
    constructor
    · rintro ⟨⟨K, hK, hx⟩, halive⟩
      exact ⟨K, ⟨hK, halive⟩, hx⟩
    · rintro ⟨K, ⟨hK, halive⟩, hx⟩
      exact ⟨⟨K, hK, hx⟩, halive⟩
  · obtain ⟨hid, halive⟩ := Coherent.producerOf_dropUnfused.1 hid
    obtain ⟨K, hK, hx⟩ := h.producers x id hid
    exact ⟨K, Coherent.find?_dropUnfused.2 ⟨hK, halive⟩, hx⟩

end Indexed

end Registry

/-- Every step of an analysis keeps the index. -/
theorem Course.indexed {c : Config} {l : Log} {r r' : Registry} {a b : Progress} {m : Nat}
    (h : Course c l r a r' b) (hr : r.Indexed) (hn : r.Numbered m a.nextKernel)
    (hm : m ≤ a.nextKernel) : r'.Indexed := by
  induction h generalizing m with
  | nil => exact hr
  | forbid xs => exact hr.forbid xs
  | noteUpdate x => exact hr.noteUpdate x
  | append h _ ih ih' =>
    obtain ⟨hle, hn'⟩ := h.numbered hn hm
    exact ih' (ih hr hn hm) hn' (Nat.le_trans hm hle)
  -- the region starts from nothing, and with later numbers
  | meet xs ys h _ ih =>
    have hempty := Registry.numbered_empty
    exact ((hr.union (ih Registry.indexed_empty (hempty _ _) (Nat.le_refl _)) hn
      (h.numbered (hempty _ _) (Nat.le_refl _)).2).forbid xs).forbid ys
  | place _ _ _ _ _ hdecided =>
    cases hdecided with
    | fused htried => exact hr.fused hn htried
    | stays => exact hr
    | registered _ _ _ hK =>
      exact hr.register ((Placed.isNew hK).id ▸ hn.find?_next)

end ArrayFusion
