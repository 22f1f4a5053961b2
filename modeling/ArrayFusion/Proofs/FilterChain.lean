import ArrayFusion.Proofs.Guarding

/-!
# A filter behind a filter

The composition of two filters reads the operands of the first one in the order in which the second
one reads its outputs, so that the outputs keep their places; the operands that only the first
predicate needs come behind them (`Recipe.Chained`).  It keeps an element where both predicates
accept it (`Recipe.Chained.test`).
-/

namespace ArrayFusion

open Eval (Yields Uniform)

namespace Recipe

/-! ## New names -/

/-- Identifiers that were just handed out.  They are distinct if there are tags for them. -/
structure HandedOut (s s' : NameSupply) (xs : List Ident) : Prop where
  supply : s.count ≤ s'.count
  nodup : s'.InRange → (Pattern.names xs).Nodup
  fresh : ∀ x ∈ Pattern.names xs, x ∈ s.until s'

/-- A fresh identifier takes the next tag. -/
theorem identLike_eq_ok {x y : Ident} {s s' : NameSupply}
    (h : Fresh.identLike x s = .ok (y, s')) : y.name.tag = s.next ∧ s'.count = s.count + 1 := by
  cases h
  exact ⟨rfl, rfl⟩

/-- Fresh identifiers for a list are handed out one after the other. -/
theorem handedOut_mapM {α : Type} {f : α → Ident} {as : List α} {s s' : NameSupply}
    {xs : List Ident} (h : (as.mapM fun a => Fresh.identLike (f a)) s = .ok (xs, s')) :
    HandedOut s s' xs ∧ xs.length = as.length := by
  induction as generalizing s xs with
  | nil =>
    obtain ⟨rfl, rfl⟩ := State.pure_eq_ok.1 h
    exact ⟨⟨Nat.le_refl _, fun _ => List.nodup_nil, fun x hx => nomatch hx⟩, rfl⟩
  | cons a as ih =>
    rw [List.mapM_cons] at h
    obtain ⟨x, s₁, hx, h₁⟩ := State.bind_eq_ok.1 h
    obtain ⟨ys, s₂, hys, h₂⟩ := State.bind_eq_ok.1 h₁
    obtain ⟨rfl, rfl⟩ := State.pure_eq_ok.1 h₂
    obtain ⟨htag, hcount⟩ := identLike_eq_ok hx
    obtain ⟨ih, hlen⟩ := ih hys
    have hle := ih.supply
    refine ⟨⟨by omega, fun hroom => List.nodup_cons.2 ⟨fun hmem => ?_, ih.nodup hroom⟩, ?_⟩,
      by rw [List.length_cons, List.length_cons, hlen]⟩
    · -- the others are handed out behind the first one
      have hlow : s₁.count ≤ x.name.tag := hroom.le_of_mem_until (ih.fresh _ hmem)
      have heq : s.next = s.count := hroom.next_eq (by omega)
      omega
    · intro y hy
      rcases List.mem_cons.1 hy with rfl | hy
      · exact NameSupply.mem_until_of_tag_eq htag (by omega)
      · exact NameSupply.until_subset (by omega) (Nat.le_refl _) (ih.fresh y hy)

/-! ## The operands in the order of the consumer -/

/-- What `readInOrder` makes of some readers when the positions `seen` were read before. -/
structure InOrder (seen : List Nat) (readers : List (Ident × Nat × Source)) (s s' : NameSupply)
    (read : List (Ident × Ident × Operand)) : Prop where
  supply : s.count ≤ s'.count
  same : List.Forall₂ (fun r e => e.1 = r.1 ∧ e.2.2 = r.2.2.operand) readers read
  first : ∀ r ∈ readers, r.2.1 ∉ seen → (r.2.2.param, r.2.2.operand) ∈ read.map (·.2)
  source : ∀ e ∈ read, e.2.1.name ∈ s.until s' ∨
    ∃ r ∈ readers, r.2.1 ∉ seen ∧ e.2 = (r.2.2.param, r.2.2.operand)
  nodup : (Pattern.names (read.map (·.2.1))).Nodup

/-- The first reader gets the parameter of its source, or a fresh one if the output was read before.
-/
theorem readInOrder_cons_eq_ok {seen : List Nat} {q : Ident} {i : Nat} {source : Source}
    {readers : List (Ident × Nat × Source)} {s s' : NameSupply}
    {read : List (Ident × Ident × Operand)}
    (h : readInOrder seen ((q, i, source) :: readers) s = .ok (read, s')) :
    ∃ x s₁ rest, (i ∈ seen ∧ x.name.tag = s.next ∧ s₁.count = s.count + 1
        ∨ i ∉ seen ∧ x = source.param ∧ s₁ = s)
      ∧ readInOrder (i :: seen) readers s₁ = .ok (rest, s')
      ∧ read = (q, x, source.operand) :: rest := by
  rw [readInOrder] at h
  split at h
  · -- the output was read before, so the reader gets a fresh name
    rename_i hseen
    obtain ⟨x, s₁, hx, h₁⟩ := State.bind_eq_ok.1 h
    obtain ⟨rest, s₂, hrest, h₂⟩ := State.bind_eq_ok.1 h₁
    obtain ⟨rfl, rfl⟩ := State.pure_eq_ok.1 h₂
    exact ⟨x, s₁, rest, .inl ⟨List.contains_iff_mem.1 hseen, identLike_eq_ok hx⟩, hrest, rfl⟩
  · -- it is read for the first time, and the parameter of the producer stands for it
    rename_i hseen
    obtain ⟨_, s₁, hx, h₁⟩ := State.bind_eq_ok.1 h
    obtain ⟨rfl, rfl⟩ := State.pure_eq_ok.1 hx
    obtain ⟨rest, s₂, hrest, h₂⟩ := State.bind_eq_ok.1 h₁
    obtain ⟨rfl, rfl⟩ := State.pure_eq_ok.1 h₂
    refine ⟨source.param, _, rest, .inr ⟨?_, rfl, rfl⟩, hrest, rfl⟩
    exact fun hmem => hseen (List.contains_iff_mem.2 hmem)

/-- Whatever is read in order comes from a source, and so does its parameter, or it is fresh. -/
theorem source_of_readInOrder {seen : List Nat} {readers : List (Ident × Nat × Source)}
    {s s' : NameSupply} {read : List (Ident × Ident × Operand)}
    (h : readInOrder seen readers s = .ok (read, s')) : s.count ≤ s'.count
      ∧ List.Forall₂ (fun r e => e.1 = r.1 ∧ e.2.2 = r.2.2.operand
        ∧ (e.2.1 = r.2.2.param ∨ e.2.1.name ∈ s.until s')) readers read := by
  induction readers generalizing seen s read with
  | nil =>
    obtain ⟨rfl, rfl⟩ := State.pure_eq_ok.1 h
    exact ⟨Nat.le_refl _, .nil⟩
  | cons r readers ih =>
    obtain ⟨q, i, source⟩ := r
    obtain ⟨x, s₁, rest, hx, hrest, rfl⟩ := readInOrder_cons_eq_ok h
    obtain ⟨hle, hall⟩ := ih hrest
    -- fresh, or the parameter of the producer
    rcases hx with ⟨-, htag, hcount⟩ | ⟨-, rfl, rfl⟩
    · refine ⟨by omega, .cons ⟨rfl, rfl, .inr (NameSupply.mem_until_of_tag_eq htag (by omega))⟩
        (hall.imp fun _ _ he => ?_)⟩
      exact ⟨he.1, he.2.1, he.2.2.imp_right fun hx =>
        NameSupply.until_subset (by omega) (Nat.le_refl _) hx⟩
    · exact ⟨hle, .cons ⟨rfl, rfl, .inl rfl⟩ hall⟩

/-- What is read in order is bound to different names, and each reader to its own source. -/
theorem readInOrder_eq_ok {seen : List Nat} {readers : List (Ident × Nat × Source)}
    {s s' : NameSupply} {read : List (Ident × Ident × Operand)}
    (hbelow : ∀ r ∈ readers, r.2.2.param.name.tag < s.count)
    (hinj : ∀ r ∈ readers, ∀ r' ∈ readers, r.2.2.param.name = r'.2.2.param.name → r.2.1 = r'.2.1)
    (hsource : ∀ r ∈ readers, ∀ r' ∈ readers, r.2.1 = r'.2.1 → r.2.2 = r'.2.2)
    (h : readInOrder seen readers s = .ok (read, s')) (hroom : s'.InRange) :
    InOrder seen readers s s' read := by
  induction readers generalizing seen s read with
  | nil =>
    obtain ⟨rfl, rfl⟩ := State.pure_eq_ok.1 h
    exact ⟨Nat.le_refl _, .nil, fun _ hr => absurd hr List.not_mem_nil,
      fun _ he => absurd he List.not_mem_nil, List.nodup_nil⟩
  | cons r readers ih =>
    obtain ⟨q, i, source⟩ := r
    obtain ⟨x, s₁, rest, hx, hrest, rfl⟩ := readInOrder_cons_eq_ok h
    have hle : s.count ≤ s₁.count := by
      rcases hx with ⟨-, -, hcount⟩ | ⟨-, -, rfl⟩
      · omega
      · exact Nat.le_refl _
    have hsupply := (source_of_readInOrder hrest).1
    have hnext (hlt : s.count < s₁.count) : s.next = s.count := hroom.next_eq (by omega)
    have hmem {r : Ident × Nat × Source} (hr : r ∈ readers) : r ∈ (q, i, source) :: readers :=
      List.mem_cons_of_mem _ hr
    have ih := ih (fun r hr => Nat.lt_of_lt_of_le (hbelow r (hmem hr)) hle)
      (fun r hr r' hr' => hinj r (hmem hr) r' (hmem hr'))
      (fun r hr r' hr' => hsource r (hmem hr) r' (hmem hr')) hrest
    refine ⟨hle.trans ih.supply, .cons ⟨rfl, rfl⟩ ih.same, ?_, ?_, ?_⟩
    · -- a reader of the same output has the same source, so the head stands for it
      intro r hr hseen
      by_cases hi : r.2.1 = i
      · have hsame := hsource r hr _ List.mem_cons_self hi
        rcases hx with ⟨hi', -⟩ | ⟨-, rfl, -⟩
        · exact absurd (hi ▸ hi') hseen
        · rw [hsame]
          exact List.mem_cons_self
      · rcases List.mem_cons.1 hr with rfl | hr
        · exact absurd rfl hi
        · refine List.mem_cons_of_mem _ (ih.first r hr ?_)
          exact fun h => (List.mem_cons.1 h).elim hi hseen
    · intro e he
      rcases List.mem_cons.1 he with rfl | he
      · rcases hx with ⟨-, htag, hcount⟩ | ⟨hi, rfl, rfl⟩
        · exact .inl (NameSupply.mem_until_of_tag_eq htag (by omega))
        · exact .inr ⟨_, List.mem_cons_self, hi, rfl⟩
      · rcases ih.source e he with hfresh | ⟨r, hr, hseen, hparam⟩
        · exact .inl (NameSupply.until_subset hle (Nat.le_refl _) hfresh)
        · exact .inr ⟨r, hmem hr, fun h => hseen (List.mem_cons_of_mem _ h), hparam⟩
    · -- a later entry of this name would be fresh, or the first to read an output that was seen
      refine List.nodup_cons.2 ⟨fun hx' => ?_, ih.nodup⟩
      obtain ⟨y, hy, hxy⟩ := List.mem_map.1 hx'
      obtain ⟨e, he, rfl⟩ := List.mem_map.1 hy
      change e.2.1.name = x.name at hxy
      rcases ih.source e he with hfresh | ⟨r, hr, hseen, hparam⟩
      · have hlow : s₁.count ≤ x.name.tag := by
          rw [← hxy]
          exact hroom.le_of_mem_until hfresh
        rcases hx with ⟨-, htag, hcount⟩ | ⟨-, rfl, rfl⟩
        · have heq := hnext (by omega)
          omega
        · exact absurd (hbelow _ List.mem_cons_self) (Nat.not_lt.2 hlow)
      · rw [hparam] at hxy
        rcases hx with ⟨-, htag, hcount⟩ | ⟨-, rfl, -⟩
        · have hlow := hbelow r (hmem hr)
          rw [show r.2.2.param.name = x.name from hxy, htag, hnext (by omega)] at hlow
          exact Nat.lt_irrefl _ hlow
        · refine hseen (List.mem_cons.2 (.inl ?_))
          exact hinj r (hmem hr) _ List.mem_cons_self hxy

/-! ## The composition -/

/-- Lists that are related to a third one are related to each other. -/
theorem forall₂_of_two {α β γ : Type} {P : α → β → Prop} {Q : β → γ → Prop} {R : α → γ → Prop}
    {as : List α} {bs : List β} {cs : List γ} (h : List.Forall₂ P as bs) (h' : List.Forall₂ Q bs cs)
    (hR : ∀ a, ∀ b ∈ bs, ∀ c, P a b → Q b c → R a c) : List.Forall₂ R as cs := by
  induction h generalizing cs with
  | nil =>
    cases h'
    exact .nil
  | cons hab _ ih =>
    cases h' with
    | cons hbc h' =>
      exact .cons (hR _ _ List.mem_cons_self _ hab hbc)
        (ih h' fun a b hb => hR a b (List.mem_cons_of_mem _ hb))

/-- The sources are the parameters with their operands. -/
theorem map_param_sources {outs params : List Ident} {operands : List Operand}
    (houts : outs.length = operands.length) (hparams : params.length = operands.length) :
    (sources outs params operands).map (fun s => (s.param, s.operand)) = params.zip operands := by
  rw [sources, List.map_map]
  change (outs.zip (params.zip operands)).map Prod.snd = params.zip operands
  refine List.map_snd_zip ?_
  rw [List.length_zip, hparams, houts, Nat.min_self]

/-- The sources that no reader reads. -/
def unreadSources (ss : List Source) (readers : List (Ident × Nat × Source)) : List Source :=
  (ss.zipIdx.filter fun (_, i) => !readers.any (·.2.1 == i)).map (·.1)

/-- A source is not read if no reader has its index. -/
theorem mem_unreadSources {ss : List Source} {readers : List (Ident × Nat × Source)} {s : Source} :
    s ∈ unreadSources ss readers ↔ ∃ i, ss[i]? = some s ∧ ∀ r ∈ readers, r.2.1 ≠ i := by
  rw [unreadSources, List.mem_map]
  constructor
  · rintro ⟨⟨_, i⟩, h, rfl⟩
    obtain ⟨hmem, hread⟩ := List.mem_filter.1 h
    refine ⟨i, List.mk_mem_zipIdx_iff_getElem?.1 hmem, fun r hr hi => ?_⟩
    simp only [Bool.not_eq_true', List.any_eq_false, beq_iff_eq] at hread
    exact hread r hr hi
  · rintro ⟨i, hi, hread⟩
    refine ⟨(s, i), List.mem_filter.2 ⟨List.mk_mem_zipIdx_iff_getElem?.2 hi, ?_⟩, rfl⟩
    simp only [Bool.not_eq_true', List.any_eq_false, beq_iff_eq]
    exact hread

/-- The sources that are not read stand in the order of all sources. -/
theorem unreadSources_sublist (ss : List Source) (readers : List (Ident × Nat × Source)) :
    (unreadSources ss readers).Sublist ss := by
  have h : ss = ss.zipIdx.map (·.1) := (List.zipIdx_map_fst 0 ss).symm
  conv => rhs; rw [h]
  exact List.filter_sublist.map _

/-- What is known about the parameters of a composition of two filters and about its operands: those
that the consumer reads, with the parameters of the consumer, and those that it does not. -/
structure Chain (p c : Lambda) (pOperands cOperands : List Operand) (outs : List Ident)
    (s s' : NameSupply) (read : List (Ident × Ident × Operand)) (unread : List (Ident × Operand)) :
    Prop where
  supply : s.count ≤ s'.count
  room : s'.InRange
  reads : List.Forall₂ (fun e d => d.1 = e.1 ∧ ∃ k, link outs e.2 = some k
    ∧ pOperands[k]? = some d.2.2) (c.params.zip cOperands) read
  covers : ∀ e ∈ p.params.zip pOperands, e ∈ read.map (·.2) ++ unread
  source : ∀ e ∈ read.map (·.2) ++ unread,
    e.2 ∈ pOperands ∧ (e.1 ∈ p.params ∨ e.1.name ∈ s.until s')
  nodup : (Pattern.names ((read.map (·.2) ++ unread).map (·.1))).Nodup

section

variable {ss : List Source} {ps : List Ident} {as : List Operand} {s s' : NameSupply}
  {readers : List (Ident × Nat × Source)} {read : List (Ident × Ident × Operand)}
  (hss : ss.map (fun s => (s.param, s.operand)) = ps.zip as)

include hss

/-- A source has a parameter and an operand of the producer. -/
theorem mem_of_source {i : Nat} {a : Source} (ha : ss[i]? = some a) :
    a.param ∈ ps ∧ a.operand ∈ as := by
  have hmem : (a.param, a.operand) ∈ ss.map fun s => (s.param, s.operand) :=
    List.mem_map_of_mem (List.mem_of_getElem? ha)
  rw [hss] at hmem
  exact List.of_mem_zip hmem

/-- Two sources with one parameter are the same. -/
theorem source_unique (hlen : ps.length = as.length) (hps : (Pattern.names ps).Nodup) {i j : Nat}
    {a b : Source} (ha : ss[i]? = some a) (hb : ss[j]? = some b)
    (hab : a.param.name = b.param.name) : i = j := by
  have hnames : ss.map (·.param.name) = Pattern.names ps := by
    rw [Pattern.names, ← List.map_fst_zip (Nat.le_of_eq hlen), ← hss, List.map_map, List.map_map]
    rfl
  have hi : (ss.map (·.param.name))[i]? = some a.param.name := by rw [List.getElem?_map, ha]; rfl
  have hj : (ss.map (·.param.name))[j]? = some b.param.name := by rw [List.getElem?_map, hb]; rfl
  have hlt := (List.getElem?_eq_some_iff.1 hi).1
  rw [hnames] at hi hj hlt
  refine (List.getElem?_inj hlt hps).1 ?_
  rw [hi, hj, hab]

variable (hget : ∀ r ∈ readers, ss[r.2.1]? = some r.2.2)

include hget

/-- Every source is read by someone or else left over. -/
theorem mem_read_or_unread (horder : InOrder [] readers s s' read) {e : Ident × Operand}
    (he : e ∈ ps.zip as) :
    e ∈ read.map (·.2) ++ (unreadSources ss readers).map fun s => (s.param, s.operand) := by
  rw [← hss] at he
  obtain ⟨a, ha, rfl⟩ := List.mem_map.1 he
  obtain ⟨i, hi⟩ := List.mem_iff_getElem?.1 ha
  by_cases hread : ∃ r ∈ readers, r.2.1 = i
  · obtain ⟨r, hr, rfl⟩ := hread
    have hsame := Option.some.inj ((hget r hr).symm.trans hi)
    refine List.mem_append_left _ ?_
    rw [← hsame]
    exact horder.first r hr List.not_mem_nil
  · refine List.mem_append_right _ (List.mem_map.2 ⟨a, mem_unreadSources.2 ⟨i, hi, ?_⟩, rfl⟩)
    exact fun r hr h => hread ⟨r, hr, h⟩

/-- A parameter is that of a source or fresh. -/
theorem param_read_or_unread (horder : InOrder [] readers s s' read) {e : Ident × Operand}
    (he : e ∈ read.map (·.2) ++ (unreadSources ss readers).map fun s => (s.param, s.operand)) :
    e.1 ∈ ps ∨ e.1.name ∈ s.until s' := by
  rcases List.mem_append.1 he with he | he
  · obtain ⟨d, hd, rfl⟩ := List.mem_map.1 he
    rcases horder.source d hd with hfresh | ⟨r, hr, -, heq⟩
    · exact .inr hfresh
    · rw [heq]
      exact .inl (mem_of_source hss (hget r hr)).1
  · obtain ⟨a, ha, rfl⟩ := List.mem_map.1 he
    obtain ⟨i, hi, -⟩ := mem_unreadSources.1 ha
    exact .inl (mem_of_source hss hi).1

/-- The parameters are different: a source that was read is not left over. -/
theorem nodup_read_unread (hlen : ps.length = as.length) (hps : (Pattern.names ps).Nodup)
    (hbelow : ∀ x ∈ ps, x.name.tag < s.count) (hroom : s'.InRange)
    (horder : InOrder [] readers s s' read) : (Pattern.names ((read.map (·.2)
      ++ (unreadSources ss readers).map fun s => (s.param, s.operand)).map (·.1))).Nodup := by
  rw [List.map_append, Pattern.names_append]
  refine List.nodup_append.2 ⟨?_, hps.sublist (.map _ ?_), ?_⟩
  · rw [List.map_map]
    exact horder.nodup
  · have hsub := ((unreadSources_sublist ss readers).map fun s => (s.param, s.operand)).map Prod.fst
    rwa [hss, List.map_fst_zip (Nat.le_of_eq hlen)] at hsub
  · -- what is read is fresh or a parameter of a source that is read, and so not one of the others
    intro x hx y hy hxy
    obtain ⟨q, hq, rfl⟩ := List.mem_map.1 hx
    obtain ⟨e, he, rfl⟩ := List.mem_map.1 hq
    obtain ⟨d, hd, rfl⟩ := List.mem_map.1 he
    obtain ⟨q', hq', rfl⟩ := List.mem_map.1 hy
    obtain ⟨e', he', rfl⟩ := List.mem_map.1 hq'
    obtain ⟨a, ha, rfl⟩ := List.mem_map.1 he'
    obtain ⟨i, hi, hnot⟩ := mem_unreadSources.1 ha
    rcases horder.source d hd with hfresh | ⟨r, hr, -, heq⟩
    · have hlow := hroom.le_of_mem_until hfresh
      rw [hxy] at hlow
      exact absurd (hbelow _ (mem_of_source hss hi).1) (Nat.not_lt.2 hlow)
    · rw [heq] at hxy
      exact hnot r hr (source_unique hss hlen hps (hget r hr) hi hxy)

end

/-- The reading in order of two filters makes a chain of them. -/
theorem chain_of_readInOrder {p c : Lambda} {pOperands cOperands : List Operand}
    {outs : List Ident} {s s' : NameSupply} (hapart : Apart p c s)
    (hp : p.params.length = pOperands.length) (houts : outs.length = pOperands.length)
    {readers : List (Ident × Nat × Source)} {read : List (Ident × Ident × Operand)}
    (hreaders? : readers? (sources outs p.params pOperands) c.params cOperands = some readers)
    (hread : readInOrder [] readers s = .ok (read, s')) (hroom : s'.InRange) :
    Chain p c pOperands cOperands outs s s' read
      ((unreadSources (sources outs p.params pOperands) readers).map fun s =>
        (s.param, s.operand)) := by
  have hreaders := readers_of_readers? hreaders?
  have hss := map_param_sources houts hp
  have hget : ∀ r ∈ readers, (sources outs p.params pOperands)[r.2.1]? = some r.2.2 := by
    intro r hr
    obtain ⟨e, -, -, -, h⟩ := exists_of_forall₂ hreaders hr
    exact h
  have hbelow : ∀ x ∈ p.params, x.name.tag < s.count := fun x hx =>
    hapart.below _ (List.mem_map_of_mem (List.mem_append_right _ hx))
  -- two readers of one output have one source, for its parameters are different
  have horder : InOrder [] readers s s' read := by
    refine readInOrder_eq_ok (fun r hr => hbelow _ (mem_of_source hss (hget r hr)).1)
      (fun r hr r' hr' => source_unique hss hp hapart.nodup.1 (hget r hr) (hget r' hr'))
      (fun r hr r' hr' h => ?_) hread hroom
    exact Option.some.inj ((hget r hr).symm.trans (h ▸ hget r' hr'))
  -- each operand of the consumer is an output, and is read at the operand in its place
  have hreads : List.Forall₂ (fun e d => d.1 = e.1 ∧ ∃ k, link outs e.2 = some k
      ∧ pOperands[k]? = some d.2.2) (c.params.zip cOperands) read := by
    refine forall₂_of_two hreaders horder.same fun e r hr d he hd => ?_
    obtain ⟨hparam, hlink, -⟩ := he
    rw [map_output_sources houts hp] at hlink
    exact ⟨hd.1.trans hparam, r.2.1, hlink, hd.2 ▸ (sources_getElem? (hget r hr)).2⟩
  refine ⟨horder.supply, hroom, hreads, fun e he =>
    mem_read_or_unread hss hget horder he, fun e he => ⟨?_, ?_⟩,
    nodup_read_unread hss hget hp hapart.nodup.1 hbelow hroom horder⟩
  · rcases List.mem_append.1 he with he | he
    · obtain ⟨d, hd, rfl⟩ := List.mem_map.1 he
      obtain ⟨_, -, -, k, -, hk⟩ := exists_of_forall₂ hreads hd
      exact List.mem_of_getElem? hk
    · obtain ⟨a, ha, rfl⟩ := List.mem_map.1 he
      obtain ⟨i, hi, -⟩ := mem_unreadSources.1 ha
      exact (mem_of_source hss hi).2
  · exact param_read_or_unread hss hget horder he

theorem map_fst_pairs (read : List (Ident × Ident × Operand)) (unread : List Source) :
    (read.map (·.2) ++ unread.map fun s => (s.param, s.operand)).map (·.1)
      = read.map (·.2.1) ++ unread.map (·.param) := by
  rw [List.map_append, List.map_map, List.map_map]
  rfl

theorem map_snd_pairs (read : List (Ident × Ident × Operand)) (unread : List Source) :
    (read.map (·.2) ++ unread.map fun s => (s.param, s.operand)).map (·.2)
      = read.map (·.2.2) ++ unread.map (·.operand) := by
  rw [List.map_append, List.map_map, List.map_map]
  rfl

/-- The parts that a composition of two filters is made of. -/
theorem filterAfterFilter_eq_ok {p c : Lambda} {pOperands cOperands : List Operand}
    {outs cOutputs : List Ident} {s s' : NameSupply} {r : Lambda × List Operand × List Ident}
    (h : filterAfterFilter p pOperands outs c cOperands cOutputs s = .ok (some r, s')) :
    p.params.length = pOperands.length ∧ c.params.length = cOperands.length ∧
      ∃ readers read s₁ unused s₂ check,
        readers? (sources outs p.params pOperands) c.params cOperands = some readers
        ∧ readInOrder [] readers s = .ok (read, s₁)
        ∧ (unreadSources (sources outs p.params pOperands) readers).mapM
            (fun s => Fresh.identLike s.output) s₁ = .ok (unused, s₂)
        ∧ check.name.tag = s₂.next ∧ s'.count = s₂.count + 1
        ∧ r = (⟨read.map (·.2.1)
              ++ (unreadSources (sources outs p.params pOperands) readers).map (·.param),
            .bind [check] p.body (.cond (.ofIdent check)
              (forward (read.map fun d => (d.1, d.2.1)) c.body) (.lit (.bool false) .dummy) .bool
                .dummy), [.bool]⟩,
          read.map (·.2.2)
            ++ (unreadSources (sources outs p.params pOperands) readers).map (·.operand),
          cOutputs ++ unused) := by
  unfold filterAfterFilter at h
  obtain ⟨_, s₁, hp, h₁⟩ := State.bind_eq_ok.1 h
  obtain ⟨hparams, rfl⟩ := Fresh.lift_eq_ok.1 hp
  obtain ⟨_, s₂, hc, h₂⟩ := State.bind_eq_ok.1 h₁
  obtain ⟨hcParams, rfl⟩ := Fresh.lift_eq_ok.1 hc
  refine ⟨checkParams_eq_ok.1 hparams, checkParams_eq_ok.1 hcParams, ?_⟩
  -- without a reader for each operand no recipe applies
  cases hreaders : readers? (sources outs p.params pOperands) c.params cOperands with
  | none =>
    rw [hreaders] at h₂
    cases (State.pure_eq_ok.1 h₂).1
  | some readers =>
    rw [hreaders] at h₂
    obtain ⟨read, s₃, hread, h₃⟩ := State.bind_eq_ok.1 h₂
    obtain ⟨unused, s₄, hunused, h₄⟩ := State.bind_eq_ok.1 h₃
    obtain ⟨body, s₅, hbody, h₅⟩ := State.bind_eq_ok.1 h₄
    obtain ⟨check, htag, hcount, rfl⟩ := guardedBy_eq_ok hbody
    obtain ⟨hr, rfl⟩ := State.pure_eq_ok.1 h₅
    exact ⟨readers, read, s₃, unused, s₄, check, rfl, hread, hunused, htag, hcount,
      Option.some.inj hr⟩

/-- The composition of two filters is a guard on a chain, as long as the tags suffice. -/
theorem filterAfterFilter_chain {p c : Lambda} {pOperands cOperands : List Operand}
    {outs cOutputs : List Ident} {s s' : NameSupply} {r : Lambda × List Operand × List Ident}
    (h : filterAfterFilter p pOperands outs c cOperands cOutputs s = .ok (some r, s'))
    (hroom : s.Serves s') (hapart : Apart p c s) (houts : outs.length = pOperands.length) :
    p.params.length = pOperands.length ∧ c.params.length = cOperands.length ∧
      ∃ s₁ s₂ read unread unused check, Chain p c pOperands cOperands outs s s₁ read unread
        ∧ HandedOut s₁ s₂ unused ∧ unused.length = unread.length
        ∧ check.name.tag = s₂.count ∧ s'.count = s₂.count + 1
        ∧ r = (⟨(read.map (·.2) ++ unread).map (·.1), .bind [check] p.body (.cond (.ofIdent check)
            (forward (read.map fun d => (d.1, d.2.1)) c.body) (.lit (.bool false) .dummy) .bool
              .dummy), [.bool]⟩,
          (read.map (·.2) ++ unread).map (·.2), cOutputs ++ unused) := by
  obtain ⟨hp, hc, readers, read, s₁, unused, s₂, check, hreaders, hread, hunused, htag,
      hcount, hr⟩ :=
    filterAfterFilter_eq_ok h
  obtain ⟨hhanded, hlength⟩ := handedOut_mapM hunused
  have hle := hhanded.supply
  have hle₁ := (source_of_readInOrder hread).1
  have hroom : s'.InRange := hroom (by omega)
  -- the last name that is taken is that of the flag, so none before it wraps
  have hroom₂ : s₂.InRange := hroom.of_le (by omega)
  refine ⟨hp, hc, s₁, s₂, read, _, unused, check,
    chain_of_readInOrder hapart hp houts hreaders hread (hroom₂.of_le hle), hhanded, ?_,
    htag.trans (hroom.next_eq (by omega)), hcount, ?_⟩
  · rw [List.length_map]
    exact hlength
  · rw [hr, map_fst_pairs, map_snd_pairs]

section

variable {w : String → Nat} {call : Callee} {env : Env} {col : Operand → Value}

/-- A chain binds what the predicate of the producer looks at, behind a guard with a fresh name. -/
theorem Chain.guarded {p c : Lambda} {pOperands cOperands : List Operand} {outs : List Ident}
    {s s' : NameSupply} {read : List (Ident × Ident × Operand)} {unread : List (Ident × Operand)}
    (h : Chain p c pOperands cOperands outs s s' read unread) (hapart : Apart p c s)
    (hrets : p.rets.length = 1) {check : Name} (hcheck : s'.count ≤ check.tag) :
    Guarded p c s col pOperands (bound col (read.map (·.2) ++ unread)) check
      (Pattern.names c.params) where
  apart := hapart
  rets := hrets
  nodup := by
    rw [map_fst_bound]
    -- what is read is bound to parameters of the producer or to fresh names
    have hpairs : ∀ x ∈ Pattern.names ((read.map (·.2) ++ unread).map (·.1)),
        x.tag < s'.count ∧ x ∉ Pattern.names c.params := by
      intro x hx
      obtain ⟨q, hq, rfl⟩ := List.mem_map.1 hx
      obtain ⟨e, he, rfl⟩ := List.mem_map.1 hq
      have hbelow : ∀ y ∈ Pattern.names (c.params ++ p.params), y.tag < s.count := hapart.below
      have hparams := hapart.params
      rw [Pattern.names_append] at hbelow hparams
      rcases (h.source e he).2 with hp | hfresh
      · have hmem : e.1.name ∈ Pattern.names p.params := List.mem_map_of_mem hp
        refine ⟨(hbelow _ (List.mem_append_right _ hmem)).trans_le h.supply, fun hc => ?_⟩
        exact (List.nodup_append.1 hparams).2.2 _ hc _ hmem rfl
      · refine ⟨NameSupply.lt_of_mem_until hfresh, fun hc => ?_⟩
        exact absurd (hbelow _ (List.mem_append_left _ hc))
          (Nat.not_lt.2 (h.room.le_of_mem_until hfresh))
    -- the flag is fresh
    have hc : check ∉ Pattern.names c.params := fun hmem => by
      refine absurd (hapart.below check ?_) (Nat.not_lt.2 (h.supply.trans hcheck))
      rw [Pattern.names_append]
      exact List.mem_append_left _ hmem
    refine List.nodup_append.2 ⟨h.nodup, List.nodup_cons.2 ⟨hc, hapart.nodup.2⟩, ?_⟩
    rintro x hx y hy rfl
    rcases List.mem_cons.1 hy with rfl | hy
    · exact absurd (hpairs x hx).1 (Nat.not_lt.2 hcheck)
    · exact (hpairs x hx).2 hy
  producer := fun b hb => by
    obtain ⟨e, he, rfl⟩ := List.mem_map.1 hb
    exact List.mem_map_of_mem (h.covers e he)
  names := by
    intro b hb
    obtain ⟨e, he, rfl⟩ := List.mem_map.1 hb
    rcases (h.source e he).2 with hp | hfresh
    · exact .inl (List.mem_map_of_mem (List.mem_append_right _ hp))
    · exact .inr (h.room.le_of_mem_until hfresh)
  check := h.supply.trans hcheck

/-- The names of a list are bound to the columns of their operands. -/
theorem zip_names_map (es : List (Ident × Operand)) :
    (Pattern.names (es.map (·.1))).zip ((es.map (·.2)).map col) = bound col es := by
  rw [Pattern.names, List.map_map, List.map_map, List.zip_map', bound]
  rfl

/-- A chain forwards to all parameters of the consumer, in order. -/
theorem Chain.map_fst {p c : Lambda} {pOperands cOperands : List Operand} {outs : List Ident}
    {s s' : NameSupply} {read : List (Ident × Ident × Operand)} {unread : List (Ident × Operand)}
    (h : Chain p c pOperands cOperands outs s s' read unread)
    (hc : c.params.length = cOperands.length) :
    (read.map fun d => (d.1, d.2.1)).map (·.1) = c.params := by
  have hfst := map_fst_of_forall₂ (fun _ _ h => h.1) h.reads
  rw [List.map_map, ← List.map_fst_zip (Nat.le_of_eq hc), ← hfst]
  rfl

/-- The composition of two filters keeps an element where both predicates accept it. -/
theorem filterAfterFilter_test {p c : Lambda} {pOperands cOperands : List Operand}
    {outs cOutputs : List Ident} {s s' : NameSupply} {r : Lambda × List Operand × List Ident}
    (h : filterAfterFilter p pOperands outs c cOperands cOutputs s = .ok (some r, s'))
    (hroom : s.Serves s') (hapart : Apart p c s) (hrets : p.rets.length = 1)
    (hc : c.rets.length = 1) (hu : ∀ fn args, Uniform (call fn args))
    (houts : outs.length = pOperands.length) {flag verdict : Bool} {i j : Nat}
    (hflag : Yields w (p.test call env (pOperands.map col)) flag i) {col' : Operand → Value}
    (hlink : flag = true → ∀ a ∈ cOperands, ∀ k b, link outs a = some k → pOperands[k]? = some b →
      col' a = col b)
    (ht : if flag then Yields w (c.test call env (cOperands.map col')) verdict j
      else verdict = false ∧ j = 0) :
    Yields w (r.1.test call env (r.2.1.map col)) verdict (i + j) := by
  obtain ⟨hp, hcLength, s₁, s₂, read, unread, unused, check, hchain, hhanded, -, htag, -, rfl⟩ :=
    filterAfterFilter_chain h hroom hapart houts
  have hguarded : Guarded p c s col pOperands _ check.name _ :=
    hchain.guarded hapart hrets (hhanded.supply.trans (Nat.le_of_eq htag.symm))
  refine (Lambda.yields_test_iff hu rfl).2 ⟨?_, ?_⟩
  · rw [List.length_map, List.length_map, List.length_map]
  change Yields w ((Exp.bind [check] p.body _).eval call (env.extendMany
    ((Pattern.names ((read.map (·.2) ++ unread).map (·.1))).zip
      (((read.map (·.2) ++ unread).map (·.2)).map col)))) (.bool verdict) (i + j)
  rw [zip_names_map]
  -- the predicate of the consumer is evaluated only if the one of the producer accepts
  cases flag with
  | false =>
    obtain ⟨rfl, rfl⟩ := ht
    exact hguarded.yields_rejected hu hflag (.pure _)
  | true =>
    -- all parameters of the consumer are forwarded, for a filter has no accumulators
    have hforwards : (read.map fun d => (d.1, d.2.1)).map (·.1) = c.params.drop 0 :=
      hchain.map_fst hcLength
    rw [← List.drop_zero (l := c.params), ← hforwards] at hguarded
    obtain ⟨-, hbody⟩ := (Lambda.yields_test_iff hu hc).1 ht
    refine hguarded.yields_accepted hu hflag (rfl : ([] : List Value).length = 0)
      (by rw [hcLength, List.length_nil, Nat.zero_add]) (fun b hb => ?_) hforwards (fun b hb => ?_)
      hbody
    · rw [List.zip_nil_right] at hb
      cases hb
    · obtain ⟨d, hd, rfl⟩ := List.mem_map.1 hb
      obtain ⟨e, he, hparam, k, hk, hget⟩ := exists_of_forall₂ hchain.reads hd
      refine ⟨e.2, ?_, ?_⟩
      · rw [hparam]
        exact he
      · rw [hlink rfl e.2 (List.of_mem_zip he).2 k _ hk hget]
        exact List.mem_map.2 ⟨d.2, List.mem_append_left _ (List.mem_map_of_mem hd), rfl⟩

end

end Recipe

end ArrayFusion
