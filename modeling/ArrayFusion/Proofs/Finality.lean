import ArrayFusion.Proofs.Analyses
import ArrayFusion.Proofs.Choices
import ArrayFusion.Proofs.NormalPass
import ArrayFusion.Proofs.Refusals

/-!
# Decisions are final

One pass decides about each `let` once, and it is never worth while to ask again: whatever it
decided about is refused by the registry that it ends with (`FunDef.final_of_fuse`).  A `let` that
was fused into its consumers has no readers any more, and what was refused at its turn is refused
for good.  So another pass fuses only what the emission of the first one brings to light.

The analysis walks backwards, so what is decided later is code in front of the `let`, and it cannot
use the names that the `let` binds; the code around a region cannot use what is bound in the region.
`Concludes` says of the analysis of a piece of code which names these are.
-/

namespace ArrayFusion

/-! ## Courses, by their choices -/

section

variable {c : Config} {ss : List Choice} {m : Registry → Analysis Registry} {r r' : Registry}
    {a b : Progress} {k : Nat}

namespace Follows

theorem numbered (h : Follows c ss m) (hrun : m r a = .ok (r', b)) (hr : r.Numbered k a.nextKernel)
    (hk : k ≤ a.nextKernel) : a.nextKernel ≤ b.nextKernel ∧ r'.Numbered k b.nextKernel := by
  obtain ⟨l, -, hl⟩ := h _ _ _ _ hrun
  exact hl.numbered hr hk

theorem readers (h : Follows c ss m) (hrun : m r a = .ok (r', b)) {x : Name} {id : KernelId}
    (hid : id ∈ r'.consumersOf x) : id ∈ r.consumersOf x ∨ ∃ s ∈ ss, x ∈ s.rhs.free false := by
  obtain ⟨l, rfl, hl⟩ := h _ _ _ _ hrun
  exact (hl.readers hid).imp_right fun ⟨e, he, hx⟩ => ⟨e.1, List.mem_map_of_mem he, hx⟩

/-- What is refused stays refused, whatever is decided about `let`s that neither bind nor use the
names. -/
theorem refused (h : Follows c ss m) (hrun : m r a = .ok (r', b)) (hr : r.Numbered k a.nextKernel)
    (hk : k ≤ a.nextKernel) (hargs : ∀ s ∈ ss, s.HasArgs) {s : Choice} (hs : s.Refused c r)
    (hnew : ∀ x ∈ s.names, ∀ s' ∈ ss, x ∉ s'.names ∧ x ∉ s'.rhs.free false) : s.Refused c r' := by
  obtain ⟨l, rfl, hl⟩ := h _ _ _ _ hrun
  rw [List.forall_mem_map] at hargs
  exact hs.imp fun g => hl.refuses hr hk hargs fun e he x hx =>
    hnew x hx e.1 (List.mem_map_of_mem he)

end Follows

end

/-! ## Pieces of code -/

theorem FreshIn.of_count {V V' : Set Name} {xs ys : List Name} (h : FreshIn V Set.univ xs)
    (hV : V' ⊆ V) (hle : ∀ x, ys.count x ≤ xs.count x) : FreshIn V' Set.univ ys where
  nodup := List.nodup_iff_count_le_one.2 fun x =>
    (hle x).trans (List.nodup_iff_count_le_one.1 h.nodup x)
  bound := fun _ _ => trivial
  new := fun x hx hin =>
    h.new x (List.count_pos_iff.1 (Nat.lt_of_lt_of_le (List.count_pos_iff.2 hx) (hle x))) (hV hin)

/-- The analysis of code that uses names of `V`, and binds the names `us`, where the `let` around it
binds the names `xs`.  If there are no readers of `us` yet, all that is decided about is refused
afterwards. -/
structure Concludes (c : Config) (V : Set Name) (xs us : List Name) (ss : List Choice)
    (m : Registry → Analysis Registry) : Prop where
  follows : Follows c ss m
  binds : ∀ s ∈ ss, ∀ x ∈ s.names, x ∈ xs ++ us
  uses : ∀ s ∈ ss, ∀ x ∈ s.rhs.free false, x ∈ V ∨ x ∈ xs ++ us
  refused : FreshIn V Set.univ (xs ++ us) → (∀ s ∈ ss, s.HasArgs) → ∀ {r r' a b k}, m r a =
    .ok (r', b) →
    r.Numbered k a.nextKernel → k ≤ a.nextKernel → (∀ x ∈ us, ∀ id, id ∉ r.consumersOf x) →
      ∀ s ∈ ss, s.Refused c r'

namespace Concludes

variable {c : Config} {V V' : Set Name} {xs xs' us us' : List Name} {ss ss' : List Choice}
  {x y m m' : Registry → Analysis Registry} {r r' : Registry} {a b : Progress} {k : Nat}

/-- Nothing is decided. -/
theorem nil (h : Follows c [] m) : Concludes c V xs us [] m := ⟨h, nofun, nofun, nofun⟩

theorem step {f : Registry → Registry} (hf : ∀ r a, Course c [] r a (f r) a) :
    Concludes c V [] [] [] fun r => return f r := nil (.step hf)

theorem congr (h : Concludes c V xs us ss m) (hss : ss' = ss) (hm : ∀ r, m' r = m r) :
    Concludes c V xs us ss' m' := by
  rwa [hss, funext hm]

/-- Among more names that are used or bound. -/
theorem mono (h : Concludes c V xs us ss m) (hV : V ⊆ V') (hus : us ⊆ us')
    (hle : ∀ x, (xs ++ us).count x ≤ (xs' ++ us').count x) : Concludes c V' xs' us' ss m := by
  have hsub : ∀ x ∈ xs ++ us, x ∈ xs' ++ us' := fun x hx =>
    List.count_pos_iff.1 (Nat.lt_of_lt_of_le (List.count_pos_iff.2 hx) (hle x))
  exact {
    follows := h.follows
    binds := fun s hs x hx => hsub x (h.binds s hs x hx)
    uses := fun s hs x hx => (h.uses s hs x hx).imp (@hV x) (hsub x)
    refused := fun hfresh hargs _ _ _ _ _ hrun hr hk hnone =>
      h.refused (hfresh.of_count hV hle) hargs hrun hr hk fun x hx => hnone x (hus hx) }

/-- Code that reads no name of the `let` around it. -/
theorem sub (h : Concludes c V [] us ss m) (hle : ∀ x, us.count x ≤ us'.count x) :
    Concludes c V xs us' ss m :=
  h.mono subset_rfl (fun x hx => List.count_pos_iff.1
    (Nat.lt_of_lt_of_le (List.count_pos_iff.2 hx) (hle x)))
    fun x => by
      rw [List.nil_append, List.count_append]
      exact (hle x).trans (Nat.le_add_left _ _)

/-- A name that the code neither uses nor binds. -/
theorem avoids (h : Concludes c V xs us ss m) {z : Name} (hV : z ∉ V) (hz : z ∉ xs ++ us) :
    ∀ s ∈ ss, z ∉ s.names ∧ z ∉ s.rhs.free false := fun s hs =>
  ⟨fun hin => hz (h.binds s hs z hin), fun hin => (h.uses s hs z hin).elim hV hz⟩

/-- A name that the code does not use has no new readers. -/
theorem unread (h : Concludes c V xs us ss m) (hrun : m r a = .ok (r', b)) {z : Name} (hV : z ∉ V)
    (hz : z ∉ xs ++ us) (hnone : ∀ id, id ∉ r.consumersOf z) :
    ∀ id, id ∉ r'.consumersOf z := fun id hid => by
  obtain ⟨s, hs, hin⟩ := (h.follows.readers hrun hid).resolve_left (hnone id)
  exact (h.avoids hV hz s hs).2 hin

/-- Nothing reads anything before the first step. -/
theorem refused_of_empty (h : Concludes c V xs us ss m) (hfresh : FreshIn V Set.univ (xs ++ us))
    (hargs : ∀ s ∈ ss, s.HasArgs) (hrun : m .empty a = .ok (r', b)) : ∀ s ∈ ss, s.Refused c r' :=
  h.refused hfresh hargs hrun (Registry.numbered_empty _ _) (Nat.le_refl _) fun _ _ _ =>
    List.not_mem_nil

/-- Code in front of other code.  The code behind may use what the `let` around the code in front
binds. -/
theorem seq (hx : Concludes c V' xs us ss x) (hy : Concludes c V xs' us' ss' y)
    (hV : V' ⊆ V ∪ {z | z ∈ xs'}) :
    Concludes c V (xs ++ xs') (us ++ us') (ss ++ ss') fun r => x r >>= y where
  follows := hx.follows.seq hy.follows
  binds := List.forall_mem_append.2 ⟨fun s hs z hz => by
      have := hx.binds s hs z hz
      simp only [List.mem_append] at this ⊢
      tauto, fun s hs z hz => by
      have := hy.binds s hs z hz
      simp only [List.mem_append] at this ⊢
      tauto⟩
  uses := List.forall_mem_append.2 ⟨fun s hs z hz => by
      have := (hx.uses s hs z hz).imp_left (@hV z)
      simp only [List.mem_append, Set.mem_union, Set.mem_ofPred_eq] at this ⊢
      tauto, fun s hs z hz => by
      have := hy.uses s hs z hz
      simp only [List.mem_append] at this ⊢
      tauto⟩
  refused := by
    intro hfresh hargs r r' a b k hrun hr hk hnone
    obtain ⟨hargs, hargs'⟩ := List.forall_mem_append.1 hargs
    obtain ⟨r₁, a₁, h₁, h₂⟩ := State.bind_eq_ok.1 hrun
    obtain ⟨hle, hr₁⟩ := hx.follows.numbered h₁ hr hk
    have hordered : FreshIn V Set.univ ((xs ++ us) ++ (xs' ++ us')) :=
      hfresh.of_count subset_rfl fun z => by simp only [List.count_append]; omega
    obtain ⟨hfirst, hsecond, hapart⟩ := hordered.append
    have hnew : ∀ z ∈ xs ++ us, z ∉ V' := fun z hz hin =>
      (hV hin).elim (hfirst.new z hz) fun hin => hapart z hz (List.mem_append_left _ hin)
    refine List.forall_mem_append.2 ⟨fun s hs =>
      ?_, hy.refused hsecond hargs' h₂ hr₁ (hk.trans hle) fun z hz => ?_⟩
    · -- the code in front knows nothing of the names that are bound behind it
      refine hy.follows.refused h₂ hr₁ (hk.trans hle) hargs'
        (hx.refused ⟨hfirst.nodup, hfirst.bound, hnew⟩ hargs h₁ hr
        hk (fun z hz => hnone z (List.mem_append_left _ hz)) s hs) fun z hz => ?_
      have hz := hx.binds s hs z hz
      exact hy.avoids (hfirst.new z hz) (hapart z hz)
    · -- and the code behind uses of the code in front what the `let` around that binds, but
      -- nothing from inside
      have hin : z ∈ xs' ++ us' := List.mem_append_right _ hz
      refine hx.unread h₁ (fun hin' => ?_) (fun hin' => hapart z hin' hin)
        (hnone z (List.mem_append_right _ hz))
      refine (hV hin').elim (hsecond.new z hin) fun hin' => ?_
      exact (List.nodup_append.1 hsecond.nodup).2.2 z hin' z hz rfl

/-- Code in the scope of a pattern. -/
theorem enter {p : Pattern} (h : Concludes c (V ∪ p.nameSet) xs us ss m) :
    Concludes c V xs (p.names ++ us) ss m where
  follows := h.follows
  binds := fun s hs z hz => by
    have := h.binds s hs z hz
    simp only [List.mem_append] at this ⊢
    tauto
  uses := fun s hs z hz => by
    have := h.uses s hs z hz
    simp only [List.mem_append, Set.mem_union, Pattern.mem_nameSet] at this ⊢
    tauto
  refused := by
    intro hfresh hargs r r' a b k hrun hr hk hnone
    -- the pattern belongs to what is bound inside
    have hordered : FreshIn V Set.univ (p.names ++ (xs ++ us)) :=
      hfresh.of_count subset_rfl fun z => by simp only [List.count_append]; omega
    obtain ⟨-, hinner, hapart⟩ := hordered.append
    exact h.refused (hinner.enter hapart) hargs hrun hr hk fun z hz =>
      hnone z (List.mem_append_right _ hz)

/-- A region, whose names are not used around it. -/
theorem region (h : Concludes c V [] us ss m) (escaping : Registry → List Name) :
    Concludes c V [] us ss fun r => do
    let q ← m .empty
    return r.mergeRegion q (escaping q) where
  follows := h.follows.region escaping
  binds := h.binds
  uses := h.uses
  refused := by
    intro hfresh hargs r r' a b k hrun hr hk hnone s hs
    obtain ⟨q, a₁, h₁, h₂⟩ := State.bind_eq_ok.1 hrun
    obtain ⟨rfl, rfl⟩ := State.pure_eq_ok.1 h₂
    exact (h.refused_of_empty hfresh hargs h₁ s hs).imp fun g hg =>
      hg.mergeRegion (fun z hz => hnone z (h.binds s hs z hz)) _

/-- The arms of a conditional. -/
theorem branches (hx : Concludes c V [] us ss x) (hy : Concludes c V [] us' ss' y) :
    Concludes c V [] (us ++ us') (ss ++ ss') fun r => x .empty >>= fun yes => y .empty >>= fun no =>
      return r.mergeRegion (yes.unionBranches no) [] where
  follows := (hx.follows.branches hy.follows .pure).congr (by rw [List.append_nil]) fun _ => rfl
  binds := List.forall_mem_append.2 ⟨fun s hs z hz => List.mem_append_left us' (hx.binds s hs z hz),
    fun s hs z hz => List.mem_append_right us (hy.binds s hs z hz)⟩
  uses := List.forall_mem_append.2
    ⟨fun s hs z hz => (hx.uses s hs z hz).imp_right (List.mem_append_left us'),
      fun s hs z hz => (hy.uses s hs z hz).imp_right (List.mem_append_right us)⟩
  refused := by
    intro hfresh hargs r r' a b k hrun hr hk hnone
    have hbound : ∀ s ∈ ss, ∀ z ∈ s.names, z ∈ us := hx.binds
    have hbound' : ∀ s ∈ ss', ∀ z ∈ s.names, z ∈ us' := hy.binds
    obtain ⟨hargs, hargs'⟩ := List.forall_mem_append.1 hargs
    rw [List.nil_append] at hfresh
    obtain ⟨hfirst, hsecond, hapart⟩ := hfresh.append
    obtain ⟨yes, a₁, h₁, hrun⟩ := State.bind_eq_ok.1 hrun
    obtain ⟨no, a₂, h₂, hrun⟩ := State.bind_eq_ok.1 hrun
    obtain ⟨rfl, rfl⟩ := State.pure_eq_ok.1 hrun
    -- each arm starts from nothing, so its kernels have numbers of their own
    have hyes := (hx.follows.numbered h₁ (Registry.numbered_empty _ _) (Nat.le_refl _)).2
    have hno := (hy.follows.numbered h₂ (Registry.numbered_empty _ _) (Nat.le_refl _)).2
    refine List.forall_mem_append.2 ⟨fun s hs => ?_, fun s hs => ?_⟩
    · refine (hx.refused_of_empty hfirst hargs h₁ s hs).imp fun g hg => ?_
      -- one arm does not use what the other one binds
      refine ((hg.union_left hyes hno fun z hz => ?_).forbid _).mergeRegion
        (fun z hz => hnone z (List.mem_append_left _ (hbound s hs z hz))) _
      have hz := hbound s hs z hz
      exact hy.unread h₂ (hfirst.new z hz) (hapart z hz) fun _ => List.not_mem_nil
    · refine (hy.refused_of_empty hsecond hargs' h₂ s hs).imp fun g hg => ?_
      refine ((hg.union_right fun z hz => ?_).forbid _).mergeRegion
        (fun z hz => hnone z (List.mem_append_right _ (hbound' s hs z hz))) _
      have hz := hbound' s hs z hz
      exact hx.unread h₁ (hsecond.new z hz) (fun hin => hapart z hin hz) fun _ => List.not_mem_nil

/-- The combinator that a `let` binds. -/
theorem place {s : Choice} {g : Stage} (hg : s.Stands g) (harity : s.pattern.length = g.arity)
    (hparams : ∀ x ∈ Pattern.names g.op.element.params, x ∈ s.rhs.slots)
    (hV : s.rhs.free false ⊆ V) :
    Concludes c V s.names [] [s] (ArrayFusion.place c s.origin s.pattern g) where
  follows := .place hg harity hparams
  binds := List.forall_mem_singleton.2 fun _ hx => List.mem_append_left _ hx
  uses := List.forall_mem_singleton.2 fun _ hx => .inl (hV hx)
  refused := fun hfresh _ _ _ _ _ _ hrun hr _ _ => List.forall_mem_singleton.2 (hg.refused
    ((placed_of_place hrun).refused hr fun z hz hin =>
      hfresh.new z (List.mem_append_left _ hz) (hV (hg.names_subset hin))))

/-- The combinator that a `let` binds, behind what is in it. -/
theorem combinator {s : Choice} (hx : Concludes c V [] us ss x) (hV : s.rhs.free false ⊆ V)
    (hm : ∀ {r r' a b}, m r a = .ok (r', b) → ∃ g, s.Stands g ∧ s.pattern.length = g.arity
      ∧ (∀ x ∈ Pattern.names g.op.element.params, x ∈ s.rhs.slots)
      ∧ (x r >>= ArrayFusion.place c s.origin s.pattern g) a = .ok (r', b)) :
    Concludes c V s.names us (ss ++ [s]) m where
  follows := fun r r' a b hrun => by
    obtain ⟨g, hg, harity, hparams, hrun⟩ := hm hrun
    exact hx.follows.seq (.place hg harity hparams) _ _ _ _ hrun
  binds := List.forall_mem_append.2 ⟨fun s' hs' z hz =>
    List.mem_append_right _ (hx.binds s' hs' z hz),
    List.forall_mem_singleton.2 fun _ hz => List.mem_append_left _ hz⟩
  uses := List.forall_mem_append.2
    ⟨fun s' hs' z hz => (hx.uses s' hs' z hz).imp_right (List.mem_append_right s.names),
      List.forall_mem_singleton.2 fun _ hz => .inl (hV hz)⟩
  refused := fun hfresh hargs r r' a b k hrun hr hk hnone => by
    obtain ⟨g, hg, harity, hparams, hrun⟩ := hm hrun
    -- the code that is analysed first, and then the stage itself
    have hseq := hx.seq (place (c := c) hg harity hparams hV) Set.subset_union_left
    rw [List.append_nil] at hseq
    exact hseq.refused hfresh hargs hrun hr hk hnone

/-- The replicated value that a `let` binds. -/
theorem placeReplicate (site : Option Pattern) {n v : Exp} {s : Span}
    (hV : (Exp.replicate n v s).free false ⊆ V) :
    Concludes c V (boundNames site) [] (replicateChoices c site n v s)
      (ArrayFusion.placeReplicate c site n v s) := by
  have hfollows := Follows.placeReplicate (c := c) site n v s
  -- at most one decision is made
  have hchoice : ∀ s' ∈ replicateChoices c site n v s, ∃ p, site = some p
      ∧ s' = ⟨.replicate, p, .replicate n v s⟩ :=
    fun s' hs' => by
      rw [replicateChoices_eq] at hs'
      obtain ⟨q, hq, rfl⟩ := List.mem_map.1 hs'
      obtain ⟨p, hp, rfl⟩ := List.mem_map.1 (List.mem_filter.1 hq).1
      exact ⟨p, Option.mem_toList.1 hp, rfl⟩
  refine ⟨hfollows, fun s' hs' z hz => ?_, fun s' hs' z hz => ?_, ?_⟩
  · obtain ⟨p, rfl, rfl⟩ := hchoice s' hs'
    exact List.mem_append_left _ hz
  · obtain ⟨p, rfl, rfl⟩ := hchoice s' hs'
    exact .inl (hV hz)
  intro hfresh _ r r' a b k hrun hr _ _ s' hs'
  rcases placeReplicate_eq_ok hrun with ⟨rfl, rfl⟩ | ⟨p, g, t, rfl, hg, hplaced⟩
  · -- no decision was noted, so there was none to be made
    obtain ⟨l, hl, hcourse⟩ := hfollows _ _ _ _ hrun
    have hnil : l = [] := List.map_eq_nil_iff.1 (List.self_eq_append_right.1 hcourse.decisions)
    rw [← hl, hnil] at hs'
    cases hs'
  · obtain ⟨p, hp, rfl⟩ := hchoice s' hs'
    cases hp
    rcases replicateStage_cases hg with ⟨hnone, -⟩ | ⟨hatom, x, row, rfl, -, -, heq⟩
    · cases hnone
    -- the map that stands for the replicate is what was refused
    have hstands : Choice.Stands ⟨.replicate, [x], .replicate n v s⟩ g :=
      Option.some.inj heq ▸ .replicate hatom
    exact hstands.refused (hplaced.refused hr fun z hz hin =>
      hfresh.new z (List.mem_append_left _ hz) (hV (hstands.names_subset hin)))

end Concludes

/-! ## Expressions -/

section

variable {c : Config}

mutual

/-- What an expression binds is not used around it. -/
theorem Exp.concludes : ∀ (e : Exp) (site : Option Pattern) {V : Set Name}, e.free false ⊆ V →
    Concludes c V (boundNames site) e.binders (e.choices c site) fun r => e.analyse c site r
  | .lit l s, site, _, _ => .nil ((Exp.lit l s).follows site)
  | .var x s, site, _, _ => .nil ((Exp.var x s).follows site)
  | .tuple es _, _, _, h | .array es _ _, _, _, h | .call _ es _ _, _, _, h =>
    ((Exp.concludesAll es h).sub fun _ => Nat.le_refl _).congr rfl fun r => by rw [Exp.analyse]
  | .index x is _, _, V, h => by
    have his := Exp.concludesAll is (Set.union_subset_iff.1 h).2
    have hseq := (Concludes.step (V := V) fun r a =>
      .forbid (r := r) (a := a) [x.name]).seq his Set.subset_union_left
    exact (hseq.sub fun _ => Nat.le_refl _).congr rfl fun r => by simp only [Exp.analyse, pure_bind]
  | .unary _ e _, _, _, h => ((e.concludes none h).sub fun _ => Nat.le_refl _).congr rfl fun r =>
      by rw [Exp.analyse]
  | .binary _ a b _ _, _, _, h => by
    obtain ⟨ha, hb⟩ := Set.union_subset_iff.1 h
    have hseq := (b.concludes none hb).seq (a.concludes none ha) Set.subset_union_left
    exact (hseq.sub fun x => by simp only [Exp.binders, List.count_append]; omega).congr rfl
        fun r => by
      rw [Exp.analyse]
  | .cond e a b _ _, _, _, h => by
    obtain ⟨he, h⟩ := Set.union_subset_iff.1 h
    obtain ⟨ha, hb⟩ := Set.union_subset_iff.1 h
    have hseq := ((a.concludes none ha).branches (b.concludes none hb)).seq
      (e.concludes none he) Set.subset_union_left
    refine (hseq.sub fun x => ?_).congr (List.append_assoc _ _ _).symm fun r => ?_
    · simp only [Exp.binders, List.count_append]
      omega
    · simp only [Exp.analyse, bind_assoc, pure_bind]
  | .letIn p e b _, _, _, h => by
    obtain ⟨he, hb⟩ := Set.union_subset_iff.1 h
    have hseq := (b.concludes none (free_subset_union_of_diff hb)).seq
      (e.concludes (some p) he) subset_rfl
    refine (hseq.mono subset_rfl (fun x hx => ?_) fun x => ?_).congr rfl fun r =>
      by rw [Exp.analyse]
    · simp only [Exp.binders, List.mem_append] at hx ⊢
      tauto
    · simp only [Exp.binders, boundNames, List.nil_append, List.count_append]
      omega
  | .update x y is v b _, _, V, h => by
    obtain ⟨-, h⟩ := Set.union_subset_iff.1 h
    obtain ⟨his, h⟩ := Set.union_subset_iff.1 h
    obtain ⟨hv, hb⟩ := Set.union_subset_iff.1 h
    have hnote := Concludes.step (c := c) (V := V) fun r a =>
      (Course.noteUpdate (r := r) (a := a) y.name).append (.forbid [y.name, x.name])
    rw [← Pattern.nameSet_singleton] at hb
    have hseq := (b.concludes none (free_subset_union_of_diff hb)).enter.seq
      (hnote.seq ((v.concludes none hv).seq
      (Exp.concludesAll is his) Set.subset_union_left) Set.subset_union_left) Set.subset_union_left
    refine (hseq.sub fun z => ?_).congr rfl fun r => by simp only [Exp.analyse, pure_bind]
    simp only [Exp.binders, Pattern.names, List.map_cons, List.map_nil, List.nil_append,
      List.count_append, List.count_cons, List.count_nil]
    omega
  | .replicate n v s, site, _, h => by
    obtain ⟨hn, hv⟩ := Set.union_subset_iff.1 h
    have hseq := (Concludes.placeReplicate (c := c) site h).seq ((v.concludes none hv).seq
      (n.concludes none hn) Set.subset_union_left) Set.subset_union_left
    refine (hseq.mono subset_rfl (fun z hz => ?_) fun z => ?_).congr rfl fun r =>
      Exp.analyse_replicate c site r n v s
    · exact List.perm_append_comm.subset hz
    · simp only [Exp.binders, boundNames, List.append_nil, List.nil_append, List.count_append]
      omega
  | .loop p is i n b e _, _, _, h => by
    obtain ⟨his, h⟩ := Set.union_subset_iff.1 h
    obtain ⟨hn, h⟩ := Set.union_subset_iff.1 h
    obtain ⟨hb, he⟩ := Set.union_subset_iff.1 h
    rw [← Pattern.nameSet_cons] at hb
    have hsub := (free_subset_union_of_diff he).trans
      (Set.union_subset_union_right _ (Pattern.nameSet_cons i p ▸ Set.subset_union_right))
    have hregion := (b.concludes none (free_subset_union_of_diff hb)).region fun q =>
      q.consumers.keys
    have hseq := ((e.concludes none hsub).seq (hregion.seq
      ((n.concludes none (hn.trans Set.subset_union_left)).seq
        (Exp.concludesAll is (his.trans Set.subset_union_left))
        Set.subset_union_left) Set.subset_union_left) Set.subset_union_left).enter
    refine (hseq.sub fun z => ?_).congr rfl fun r =>
      by simp only [Exp.analyse, bind_assoc, pure_bind]
    simp only [Exp.binders, Pattern.names, List.map_cons, List.cons_append, List.count_append,
      List.count_cons]
    omega
  | .soac .., none, _, _ => .nil fun _ _ _ _ h => nomatch h
  | .soac op es cs s, some p, V, h => by
    obtain ⟨-, hparts⟩ := Set.union_subset_iff.1 h
    obtain ⟨hop, hes⟩ := Set.union_subset_iff.1 hparts
    have hinner := (op.concludesLambdas hop).seq
      ((Exp.concludesOperands es hes).seq (op.concludesNeutral hop)
      Set.subset_union_left) Set.subset_union_left
    have hall := hinner.combinator (s := ⟨.combinator, p, .soac op es cs s⟩) h
      (m := fun r => (Exp.soac op es cs s).analyse c (some p) r) fun hrun => by
        obtain ⟨g, hg, hp, hrun⟩ := Exp.analyse_soac_eq_ok hrun
        exact ⟨g, .combinator hg, hp, fun x =>
          Stage.slots_of_ofExp? hg, by simpa only [bind_assoc] using hrun⟩
    refine (hall.mono subset_rfl (fun z hz => ?_) fun z => ?_).congr ?_ fun _ => rfl
    · simp only [Exp.binders, op.binders_eq, List.mem_append] at hz ⊢
      tauto
    · simp only [Exp.binders, op.binders_eq, boundNames, Choice.names, List.count_append]
      omega
    · rw [Exp.choices, List.append_assoc, List.append_assoc]

/-- What a list of expressions binds is not used around it. -/
theorem Exp.concludesAll : ∀ (es : List Exp) {V : Set Name}, Exp.freeAll false es ⊆ V →
    Concludes c V [] (Exp.bindersAll es) (Exp.choicesAll c es) fun r => Exp.analyseAll c r es
  | [], _, _ => .nil .pure
  | e :: es, _, h => by
    obtain ⟨he, hes⟩ := Set.union_subset_iff.1 h
    have hseq := (Exp.concludesAll es hes).seq (e.concludes none he) Set.subset_union_left
    exact (hseq.sub fun x => by simp only [Exp.bindersAll, List.count_append]; omega).congr rfl
        fun r => by
      rw [Exp.analyseAll]

/-- What the operands of a combinator bind is not used around them. -/
theorem Exp.concludesOperands : ∀ (es : List Exp) {V : Set Name}, Exp.freeAll false es ⊆ V →
    Concludes c V [] (Exp.bindersAll es) (Exp.choicesOperands c es) fun r =>
      Exp.analyseOperands c r es
  | [], _, _ => .nil .pure
  | .index y is s :: es, _, h => by
    obtain ⟨he, hes⟩ := Set.union_subset_iff.1 h
    have hseq := (Exp.concludesOperands es hes).seq
      (Exp.concludesAll is (Set.union_subset_iff.1 he).2)
      Set.subset_union_left
    exact (hseq.sub fun x => by simp only [Exp.bindersAll, Exp.binders, List.count_append]; omega).congr rfl fun r => by
      rw [Exp.analyseOperands]
  | .unary .iota n s :: es, _, h => by
    obtain ⟨he, hes⟩ := Set.union_subset_iff.1 h
    have hseq := (Exp.concludesOperands es hes).seq (n.concludes none he) Set.subset_union_left
    exact (hseq.sub fun x => by simp only [Exp.bindersAll, Exp.binders, List.count_append]; omega).congr rfl fun r => by
      rw [Exp.analyseOperands]
  | .unary .not _ _ :: es, _, h | .unary .negate _ _ :: es, _, h | .unary .size _ _ :: es, _, h
  | .unary .transpose _ _ :: es, _, h | .lit .. :: es, _, h | .var .. :: es, _,
      h | .tuple .. :: es, _, h
  | .array .. :: es, _, h | .binary .. :: es, _, h | .cond .. :: es, _, h | .call .. :: es, _, h
  | .letIn .. :: es, _, h | .update .. :: es, _, h | .replicate .. :: es, _,
      h | .loop .. :: es, _, h
  | .soac .. :: es, _, h => by
    have hes := Exp.concludesOperands es (Set.union_subset_iff.1 h).2
    refine (hes.sub fun x => ?_).congr (List.append_nil _) fun r => ?_
    · rw [Exp.bindersAll, List.count_append]
      exact Nat.le_add_left _ _
    · rw [Exp.analyseOperands]
      exact bind_pure _

/-- What a lambda binds is not used around it. -/
theorem Lambda.concludes : ∀ (f : Lambda) {V : Set Name}, f.free false ⊆ V →
    Concludes c V [] f.binders (f.choices c) fun r => f.analyse c r
  | ⟨ps, b, ts⟩, _, h => ((b.concludes none (free_subset_union_of_diff h)).enter.region
      fun q => q.consumers.keys ++ Lambda.freeArrays ⟨ps, b, ts⟩).congr rfl fun r =>
        by rw [Lambda.analyse]

/-- What the lambdas of a combinator bind is not used around them. -/
theorem Combinator.concludesLambdas : ∀ (op : Combinator) {V : Set Name}, op.free false ⊆ V →
    Concludes c V [] (op.lambdas.flatMap Lambda.binders) (op.lambdaChoices c) fun r =>
      op.analyseLambdas c r
  | .map f, _, h | .filter f, _, h =>
    ((f.concludes h).sub fun x => by simp [Combinator.lambdas]).congr rfl fun r =>
    by rw [Combinator.analyseLambdas]
  | .reduce f _, _, h | .scan f _, _, h =>
    ((f.concludes (Set.union_subset_iff.1 h).1).sub fun x => by simp [Combinator.lambdas]).congr rfl
    fun r => by
      rw [Combinator.analyseLambdas]
  | .redomap f g _, _, h => by
    obtain ⟨hf, h⟩ := Set.union_subset_iff.1 h
    have hseq := (f.concludes hf).seq (g.concludes (Set.union_subset_iff.1 h).1)
      Set.subset_union_left
    exact (hseq.sub fun x => by simp [Combinator.lambdas]).congr rfl fun r =>
      by rw [Combinator.analyseLambdas]

/-- What the neutral elements of a combinator bind is not used around them. -/
theorem Combinator.concludesNeutral : ∀ (op : Combinator) {V : Set Name}, op.free false ⊆ V →
    Concludes c V [] (Exp.bindersAll op.neutral) (op.neutralChoices c) fun r =>
      op.analyseNeutral c r
  | .map _, _, _ | .filter _, _, _ =>
    (Concludes.nil .pure).congr rfl fun r => by rw [Combinator.analyseNeutral]
  | .reduce _ ne, _, h | .scan _ ne, _, h =>
    (Exp.concludesAll ne (Set.union_subset_iff.1 h).2).congr rfl fun r =>
    by rw [Combinator.analyseNeutral]
  | .redomap _ _ ne, _, h => (Exp.concludesAll ne
    (Set.union_subset_iff.1 (Set.union_subset_iff.1 h).2).2).congr rfl
      fun r => by rw [Combinator.analyseNeutral]

end

end

/-! ## Functions -/

/-- Whatever a pass decided about, it would decide the same again.  If the pass succeeds on a
function all of whose combinators have arguments, then no `let` that it considers can be fused into
a kernel of the registry that the analysis ends with: not those that it kept, and not those that it
did fuse.  A replicated value stands for a map whose parameter may have any name that the value does
not use. -/
theorem FunDef.final_of_fuse {c : Config} {f : FunDef} {fused : FusedFun} (hf : f.WellScoped)
    (hargs : ∀ q ∈ f.body.lets, ∀ op cs s, q.2 ≠ .soac op [] cs s) (hc : c.enabled = true)
    (h : f.fuse c = .ok fused) :
    ∃ r b, f.body.analyse c none .empty ⟨.forFun f, 0, []⟩ = .ok (r, b)
      ∧ fused.changed = r.succeeded
      ∧ ∀ q ∈ f.body.lets, c.considers q = true → ∀ g, (Choice.ofLet q).Stands g →
        ((Choice.ofLet q).origin = .replicate → ∀ x ∈ Pattern.names g.op.element.params,
    x ∉ q.2.free true) →
        ∀ t, ∃ reason, r.tryFuse c (Choice.ofLet q).origin q.1 g t = .ok (.error reason, t) := by
  rcases FunDef.outcome_of_fuse h with ⟨hoff, -⟩ | ⟨-, r, b, hanalyse, houtcome⟩
  · cases hc.symm.trans hoff
  have hempty := Registry.numbered_empty 0 0
  obtain ⟨l, -, hcourse⟩ := Exp.analyse_course hanalyse
  have hindexed := hcourse.indexed Registry.indexed_empty hempty (Nat.le_refl 0)
  have hperm := Exp.choices_perm hanalyse
  have hchoices : ∀ s ∈ f.body.choices c none, s.HasArgs := fun s hs => by
    obtain ⟨q, hq, rfl⟩ := List.mem_map.1 (hperm.mem_iff.1 hs)
    exact hargs q (List.mem_filter.1 hq).1
  -- every choice is refused by the registry at the end of the analysis
  have hrefused := (f.body.concludes none (hf.free_subset false)).refused_of_empty hf.fresh_binders
    hchoices hanalyse
  refine ⟨r, b, hanalyse, ?_, fun q hq hconsiders g hg hfresh t => ?_⟩
  · rcases houtcome with ⟨hsucceeded, rfl⟩ | ⟨hsucceeded, body, -, rfl⟩
    · exact hsucceeded.symm
    · exact hsucceeded.symm
  · -- and the choices are the `let`s that are to be considered
    have hs := hperm.mem_iff.2 (List.mem_map_of_mem (List.mem_filter.2 ⟨hq, hconsiders⟩))
    exact (hrefused _ hs g hg hfresh).tryFuse hindexed t

/-- A map whose rows are replicated numbers, behind one that maps over each row. -/
def rowsOfThree : FunDef :=
  let number (base : String) (tag : Nat) : Ident := ⟨⟨base, tag⟩, .int⟩
  let array (base : String) (tag : Nat) : Ident := ⟨⟨base, tag⟩, .array .int⟩
  let rows (base : String) (tag : Nat) : Ident := ⟨⟨base, tag⟩, .array (.array .int)⟩
  let spread : Lambda :=
    ⟨[number "x" 4], .replicate (.lit (.int 3) .dummy) (.ofIdent (number "x" 4)) .dummy,
    [.array .int]⟩
  let next : Lambda :=
    ⟨[number "v" 7], .binary .plus (.ofIdent (number "v" 7)) (.lit (.int 1) .dummy) .int .dummy,
    [.int]⟩
  let each : Lambda :=
    ⟨[array "y" 5], .bind [array "u" 6] (.soac (.map next) [.ofIdent (array "y" 5)] [] .dummy)
      (.ofIdent (array "u" 6)), [.array .int]⟩
  ⟨"f", [array "xs" 1], .array (.array .int),
    .bind [rows "ys" 2] (.soac (.map spread) [.ofIdent (array "xs" 1)] [] .dummy)
      (.bind [rows "zs" 3] (.soac (.map each) [.ofIdent (rows "ys" 2)] [] .dummy)
        (.ofIdent (rows "zs" 3))), .dummy⟩

/-- Another pass over the result changes it again, since the emission binds a replicated value to
the parameter that the inner map reads.  The first pass could not have fused anything else. -/
theorem FunDef.final_of_fuse_rowsOfThree : rowsOfThree.WellScoped
    ∧ (∀ q ∈ rowsOfThree.body.lets, ∀ op cs s, q.2 ≠ .soac op [] cs s)
    ∧ ∃ fused, rowsOfThree.fuse Config.default = .ok fused ∧ fused.changed = true
      ∧ (fused.function.fuse Config.default).toOption.any (·.changed) = true
      ∧ ∃ r b, rowsOfThree.body.analyse Config.default none .empty ⟨.forFun rowsOfThree, 0, []⟩ =
      .ok (r, b)
        ∧ ∀ q ∈ rowsOfThree.body.lets, ∀ g, Stage.ofExp? q.2 = .ok (some g) →
          ∀ t, ∃ reason, r.tryFuse Config.default .combinator q.1 g t = .ok (.error reason, t) := by
  have hscoped : rowsOfThree.WellScoped := ⟨by decide, by
    simp [rowsOfThree, Exp.bind, Exp.ofIdent, Exp.Scoped, Exp.ScopedAll, Combinator.Scoped,
      Lambda.Scoped]⟩
  have hargs : ∀ q ∈ rowsOfThree.body.lets, ∀ op cs s, q.2 ≠ .soac op [] cs s := by
    simp [rowsOfThree, Exp.bind, Exp.ofIdent, Exp.lets, Exp.letsAll, Combinator.lets, Lambda.lets]
  have hchanged : (rowsOfThree.fuse Config.default).toOption.any (fun fused =>
      fused.changed && (fused.function.fuse Config.default).toOption.any (·.changed)) = true :=
        by decide +kernel
  obtain ⟨fused, h, hchanged⟩ := Except.exists_of_any hchanged
  obtain ⟨hchanged, hagain⟩ := Bool.and_eq_true_iff.1 hchanged
  obtain ⟨r, b, hanalyse, -, hfinal⟩ := FunDef.final_of_fuse hscoped hargs rfl h
  refine ⟨hscoped, hargs, fused, h, hchanged, hagain, r, b, hanalyse, fun q hq g hg t => ?_⟩
  have hstands : Choice.Stands ⟨.combinator, q.1, q.2⟩ g := .combinator hg
  have hsoac := hstands.isSoac rfl
  have hlet : Choice.ofLet q = ⟨.combinator, q.1, q.2⟩ := by rw [Choice.ofLet, if_pos hsoac]
  have hfinal := hfinal q hq (Config.default.considers_soac hsoac) g
  rw [hlet] at hfinal
  exact hfinal hstands (fun hreplicate => by cases hreplicate) t

end ArrayFusion
