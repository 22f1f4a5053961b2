import ArrayFusion.Proofs.Placing

/-!
# Rules for the analysis of code

`Analyses` says of the analysis of a piece of code that it keeps a registry coherent, whatever the
registry is, as long as it knows nothing of the binders of the code and computes nothing that the
code uses (`Awaits`), and as long as there are tags for the names that it takes.  There is a rule
for each way in which the analysis is put together: code in front of other code, regions and their
branches, stages and replicated values.  That names are never given back is part of each rule, since
it does not depend on the tags (`Analysis.Leads`).
-/

namespace ArrayFusion

open FusionError (OfInput)

variable {Λ : List (Pattern × Exp)}

/-! ## Computations that take names -/

/-- What the computation leads to from a state in which `C` holds.  It gives no name back.  And if
there were tags for all names that it took, then it fails with errors about the function only, and
`Q` holds of what it ended with. -/
def Analysis.Leads {α : Type} (x : Analysis α) (a : Progress) (C : Prop) (Q : α → Progress → Prop) :
    Prop :=
  Ends (fun e => a.names.count ≤ e.state.names.count
      ∧ (e.state.names.InRange → C → OfInput e.error)) x a
    fun v b => a.names.count ≤ b.names.count ∧ (b.names.InRange → C → Q v b)

namespace Analysis.Leads

variable {α β ι : Type} {x : Analysis α} {f : α → Analysis β} {a b : Progress} {v : α} {C C' : Prop}
  {P P' : α → Progress → Prop} {Q : β → Progress → Prop}

theorem pure (h : C → P v a) : Leads (Pure.pure v) a C P := ⟨Nat.le_refl _, fun _ => h⟩

/-- An analysis leads from more to less. -/
theorem imp (hx : Leads x a C P) (hC : C' → C) (hP : ∀ v b, C' → P v b → P' v b) :
    Leads x a C' P' :=
  Ends.imp hx (fun _ ⟨hle, he⟩ => ⟨hle, fun hroom hC' => he hroom (hC hC')⟩)
    fun v b ⟨hle, hv⟩ => ⟨hle, fun hroom hC' => hP v b hC' (hv hroom (hC hC'))⟩

/-- What comes behind a computation may rely on what that led to: there were tags for its names if
there are tags for all. -/
theorem bind (hx : Leads x a C P) (hf : ∀ v b, Leads (f v) b (C ∧ P v b) Q) :
    Leads (x >>= f) a C Q :=
  Ends.bind hx fun v b ⟨hle, hP⟩ => Ends.imp (hf v b)
    (fun _ ⟨hle', he⟩ => ⟨Nat.le_trans hle hle',
      fun hroom hC => he hroom ⟨hC, hP (hroom.of_le hle') hC⟩⟩)
    fun _ _ ⟨hle', hQ⟩ => ⟨Nat.le_trans hle hle',
      fun hroom hC => hQ hroom ⟨hC, hP (hroom.of_le hle') hC⟩⟩

/-- An error of code without state is about the function, or the code ends with some value. -/
theorem lift {y : Except FusionError α} (herror : ∀ e, y = .error e → OfInput e)
    (hf : ∀ v, y = .ok v → Leads (f v) a C Q) : Leads (Analysis.lift y >>= f) a C Q := by
  cases y with
  | error e => exact ⟨Nat.le_refl _, fun _ _ => herror e rfl⟩
  | ok v => exact hf v rfl

/-- The state before may be known up to something that exists. -/
theorem of_exists [Nonempty ι] {R : ι → Prop} (h : ∀ i, Leads x a (C ∧ R i) P) :
    Leads x a (C ∧ ∃ i, R i) P := by
  have hgrows := h (Classical.arbitrary ι)
  refine Ends.intro (fun v b hv => ⟨(hgrows.of_ok hv).1, ?_⟩) fun e he =>
    ⟨(hgrows.of_error he).1, ?_⟩
  · rintro hroom ⟨hC, i, hi⟩
    exact ((h i).of_ok hv).2 hroom ⟨hC, hi⟩
  · rintro hroom ⟨hC, i, hi⟩
    exact ((h i).of_error he).2 hroom ⟨hC, hi⟩

/-- Two analyses in a row lead from the start of the first to the end of the second, whatever the
first one leaves behind. -/
theorem bind_exists [Nonempty ι] {R : ι → α → Progress → Prop}
    (hx : Leads x a C fun v b => ∃ i, R i v b) (hf : ∀ v b i, Leads (f v) b (C ∧ R i v b) Q) :
    Leads (x >>= f) a C Q :=
  hx.bind fun v b => .of_exists (hf v b)

end Analysis.Leads

/-! ## What an analysis may rely on -/

/-- The names of a list. -/
abbrev namesOf (xs : List Name) : Set Name := {x | x ∈ xs}

/-- The analysis moved on from `a` to `b` and numbered the kernels meanwhile. -/
structure Progress.Numbers (a : Progress) (ω : List KernelId) (b : Progress) : Prop where
  kernels : a.nextKernel ≤ b.nextKernel
  ids : ∀ id ∈ ω, a.nextKernel ≤ id.index ∧ id.index < b.nextKernel
  names : a.names.count ≤ b.names.count

/-- The numbers that are given out in a row are those of both parts. -/
theorem Progress.Numbers.trans {a b d : Progress} {ω ω' : List KernelId} (h : a.Numbers ω b)
    (h' : b.Numbers ω' d) : a.Numbers (ω ++ ω') d where
  kernels := Nat.le_trans h.kernels h'.kernels
  ids := fun id hid => by
    have := h.kernels
    have := h'.kernels
    rcases List.mem_append.1 hid with hid | hid
    · have := h.ids id hid
      omega
    · have := h'.ids id hid
      omega
  names := Nat.le_trans h.names h'.names

/-- What the analysis of code may rely on that uses names of `V` and binds the names `bs`: nothing
is known of the binders, and nothing that is known computes a name that the code uses. -/
structure Awaits (Λ : List (Pattern × Exp)) (V : Set Name) (bs : List Name) (o : List KernelId)
    (r : Registry) (a : Progress) : Prop where
  coherent : r.Coherent Λ o
  ids : ∀ id ∈ o, id.index < a.nextKernel
  tags : ∀ x ∈ letNames Λ, x.tag < a.names.count
  unproduced : ∀ x, x ∈ V ∨ x ∈ bs → r.producerOf x = none
  untouched : ∀ x ∈ bs, ¬r.Touches x

/-- What the analysis has gained behind code that uses names of `V`, binds the names `bs`, and is
bound to names of `S`. -/
def Gains (Λ : List (Pattern × Exp)) (V : Set Name) (bs : List Name) (S : Set Name)
    (o : List KernelId) (r : Registry) (a : Progress) (r' : Registry) (b : Progress) : Prop :=
  ∃ ω, r.Advances Λ (V ∪ namesOf bs) (namesOf bs ∪ S) (namesOf bs) o ω r' ∧ a.Numbers ω b

/-- The analysis of code that uses names of `V`, binds the names `bs`, and is bound to names of
`S`. -/
def Analyses (Λ : List (Pattern × Exp)) (V : Set Name) (bs : List Name) (S : Set Name)
    (x : Registry → Analysis Registry) : Prop :=
  ∀ r o a, (x r).Leads a (Awaits Λ (V ∪ S) bs o r a) (Gains Λ V bs S o r a)

section

variable {V V' S S' : Set Name} {bs bs' : List Name} {o ω : List KernelId} {r r' : Registry}
  {a b : Progress} {x : Registry → Analysis Registry}

/-- A registry that awaits code awaits less code, in a scope that has none of the new binders. -/
theorem Awaits.mono (h : Awaits Λ V bs o r a) (hV : ∀ z ∈ V', z ∈ V ∨ z ∈ bs)
    (hbs : ∀ z ∈ bs', z ∈ bs) : Awaits Λ V' bs' o r a where
  coherent := h.coherent
  ids := h.ids
  tags := h.tags
  unproduced := fun z hz => h.unproduced z (hz.elim (hV z) fun hz => .inr (hbs z hz))
  untouched := fun z hz => h.untouched z (hbs z hz)

/-- Code in front of code that was analysed just now. -/
theorem Awaits.after {T P H : Set Name} (h : Awaits Λ V bs o r a)
    (hr : r.Advances Λ T P H o ω r') (hb : a.Numbers ω b) (hV : ∀ z ∈ V, z ∉ P)
    (hbs : ∀ z ∈ bs, z ∉ T ∧ z ∉ P) : Awaits Λ V bs (o ++ ω) r' b where
  coherent := hr.coherent
  ids := fun id hid => (List.mem_append.1 hid).elim
    (fun hid => Nat.lt_of_lt_of_le (h.ids id hid) hb.kernels) fun hid => (hb.ids id hid).2
  tags := fun z hz => Nat.lt_of_lt_of_le (h.tags z hz) hb.names
  unproduced := fun z hz =>
    hr.unproduced (h.unproduced z hz) (hz.elim (hV z) fun hz => (hbs z hz).2)
  untouched := fun z hz ht => (hr.touched z ht).elim (h.untouched z hz) (hbs z hz).1

theorem Progress.Numbers.refl (a : Progress) :
    a.Numbers [] a := ⟨Nat.le_refl _, nofun, Nat.le_refl _⟩

namespace Analyses

/-- Nothing is placed: names that the code uses are forbidden, or updates are noted. -/
theorem step {f : Registry → Registry} (hf : ∀ (r : Registry) (o : List KernelId), r.Coherent Λ o →
    (∀ z ∈ V, r.producerOf z = none) → r.Advances Λ V ∅ ∅ o [] (f r)) :
    Analyses Λ V bs S fun r => return f r := fun r o a =>
  .pure fun h => ⟨[], (hf r o h.coherent fun z hz => h.unproduced z (.inl (.inl hz))).mono
    Set.subset_union_left (Set.empty_subset _) (Set.empty_subset _), .refl a⟩

theorem pure : Analyses Λ V bs S fun r => return r :=
  step fun _ _ hr _ => hr.advances _ _ _

/-- Code in front of other code, whose binders it does not use. -/
theorem seq {V₁ V₂ S₂ : Set Name} {bs₁ bs₂ : List Name} {y : Registry → Analysis Registry}
    (hx : Analyses Λ V₁ bs₁ ∅ x) (hy : Analyses Λ V₂ bs₂ S₂ y)
    (hV₁ : ∀ z ∈ V₁, z ∈ V ∨ z ∈ bs) (hbs₁ : ∀ z ∈ bs₁, z ∈ bs)
    (hV₂ : ∀ z ∈ V₂, (z ∈ V ∨ z ∈ bs) ∧ z ∉ bs₁) (hS₂ : ∀ z ∈ S₂, (z ∈ S ∨ z ∈ bs) ∧ z ∉ bs₁)
    (hbs₂ : ∀ z ∈ bs₂, z ∈ bs ∧ z ∉ V₁ ∧ z ∉ bs₁) :
    Analyses Λ V bs S fun r => x r >>= y := by
  intro r o a
  -- the first part may not see what the second one binds, nor the other way round
  have hfirst : (x r).Leads a (Awaits Λ (V ∪ S) bs o r a) (Gains Λ V₁ bs₁ ∅ o r a) :=
    (hx r o a).imp (fun h => h.mono (fun z hz => by
      rw [Set.union_empty] at hz
      exact (hV₁ z hz).imp_left .inl) hbs₁) fun _ _ _ => id
  refine hfirst.bind_exists fun r' b ω => (hy r' (o ++ ω) b).imp (fun ⟨h, hr, hb⟩ => ?_)
    fun r'' d ⟨h, hr, hb⟩ ⟨ω', hr', hd⟩ =>
      ⟨ω ++ ω', .trans (?_ : r.Advances Λ _ _ _ o ω r') ?_, hb.trans hd⟩
  · -- what the first part did leaves the second one's names as they were
    have hmono : Awaits Λ (V₂ ∪ S₂) bs₂ o r a := h.mono (fun z hz => by
      rcases hz with hz | hz
      · exact (hV₂ z hz).1.imp_left .inl
      · exact (hS₂ z hz).1.imp_left .inr) fun z hz => (hbs₂ z hz).1
    refine hmono.after hr hb (fun z hz => ?_) fun z hz => ⟨?_, ?_⟩
    · rw [Set.union_empty]
      exact hz.elim (fun hz => (hV₂ z hz).2) fun hz => (hS₂ z hz).2
    · exact fun hmem => hmem.elim (hbs₂ z hz).2.1 (hbs₂ z hz).2.2
    · rw [Set.union_empty]
      exact (hbs₂ z hz).2.2
  · refine hr.mono (fun z hz => hz.elim (fun hz => hV₁ z hz) fun hz => .inr (hbs₁ z hz)) ?_ hbs₁
    rw [Set.union_empty]
    exact fun z hz => .inl (hbs₁ z hz)
  · refine hr'.mono (fun z hz => hz.elim (fun hz => (hV₂ z hz).1) fun hz => .inr (hbs₂ z hz).1)
      (fun z hz => ?_) fun z hz => (hbs₂ z hz).1
    exact hz.elim (fun hz => .inl (hbs₂ z hz).1) fun hz => (hS₂ z hz).1.symm

theorem mono (hx : Analyses Λ V bs ∅ x) (hV : ∀ z ∈ V, z ∈ V' ∨ z ∈ bs')
    (hbs : ∀ z ∈ bs, z ∈ bs') : Analyses Λ V' bs' S x := fun r o a =>
  (hx r o a).imp (fun h => h.mono (fun z hz => by
    rw [Set.union_empty] at hz
    exact (hV z hz).imp_left .inl) hbs) fun r' b _ ⟨ω, hr, hb⟩ => ⟨ω, hr.mono
      (fun z hz => hz.elim (fun hz => hV z hz) fun hz => .inr (hbs z hz))
      (fun z hz => by
        rw [Set.union_empty] at hz
        exact .inl (hbs z hz)) hbs, hb⟩

theorem congr {y : Registry → Analysis Registry} (hx : Analyses Λ V bs S x) (h : ∀ r, y r = x r) :
    Analyses Λ V bs S y := by
  rwa [funext h]

/-- Two parts of one expression, the first of which is evaluated later. -/
theorem join {bs₁ bs₂ : List Name} {y : Registry → Analysis Registry} (bs : List Name)
    (hx : Analyses Λ V bs₂ ∅ x) (hy : Analyses Λ V bs₁ ∅ y) (hbs : ∀ z, z ∈ bs₁ ∨ z ∈ bs₂ → z ∈ bs)
    (hnew : ∀ z ∈ bs₁, z ∉ V ∧ z ∉ bs₂) (hnew₂ : ∀ z ∈ bs₂, z ∉ V) :
    Analyses Λ V bs S fun r => x r >>= y :=
  hx.seq hy (fun _ => .inl) (fun z hz => hbs z (.inr hz))
    (fun z hz => ⟨.inl hz, fun hmem => hnew₂ z hmem hz⟩) nofun
    fun z hz => ⟨hbs z (.inl hz), hnew z hz⟩

end Analyses

/-! ## Regions -/

/-- The analysis of a region with a scope of its own, which begins with nothing. -/
def AnalysesRegion (Λ : List (Pattern × Exp)) (V : Set Name) (bs : List Name)
    (x : Analysis Registry) : Prop :=
  ∀ a : Progress, x.Leads a (∀ z ∈ letNames Λ, z.tag < a.names.count) (Gains Λ V bs ∅ [] .empty a)

/-- The analysis of code that awaits nothing from behind it may start from the empty registry. -/
theorem Analyses.region (hx : Analyses Λ V bs ∅ x) : AnalysesRegion Λ V bs (x .empty) :=
  fun a => (hx _ _ a).imp (fun ha => ⟨Registry.coherent_empty Λ, nofun, ha, fun _ _ => rfl,
    fun _ _ => Registry.not_touches_empty⟩) fun _ _ _ => id

/-- Regions next to each other, as the arms of a conditional are. -/
theorem AnalysesRegion.branches {x y : Analysis Registry} (hx : AnalysesRegion Λ V bs x)
    (hy : AnalysesRegion Λ V bs' y) (hV : ∀ z ∈ V, z ∉ bs) (hbs : ∀ z ∈ bs', z ∉ V ∧ z ∉ bs) :
    AnalysesRegion Λ V (bs ++ bs') do return (← x).unionBranches (← y) := by
  intro a
  refine (hx a).bind_exists fun yes b ω => ?_
  refine ((hy b).imp (fun ⟨ha, _, hb⟩ z hz => Nat.lt_of_lt_of_le (ha z hz) hb.names)
    fun _ _ _ => id).bind_exists fun no d ω' => .pure fun ⟨⟨ha, hyes, hb⟩, hno, hd⟩ => ?_
  rw [Set.union_empty] at hyes hno
  have hcoherent : yes.Coherent Λ ω := hyes.coherent
  have hunproduced : ∀ z, z ∉ bs → yes.producerOf z = none := fun z hz => hyes.unproduced rfl hz
  -- the second branch starts from nothing, with numbers above those of the first
  have hapart : yes.Apart Λ (V ∪ namesOf bs') (namesOf bs') ω ω' no := {
    outer := hcoherent
    region := hno
    ids := fun id hid hid' => by
      have := (hd.ids id hid).1
      have := (hb.ids id hid').2
      omega
    reads := fun z hz => hunproduced z (hz.elim (hV z) fun hz => (hbs z hz).2)
    untouched := fun z hz ht => (hyes.touched z ht).elim (fun ht => Registry.not_touches_empty ht)
      fun ht => ht.elim (hbs z hz).1 (hbs z hz).2
    unproduced := fun z hz => hunproduced z (hbs z hz).2 }
  refine ⟨ω ++ ω', (hapart.advances_unionBranches hyes).mono ?_ ?_ ?_, hb.trans hd⟩
  · rintro z ((hz | hz) | (hz | hz))
    · exact .inl hz
    · exact .inr (List.mem_append_left _ hz)
    · exact .inl hz
    · exact .inr (List.mem_append_right _ hz)
  · exact fun z hz => .inl (List.mem_append.2 hz)
  · exact fun z hz => List.mem_append.2 hz

/-- A region becomes part of what is known.  Besides what its kernels read, names that it uses may
escape from it. -/
theorem AnalysesRegion.merge {x : Analysis Registry} (hx : AnalysesRegion Λ V bs x)
    (escaping : Registry → List Name) (hbs : ∀ z ∈ bs, z ∉ V)
    (hescaping : ∀ q, ∀ z ∈ escaping q, z ∈ q.consumers.keys ∨ z ∈ V) :
    Analyses Λ V bs S fun r => do
      let q ← x
      return r.mergeRegion q (escaping q) := by
  intro r o a
  have hregion : x.Leads a (Awaits Λ (V ∪ S) bs o r a) (Gains Λ V bs ∅ [] .empty a) :=
    (hx a).imp (fun h => h.tags) fun _ _ _ => id
  refine hregion.bind_exists fun q b ω => .pure fun ⟨h, hq, hb⟩ => ?_
  rw [Set.union_empty] at hq
  -- the region started from nothing, with numbers above those in use
  have hapart : r.Apart Λ (V ∪ namesOf bs) (namesOf bs) o ω q := {
    outer := h.coherent
    region := hq
    ids := fun id hid hid' => by
      have := (hb.ids id hid).1
      have := h.ids id hid'
      omega
    reads := fun z hz => h.unproduced z (hz.imp_left .inl)
    untouched := h.untouched
    unproduced := fun z hz => h.unproduced z (.inr hz) }
  refine ⟨ω, (hapart.advances_mergeRegion (fun z hz => ?_) fun z hz hdropped => ?_).mono
    subset_rfl Set.subset_union_left subset_rfl, hb⟩
  · rcases hescaping q z hz with hz | hz
    · exact hapart.mem_of_touches (Registry.Apart.touches_of_mem_keys hz)
    · exact .inl hz
  · rcases hescaping q z hz with hz | hz
    · exact hapart.inner.dropped z hdropped (Registry.Apart.touches_of_mem_keys hz)
    · exact Registry.Coherent.not_dropped (hq.unproduced rfl fun hmem => hbs z hmem hz) hdropped

/-! ## Stages -/

/-- A stage with the parts analysed is placed. -/
theorem Awaits.place {T P H : Set Name} {p : Pattern} {g : Stage} {c : Config} {origin : Origin}
    {r₀ : Registry} {a₀ : Progress} {C : Prop} (h : C → Awaits Λ V bs o r₀ a₀)
    (ha : C → a₀.Numbers ω a) (hg : C → r₀.Incoming Λ T P H o ω r p g)
    (harity : C → g.arity = p.length) (hsingle : C → origin = .replicate → ∃ x, p = [x]) :
    (place c origin p g r).Leads a C fun r' b =>
      ∃ ω', r₀.Advances Λ T (P ∪ p.nameSet) H o ω' r' ∧ a₀.Numbers ω' b := by
  have htry : (r.tryFuse c origin p g).FailsWith fun e => C → OfInput e :=
    .when (r.grows_tryFuse c origin p g) fun hC =>
      (hg hC).now.faultless_tryFuse (hg hC).binds.op (harity hC) c origin
  refine (Registry.ends_place htry a).imp (fun _ ⟨hle, he⟩ => ⟨hle, fun _ => he⟩)
    fun r' b ⟨hle, hplaced⟩ => ⟨hle, fun hroom hC => ?_⟩
  specialize h hC
  specialize ha hC
  -- the supply and the numbering have only grown since the outer state
  have hids : ∀ id ∈ o ++ ω, id.index < a.nextKernel := fun id hid =>
    (List.mem_append.1 hid).elim (fun hid => Nat.lt_of_lt_of_le (h.ids id hid) ha.kernels)
      fun hid => (ha.ids id hid).2
  have htags : ∀ z ∈ letNames Λ, z.tag < a.names.count := fun z hz =>
    Nat.lt_of_lt_of_le (h.tags z hz) ha.names
  obtain ⟨ω', hr', hkernels, hω'⟩ :=
    (hg hC).advances_of_placed (harity hC) (hsingle hC) htags hroom hids hplaced
  refine ⟨ω' ++ ω, hr', Nat.le_trans ha.kernels hkernels, fun id hid => ?_,
    Nat.le_trans ha.names hle⟩
  have := ha.kernels
  rcases List.mem_append.1 hid with hid | hid
  · have := hω' id hid
    omega
  · have := ha.ids id hid
    omega

/-- A stage in code that uses names of `V` and binds the names `bs`. -/
structure Stage.Within (Λ : List (Pattern × Exp)) (V : Set Name) (bs : List Name) (g : Stage) :
    Prop where
  binds : g.Over (foreign Λ) (LetOf Λ)
  holds : ∀ z ∈ letNames g.toExp.lets, z ∈ bs
  reads : ∀ z ∈ g.operandReads, z ∈ V

/-- To analyse code and then to place the stage behind it analyses both. -/
theorem Analyses.place {p : Pattern} {g : Stage} (hx : Analyses Λ V bs ∅ x)
    (hg : g.Within Λ V bs) (hΛ : (letNames Λ).Nodup) (hp : p ∈ Λ.map (·.1))
    (hpV : ∀ z ∈ p.names, z ∉ V ∧ z ∉ bs) (hbs : ∀ z ∈ bs, z ∉ V) (harity : g.arity = p.length)
    (c : Config) :
    Analyses Λ V bs p.nameSet fun r => x r >>= ArrayFusion.place c .combinator p g := by
  intro r o a
  have hparts : (x r).Leads a (Awaits Λ (V ∪ p.nameSet) bs o r a) (Gains Λ V bs ∅ o r a) :=
    (hx r o a).imp (fun h => h.mono (fun z hz => by
      rw [Set.union_empty] at hz
      exact .inl (.inl hz)) fun _ => (·)) fun _ _ _ => id
  refine hparts.bind_exists fun r' b ω => Awaits.place And.left (fun h =>
    h.2.2) (fun ⟨h, hr, hb⟩ => ?_) (fun _ => harity) fun _ => nofun
  rw [Set.union_empty] at hr
  refine ⟨h.coherent, hr, hΛ, hp, fun z hz => ⟨h.unproduced z (.inl (.inr hz)), ?_,
    (hpV z hz).2, (hpV z hz).2⟩, hg.binds, fun z hz _ => hg.holds z hz, fun z hz =>
    ⟨.inl (hg.reads z hz),
    h.unproduced z (.inl (.inl (hg.reads z hz))), fun hmem => hbs z hmem (hg.reads z hz)⟩,
    fun z hz => h.unproduced z (.inr hz)⟩
  exact fun hmem => hmem.elim (hpV z hz).1 (hpV z hz).2

end

/-! ## Code -/

/-- A piece of the function: its binders are different and new in `V`, and its `let`s are `let`s of
the function, which bind none of the slots. -/
structure Portion (Λ : List (Pattern × Exp)) (V : Set Name) (bs : List Name)
    (ls : List (Pattern × Exp)) (ss : List Name) : Prop where
  nodup : bs.Nodup
  new : ∀ z ∈ bs, z ∉ V
  lets : ∀ l ∈ ls, l ∈ Λ
  slots : ∀ z ∈ ss, z ∈ foreign Λ

/-- A portion of code consists of the portions of its parts, and these bind different names. -/
theorem Portion.append {V : Set Name} {bs₁ bs₂ ss₁ ss₂ : List Name} {ls₁ ls₂ : List (Pattern × Exp)}
    (h : Portion Λ V (bs₁ ++ bs₂) (ls₁ ++ ls₂) (ss₁ ++ ss₂)) :
    Portion Λ V bs₁ ls₁ ss₁ ∧ Portion Λ V bs₂ ls₂ ss₂ ∧ ∀ z ∈ bs₁, z ∉ bs₂ := by
  obtain ⟨hbs₁, hbs₂, hne⟩ := List.nodup_append.1 h.nodup
  obtain ⟨hnew₁, hnew₂⟩ := List.forall_mem_append.1 h.new
  obtain ⟨hls₁, hls₂⟩ := List.forall_mem_append.1 h.lets
  obtain ⟨hss₁, hss₂⟩ := List.forall_mem_append.1 h.slots
  exact ⟨⟨hbs₁, hnew₁, hls₁, hss₁⟩, ⟨hbs₂, hnew₂, hls₂, hss₂⟩, fun z hz hz' => hne z hz z hz' rfl⟩

/-- The portion in a scope with more names, which it does not bind. -/
theorem Portion.enter {V : Set Name} {bs ss : List Name} {ls : List (Pattern × Exp)}
    (h : Portion Λ V bs ls ss) (V' : Set Name) (hV : ∀ z ∈ bs, z ∉ V') :
    Portion Λ (V ∪ V') bs ls ss :=
  { h with new := fun z hz hmem => hmem.elim (h.new z hz) (hV z hz) }

/-- Different binders are those of different `let`s. -/
theorem Exp.nodup_letNames {e : Exp} (h : e.binders.Nodup) : (letNames e.lets).Nodup :=
  List.nodup_iff_count_le_one.2 fun z => by
    have hcount := e.count_binders z
    have hone := List.nodup_iff_count_le_one.1 h z
    omega

theorem Exp.mem_binders_of_lets {e : Exp} {z : Name} (h : z ∈ letNames e.lets) : z ∈ e.binders := by
  have := List.count_pos_iff.2 h
  have := e.count_binders z
  exact List.count_pos_iff.1 (by omega)

theorem Combinator.mem_binders_of_lets {op : Combinator} {z : Name} (h : z ∈ letNames op.lets) :
    z ∈ op.binders := by
  have := List.count_pos_iff.2 h
  have := op.count_binders z
  exact List.count_pos_iff.1 (by omega)

theorem Exp.binders_subset_bindersAll {e : Exp} {es : List Exp} (he : e ∈ es) {z : Name}
    (hz : z ∈ e.binders) : z ∈ Exp.bindersAll es := by
  induction es with
  | nil => cases he
  | cons d es ih =>
    rcases List.mem_cons.1 he with rfl | he
    · exact List.mem_append_left _ hz
    · exact List.mem_append_right _ (ih he)

/-- The names free in one of the expressions are free in them. -/
theorem Exp.free_subset_freeAll {c : Bool} {e : Exp} {es : List Exp} (he : e ∈ es) :
    e.free c ⊆ Exp.freeAll c es := by
  induction es with
  | nil => cases he
  | cons d es ih =>
    rcases List.mem_cons.1 he with rfl | he
    · exact Set.subset_union_left
    · exact (ih he).trans Set.subset_union_right

/-- The binders of a combinator are those of its lambdas and those of its neutral elements. -/
theorem Combinator.binders_eq (op : Combinator) :
    op.binders = op.lambdas.flatMap Lambda.binders ++ Exp.bindersAll op.neutral := by
  cases op <;> simp [binders, lambdas, neutral, Exp.bindersAll]

/-- An operand reads names that are free in its expression, and has the same `let`s. -/
theorem Operand.reads_of_ofExp? {e : Exp} {a : Operand} (h : Operand.ofExp? e = some a) :
    (∀ z ∈ a.reads, z ∈ e.free true) ∧ Exp.letsAll a.exps = e.lets := by
  have hreads : ∀ {d : Exp} {z : Name}, z ∈ d.freeVars.map (·.name) → z ∈ d.free true :=
    fun {d} {z} => (d.mem_freeVars).1
  unfold ofExp? at h
  split at h
  · split at h
    · cases h
      exact ⟨fun z hz => List.mem_singleton.1 hz, rfl⟩
    · cases h
  · cases h
    refine ⟨fun z hz => ?_, rfl⟩
    rcases List.mem_cons.1 hz with rfl | hz
    · exact .inl rfl
    · obtain ⟨d, hd, hz⟩ := List.mem_flatMap.1 hz
      exact .inr (Exp.free_subset_freeAll hd (hreads hz))
  · split at h
    · cases h
      exact ⟨fun z hz => List.mem_singleton.1 hz, rfl⟩
    · cases h
  · cases h
    exact ⟨fun z hz => hreads hz, List.append_nil _⟩
  · cases h

/-- No stage comes of a combinator with an argument that is no operand, which is an error about the
function. -/
theorem Stage.ofInput_of_ofExp? {e : Exp} {err : FusionError} (h : Stage.ofExp? e = .error err) :
    err.OfInput := by
  -- the first operand that is none is the one the error is about
  have hmapM : ∀ {s : Span} {es : List Exp} {err : FusionError},
      es.mapM (Stage.operandOf s) = .error err → err.OfInput := by
    intro s es err h
    induction es with
    | nil => cases h
    | cons e es ih =>
      rw [List.mapM_cons] at h
      unfold Stage.operandOf at h
      cases he : Operand.ofExp? e with
      | none =>
        rw [he] at h
        cases h
        exact nofun
      | some a =>
        rw [he] at h
        cases hes : es.mapM (Stage.operandOf s) with
        | error err' =>
          change (es.mapM (Stage.operandOf s) >>= _) = _ at h
          rw [hes] at h
          cases h
          exact ih hes
        | ok as =>
          change (es.mapM (Stage.operandOf s) >>= _) = _ at h
          rw [hes] at h
          cases h
  cases e with
  | soac op args certs s =>
    change (args.mapM (Stage.operandOf s) >>= _) = _ at h
    cases has : args.mapM (Stage.operandOf s) with
    | error err' =>
      rw [has] at h
      cases h
      exact hmapM has
    | ok as =>
      rw [has] at h
      cases h
  | _ => cases h

/-- The stage of a combinator lies within the code of the combinator. -/
theorem Stage.within_of_ofExp? {op : Combinator} {args : List Exp} {certs : Certificates} {s : Span}
    {g : Stage} {V : Set Name} (h : Stage.ofExp? (.soac op args certs s) = .ok (some g))
    (huses : Exp.freeAll true args ⊆ V)
    (hp : Portion Λ V (op.binders ++ Exp.bindersAll args) (op.lets ++ Exp.letsAll args)
      (op.slots ++ Exp.slotsAll args)) :
    g.Within Λ V (op.binders ++ Exp.bindersAll args) ∧ g.arity = op.arity args.length := by
  obtain ⟨as, hpairs, rfl⟩ := Stage.ofExp?_eq_ok h
  -- an operand reads and binds what the expression it was read from does
  have hoperand : ∀ a ∈ as, ∃ e ∈ args, (∀ z ∈ a.reads, z ∈ e.free true)
      ∧ Exp.letsAll a.exps = e.lets := fun a ha => by
    obtain ⟨e, he, hea⟩ := Recipe.exists_of_forall₂ hpairs ha
    exact ⟨e, he, Operand.reads_of_ofExp? hea⟩
  refine ⟨⟨⟨fun z hz => ?_, fun l hl => ?_, fun a ha l hl => ?_⟩, fun z hz => ?_,
    fun z hz => ?_⟩, ?_⟩
  · exact hp.slots z (List.mem_append_left _ (op.slots_element hz))
  · exact .inl (List.mem_map_of_mem (hp.lets l (List.mem_append_left _ hl)))
  · obtain ⟨e, he, -, hlets⟩ := hoperand a ha
    rw [hlets] at hl
    exact .inl (List.mem_map_of_mem (hp.lets l
      (List.mem_append_right _ (Exp.mem_letsAll.2 ⟨e, he, hl⟩))))
  · obtain ⟨l, hl, hz⟩ := mem_letNames.1 hz
    rcases Stage.mem_lets_toExp.1 hl with hl | ⟨a, ha, hl⟩
    · exact List.mem_append_left _ (Combinator.mem_binders_of_lets (mem_letNames.2 ⟨l, hl, hz⟩))
    · obtain ⟨e, he, -, hlets⟩ := hoperand a ha
      exact List.mem_append_right _ (Exp.binders_subset_bindersAll he
        (Exp.mem_binders_of_lets (mem_letNames.2 ⟨l, hlets ▸ hl, hz⟩)))
  · obtain ⟨a, ha, hz⟩ := List.mem_flatMap.1 hz
    obtain ⟨e, he, hreads, -⟩ := hoperand a ha
    exact huses (Exp.free_subset_freeAll he (hreads z hz))
  · rw [Stage.arity, hpairs.length_eq]

/-! ## Replicated values -/

/-- What a piece of code is bound to. -/
def siteNames : Option Pattern → Set Name
  | none => ∅
  | some p => p.nameSet

/-- The code is what a `let` of the function binds, if there is a pattern for it. -/
def Bound (Λ : List (Pattern × Exp)) (V : Set Name) (e : Exp) (site : Option Pattern) : Prop :=
  ∀ p, site = some p → (p, e) ∈ Λ ∧ ∀ z ∈ p.names, z ∉ V ∧ z ∉ e.binders

theorem faultless_replicateStage (c : Config) (p : Pattern) (n v : Exp) (s : Span) :
    (replicateStage c p n v s).Faultless := by
  rcases p with _ | ⟨x, _ | ⟨y, p⟩⟩
  · exact .pure none
  · unfold replicateStage
    dsimp only
    split
    · exact (Fresh.FailsWith.ident _ _).bind fun _ => .pure _
    · exact .pure none
  · exact .pure none

/-- The map that a replicated value is lies within the code of the value. -/
theorem within_replicateStage {c : Config} {p : Pattern} {n v : Exp} {span : Span} {g : Stage}
    {s s' : NameSupply} {V : Set Name} (h : replicateStage c p n v span s = .ok (some g, s'))
    (hs : ∀ z ∈ letNames Λ, z.tag < s.count) (hroom : s'.InRange) (huses : n.free true ⊆ V)
    (hp : Portion Λ V (n.binders ++ v.binders) (n.lets ++ v.lets) (n.slots ++ v.slots)) :
    g.Within Λ V (n.binders ++ v.binders) ∧ g.arity = p.length ∧ ∃ x, p = [x] := by
  rcases replicateStage_cases h with ⟨hnone, -⟩ | ⟨-, x, row, rfl, -, hcount, heq⟩
  · cases hnone
  cases heq
  -- the index is new, as there was a tag for it
  have htag : s.next = s.count := hroom.next_eq (by omega)
  have hvalue : ∀ l ∈ v.lets, l ∈ n.lets ++ v.lets := fun l hl => List.mem_append_right _ hl
  have hnumber : ∀ l ∈ Exp.letsAll [n], l ∈ n.lets ++ v.lets := fun l hl => by
    obtain ⟨e, he, hl⟩ := Exp.mem_letsAll.1 hl
    exact List.mem_append_left _ (List.mem_singleton.1 he ▸ hl)
  refine ⟨⟨⟨fun z hz hmem => ?_, fun l hl => ?_, fun a ha l hl => ?_⟩,
    fun z hz => ?_, fun z hz => ?_⟩, rfl, x, rfl⟩
  · rw [List.mem_singleton.1 hz] at hmem
    exact absurd (hs _ hmem) (Nat.not_lt.2 htag.ge)
  · exact .inl (List.mem_map_of_mem (hp.lets l (hvalue l hl)))
  · rw [List.mem_singleton.1 ha] at hl
    exact .inl (List.mem_map_of_mem (hp.lets l (hnumber l hl)))
  · obtain ⟨l, hl, hz⟩ := mem_letNames.1 hz
    rcases Stage.mem_lets_toExp.1 hl with hl | ⟨a, ha, hl⟩
    · exact List.mem_append_right _ (Exp.mem_binders_of_lets (mem_letNames.2 ⟨l, hl, hz⟩))
    · rw [List.mem_singleton.1 ha] at hl
      obtain ⟨e, he, hl⟩ := Exp.mem_letsAll.1 hl
      rw [List.mem_singleton.1 he] at hl
      exact List.mem_append_left _ (Exp.mem_binders_of_lets (mem_letNames.2 ⟨l, hl, hz⟩))
  · obtain ⟨a, ha, hz⟩ := List.mem_flatMap.1 hz
    rw [List.mem_singleton.1 ha] at hz
    exact huses (n.mem_freeVars.1 hz)

/-- The names of the site are not in scope and not bound by the expression. -/
theorem Bound.notMem_siteNames {V : Set Name} {e : Exp} {site : Option Pattern}
    (h : Bound Λ V e site) {z : Name} (hz : z ∈ V ∨ z ∈ e.binders) : z ∉ siteNames site := by
  cases site with
  | none => exact Set.notMem_empty z
  | some p => exact fun hmem => hz.elim ((h p rfl).2 z hmem).1 ((h p rfl).2 z hmem).2

/-- What is decided about a replicated value, before its parts are analysed. -/
theorem Awaits.placeReplicate {V : Set Name} {n v : Exp} {span : Span} {site : Option Pattern}
    {o : List KernelId} {r : Registry} {a : Progress} (c : Config) (hΛ : (letNames Λ).Nodup)
    (hsite : Bound Λ V (.replicate n v span) site) (huses : n.free true ⊆ V)
    (hp : Portion Λ V (n.binders ++ v.binders) (n.lets ++ v.lets) (n.slots ++ v.slots)) :
    (ArrayFusion.placeReplicate c site n v span r).Leads a
      (Awaits Λ (V ∪ siteNames site) (n.binders ++ v.binders) o r a) fun r' b => ∃ ω, r.Advances Λ V
    (siteNames site) (namesOf (n.binders ++ v.binders)) o ω r'
        ∧ a.Numbers ω b := by
  have hstays : ∀ b : Progress, Awaits Λ (V ∪ siteNames site) (n.binders ++ v.binders) o r a →
      a.Numbers [] b → ∃ ω, r.Advances Λ V (siteNames site) (namesOf (n.binders ++ v.binders)) o ω r
        ∧ a.Numbers ω b := fun b h hb => ⟨[], h.coherent.advances _ _ _, hb⟩
  cases site with
  | none => exact .pure fun h => hstays a h (.refl a)
  | some p =>
    obtain ⟨hmem, hfresh⟩ := hsite p rfl
    -- a replicate that is an operand is offered like a combinator, with one name to bind
    have hstage : (Analysis.fresh (replicateStage c p n v span)).Leads a
        (Awaits Λ (V ∪ p.nameSet) (n.binders ++ v.binders) o r a) fun g b => a.Numbers [] b
          ∧ ∀ g', g = some g' → g'.Within Λ V (n.binders ++ v.binders) ∧ g'.arity = p.length
            ∧ ∃ x, p = [x] :=
      Ends.fresh (((faultless_replicateStage c p n v span a.names).and_eq).imp
        (fun _ ⟨hle, he⟩ => ⟨hle, fun _ _ => he⟩) fun g s' ⟨hle, hg⟩ => ⟨hle, fun hroom h =>
          ⟨⟨Nat.le_refl _, nofun, hle⟩, fun g' hg' =>
            within_replicateStage (hg' ▸ hg) h.tags hroom huses hp⟩⟩)
    refine hstage.bind fun g b => ?_
    cases g with
    | none => exact .pure fun ⟨h, hb, _⟩ => hstays b h hb
    | some g =>
      refine (Awaits.place (P := ∅) (fun ⟨h, _⟩ => h) (fun ⟨_, hb, _⟩ => hb) (fun ⟨h, hb, hg⟩ => ?_)
        (fun ⟨_, _, hg⟩ => (hg g rfl).2.1) fun ⟨_, _, hg⟩ _ => (hg g rfl).2.2).imp id
          fun r' d _ hr => by rwa [Set.empty_union] at hr
      have hwithin := (hg g rfl).1
      exact {
        before := h.coherent
        advances := h.coherent.advances _ _ _
        distinct := hΛ
        pattern := List.mem_map_of_mem hmem
        names := fun z hz => ⟨h.unproduced z (.inl (.inr hz)), (hfresh z hz).1, nofun,
          (hfresh z hz).2⟩
        binds := hwithin.binds
        holds := fun z hz _ => hwithin.holds z hz
        reads := fun z hz => ⟨hwithin.reads z hz,
          h.unproduced z (.inl (.inl (hwithin.reads z hz))), nofun⟩
        unproduced := fun z hz => h.unproduced z (.inr hz) }

end ArrayFusion
