import ArrayFusion.Fusion.Pass
import ArrayFusion.Proofs.Classifying
import ArrayFusion.Proofs.Composites
import ArrayFusion.Proofs.Registries

/-!
# What a decision does

`Registry.tryFuse` either fuses a stage into all kernels that read its results or leaves everything
as it is, and `place` registers what follows from that.  The relations here are the two functions
without the monads: `FusedInto` goes through the kernels one after another, and `Placed` has a case
for each outcome.
-/

namespace ArrayFusion

namespace Registry

variable {r : Registry} {g : Stage} {outs : List Ident}

/-- The stage was fused into each of the kernels.  Only the first one takes the stage as it is, if
`first` says so; all others take copies. -/
inductive FusedInto (r : Registry) (g : Stage) (outs : List Ident) :
    Bool → List Kernel → NameSupply → List Kernel → NameSupply → Prop
  | nil {first s} : FusedInto r g outs first [] s [] s
  | first {K K' Ks Ks' s s₁ s'} : (Producer.mk g outs).fuseInto K s = .ok (some K', s₁) →
      FusedInto r g outs false Ks s₁ Ks' s' → FusedInto r g outs true (K :: Ks) s (K' :: Ks') s'
  | copy {g' K K' Ks Ks' s s₁ s₂ s'} : r.copyOf g s = .ok (g', s₁) →
      (Producer.mk g' outs).fuseInto K s₁ = .ok (some K', s₂) →
      FusedInto r g outs false Ks s₂ Ks' s' → FusedInto r g outs false (K :: Ks) s (K' :: Ks') s'

/-- A stage is fused into the first kernel, and then copies of it into the others. -/
theorem fuseIntoAll_cons (r : Registry) (g : Stage) (outs : List Ident) (first : Bool) (K : Kernel)
    (Ks : List Kernel) : r.fuseIntoAll g outs first (K :: Ks) =
      ((if first then pure g else r.copyOf g)
        >>= fun stage => (Producer.mk stage outs).fuseInto K >>= fun K' => match K' with
          | none => return none
          | some K' => r.fuseIntoAll g outs false Ks >>= fun Ks' => match Ks' with
            | none => return none
            | some Ks' => return some (K' :: Ks')) := by
  cases first <;> rfl

/-- Fusing a stage into kernels leaves what the relation says. -/
theorem fusedInto_of_fuseIntoAll {first : Bool} {Ks Ks' : List Kernel} {s s' : NameSupply}
    (h : r.fuseIntoAll g outs first Ks s = .ok (some Ks', s')) :
    FusedInto r g outs first Ks s Ks' s' := by
  induction Ks generalizing first s Ks' with
  | nil =>
    obtain ⟨heq, rfl⟩ := State.pure_eq_ok.1 h
    cases heq
    exact .nil
  | cons K Ks ih =>
    rw [fuseIntoAll_cons] at h
    obtain ⟨g', s₁, hg, h₁⟩ := State.bind_eq_ok.1 h
    obtain ⟨K', s₂, hK, h₂⟩ := State.bind_eq_ok.1 h₁
    -- each composition has succeeded, or the whole attempt would have failed
    rcases K' with _ | K'
    · cases (State.pure_eq_ok.1 h₂).1
    obtain ⟨rest, s₃, hrest, h₃⟩ := State.bind_eq_ok.1 h₂
    rcases rest with _ | rest
    · cases (State.pure_eq_ok.1 h₃).1
    obtain ⟨heq, rfl⟩ := State.pure_eq_ok.1 h₃
    cases heq
    -- only the first kernel gets the stage itself
    cases first with
    | true =>
      obtain ⟨rfl, rfl⟩ := State.pure_eq_ok.1 hg
      exact .first hK (ih hrest)
    | false => exact .copy hg hK (ih hrest)

/-- Kernels that are looked up are those of the registry. -/
theorem mem_of_mapM_kernel {ids : List KernelId} {span : Span} {Ks : List Kernel}
    (h : (ids.mapM fun id => r.kernel id span) = .ok Ks) :
    List.Forall₂ (fun id K => r.kernels.find? id = some K) ids Ks :=
  (Except.mapM_eq_ok.1 h).imp fun _ _ => kernel_eq_ok.1

/-- Kernels that are registered are found. -/
theorem exists_mapM_kernel {ids : List KernelId} (span : Span)
    (h : ∀ id ∈ ids, ∃ K, r.kernels.find? id = some K) :
    ∃ Ks, (ids.mapM fun id => r.kernel id span) = .ok Ks := by
  obtain ⟨Ks, hKs⟩ := exists_forall₂ h
  exact ⟨Ks, Except.mapM_eq_ok.2 (hKs.imp fun _ _ => kernel_eq_ok.2)⟩

/-- The kernels that read any of the names. -/
theorem mem_candidates {xs : List Name} {id : KernelId} :
    id ∈ r.candidates xs ↔ ∃ x ∈ xs, id ∈ r.consumersOf x := by
  rw [candidates, List.mem_mergeSort, List.mem_eraseDups, List.mem_flatMap]

/-- What is known when a stage was fused into the kernels that read its results. -/
structure TriedFusion (r : Registry) (c : Config) (o : Origin) (p : Pattern) (g : Stage)
    (s : NameSupply) (Ks' : List Kernel) (s' : NameSupply) : Prop where
  fusable : o = .combinator → ∀ x ∈ p.names, x ∉ r.unfusable
  candidates : r.candidates p.names ≠ []
  compatible : ∃ Ks, (r.candidates p.names).mapM (fun id => r.kernel id g.span) = .ok Ks
    ∧ (∀ K ∈ Ks, compatible c g p.names K = true)
    ∧ (∀ K ∈ Ks, ∀ x ∈ g.reads, x ∉ K.inplace)
    ∧ FusedInto r g p true Ks s Ks' s'

/-- A fusion that is tried with success is as the relation says. -/
theorem tryFuse_eq_ok {c : Config} {o : Origin} {p : Pattern} {s s' : NameSupply}
    {Ks' : List Kernel} (h : r.tryFuse c o p g s = .ok (.ok Ks', s')) :
    r.TriedFusion c o p g s Ks' s' := by
  unfold tryFuse at h
  split at h
  · cases (State.pure_eq_ok.1 h).1
  rename_i hfusable
  -- of the five reasons to refuse none applies
  have hne : r.candidates p.names ≠ [] := by
    intro hnil
    rw [hnil] at h
    cases (State.pure_eq_ok.1 h).1
  obtain ⟨id, ids, hids⟩ := List.exists_cons_of_ne_nil hne
  rw [hids] at h
  obtain ⟨Ks, s₁, hlift, h₁⟩ := State.bind_eq_ok.1 h
  obtain ⟨hKs, rfl⟩ := Fresh.lift_eq_ok.1 hlift
  split at h₁
  · cases (State.pure_eq_ok.1 h₁).1
  rename_i hcompatible
  split at h₁
  · cases (State.pure_eq_ok.1 h₁).1
  rename_i hhazard
  obtain ⟨result, s₂, hresult, h₂⟩ := State.bind_eq_ok.1 h₁
  rcases result with _ | result
  · cases (State.pure_eq_ok.1 h₂).1
  obtain ⟨heq, rfl⟩ := State.pure_eq_ok.1 h₂
  cases heq
  refine ⟨fun ho x hx hmem => hfusable ?_, hne, Ks, hids ▸ hKs, ?_, ?_,
    fusedInto_of_fuseIntoAll hresult⟩
  · simp only [ho, decide_true, Bool.true_and, List.any_eq_true]
    exact ⟨x, hx, List.contains_iff_mem.2 hmem⟩
  · simpa using hcompatible
  · intro K hK x hx hmem
    simp only [List.any_eq_true, not_exists, not_and] at hhazard
    exact hhazard K hK x hx (List.contains_iff_mem.2 hmem)

end Registry

open Registry (TriedFusion)

/-- The outcomes of a decision: the stage is fused, or it stays without a kernel, or it gets one. -/
inductive Placed (c : Config) (o : Origin) (p : Pattern) (g : Stage) (r : Registry) (a : Progress) :
    Registry → Progress → Prop
  | fused {Ks' : List Kernel} {b : Progress} : r.TriedFusion c o p g a.names Ks' b.names →
      b.nextKernel = a.nextKernel → Placed c o p g r a (r.fused o p g Ks') b
  | stays {reason : Reason} {b : Progress} : o = .replicate →
      r.tryFuse c o p g a.names = .ok (.error reason, b.names) → b.nextKernel = a.nextKernel →
      Placed c o p g r a r b
  | registered {reason : Reason} {s : NameSupply} {K : Kernel} {b : Progress} : o = .combinator →
      r.tryFuse c o p g a.names = .ok (.error reason, s) → b.nextKernel = a.nextKernel + 1 →
      (c.transposePull = false ∧ K = Kernel.new ⟨a.nextKernel⟩ g p ∧ b.names = s
        ∨ c.transposePull = true
          ∧ (Kernel.new ⟨a.nextKernel⟩ g p).pullTransposes s = (K, b.names)) →
      Placed c o p g r a (r.register K) b

/-- A new kernel gets the next number, and its transposes are pulled if that is enabled. -/
theorem newKernel_eq_ok {c : Config} {p : Pattern} {g : Stage} {a b : Progress} {K : Kernel}
    (h : newKernel c p g a = .ok (K, b)) : b.nextKernel = a.nextKernel + 1
      ∧ b.decisions = a.decisions ∧
      (c.transposePull = false ∧ K = Kernel.new ⟨a.nextKernel⟩ g p ∧ b.names = a.names
        ∨ c.transposePull = true
          ∧ (Kernel.new ⟨a.nextKernel⟩ g p).pullTransposes a.names = (K, b.names)) := by
  obtain ⟨id, a₁, hid, h₁⟩ := State.bind_eq_ok.1 h
  cases hid
  split at h₁
  · rename_i hpull
    obtain ⟨s, hs, rfl⟩ := Analysis.fresh_eq_ok.1 h₁
    exact ⟨rfl, rfl, .inr ⟨hpull, Except.ok.inj hs⟩⟩
  · rename_i hpull
    obtain ⟨rfl, rfl⟩ := State.pure_eq_ok.1 h₁
    exact ⟨rfl, rfl, .inl ⟨Bool.not_eq_true _ ▸ hpull, rfl, rfl⟩⟩

/-- The outcomes of a decision with what is noted about it. -/
inductive Decided (c : Config) (o : Origin) (p : Pattern) (g : Stage) (r : Registry)
    (a : Progress) : Decision → Registry → Progress → Prop
  | fused {Ks' : List Kernel} {b : Progress} : r.TriedFusion c o p g a.names Ks' b.names →
      b.nextKernel = a.nextKernel →
      Decided c o p g r a (.fused p.names g.kind (Ks'.map (·.id))) (r.fused o p g Ks') b
  | stays {reason : Reason} {b : Progress} : o = .replicate →
      r.tryFuse c o p g a.names = .ok (.error reason, b.names) → b.nextKernel = a.nextKernel →
      Decided c o p g r a (.kept p.names g.kind none reason) r b
  | registered {reason : Reason} {s : NameSupply} {K : Kernel} {b : Progress} : o = .combinator →
      r.tryFuse c o p g a.names = .ok (.error reason, s) → b.nextKernel = a.nextKernel + 1 →
      (c.transposePull = false ∧ K = Kernel.new ⟨a.nextKernel⟩ g p ∧ b.names = s
        ∨ c.transposePull = true
          ∧ (Kernel.new ⟨a.nextKernel⟩ g p).pullTransposes s = (K, b.names)) →
      Decided c o p g r a (.kept p.names g.kind (some K.id) reason) (r.register K) b

/-- To place a stage is to make one decision about it. -/
theorem decided_of_place {c : Config} {o : Origin} {p : Pattern} {g : Stage} {r r' : Registry}
    {a b : Progress} (h : place c o p g r a = .ok (r', b)) :
    ∃ d, b.decisions = a.decisions ++ [d] ∧ Decided c o p g r a d r' b := by
  obtain ⟨result, a₁, htried, h₁⟩ := State.bind_eq_ok.1 h
  obtain ⟨s, htry, rfl⟩ := Analysis.fresh_eq_ok.1 htried
  -- refused, a replicate leaves nothing behind, and a combinator gets a kernel
  rcases result with reason | Ks'
  · cases o with
    | replicate =>
      obtain ⟨_, a₂, hnote, h₂⟩ := State.bind_eq_ok.1 h₁
      cases hnote
      obtain ⟨rfl, rfl⟩ := State.pure_eq_ok.1 h₂
      exact ⟨_, rfl, .stays rfl htry rfl⟩
    | combinator =>
      obtain ⟨K, a₂, hK, h₂⟩ := State.bind_eq_ok.1 h₁
      obtain ⟨hnext, hdecisions, hkernel⟩ := newKernel_eq_ok hK
      obtain ⟨_, a₃, hnote, h₃⟩ := State.bind_eq_ok.1 h₂
      cases hnote
      obtain ⟨rfl, rfl⟩ := State.pure_eq_ok.1 h₃
      exact ⟨_, congrArg (· ++ [_]) hdecisions, .registered rfl htry hnext hkernel⟩
  · obtain ⟨_, a₂, hnote, h₂⟩ := State.bind_eq_ok.1 h₁
    cases hnote
    obtain ⟨rfl, rfl⟩ := State.pure_eq_ok.1 h₂
    exact ⟨_, rfl, .fused (Registry.tryFuse_eq_ok htry) rfl⟩

/-- Each decision places its stage. -/
theorem Decided.placed {c : Config} {o : Origin} {p : Pattern} {g : Stage} {r r' : Registry}
    {a b : Progress} {d : Decision} (h : Decided c o p g r a d r' b) : Placed c o p g r a r' b := by
  cases h with
  | fused htried hnext => exact .fused htried hnext
  | stays ho htry hnext => exact .stays ho htry hnext
  | registered ho htry hnext hK => exact .registered ho htry hnext hK

/-- A stage that is placed is as the relation says. -/
theorem placed_of_place {c : Config} {o : Origin} {p : Pattern} {g : Stage} {r r' : Registry}
    {a b : Progress} (h : place c o p g r a = .ok (r', b)) : Placed c o p g r a r' b := by
  obtain ⟨d, -, hdecided⟩ := decided_of_place h
  exact hdecided.placed

/-! ## Replicated values -/

/-- A replicated value either has no stage, or it is an atom and its stage a map over a range. -/
theorem replicateStage_cases {c : Config} {p : Pattern} {n v : Exp} {span : Span} {g : Option Stage}
    {s s' : NameSupply} (h : replicateStage c p n v span s = .ok (g, s')) :
    g = none ∧ s' = s ∨ v.isAtom ∧ ∃ x row, p = [x] ∧ x.ty.row? = some row ∧ s'.count = s.count + 1
      ∧ g = some ⟨.map ⟨[⟨⟨"i", s.next⟩, .int⟩], v, [row]⟩, [.range n], [], span⟩ := by
  rcases p with _ | ⟨x, _ | ⟨y, p⟩⟩
  · exact .inl (State.pure_eq_ok.1 h)
  · unfold replicateStage at h
    dsimp only at h
    -- the pass has to allow it, and the value has to be an atom
    cases hatom : c.replicateFusion && v.isAtom with
    | false =>
      rw [hatom] at h
      exact .inl (State.pure_eq_ok.1 h)
    | true =>
      -- what the replicate is bound to has to be an array
      cases hrow : x.ty.row? with
      | none =>
        rw [hatom, hrow] at h
        exact .inl (State.pure_eq_ok.1 h)
      | some row =>
        rw [hatom, hrow] at h
        obtain ⟨i, s₁, hi, h⟩ := State.bind_eq_ok.1 h
        obtain ⟨heq, rfl⟩ := State.pure_eq_ok.1 h
        cases hi
        exact .inr ⟨(Bool.and_eq_true_iff.1 hatom).2, x, row, rfl, hrow, rfl, heq⟩
  · exact .inl (State.pure_eq_ok.1 h)

/-- Decides about a replicated value, if it is what a `let` binds. -/
def placeReplicate (c : Config) (site : Option Pattern) (n v : Exp) (s : Span) (r : Registry) :
    Analysis Registry :=
  match site with
  | none => return r
  | some p => do
    match ← Analysis.fresh (replicateStage c p n v s) with
    | none => return r
    | some g => place c .replicate p g r

/-- Of a replicate the map that stands for it is placed, and then its parts are analysed. -/
theorem Exp.analyse_replicate (c : Config) (site : Option Pattern) (r : Registry) (n v : Exp)
    (s : Span) : (Exp.replicate n v s).analyse c site r =
      (placeReplicate c site n v s r >>= fun r => v.analyse c none r >>= n.analyse c none) := by
  conv_lhs => unfold Exp.analyse
  cases site with
  | none => rfl
  | some p =>
    change (Analysis.fresh (replicateStage c p n v s) >>= _) = ((_ >>= _) >>= _)
    rw [bind_assoc]
    refine congrArg (Analysis.fresh (replicateStage c p n v s) >>= ·) (funext fun g => ?_)
    cases g <;> rfl

/-- Nothing is decided about the value, or something is decided about the map that it is. -/
theorem placeReplicate_eq_ok {c : Config} {site : Option Pattern} {n v : Exp} {s : Span}
    {r r' : Registry} {a b : Progress} (h : placeReplicate c site n v s r a = .ok (r', b)) :
    r' = r ∧ b = a ∨ ∃ p g s', site = some p ∧ replicateStage c p n v s a.names = .ok (some g, s')
      ∧ Placed c .replicate p g r { a with names := s' } r' b := by
  cases site with
  | none => exact .inl (State.pure_eq_ok.1 h)
  | some p =>
    obtain ⟨g, a₁, hfresh, h⟩ := State.bind_eq_ok.1 h
    obtain ⟨s', hg, rfl⟩ := Analysis.fresh_eq_ok.1 hfresh
    cases g with
    | none =>
      obtain ⟨rfl, rfl⟩ := State.pure_eq_ok.1 h
      rcases replicateStage_cases hg with ⟨-, rfl⟩ | ⟨-, x, row, -, -, -, hnone⟩
      · exact .inl ⟨rfl, rfl⟩
      · cases hnone
    | some g => exact .inr ⟨p, g, s', rfl, hg, placed_of_place h⟩

/-! ## Combinators -/

/-- A combinator that a `let` binds has a stage with a result for each name, and what is in it is
analysed before something is decided about the stage. -/
theorem Exp.analyse_soac_eq_ok {c : Config} {op : Combinator} {args : List Exp}
    {certs : Certificates} {s : Span} {p : Pattern} {r r' : Registry} {a b : Progress}
    (h : (Exp.soac op args certs s).analyse c (some p) r a = .ok (r', b)) :
    ∃ g, Stage.ofExp? (.soac op args certs s) = .ok (some g) ∧ p.length = g.arity
      ∧ (op.analyseLambdas c r >>= fun r => Exp.analyseOperands c r args >>= fun r =>
        op.analyseNeutral c r >>= place c .combinator p g) a = .ok (r', b) := by
  obtain ⟨g, a₁, hlift, h⟩ := State.bind_eq_ok.1 h
  obtain ⟨hg, rfl⟩ := Analysis.lift_eq_ok.1 hlift
  cases g with
  | none =>
    obtain ⟨as, -, hnone⟩ := Except.bind_eq_ok.1 hg
    cases hnone
  | some g =>
    -- the pattern is checked behind the arguments
    by_cases hp : p.length = g.arity
    · exact ⟨g, hg, hp, by simpa only [if_pos hp] using h⟩
    · obtain ⟨r₁, a₂, -, h⟩ := State.bind_eq_ok.1 h
      rw [if_neg hp] at h
      cases h

/-! ## Functions -/

/-- The supply that is left when the pass is through with a function or has given it up. -/
def FunDef.supplyAfter (c : Config) (f : FunDef) : NameSupply :=
  if c.enabled then
    match f.analyse c ⟨.forFun f, 0, []⟩ with
    | .ok (_, b) => b.names
    | .error e => e.state.names
  else .forFun f

/-- There are tags for all the names that the pass takes for the function. -/
def FunDef.TagsSuffice (c : Config) (f : FunDef) : Prop := (f.supplyAfter c).InRange

instance (c : Config) (f : FunDef) :
    Decidable (f.TagsSuffice c) := inferInstanceAs (Decidable (_ ≤ _))

/-- Nothing takes names when the body has been analysed. -/
theorem FunDef.supplyAfter_of_ok {c : Config} {f : FunDef} (henabled : c.enabled = true)
    {r : Registry} {b : Progress} (h : f.body.analyse c none .empty ⟨.forFun f, 0, []⟩ = .ok
    (r, b)) : f.supplyAfter c = b.names := by
  have hrun : f.analyse c ⟨.forFun f, 0, []⟩ = Analysis.lift (r.clean f.span) b := by
    change (f.body.analyse c none .empty ⟨.forFun f, 0, []⟩ >>= fun p =>
      Analysis.lift (p.1.clean f.span) p.2) = _
    rw [h]
    rfl
  rw [supplyAfter, if_pos henabled, hrun]
  cases hclean : r.clean f.span with
  | ok q => rfl
  | error e => rfl

/-- An error in the body ends the analysis. -/
theorem FunDef.supplyAfter_of_error {c : Config} {f : FunDef} (henabled : c.enabled = true)
    {e : Failure Progress} (h : f.body.analyse c none .empty ⟨.forFun f, 0, []⟩ = .error e) :
    f.supplyAfter c = e.state.names := by
  have hrun : f.analyse c ⟨.forFun f, 0, []⟩ = .error e := by
    change (f.body.analyse c none .empty ⟨.forFun f, 0, []⟩ >>= fun p =>
      Analysis.lift (p.1.clean f.span) p.2) = _
    rw [h]
    rfl
  rw [supplyAfter, if_pos henabled, hrun]

/-- The pass is off and nothing is decided.  Or else the function is analysed, and it stays as it is
if nothing was fused; otherwise its body is emitted by the registry that the analysis leaves,
without the kernels that nothing was fused into. -/
theorem FunDef.outcome_of_fuse {c : Config} {f : FunDef} {fused : FusedFun}
    (h : f.fuse c = .ok fused) : c.enabled = false ∧ fused = f.unfused []
      ∨ c.enabled = true ∧ ∃ r b, f.body.analyse c none .empty ⟨.forFun f, 0, []⟩ = .ok (r, b)
        ∧ (r.succeeded = false ∧ fused = f.unfused b.decisions
          ∨ r.succeeded = true ∧ ∃ body, r.dropUnfused.emit f.body = .ok body
            ∧ fused = ⟨{ f with body }, true,
              ⟨f.name, true, r.dropUnfused.fusedKernels.length, b.decisions, none⟩⟩) := by
  unfold FunDef.fuse at h
  cases henabled : c.enabled with
  | false =>
    rw [henabled] at h
    cases h
    exact .inl ⟨rfl, rfl⟩
  | true =>
    rw [henabled] at h
    obtain ⟨⟨q, b⟩, hanalyse, h⟩ := Except.bind_eq_ok.1 h
    obtain ⟨r, a, hr, hlift⟩ := State.bind_eq_ok.1 (Except.mapError_eq_ok.1 hanalyse)
    obtain ⟨hclean, rfl⟩ := Analysis.lift_eq_ok.1 hlift
    obtain ⟨_, -, hq⟩ := Except.bind_eq_ok.1 hclean
    cases Except.pure_eq_ok.1 hq
    dsimp only at h
    -- the body is rewritten only if something was fused
    cases hsucceeded : r.dropUnfused.succeeded with
    | false =>
      rw [hsucceeded] at h
      cases h
      exact .inr ⟨rfl, r, b, hr, .inl ⟨hsucceeded, rfl⟩⟩
    | true =>
      rw [hsucceeded] at h
      obtain ⟨body, hbody, h⟩ := Except.bind_eq_ok.1 h
      cases h
      exact .inr ⟨rfl, r, b, hr, .inr ⟨hsucceeded, body, hbody, rfl⟩⟩

/-- What becomes of the function, and what is reported about it. -/
theorem FunDef.decisions_of_fuse {c : Config} {f : FunDef} {fused : FusedFun}
    (h : f.fuse c = .ok fused) : fused.function = f ∧ fused.report.decisions = []
      ∨ ∃ r b, f.body.analyse c none .empty ⟨.forFun f, 0, []⟩ = .ok (r, b)
        ∧ f.supplyAfter c = b.names ∧ fused.report.decisions = b.decisions
        ∧ (fused.function = f ∧ r.succeeded = false
          ∨ ∃ body, r.dropUnfused.emit f.body = .ok body ∧ fused.function = { f with body }) := by
  rcases FunDef.outcome_of_fuse h with
    ⟨-, rfl⟩ | ⟨henabled, r, b, hr, ⟨hsucceeded, rfl⟩ | ⟨-, body, hbody, rfl⟩⟩
  · exact .inl ⟨rfl, rfl⟩
  · exact .inr ⟨r, b, hr, FunDef.supplyAfter_of_ok henabled hr, rfl, .inl ⟨rfl, hsucceeded⟩⟩
  · exact .inr ⟨r, b, hr, FunDef.supplyAfter_of_ok henabled hr, rfl, .inr ⟨body, hbody, rfl⟩⟩

/-- The pass leaves a function as it is, or it emits the body by the registry that the analysis
leaves, without the kernels that nothing was fused into. -/
theorem FunDef.fuse_eq_ok {c : Config} {f : FunDef} {fused : FusedFun} (h : f.fuse c = .ok fused) :
    fused.function = f ∨ ∃ r b body, f.body.analyse c none .empty ⟨.forFun f, 0, []⟩ = .ok (r, b)
      ∧ f.supplyAfter c = b.names ∧ r.dropUnfused.emit f.body = .ok body
        ∧ fused.function = { f with body } := by
  rcases FunDef.decisions_of_fuse h with
    ⟨heq, -⟩ | ⟨r, b, hr, hsupply, -, ⟨heq, -⟩ | ⟨body, hbody, heq⟩⟩
  · exact .inl heq
  · exact .inl heq
  · exact .inr ⟨r, b, body, hr, hsupply, hbody, heq⟩

end ArrayFusion
