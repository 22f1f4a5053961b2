import ArrayFusion.Fusion.Analysis
import ArrayFusion.Proofs.Composites
import ArrayFusion.Proofs.FreshBinders

/-!
# Copies of a stage, and nests

What the analysis makes of a stage besides composing it: a copy with fresh binders, whose lambdas
are emitted and then renamed, and the map over arrays that stands for a map over their
transpositions.
-/

namespace ArrayFusion

/-! ## Copies -/

/-- The combinators differ in their lambdas only, and these are paired up by `P`. -/
inductive Combinator.Paired (P : Lambda → Lambda → Prop) : Combinator → Combinator → Prop
  | map {f f'} : P f f' → Paired P (.map f) (.map f')
  | reduce {f f' ne} : P f f' → Paired P (.reduce f ne) (.reduce f' ne)
  | scan {f f' ne} : P f f' → Paired P (.scan f ne) (.scan f' ne)
  | filter {f f'} : P f f' → Paired P (.filter f) (.filter f')
  | redomap {f f' g g' ne} : P f f' → P g g' → Paired P (.redomap f g ne) (.redomap f' g' ne)

/-- The lambdas are copied one after another, each with a part of the names that are taken. -/
theorem Combinator.paired_of_mapLambdas {f : Lambda → Fresh Lambda} {op op' : Combinator}
    {s s' : NameSupply} {P : Lambda → Lambda → Prop}
    (hle : ∀ g g' s₁ s₂, f g s₁ = .ok (g', s₂) → s₁.count ≤ s₂.count)
    (hf : ∀ g g' s₁ s₂, s.count ≤ s₁.count → s₂.count ≤ s'.count → f g s₁ = .ok (g', s₂) → P g g')
    (h : op.mapLambdas f s = .ok (op', s')) : op.Paired P op' ∧ s.count ≤ s'.count := by
  cases op with
  | map g =>
    obtain ⟨g', s₁, hg, h⟩ := State.bind_eq_ok.1 h
    obtain ⟨rfl, rfl⟩ := State.pure_eq_ok.1 h
    exact ⟨.map (hf _ _ _ _ (Nat.le_refl _) (Nat.le_refl _) hg), hle _ _ _ _ hg⟩
  | filter g =>
    obtain ⟨g', s₁, hg, h⟩ := State.bind_eq_ok.1 h
    obtain ⟨rfl, rfl⟩ := State.pure_eq_ok.1 h
    exact ⟨.filter (hf _ _ _ _ (Nat.le_refl _) (Nat.le_refl _) hg), hle _ _ _ _ hg⟩
  | reduce g ne =>
    obtain ⟨g', s₁, hg, h⟩ := State.bind_eq_ok.1 h
    obtain ⟨rfl, rfl⟩ := State.pure_eq_ok.1 h
    exact ⟨.reduce (hf _ _ _ _ (Nat.le_refl _) (Nat.le_refl _) hg), hle _ _ _ _ hg⟩
  | scan g ne =>
    obtain ⟨g', s₁, hg, h⟩ := State.bind_eq_ok.1 h
    obtain ⟨rfl, rfl⟩ := State.pure_eq_ok.1 h
    exact ⟨.scan (hf _ _ _ _ (Nat.le_refl _) (Nat.le_refl _) hg), hle _ _ _ _ hg⟩
  | redomap g e ne =>
    obtain ⟨g', s₁, hg, h⟩ := State.bind_eq_ok.1 h
    obtain ⟨e', s₂, he, h⟩ := State.bind_eq_ok.1 h
    obtain ⟨rfl, rfl⟩ := State.pure_eq_ok.1 h
    -- the two lambdas are copied one after another, with different names
    have hle₁ := hle _ _ _ _ hg
    have hle₂ := hle _ _ _ _ he
    exact ⟨.redomap (hf _ _ _ _ (Nat.le_refl _) hle₂ hg) (hf _ _ _ _ hle₁ (Nat.le_refl _) he),
      Nat.le_trans hle₁ hle₂⟩

/-- What a lambda of a copied stage is: emitted, then renamed. -/
def Registry.copyLambda (r : Registry) (f : Lambda) : Fresh Lambda := do
  let f ← Fresh.lift (r.emitLambda f)
  Fresh.take f.freshen

/-- A copy of a stage is one with copies of its lambdas. -/
theorem Registry.copyOf_eq_ok {r : Registry} {g g' : Stage} {s s' : NameSupply}
    (h : r.copyOf g s = .ok (g', s')) :
    ∃ op', g.op.mapLambdas r.copyLambda s = .ok (op', s') ∧ g' = { g with op := op' } := by
  obtain ⟨op', s₁, hop, h⟩ := State.bind_eq_ok.1 h
  obtain ⟨rfl, rfl⟩ := State.pure_eq_ok.1 h
  exact ⟨op', hop, rfl⟩

/-- A copy of a lambda is emitted and then freshened. -/
theorem Registry.copyLambda_eq_ok {r : Registry} {f f' : Lambda} {s s' : NameSupply}
    (h : r.copyLambda f s = .ok (f', s')) :
    ∃ f₁, r.emitLambda f = .ok f₁ ∧ f₁.freshen s = (f', s') := by
  obtain ⟨f₁, s₁, hlift, hfreshen⟩ := State.bind_eq_ok.1 h
  obtain ⟨hemit, rfl⟩ := Fresh.lift_eq_ok.1 hlift
  exact ⟨f₁, hemit, Except.ok.inj hfreshen⟩

/-- A copied lambda binds names that the supply hands out for it. -/
theorem Registry.copyLambda_binders {r : Registry} {f f' : Lambda} {s s' : NameSupply}
    (h : r.copyLambda f s = .ok (f', s')) :
    s.count ≤ s'.count ∧ ∀ x ∈ f'.binders, x ∈ s.until s' := by
  obtain ⟨f₁, -, hfreshen⟩ := Registry.copyLambda_eq_ok h
  obtain ⟨rfl, rfl⟩ := Prod.mk.inj hfreshen
  exact ⟨f₁.count_le_freshen s, fun x hx => Lambda.mem_until_of_freshen hx⟩

/-- A copy differs from the stage in its lambdas, which are copied with a part each of the names
that are taken. -/
theorem Registry.copyOf_paired {r : Registry} {g g' : Stage} {s s' : NameSupply}
    {P : Lambda → Lambda → Prop} (h : r.copyOf g s = .ok (g', s'))
    (hP : ∀ f f' s₁ s₂, s.count ≤ s₁.count → s₂.count ≤ s'.count →
      r.copyLambda f s₁ = .ok (f', s₂) → P f f') :
    s.count ≤ s'.count ∧ ∃ op', g' = { g with op := op' } ∧ g.op.Paired P op' := by
  obtain ⟨op', hop', rfl⟩ := Registry.copyOf_eq_ok h
  obtain ⟨hpaired, hle⟩ := Combinator.paired_of_mapLambdas
    (fun _ _ _ _ h => (Registry.copyLambda_binders h).1) hP hop'
  exact ⟨hle, op', rfl, hpaired⟩

theorem Registry.count_le_copyOf {r : Registry} {g g' : Stage} {s s' : NameSupply}
    (h : r.copyOf g s = .ok (g', s')) : s.count ≤ s'.count :=
  (Registry.copyOf_paired (P := fun _ _ => True) h fun _ _ _ _ _ _ _ => trivial).1

/-- Making a reduction a redomap takes the names of a copy of its operator. -/
theorem Stage.count_le_asRedomap (g : Stage) (s : NameSupply) :
    s.count ≤ (g.asRedomap s).2.count := by
  rcases g.asRedomap_cases s with ⟨heq, -⟩ | ⟨f, ne, -, heq⟩
  · rw [heq]
  · rw [heq]
    exact f.count_le_freshen s

/-! ## Nests -/

/-- Expressions that are plain uses of names are variables of those names. -/
theorem Exp.forall₂_of_areUsesOf {xs : List Ident} {es : List Exp}
    (h : Exp.areUsesOf xs es = true) :
    List.Forall₂ (fun x e => ∃ y s, e = .var y s ∧ y.name = x.name) xs es := by
  simp only [Exp.areUsesOf, Bool.and_eq_true, beq_iff_eq] at h
  obtain ⟨hlen, hall⟩ := h
  induction xs generalizing es with
  | nil =>
    rw [List.length_eq_zero_iff.1 hlen]
    exact .nil
  | cons x xs ih =>
    obtain ⟨e, es, rfl⟩ := List.exists_cons_of_length_eq_add_one hlen
    rw [List.zip_cons_cons, List.all_cons, Bool.and_eq_true] at hall
    refine .cons ?_ (ih (by simpa using hlen) hall.2)
    cases e with
    | var y s => exact ⟨y, s, rfl, by simpa [Exp.isUseOf] using hall.1⟩
    | _ => cases hall.1

/-- The parts of a lambda that is a nest. -/
theorem Nest.ofLambda?_eq_some {f : Lambda} {n : Nest} (h : Nest.ofLambda? f = some n) :
    f.params = n.rows ∧ f.rets = n.rets ∧ ∃ args returned s,
      f.body = .letIn n.results (.soac (.map n.inner) args n.certs n.span) returned s
        ∧ Exp.areUsesOf n.rows args ∧ returned.returns n.results
        ∧ ∀ x ∈ n.inner.freeVars, x.name ∉ Pattern.names n.rows := by
  unfold ofLambda? at h
  split at h
  · split at h
    · -- the rows are the arguments, the results are returned, and the inner lambda reads no row
      rename_i hcond
      cases h
      simp only [Bool.and_eq_true, Bool.not_eq_true', List.any_eq_false, List.any_eq_true,
        beq_iff_eq, not_exists, not_and] at hcond
      refine ⟨rfl, rfl, _, _, _, rfl, hcond.1.1, hcond.1.2, fun x hx hrow => ?_⟩
      obtain ⟨y, hy, hyx⟩ := List.mem_map.1 hrow
      exact hcond.2 x hx y hy hyx
    · cases h
  · cases h

/-- Operands that are all transposed are the transposes of identifiers. -/
theorem Operand.allTransposed?_eq_some {as : List Operand} {xs : List Ident}
    (h : allTransposed? as = some xs) : as = xs.map .transposed := by
  rw [← List.forall₂_eq_eq_eq, List.forall₂_map_right_iff]
  refine (Option.mapM_eq_some.1 h).imp fun a x hx => ?_
  cases a with
  | transposed y =>
    cases hx
    rfl
  | whole | row | range => cases hx

/-- The kernel that reads the arrays directly, where the lambda is a nest. -/
def Kernel.pulled (K : Kernel) (arrays : List Ident) (nest : Nest) (s : NameSupply) :
    Kernel × NameSupply :=
  let (f, s) := nest.toLambda s
  let (outputs, s) := s.freshIdents K.outputs
  ({ K with
    stage := { K.stage with op := .map f, operands := arrays.map .whole }
    outputs
    transforms := (outputs.zip K.outputs).map fun (x, y) => ⟨x, y⟩ }, s)

/-- A kernel stays as it is, or it maps a nest over transposed arrays and reads the arrays
directly. -/
theorem Kernel.pullTransposes_cases (K : Kernel) (s : NameSupply) :
    K.pullTransposes s = (K, s) ∨ ∃ arrays f nest, K.stage.operands = arrays.map .transposed
      ∧ K.stage.op = .map f ∧ Nest.ofLambda? f = some nest ∧ arrays.length = nest.rows.length
      ∧ K.pullTransposes s = K.pulled arrays nest s := by
  unfold pullTransposes
  split
  · exact .inl rfl
  split
  · rename_i arrays f harrays hop
    cases hn : Nest.ofLambda? f with
    | none => exact .inl rfl
    | some nest =>
      -- the transposed arrays have to be the rows of the inner map
      by_cases hlen : arrays.length = nest.rows.length
      · refine .inr ⟨arrays, f, nest, Operand.allTransposed?_eq_some harrays, hop, hn, hlen, ?_⟩
        dsimp only
        rw [if_pos hlen]
        rfl
      · dsimp only
        rw [if_neg hlen]
        exact .inl rfl
  · exact .inl rfl

/-- A kernel that reads nothing has nothing to pull. -/
theorem Kernel.pullTransposes_of_operands_nil {K : Kernel} (h : K.stage.operands = [])
    (s : NameSupply) : K.pullTransposes s = (K, s) := by
  rw [pullTransposes, h, List.isEmpty_nil, Bool.or_true, if_pos rfl]

/-- A kernel that reads arrays instead of their transpositions has new names for rows, results and
outputs. -/
theorem Kernel.count_le_pullTransposes (K : Kernel) (s : NameSupply) :
    s.count ≤ (K.pullTransposes s).2.count := by
  rcases K.pullTransposes_cases s with heq | ⟨arrays, f, nest, -, -, -, -, heq⟩
  · rw [heq]
  · rw [heq]
    exact Nat.le_trans (s.count_le_freshIdents nest.rows) (Nat.le_trans
      ((s.freshIdents nest.rows).2.count_le_freshIdents nest.results)
      ((nest.toLambda s).2.count_le_freshIdents K.outputs))

/-- Pulling transposes leaves the certificates as they are. -/
theorem Kernel.certs_pullTransposes (K : Kernel) (s : NameSupply) :
    (K.pullTransposes s).1.stage.certs = K.stage.certs := by
  rcases K.pullTransposes_cases s with heq | ⟨arrays, f, nest, -, -, -, -, heq⟩
  · rw [heq]
  · rw [heq]
    rfl

end ArrayFusion
