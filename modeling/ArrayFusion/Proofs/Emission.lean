import ArrayFusion.Fusion.Emission
import ArrayFusion.Proofs.Ends
import ArrayFusion.Fusion.Registry
import ArrayFusion.Proofs.Composites

/-!
# What emission does at each node

Emission walks over the code and changes nothing but the `let`s.  The equations here say so for each
kind of node, and say of a `let` which of its three forms it takes, by what the registry knows about
the names.  A registry that was cleaned up knows less, but emits the same (`Registry.EmitsOn`).
-/

namespace ArrayFusion

/-- The arguments of a stage as expressions. -/
def Stage.args (g : Stage) : List Exp := g.operands.map (·.toExp g.span)

namespace Emit

/-- The emitted form of an expression, with at most `n` kernels around any kernel in it. -/
def expAt (n : Nat) (q : Registry) (e : Exp) : Except FusionError Exp :=
  (e.traverse (visitor (kernelWithin n))).run q

/-- The emitted forms of a list of expressions. -/
def allAt (n : Nat) (q : Registry) (es : List Exp) : Except FusionError (List Exp) :=
  (Exp.traverseAll (visitor (kernelWithin n)) es).run q

/-- The emitted form of a lambda. -/
def lambdaAt (n : Nat) (q : Registry) (f : Lambda) : Except FusionError Lambda :=
  (f.traverse (visitor (kernelWithin n))).run q

/-- The emitted form of a combinator. -/
def opAt (n : Nat) (q : Registry) (op : Combinator) : Except FusionError Combinator :=
  (op.traverse (visitor (kernelWithin n))).run q

variable {n : Nat} {q : Registry}

/-- A walk that changes nothing about the members of a list leaves the list. -/
theorem each_pure {α : Type} {f : α → Emit α} (hf : ∀ a, f a = pure a) (xs : List α) :
    Visitor.each f xs = pure xs := by
  induction xs with
  | nil => rfl
  | cons x xs ih => rw [Visitor.each, hf, ih]; rfl

/-- Emission leaves patterns as they are. -/
theorem walkPattern_pure (p : Pattern) :
    (visitor (kernelWithin n)).walkPattern p = pure p := each_pure (fun _ => rfl) p

/-! ## Nodes other than a `let` -/

theorem expAt_lit (v : Literal) (s : Span) : expAt n q (.lit v s) = .ok (.lit v s) := rfl

theorem expAt_var (x : Ident) (s : Span) : expAt n q (.var x s) = .ok (.var x s) := rfl

/-- A tuple is emitted by its members. -/
theorem expAt_tuple_eq_ok {es : List Exp} {s : Span} {e' : Exp} :
    expAt n q (.tuple es s) = .ok e' ↔ ∃ es', allAt n q es = .ok es' ∧ e' = .tuple es' s := by
  rw [show expAt n q (.tuple es s) = (do return .tuple (← allAt n q es) s) from rfl]
  simp only [Except.bind_eq_ok, Except.pure_eq_ok]

/-- An array is emitted by its members. -/
theorem expAt_array_eq_ok {es : List Exp} {t : Ty} {s : Span} {e' : Exp} :
    expAt n q (.array es t s) = .ok e' ↔ ∃ es', allAt n q es = .ok es' ∧ e' = .array es' t s := by
  rw [show expAt n q (.array es t s) = (do return .array (← allAt n q es) t s) from rfl]
  simp only [Except.bind_eq_ok, Except.pure_eq_ok]

/-- A binary operation is emitted by its two operands. -/
theorem expAt_binary_eq_ok {o : BinaryOp} {a b : Exp} {t : Ty} {s : Span} {e' : Exp} :
    expAt n q (.binary o a b t s) = .ok e' ↔
      ∃ a', expAt n q a = .ok a' ∧ ∃ b', expAt n q b = .ok b' ∧ e' = .binary o a' b' t s := by
  rw [show expAt n q (.binary o a b t s) = (do
    let a ← expAt n q a
    let b ← expAt n q b
    return .binary o a b t s) from rfl]
  simp only [Except.bind_eq_ok, Except.pure_eq_ok]

/-- A unary operation is emitted by its operand. -/
theorem expAt_unary_eq_ok {o : UnaryOp} {e : Exp} {s : Span} {e' : Exp} :
    expAt n q (.unary o e s) = .ok e' ↔ ∃ e₁, expAt n q e = .ok e₁ ∧ e' = .unary o e₁ s := by
  rw [show expAt n q (.unary o e s) = (do return .unary o (← expAt n q e) s) from rfl]
  simp only [Except.bind_eq_ok, Except.pure_eq_ok]

/-- A conditional is emitted by its condition and its branches. -/
theorem expAt_cond_eq_ok {c a b : Exp} {t : Ty} {s : Span} {e' : Exp} :
    expAt n q (.cond c a b t s) = .ok e' ↔
      ∃ c', expAt n q c = .ok c' ∧ ∃ a', expAt n q a = .ok a' ∧ ∃ b', expAt n q b = .ok b'
        ∧ e' = .cond c' a' b' t s := by
  rw [show expAt n q (.cond c a b t s) = (do
    let c ← expAt n q c
    let a ← expAt n q a
    let b ← expAt n q b
    return .cond c a b t s) from rfl]
  simp only [Except.bind_eq_ok, Except.pure_eq_ok]

/-- A call is emitted by its arguments. -/
theorem expAt_call_eq_ok {f : String} {es : List Exp} {t : Ty} {s : Span} {e' : Exp} :
    expAt n q (.call f es t s) = .ok e' ↔
      ∃ es', allAt n q es = .ok es' ∧ e' = .call f es' t s := by
  rw [show expAt n q (.call f es t s) = (do return .call f (← allAt n q es) t s) from rfl]
  simp only [Except.bind_eq_ok, Except.pure_eq_ok]

/-- An update is emitted by its indices, the new value and what follows. -/
theorem expAt_update_eq_ok {x y : Ident} {is : List Exp} {v b : Exp} {s : Span} {e' : Exp} :
    expAt n q (.update x y is v b s) = .ok e' ↔
      ∃ is', allAt n q is = .ok is' ∧ ∃ v', expAt n q v = .ok v' ∧ ∃ b', expAt n q b = .ok b'
        ∧ e' = .update x y is' v' b' s := by
  rw [show expAt n q (.update x y is v b s) = (do
    let is ← allAt n q is
    let v ← expAt n q v
    return .update x y is v (← expAt n q b) s) from rfl]
  simp only [Except.bind_eq_ok, Except.pure_eq_ok]

/-- An element is emitted by its indices. -/
theorem expAt_index_eq_ok {x : Ident} {is : List Exp} {s : Span} {e' : Exp} :
    expAt n q (.index x is s) = .ok e' ↔ ∃ is', allAt n q is = .ok is' ∧ e' = .index x is' s := by
  rw [show expAt n q (.index x is s) = (do return .index x (← allAt n q is) s) from rfl]
  simp only [Except.bind_eq_ok, Except.pure_eq_ok]

/-- A replicated value is emitted by its number of rows and the value. -/
theorem expAt_replicate_eq_ok {k v : Exp} {s : Span} {e' : Exp} :
    expAt n q (.replicate k v s) = .ok e' ↔
      ∃ k', expAt n q k = .ok k' ∧ ∃ v', expAt n q v = .ok v' ∧ e' = .replicate k' v' s := by
  rw [show expAt n q (.replicate k v s) = (do
    let k ← expAt n q k
    return .replicate k (← expAt n q v) s) from rfl]
  simp only [Except.bind_eq_ok, Except.pure_eq_ok]

/-- A loop is emitted by its first values, its bound, its body and what follows. -/
theorem expAt_loop_eq_ok {p : Pattern} {is : List Exp} {i : Ident} {k b e : Exp} {s : Span}
    {e' : Exp} :
    expAt n q (.loop p is i k b e s) = .ok e' ↔
      ∃ is', allAt n q is = .ok is' ∧ ∃ k', expAt n q k = .ok k' ∧ ∃ b', expAt n q b = .ok b'
        ∧ ∃ e₁, expAt n q e = .ok e₁ ∧ e' = .loop p is' i k' b' e₁ s := by
  have h : expAt n q (.loop p is i k b e s) = (do
      let is ← allAt n q is
      let k ← expAt n q k
      let b ← expAt n q b
      return .loop p is i k b (← expAt n q e) s) := by
    unfold expAt
    rw [Exp.traverse, walkPattern_pure]
    rfl
  rw [h]
  simp only [Except.bind_eq_ok, Except.pure_eq_ok]

/-- A combinator that no kernel stands for is emitted by its lambdas and its operands. -/
theorem expAt_soac_eq_ok {op : Combinator} {es : List Exp} {cs : Certificates} {s : Span}
    {e' : Exp} :
    expAt n q (.soac op es cs s) = .ok e' ↔
      ∃ op', opAt n q op = .ok op' ∧ ∃ es', allAt n q es = .ok es' ∧ e' = .soac op' es' cs s := by
  have h : expAt n q (.soac op es cs s) = (do
      let op ← opAt n q op
      return .soac op (← allAt n q es) cs s) := by
    unfold expAt
    rw [Exp.traverse, each_pure (f := (visitor (kernelWithin n)).ident) (fun _ => rfl)]
    rfl
  rw [h]
  simp only [Except.bind_eq_ok, Except.pure_eq_ok]

theorem allAt_nil : allAt n q [] = .ok [] := rfl

/-- Lists of expressions are emitted one by one. -/
theorem allAt_cons_eq_ok {e : Exp} {es es' : List Exp} :
    allAt n q (e :: es) = .ok es' ↔
      ∃ e₁, expAt n q e = .ok e₁ ∧ ∃ es₁, allAt n q es = .ok es₁ ∧ es' = e₁ :: es₁ := by
  rw [show allAt n q (e :: es) = (do
    let e ← expAt n q e
    return e :: (← allAt n q es)) from rfl]
  simp only [Except.bind_eq_ok, Except.pure_eq_ok]

/-- A list keeps its length when it is emitted. -/
theorem length_allAt {es es' : List Exp} (h : allAt n q es = .ok es') : es'.length = es.length := by
  induction es generalizing es' with
  | nil =>
    cases h
    rfl
  | cons e es ih =>
    obtain ⟨e₁, -, es₁, hes, rfl⟩ := allAt_cons_eq_ok.1 h
    rw [List.length_cons, List.length_cons, ih hes]

/-- A lambda is emitted by its body. -/
theorem lambdaAt_eq_ok {ps : List Ident} {b : Exp} {ts : List Ty} {f' : Lambda} :
    lambdaAt n q ⟨ps, b, ts⟩ = .ok f' ↔ ∃ b', expAt n q b = .ok b' ∧ f' = ⟨ps, b', ts⟩ := by
  have h : lambdaAt n q ⟨ps, b, ts⟩ = (do return ⟨ps, ← expAt n q b, ts⟩) := by
    unfold lambdaAt
    rw [Lambda.traverse, each_pure (f := (visitor (kernelWithin n)).binder) (fun _ => rfl),
      each_pure (f := (visitor (kernelWithin n)).type) (fun _ => rfl)]
    rfl
  rw [h]
  simp only [Except.bind_eq_ok, Except.pure_eq_ok]

/-- A map is emitted by its lambda. -/
theorem opAt_map_eq_ok {f : Lambda} {op' : Combinator} :
    opAt n q (.map f) = .ok op' ↔ ∃ f', lambdaAt n q f = .ok f' ∧ op' = .map f' := by
  rw [show opAt n q (.map f) = (do return .map (← lambdaAt n q f)) from rfl]
  simp only [Except.bind_eq_ok, Except.pure_eq_ok]

/-- A reduction is emitted by its lambda and its neutral elements. -/
theorem opAt_reduce_eq_ok {f : Lambda} {ne : List Exp} {op' : Combinator} :
    opAt n q (.reduce f ne) = .ok op' ↔
      ∃ f', lambdaAt n q f = .ok f' ∧ ∃ ne', allAt n q ne = .ok ne' ∧ op' = .reduce f' ne' := by
  rw [show opAt n q (.reduce f ne) = (do
    let f ← lambdaAt n q f
    return .reduce f (← allAt n q ne)) from rfl]
  simp only [Except.bind_eq_ok, Except.pure_eq_ok]

/-- A scan is emitted by its lambda and its neutral elements. -/
theorem opAt_scan_eq_ok {f : Lambda} {ne : List Exp} {op' : Combinator} :
    opAt n q (.scan f ne) = .ok op' ↔
      ∃ f', lambdaAt n q f = .ok f' ∧ ∃ ne', allAt n q ne = .ok ne' ∧ op' = .scan f' ne' := by
  rw [show opAt n q (.scan f ne) = (do
    let f ← lambdaAt n q f
    return .scan f (← allAt n q ne)) from rfl]
  simp only [Except.bind_eq_ok, Except.pure_eq_ok]

/-- A filter is emitted by its predicate. -/
theorem opAt_filter_eq_ok {f : Lambda} {op' : Combinator} :
    opAt n q (.filter f) = .ok op' ↔ ∃ f', lambdaAt n q f = .ok f' ∧ op' = .filter f' := by
  rw [show opAt n q (.filter f) = (do return .filter (← lambdaAt n q f)) from rfl]
  simp only [Except.bind_eq_ok, Except.pure_eq_ok]

/-- A redomap is emitted by its two lambdas and its neutral elements. -/
theorem opAt_redomap_eq_ok {f g : Lambda} {ne : List Exp} {op' : Combinator} :
    opAt n q (.redomap f g ne) = .ok op' ↔
      ∃ f', lambdaAt n q f = .ok f' ∧ ∃ g', lambdaAt n q g = .ok g'
        ∧ ∃ ne', allAt n q ne = .ok ne' ∧ op' = .redomap f' g' ne' := by
  rw [show opAt n q (.redomap f g ne) = (do
    let f ← lambdaAt n q f
    let g ← lambdaAt n q g
    return .redomap f g (← allAt n q ne)) from rfl]
  simp only [Except.bind_eq_ok, Except.pure_eq_ok]

/-! ## The three forms of a `let` -/

/-- No kernel stands for names that none produces. -/
theorem producer_none {xs : List Name} {s : Span} (h : ∀ x ∈ xs, q.producerOf x = none) :
    (producer xs s).run q = .ok none := by
  cases xs with
  | nil => rfl
  | cons x xs =>
    have hall : (xs.all fun y => q.producerOf y == q.producerOf x) = true := by
      rw [List.all_eq_true]
      intro y hy
      rw [h y (List.mem_cons_of_mem _ hy), h x List.mem_cons_self]
      rfl
    change (if _ then _ else _) = _
    rw [if_pos hall, h x List.mem_cons_self]

/-- A kernel stands for names that it produces, all of them. -/
theorem producer_some {xs : List Name} {s : Span} {id : KernelId} (hne : xs ≠ [])
    (h : ∀ x ∈ xs, q.producerOf x = some id) : (producer xs s).run q = .ok (some id) := by
  cases xs with
  | nil => exact absurd rfl hne
  | cons x xs =>
    have hall : (xs.all fun y => q.producerOf y == q.producerOf x) = true := by
      rw [List.all_eq_true]
      intro y hy
      rw [h y (List.mem_cons_of_mem _ hy), h x List.mem_cons_self]
      exact beq_self_eq_true _
    change (if _ then _ else _) = _
    rw [if_pos hall, h x List.mem_cons_self]

/-- A `let` that stays is emitted by its right-hand side and its body. -/
theorem rebuildLet_eq_ok {n : Nat} {q : Registry} {p : Pattern} {e b : Exp} {s : Span} {e' : Exp} :
    (rebuildLet s (e.traverse (visitor (kernelWithin n)))
        ((visitor (kernelWithin n)).walkPattern p)
        (b.traverse (visitor (kernelWithin n)))).run q = .ok e' ↔
      ∃ e₁, expAt n q e = .ok e₁ ∧ ∃ b₁, expAt n q b = .ok b₁ ∧ e' = .letIn p e₁ b₁ s := by
  rw [walkPattern_pure]
  rw [show (rebuildLet s (e.traverse (visitor (kernelWithin n))) (pure p)
        (b.traverse (visitor (kernelWithin n)))).run q = (do
    let e ← expAt n q e
    return .letIn p e (← expAt n q b) s) from rfl]
  simp only [Except.bind_eq_ok, Except.pure_eq_ok]

/-- A `let` stays if no kernel has its names. -/
theorem expAt_bind_eq_ok {p : Pattern} {e b : Exp} {s : Span} {e' : Exp}
    (hp : ∀ x ∈ p.names, q.producerOf x = none) :
    expAt n q (.letIn p e b s) = .ok e' ↔
      ∃ e₁, expAt n q e = .ok e₁ ∧ ∃ b₁, expAt n q b = .ok b₁ ∧ e' = .letIn p e₁ b₁ s := by
  rw [← rebuildLet_eq_ok]
  change ((producer p.names s).run q >>= _) = _ ↔ _
  rw [producer_none hp]
  rfl

/-- A kernel that is in the registry is found. -/
theorem kernel_run {id : KernelId} {K : Kernel} {s : Span} (hK : q.kernels.find? id = some K) :
    q.kernel id s = .ok K := by
  rw [Registry.kernel, hK]

/-- A `let` stays if nothing was fused into its kernel. -/
theorem expAt_unfused_eq_ok {p : Pattern} {e b : Exp} {s : Span} {e' : Exp} {id : KernelId}
    {K : Kernel} (hne : p ≠ []) (hp : ∀ x ∈ p.names, q.producerOf x = some id)
    (hK : q.kernels.find? id = some K) (hpat : K.pattern.names = p.names) (hfused : K.fused = []) :
    expAt n q (.letIn p e b s) = .ok e' ↔
      ∃ e₁, expAt n q e = .ok e₁ ∧ ∃ b₁, expAt n q b = .ok b₁ ∧ e' = .letIn p e₁ b₁ s := by
  rw [← rebuildLet_eq_ok]
  have hnames : p.names ≠ [] := by simpa [Pattern.names] using hne
  have hbinds : K.binds p.names = true := by simp [Kernel.binds, hpat]
  have hnot : K.isFused = false := by simp [Kernel.isFused, hfused]
  change ((producer p.names s).run q >>= _) = _ ↔ _
  rw [producer_some hnames hp]
  change (q.kernel id s >>= _) = _ ↔ _
  rw [kernel_run hK]
  change (ReaderT.run (if _ then _ else if _ then _ else _) q) = _ ↔ _
  rw [hbinds, hnot]
  rfl

/-- The stage of a kernel with something fused into it takes the place of a right-hand side. -/
theorem expAt_fused_eq_ok {p : Pattern} {e b : Exp} {s : Span} {e' : Exp} {id : KernelId}
    {K : Kernel} (hne : p ≠ []) (hp : ∀ x ∈ p.names, q.producerOf x = some id)
    (hK : q.kernels.find? id = some K) (hpat : K.pattern.names = p.names) (hfused : K.fused ≠ []) :
    expAt n q (.letIn p e b s) = .ok e' ↔
      ∃ e₁, (kernelWithin n K).run q = .ok e₁ ∧ ∃ b₁, expAt n q b = .ok b₁
        ∧ e' = .letIn K.outputs e₁ (K.bindTransforms b₁) s := by
  -- the three tests of emission: the pattern is produced, it is the kernel's own, and that was
  -- fused
  have hnames : p.names ≠ [] := by simpa [Pattern.names] using hne
  have hbinds : K.binds p.names = true := by simp [Kernel.binds, hpat]
  have hyes : K.isFused = true := by simp [Kernel.isFused, hfused]
  change ((producer p.names s).run q >>= _) = _ ↔ _
  rw [producer_some hnames hp]
  change (q.kernel id s >>= _) = _ ↔ _
  rw [kernel_run hK]
  change (ReaderT.run (if _ then _ else if _ then _ else _) q) = _ ↔ _
  rw [hbinds, hyes]
  change (do
    let stage ← (kernelWithin n K).run q
    let body ← expAt n q b
    return Exp.letIn K.outputs stage (K.bindTransforms body) s) = _ ↔ _
  simp only [Except.bind_eq_ok, Except.pure_eq_ok]

/-- A `let` goes if its names have the kernel of another one. -/
theorem expAt_drop {p : Pattern} {e b : Exp} {s : Span} {id : KernelId} {K : Kernel} (hne : p ≠ [])
    (hp : ∀ x ∈ p.names, q.producerOf x = some id) (hK : q.kernels.find? id = some K)
    (hpat : K.pattern.names ≠ p.names) : expAt n q (.letIn p e b s) = expAt n q b := by
  have hnames : p.names ≠ [] := by simpa [Pattern.names] using hne
  have hbinds : K.binds p.names = false := by simp [Kernel.binds, hpat]
  change ((producer p.names s).run q >>= _) = _
  rw [producer_some hnames hp]
  change (q.kernel id s >>= _) = _
  rw [kernel_run hK]
  change (ReaderT.run (if _ then _ else if _ then _ else _) q) = _
  rw [hbinds]
  rfl

/-- A `let` stays, goes, or has the stage of a kernel in the place of its right-hand side. -/
theorem expAt_letIn_cases {p : Pattern} {e b : Exp} {s : Span} {e' : Exp}
    (h : expAt n q (.letIn p e b s) = .ok e') :
    (∃ e₁, expAt n q e = .ok e₁ ∧ ∃ b₁, expAt n q b = .ok b₁ ∧ e' = .letIn p e₁ b₁ s)
      ∨ expAt n q b = .ok e'
      ∨ ∃ id K, q.kernels.find? id = some K ∧ ∃ e₁, (kernelWithin n K).run q = .ok e₁
        ∧ ∃ b₁, expAt n q b = .ok b₁ ∧ e' = .letIn K.outputs e₁ (K.bindTransforms b₁) s := by
  change ((producer p.names s).run q >>= fun o => _) = _ at h
  obtain ⟨o, -, h⟩ := Except.bind_eq_ok.1 h
  cases o with
  -- no kernel has the names, so the `let` stays
  | none => exact .inl (rebuildLet_eq_ok.1 h)
  | some id =>
    change (q.kernel id s >>= fun K => _) = _ at h
    obtain ⟨K, hK, h⟩ := Except.bind_eq_ok.1 h
    have hfind : q.kernels.find? id = some K := by
      unfold Registry.kernel at hK
      -- the kernel stands for another `let`, or it is emitted in this place if it was fused
      split at hK
      · rename_i hfind
        cases hK
        exact hfind
      · cases hK
    change (ReaderT.run (if _ then _ else if _ then _ else _) q) = _ at h
    split at h
    · exact .inr (.inl h)
    · split at h
      · exact .inl (rebuildLet_eq_ok.1 h)
      · change (do
          let stage ← (kernelWithin n K).run q
          let body ← expAt n q b
          return Exp.letIn K.outputs stage (K.bindTransforms body) s) = _ at h
        simp only [Except.bind_eq_ok, Except.pure_eq_ok] at h
        exact .inr (.inr ⟨id, K, hfind, h⟩)

/-- The emitted stage of a kernel is its stage with everything in it emitted, one level deeper. -/
theorem kernelWithin_eq_ok {K : Kernel} {e' : Exp} :
    (kernelWithin n K).run q = .ok e' ↔
      ∃ k, n = k + 1 ∧ ∃ op', opAt k q K.stage.op = .ok op'
        ∧ ∃ es', allAt k q K.stage.args = .ok es'
          ∧ e' = .soac op' es' K.stage.certs K.stage.span := by
  cases n with
  -- without fuel nothing is emitted
  | zero =>
    constructor
    · intro h
      cases h
    · rintro ⟨k, hk, -⟩
      exact absurd hk (by omega)
  | succ k =>
    change expAt k q (.soac K.stage.op K.stage.args K.stage.certs K.stage.span) = .ok e' ↔ _
    rw [expAt_soac_eq_ok]
    constructor
    · exact fun h => ⟨k, rfl, h⟩
    · rintro ⟨k, hk, h⟩
      cases hk
      exact h

end Emit

/-! ## Code without kernels -/

open Emit in
mutual

/-- Code is emitted as it is if no kernel produces anything in it. -/
theorem Exp.expAt_self {n : Nat} {q : Registry} : ∀ {e : Exp},
    (∀ x ∈ letNames e.lets, q.producerOf x = none) → expAt n q e = .ok e
  | .lit _ _, _ => rfl
  | .var _ _, _ => rfl
  | .tuple es _, hp => expAt_tuple_eq_ok.2 ⟨es, Exp.allAt_self hp, rfl⟩
  | .array es _ _, hp => expAt_array_eq_ok.2 ⟨es, Exp.allAt_self hp, rfl⟩
  | .binary _ a b _ _, hp => by
    simp only [Exp.lets, letNames_append, List.forall_mem_append] at hp
    exact expAt_binary_eq_ok.2 ⟨a, Exp.expAt_self hp.1, b, Exp.expAt_self hp.2, rfl⟩
  | .unary _ e _, hp => expAt_unary_eq_ok.2 ⟨e, Exp.expAt_self (e := e) hp, rfl⟩
  | .cond c a b _ _, hp => by
    simp only [Exp.lets, letNames_append, List.forall_mem_append] at hp
    exact expAt_cond_eq_ok.2 ⟨c, Exp.expAt_self hp.1.1, a, Exp.expAt_self hp.1.2, b,
      Exp.expAt_self hp.2, rfl⟩
  | .call _ es _ _, hp => expAt_call_eq_ok.2 ⟨es, Exp.allAt_self hp, rfl⟩
  | .letIn p r b _, hp => by
    simp only [Exp.lets, letNames_cons, letNames_append, List.forall_mem_append] at hp
    exact (expAt_bind_eq_ok hp.1).2 ⟨r, Exp.expAt_self hp.2.1, b, Exp.expAt_self hp.2.2, rfl⟩
  | .update _ _ is v b _, hp => by
    simp only [Exp.lets, letNames_append, List.forall_mem_append] at hp
    exact expAt_update_eq_ok.2
      ⟨is, Exp.allAt_self hp.1.1, v, Exp.expAt_self hp.1.2, b, Exp.expAt_self hp.2, rfl⟩
  | .index _ is _, hp => expAt_index_eq_ok.2 ⟨is, Exp.allAt_self hp, rfl⟩
  | .replicate k v _, hp => by
    simp only [Exp.lets, letNames_append, List.forall_mem_append] at hp
    exact expAt_replicate_eq_ok.2 ⟨k, Exp.expAt_self hp.1, v, Exp.expAt_self hp.2, rfl⟩
  | .loop _ is _ k b r _, hp => by
    simp only [Exp.lets, letNames_append, List.forall_mem_append] at hp
    exact expAt_loop_eq_ok.2 ⟨is, Exp.allAt_self hp.1.1.1, k, Exp.expAt_self hp.1.1.2, b,
      Exp.expAt_self hp.1.2, r, Exp.expAt_self hp.2, rfl⟩
  | .soac op es _ _, hp => by
    simp only [Exp.lets, letNames_append, List.forall_mem_append] at hp
    exact expAt_soac_eq_ok.2 ⟨op, Combinator.opAt_self hp.1, es, Exp.allAt_self hp.2, rfl⟩

/-- A list of expressions is emitted as it is if no kernel produces what its `let`s bind. -/
theorem Exp.allAt_self {n : Nat} {q : Registry} : ∀ {es : List Exp},
    (∀ x ∈ letNames (Exp.letsAll es), q.producerOf x = none) → allAt n q es = .ok es
  | [], _ => rfl
  | e :: es, hp => by
    simp only [Exp.letsAll, letNames_append, List.forall_mem_append] at hp
    exact allAt_cons_eq_ok.2 ⟨e, Exp.expAt_self hp.1, es, Exp.allAt_self hp.2, rfl⟩

/-- So is a lambda. -/
theorem Lambda.lambdaAt_self {n : Nat} {q : Registry} : ∀ {f : Lambda},
    (∀ x ∈ letNames f.lets, q.producerOf x = none) → lambdaAt n q f = .ok f
  | ⟨_, b, _⟩, hp => lambdaAt_eq_ok.2 ⟨b, Exp.expAt_self hp, rfl⟩

/-- So is a combinator. -/
theorem Combinator.opAt_self {n : Nat} {q : Registry} : ∀ {op : Combinator},
    (∀ x ∈ letNames op.lets, q.producerOf x = none) → opAt n q op = .ok op
  | .map f, hp => opAt_map_eq_ok.2 ⟨f, Lambda.lambdaAt_self hp, rfl⟩
  | .reduce f ne, hp => by
    simp only [Combinator.lets, letNames_append, List.forall_mem_append] at hp
    exact opAt_reduce_eq_ok.2 ⟨f, Lambda.lambdaAt_self hp.1, ne, Exp.allAt_self hp.2, rfl⟩
  | .scan f ne, hp => by
    simp only [Combinator.lets, letNames_append, List.forall_mem_append] at hp
    exact opAt_scan_eq_ok.2 ⟨f, Lambda.lambdaAt_self hp.1, ne, Exp.allAt_self hp.2, rfl⟩
  | .filter p, hp => opAt_filter_eq_ok.2 ⟨p, Lambda.lambdaAt_self hp, rfl⟩
  | .redomap f g ne, hp => by
    simp only [Combinator.lets, letNames_append, List.forall_mem_append] at hp
    exact opAt_redomap_eq_ok.2
      ⟨f, Lambda.lambdaAt_self hp.1.1, g, Lambda.lambdaAt_self hp.1.2, ne, Exp.allAt_self hp.2, rfl⟩

end

/-- Whatever is emitted for an expression whose `let`s no kernel produces is the expression. -/
theorem Exp.eq_of_expAt {n : Nat} {q : Registry} {e e' : Exp}
    (hp : ∀ x ∈ letNames e.lets, q.producerOf x = none) (h : Emit.expAt n q e = .ok e') : e' = e :=
  Except.ok.inj (h.symm.trans (Exp.expAt_self hp))

/-! ## Registries that emit the same -/

/-- The kernels are the same but for the updates in place that were noted. -/
def Kernel.Alike (K K' : Kernel) : Prop := ∃ xs, K' = { K with inplace := xs }

theorem Kernel.Alike.refl (K : Kernel) : K.Alike K := ⟨K.inplace, rfl⟩

theorem Kernel.Alike.noteUpdate {K K' : Kernel} (h : K.Alike K') (x : Name) :
    K.Alike (K'.noteUpdate x) := by
  obtain ⟨xs, rfl⟩ := h
  unfold Kernel.noteUpdate
  split
  · exact ⟨xs, rfl⟩
  · exact ⟨x :: xs, rfl⟩

/-- The second registry emits code whose `let`s bind names of `X` like the first one, though it may
lack kernels that nothing was fused into. -/
structure Registry.EmitsOn (X : Set Name) (r q : Registry) : Prop where
  unknown : ∀ x ∈ X, r.producerOf x = none → q.producerOf x = none
  fused : ∀ x ∈ X, ∀ id K, r.producerOf x = some id → r.kernels.find? id = some K → K.fused ≠ [] →
    q.producerOf x = some id
  kernels : ∀ id K, r.kernels.find? id = some K → K.fused ≠ [] →
    ∃ K', q.kernels.find? id = some K' ∧ K.Alike K'
  unfused : ∀ id K, r.kernels.find? id = some K → K.fused = [] →
    (∀ x ∈ X, r.producerOf x = some id → q.producerOf x = none)
      ∨ (∃ K', q.kernels.find? id = some K' ∧ K.Alike K')
        ∧ ∀ x ∈ X, r.producerOf x = some id → q.producerOf x = some id

/-- A registry that knows the same kernels and as much about the names emits the same. -/
theorem Registry.EmitsOn.of_keeps {X : Set Name} {r q : Registry}
    (hproducers : ∀ x ∈ X, q.producerOf x = r.producerOf x)
    (hkernels : ∀ id K, r.kernels.find? id = some K → ∃ K', q.kernels.find? id = some K' ∧
    K.Alike K') : r.EmitsOn X q where
  unknown := fun x hx h => (hproducers x hx).trans h
  fused := fun x hx _ _ h _ _ => (hproducers x hx).trans h
  kernels := fun id K hK _ => hkernels id K hK
  unfused := fun id K hK _ => .inr ⟨hkernels id K hK, fun x hx h => (hproducers x hx).trans h⟩

/-- A registry emits the same without the kernels that nothing was fused into. -/
theorem Registry.emitsOn_dropUnfused (X : Set Name) (r : Registry) : r.EmitsOn X r.dropUnfused := by
  -- the producers that are left are those that something was fused into
  have hprod : ∀ x id K, r.producerOf x = some id → r.kernels.find? id = some K →
      r.dropUnfused.producerOf x = if K.fused = [] then none else some id := by
    intro x id K hx hK
    change (r.producers.retain _).find? x = _
    rw [Table.find?_retain, show r.producers.find? x = some id from hx]
    simp only [Option.filter, isAlive, hK, Kernel.isFused]
    cases K.fused <;> simp
  refine ⟨fun x _ hx => ?_, fun x _ id K hx hK hf => ?_, fun id K hK hf => ⟨K, ?_, .refl K⟩,
    fun id K hK hf => .inl fun x _ hx => by rw [hprod x id K hx hK, if_pos hf]⟩
  · change (r.producers.retain _).find? x = _
    rw [Table.find?_retain, show r.producers.find? x = none from hx]
    rfl
  · rw [hprod x id K hx hK, if_neg hf]
  · change (r.kernels.retain _).find? id = _
    rw [Table.find?_retain, hK]
    have hyes : K.isFused = true := by simp [Kernel.isFused, hf]
    simp [Option.filter, hyes]

end ArrayFusion
