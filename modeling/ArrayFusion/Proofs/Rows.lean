import Mathlib.Data.List.Range
import ArrayFusion.Fusion.Stage
import ArrayFusion.Proofs.Agreement
import ArrayFusion.Proofs.Outcome

/-!
# Stages by their rows

A stage computes the columns of its operands, pairs them up to rows and goes through the rows.  Here
each column is a function of the position, `Operand.cell`, so that the same position of two stages
can be compared although the operands stand in another order or in another number.
-/

namespace ArrayFusion

open Eval (Yields Uniform Refines)

/-! ## The value and the price of an evaluation -/

namespace Eval

variable {α β : Type} {w : String → Nat}

/-- The value of an evaluation that succeeds. -/
def value [Inhabited α] (x : Eval α) : α :=
  match (x.runFrom []).1 with
  | .ok a => a
  | .error _ => default

/-- What the calls of an evaluation cost. -/
def price (w : String → Nat) (x : Eval α) : Nat := CallLog.cost w (x.runFrom []).2

/-- The evaluation succeeds. -/
def Succeeds [Inhabited α] (w : String → Nat) (x : Eval α) : Prop := Yields w x x.value (x.price w)

/-- What is yielded is the value, at its price. -/
theorem Yields.eq_value [Inhabited α] {x : Eval α} {a : α} {k : Nat} (h : Yields w x a k) :
    a = x.value ∧ k = x.price w := by
  obtain ⟨d, hd, rfl⟩ := h
  rw [value, price, hd []]
  exact ⟨rfl, by rw [List.append_nil]⟩

/-- To yield is to succeed with the value at its price. -/
theorem yields_iff [Inhabited α] {x : Eval α} {a : α} {k : Nat} :
    Yields w x a k ↔ Succeeds w x ∧ a = x.value ∧ k = x.price w := by
  constructor
  · intro h
    obtain ⟨rfl, rfl⟩ := h.eq_value
    exact ⟨h, rfl, rfl⟩
  · rintro ⟨h, rfl, rfl⟩
    exact h

/-- What is yielded is a success. -/
theorem Yields.succeeds [Inhabited α] {x : Eval α} {a : α} {k : Nat} (h : Yields w x a k) :
    Succeeds w x := (yields_iff.1 h).1

/-- A loop over a list succeeds if and only if each of its steps does. -/
theorem yields_mapM [Inhabited β] {f : α → Eval β} (hf : ∀ a, Uniform (f a)) {xs : List α}
    {ys : List β} {k : Nat} :
    Yields w (xs.mapM f) ys k ↔ (∀ a ∈ xs, Succeeds w (f a)) ∧ ys = xs.map (fun a => (f a).value)
      ∧ k = (xs.map fun a => (f a).price w).sum := by
  constructor
  · intro h
    obtain ⟨val, cost, hval, rfl, rfl⟩ := (yields_mapM_iff hf).1 h
    exact ⟨fun a ha => (hval a ha).succeeds,
      List.map_congr_left fun a ha => (hval a ha).eq_value.1,
      congrArg _ (List.map_congr_left fun a ha => (hval a ha).eq_value.2)⟩
  · rintro ⟨h, rfl, rfl⟩
    exact Yields.mapM h

/-- A selection succeeds if and only if each test does. -/
theorem yields_keep {f : α → Eval Bool} (hf : ∀ a, Uniform (f a)) {xs ys : List α} {k : Nat} :
    Yields w (keep f xs) ys k ↔ (∀ a ∈ xs, Succeeds w (f a))
      ∧ ys = xs.filter (fun a => (f a).value) ∧ k = (xs.map fun a => (f a).price w).sum := by
  constructor
  · intro h
    obtain ⟨flag, cost, hflag, rfl, rfl⟩ := (yields_keep_iff hf).1 h
    exact ⟨fun a ha => (hflag a ha).succeeds,
      List.filter_congr fun a ha => by rw [(hflag a ha).eq_value.1],
      congrArg _ (List.map_congr_left fun a ha => (hflag a ha).eq_value.2)⟩
  · rintro ⟨h, rfl, rfl⟩
    exact Yields.keep h

/-- A fold over the members that pass a test is matched by a fold over all members, if its steps are
matched and it stays where it is at the other members. -/
theorem Yields.foldlM_filter {σ ι : Type} {S : σ → Prop} {step step' : σ → ι → Eval σ}
    (hu : ∀ s i, Uniform (step s i)) {flag : ι → Bool} {is : List ι}
    (hstep : ∀ i ∈ is, flag i = true → ∀ s, S s → ∀ t k, Yields w (step s i) t k →
      S t ∧ ∃ k, Yields w (step' s i) t k)
    (hskip : ∀ i ∈ is, flag i = false → ∀ s, S s → ∃ k, Yields w (step' s i) s k)
    {s t : σ} {k : Nat} (hs : S s) (h : Yields w ((is.filter flag).foldlM step s) t k) :
    S t ∧ ∃ k, Yields w (is.foldlM step' s) t k := by
  induction is generalizing s k with
  | nil =>
    obtain ⟨rfl, -⟩ := yields_pure_iff.1 h
    exact ⟨hs, k, h⟩
  | cons i is ih =>
    have ih := @ih (fun j hj => hstep j (List.mem_cons_of_mem _ hj))
      (fun j hj => hskip j (List.mem_cons_of_mem _ hj))
    rw [List.foldlM_cons]
    cases hflag : flag i with
    -- a step of the filtered run, and then a skipped one
    | true =>
      rw [List.filter_cons_of_pos hflag] at h
      obtain ⟨u, a, b, hu', hrest, rfl⟩ := (yields_foldlM_cons_iff hu).1 h
      obtain ⟨hsu, a', ha'⟩ := hstep i List.mem_cons_self hflag s hs u a hu'
      obtain ⟨hst, b', hb'⟩ := ih hsu hrest
      exact ⟨hst, a' + b', ha'.bind hb'⟩
    | false =>
      rw [List.filter_cons_of_neg (by rw [hflag]; decide)] at h
      obtain ⟨a', ha'⟩ := hskip i List.mem_cons_self hflag s hs
      obtain ⟨hst, b', hb'⟩ := ih hs h
      exact ⟨hst, a' + b', ha'.bind hb'⟩

/-- A fold is matched if each of its steps is. -/
theorem Yields.foldlM_of {σ ι : Type} {S : σ → Prop} {step step' : σ → ι → Eval σ}
    (hu : ∀ s i, Uniform (step s i)) {is : List ι}
    (hstep : ∀ i ∈ is, ∀ s, S s → ∀ t k, Yields w (step s i) t k →
      S t ∧ ∃ k, Yields w (step' s i) t k)
    {s t : σ} {k : Nat} (hs : S s) (h : Yields w (is.foldlM step s) t k) :
    S t ∧ ∃ k, Yields w (is.foldlM step' s) t k := by
  have hskip : ∀ i ∈ is, (fun _ => true) i = false → ∀ s, S s → ∃ k, Yields w (step' s i) s k :=
    fun _ _ hflag => nomatch hflag
  rw [← List.filter_true is] at h
  exact Yields.foldlM_filter hu (fun i hi _ => hstep i hi) hskip hs h

end Eval

/-! ## Columns -/

/-- A row in front adds an entry to each column. -/
theorem columns_addRow {α β : Type} (f : β → α) (g : β → List α) (xs : List β) :
    columns.addRow (xs.map f) (xs.map g) = xs.map fun x => f x :: g x := by
  induction xs with
  | nil => rfl
  | cons x xs ih =>
    rw [List.map_cons, List.map_cons, List.map_cons, columns.addRow, ih]

/-- The columns of a table that is given by its rows. -/
theorem columns_map {α β γ : Type} (g : β → γ → α) (xs : List β) (ys : List γ) :
    columns xs.length (ys.map fun y => xs.map fun x => g x y) = xs.map fun x => ys.map (g x) := by
  induction ys with
  | nil =>
    simp only [columns, List.map_nil, List.foldr_nil, List.map_const']
  | cons y ys ih =>
    rw [columns, List.map_cons, List.foldr_cons]
    change columns.addRow _ (columns _ _) = _
    rw [ih, columns_addRow]
    rfl

/-- A list by its positions. -/
theorem List.eq_map_range {α : Type} [Inhabited α] (xs : List α) :
    xs = (List.range xs.length).map fun i => xs[i]! := by
  refine List.ext_getElem (by simp) fun i h₁ h₂ => ?_
  rw [List.getElem_map, List.getElem_range, getElem!_pos xs i h₁]

/-- The columns of rows that have a member for each of them. -/
theorem columns_eq {α β : Type} [Inhabited α] {width : Nat} {xs : List β} {f : β → List α}
    (h : ∀ x ∈ xs, (f x).length = width) :
    columns width (xs.map f) = (List.range width).map fun j => xs.map fun x => (f x)[j]! := by
  have hrows : xs.map f = xs.map fun x => (List.range width).map fun j => (f x)[j]! := by
    refine List.map_congr_left fun x hx => ?_
    conv_lhs => rw [List.eq_map_range (f x), h x hx]
  have hcolumns := columns_map (fun j x => (f x)[j]!) (List.range width) xs
  rw [List.length_range] at hcolumns
  rw [hrows, hcolumns]

/-- Columns of one length pair up to the rows at their positions. -/
theorem Value.pairUp_eq_ok {β : Type} {xs : List β} {f : β → List Value}
    {rows : List (List Value)} :
    pairUp (xs.map f) = .ok rows ↔ ∃ n, (∀ x ∈ xs, (f x).length = n) ∧ (xs = [] → n = 0)
      ∧ rows = (List.range n).map fun i => xs.map fun x => (f x)[i]! := by
  -- success means that no array is of another length than the first
  have hpair : pairUp (xs.map f) = .ok rows ↔
      (∀ x ∈ xs, (f x).length = ((xs.map f).headD []).length)
        ∧ rows = columns ((xs.map f).headD []).length (xs.map f) := by
    rw [pairUp]
    cases hfind : (xs.map f).find? (·.length != ((xs.map f).headD []).length) with
    | none =>
      rw [List.find?_eq_none] at hfind
      simp only [List.mem_map, bne_iff_ne, ne_eq, not_not, forall_exists_index, and_imp,
        forall_apply_eq_imp_iff₂] at hfind
      simp only [Except.ok.injEq]
      exact ⟨fun h => ⟨hfind, h.symm⟩, fun h => h.2.symm⟩
    | some other =>
      obtain ⟨x, hx, rfl⟩ := List.mem_map.1 (List.mem_of_find?_eq_some hfind)
      have hne := List.find?_some hfind
      simp only [bne_iff_ne, ne_eq] at hne
      exact ⟨nofun, fun h => absurd (h.1 x hx) hne⟩
  rw [hpair]
  constructor
  · rintro ⟨hlen, rfl⟩
    refine ⟨_, hlen, ?_, columns_eq hlen⟩
    rintro rfl
    rfl
  · rintro ⟨n, hlen, hnil, rfl⟩
    -- with no array at all the common length is that of the default
    have hn : ((xs.map f).headD []).length = n := by
      cases xs with
      | nil => exact (hnil rfl).symm
      | cons x xs => exact hlen x List.mem_cons_self
    rw [hn]
    exact ⟨hlen, (columns_eq hlen).symm⟩

/-! ## Operands -/

/-- A value is read as an array if it is one. -/
theorem Value.toArray_eq_ok {v : Value} {vs : List Value} : v.toArray = .ok vs ↔ v = .array vs := by
  cases v <;> simp [toArray]

namespace Operand

/-- The array that an operand reads. -/
def array (call : Callee) (env : Env) (a : Operand) : Eval (List Value) := do
  Eval.lift (← (a.toExp .dummy).eval call env).toArray

/-- What an operand has at a position. -/
def cell (call : Callee) (env : Env) (a : Operand) (i : Nat) : Value := (a.array call env).value[i]!

/-- The value of an operand does not depend on the span. -/
theorem eval_toExp (call : Callee) (env : Env) (s : Span) (a : Operand) :
    (a.toExp s).eval call env = (a.toExp .dummy).eval call env := by
  cases a <;> rfl

/-- Reading an operand costs the same in every session. -/
theorem array_uniform {call : Callee} (hu : ∀ fn args, Uniform (call fn args)) (env : Env)
    (a : Operand) : Uniform (a.array call env) :=
  (Exp.eval_uniform hu env _).bind fun _ => .lift _

/-- The expressions of operands are evaluated to the arrays of these. -/
theorem evalArrays_toExp (call : Callee) (env : Env) (s : Span) (as : List Operand) :
    Exp.evalArrays call env (as.map (·.toExp s)) = as.mapM (array call env) := by
  induction as with
  | nil => rfl
  | cons a as ih =>
    rw [List.map_cons, Exp.evalArrays, List.mapM_cons, ih, array, eval_toExp, bind_assoc]

/-- Operands that certainly have the same rows have. -/
theorem array_eq_of_sameSource (call : Callee) (env : Env) {a b : Operand}
    (h : a.sameSource b = true) : a.array call env = b.array call env := by
  cases a with
  | whole x =>
    cases b with
    | whole y =>
      rw [array, array, toExp, toExp, Exp.eval, Exp.eval, eq_of_beq h]
    | row | transposed | range => cases h
  | transposed x =>
    cases b with
    | transposed y =>
      rw [array, array, toExp, toExp, Exp.eval, Exp.eval, Exp.eval, Exp.eval, eq_of_beq h]
    | row | whole | range => cases h
  | row | range => cases h

end Operand

/-- The operands are arrays of length `n`. -/
structure Aligned (w : String → Nat) (call : Callee) (env : Env) (as : List Operand) (n : Nat) :
    Prop where
  succeeds : ∀ a ∈ as, Eval.Succeeds w (a.array call env)
  length : ∀ a ∈ as, (a.array call env).value.length = n
  nil : as = [] → n = 0

section

variable {w : String → Nat} {call : Callee} {env : Env}

/-- The cells of some operands at a position. -/
def cells (call : Callee) (env : Env) (as : List Operand) (i : Nat) : List Value :=
  as.map fun a => a.cell call env i

/-- The price of some operands. -/
def operandsPrice (w : String → Nat) (call : Callee) (env : Env) (as : List Operand) : Nat :=
  (as.map fun a => (a.array call env).price w).sum

/-- Reading the rows of operands costs the same in every session. -/
theorem rows_uniform (hu : ∀ fn args, Uniform (call fn args)) (as : List Operand) :
    Uniform (Eval.rows (as.mapM (Operand.array call env))) :=
  (Uniform.mapM (fun a => a.array_uniform hu env) as).bind fun _ => .lift _

/-- The rows of operands are yielded just if these are aligned. -/
theorem yields_rows_iff (hu : ∀ fn args, Uniform (call fn args)) {as : List Operand}
    {rows : List (List Value)} {k : Nat} :
    Yields w (Eval.rows (as.mapM (Operand.array call env))) rows k ↔
      ∃ n, Aligned w call env as n ∧ rows = (List.range n).map (cells call env as)
        ∧ k = operandsPrice w call env as := by
  rw [Eval.rows, (Uniform.mapM (fun a => a.array_uniform hu env) as).yields_bind_iff fun _ =>
    .lift _]
  constructor
  · rintro ⟨arrays, i, j, harrays, hrows, rfl⟩
    obtain ⟨hs, rfl, rfl⟩ := (Eval.yields_mapM fun a => a.array_uniform hu env).1 harrays
    obtain ⟨hpair, rfl⟩ := Eval.yields_lift_iff.1 hrows
    obtain ⟨n, hlen, hnil, rfl⟩ := Value.pairUp_eq_ok.1 hpair
    exact ⟨n, ⟨hs, hlen, hnil⟩, rfl, rfl⟩
  · rintro ⟨n, ⟨hs, hlen, hnil⟩, rfl, rfl⟩
    exact ⟨_, _, 0, (Eval.yields_mapM fun a => a.array_uniform hu env).2 ⟨hs, rfl, rfl⟩,
      .lift (Value.pairUp_eq_ok.2 ⟨n, hlen, hnil, rfl⟩), rfl⟩

/-- The expression of a stage is evaluated as its combinator over the rows of its operands. -/
theorem Stage.eval_toExp (call : Callee) (env : Env) (g : Stage) :
    g.toExp.eval call env
      = g.op.eval call env g.operands.length
        (Eval.rows (g.operands.mapM (Operand.array call env))) := by
  rw [Stage.toExp, Exp.eval, Operand.evalArrays_toExp, List.length_map]

/-- There is one value for each expression. -/
theorem Exp.length_of_yields_evalAll (hu : ∀ fn args, Uniform (call fn args)) {es : List Exp}
    {vs : List Value} {k : Nat} (h : Yields w (Exp.evalAll call env es) vs k) :
    vs.length = es.length := by
  induction es generalizing vs k with
  | nil =>
    obtain ⟨rfl, -⟩ := Eval.yields_pure_iff.1 h
    rfl
  | cons e es ih =>
    obtain ⟨v, i, j, -, hrest, -⟩ := ((e.eval_uniform hu env).yields_bind_iff fun _ =>
      (Exp.evalAll_uniform hu env es).bind fun _ => .pure _).1 h
    obtain ⟨vs', hvs', rfl⟩ := (Exp.evalAll_uniform hu env es).yields_bind_pure_iff.1 hrest
    rw [List.length_cons, List.length_cons, ih hvs']

/-! ## Lambdas -/

/-- A lambda yields the results of its body, where its parameters have the arguments as values. -/
theorem Lambda.yields_apply_iff (hu : ∀ fn args, Uniform (call fn args)) {f : Lambda}
    {args vs : List Value} {k : Nat} :
    Yields w (f.apply call env args) vs k ↔ f.params.length = args.length ∧
      ∃ v, Yields w (f.body.eval call (env.extendMany ((Pattern.names f.params).zip args))) v k
        ∧ v.results f.rets.length = .ok vs := by
  obtain ⟨ps, b, ts⟩ := f
  rw [Lambda.apply]
  split
  · rename_i hlen
    rw [(b.eval_uniform hu _).yields_bind_iff fun _ => .lift _]
    constructor
    · rintro ⟨v, i, j, hv, hj, rfl⟩
      obtain ⟨hvs, rfl⟩ := Eval.yields_lift_iff.1 hj
      exact ⟨hlen, v, hv, hvs⟩
    · rintro ⟨-, v, hv, hvs⟩
      exact ⟨v, k, 0, hv, .lift hvs, rfl⟩
  · rename_i hlen
    exact ⟨fun h => absurd h Eval.not_yields_throw, fun h => absurd h.1 hlen⟩

/-- A lambda yields as many results as it has result types. -/
theorem Lambda.length_of_yields (hu : ∀ fn args, Uniform (call fn args)) {f : Lambda}
    {args vs : List Value} {k : Nat} (h : Yields w (f.apply call env args) vs k) :
    vs.length = f.rets.length := by
  obtain ⟨-, v, -, hvs⟩ := (Lambda.yields_apply_iff hu).1 h
  exact Value.length_of_results hvs

/-- Does a row stay in a filter with that predicate? -/
def Lambda.test (call : Callee) (env : Env) (p : Lambda) (row : List Value) : Eval Bool := do
  Eval.verdict (← p.apply call env row)

/-- A predicate costs the same in every session. -/
theorem Lambda.test_uniform (hu : ∀ fn args, Uniform (call fn args)) (p : Lambda)
    (row : List Value) : Uniform (p.test call env row) :=
  (p.apply_uniform hu env row).bind fun _ => .verdict _

/-! ## Stages -/

namespace Stage

variable {g : Stage} {v : Value} {k : Nat}

/-- A map yields the columns of what its lambda yields at each position. -/
theorem yields_map_iff (hu : ∀ fn args, Uniform (call fn args)) {f : Lambda} (hop : g.op = .map f) :
    Yields w (g.toExp.eval call env) v k ↔ ∃ n, Aligned w call env g.operands n
      ∧ (∀ i ∈ List.range n, Eval.Succeeds w (f.apply call env (cells call env g.operands i)))
      ∧ v = .ofResults ((List.range f.rets.length).map fun j => .array ((List.range n).map fun i =>
          (Eval.value (f.apply call env (cells call env g.operands i)))[j]!))
      ∧ k = operandsPrice w call env g.operands + ((List.range n).map fun i =>
          Eval.price w (f.apply call env (cells call env g.operands i))).sum := by
  have hf := fun row => f.apply_uniform hu env row
  -- the columns of the results, read entry by entry
  have hvalue : ∀ n,
      (∀ i ∈ List.range n, Eval.Succeeds w (f.apply call env (cells call env g.operands i))) →
      Value.ofColumns (columns f.rets.length (((List.range n).map
          (cells call env g.operands)).map fun row => Eval.value (f.apply call env row)))
        = .ofResults ((List.range f.rets.length).map fun j => .array ((List.range n).map fun i =>
            (Eval.value (f.apply call env (cells call env g.operands i)))[j]!)) := by
    intro n hs
    rw [Value.ofColumns, List.map_map]
    refine congrArg _ ?_
    refine (congrArg (List.map Value.array)
      (columns_eq (f := fun i => Eval.value (f.apply call env (cells call env g.operands i)))
        fun i hi => Lambda.length_of_yields hu (hs i hi))).trans ?_
    rw [List.map_map]
    rfl
  rw [eval_toExp, hop, Combinator.eval, (rows_uniform hu _).yields_bind_iff fun _ =>
    (Uniform.mapM hf _).bind fun _ => .pure _]
  constructor
  · rintro ⟨rows, i, j, hrows, hres, rfl⟩
    obtain ⟨n, hal, rfl, rfl⟩ := (yields_rows_iff hu).1 hrows
    obtain ⟨results, hresults, rfl⟩ := (Uniform.mapM hf _).yields_bind_pure_iff.1 hres
    obtain ⟨hs, rfl, rfl⟩ := (Eval.yields_mapM hf).1 hresults
    rw [List.forall_mem_map] at hs
    refine ⟨n, hal, hs, hvalue n hs, ?_⟩
    rw [List.map_map]
    rfl
  · rintro ⟨n, hal, hs, rfl, rfl⟩
    refine ⟨_, _, _, (yields_rows_iff hu).2 ⟨n, hal, rfl, rfl⟩, (Uniform.mapM hf
      _).yields_bind_pure_iff.2 ⟨_, (Eval.yields_mapM hf).2 ⟨List.forall_mem_map.2 hs, rfl, rfl⟩,
        hvalue n hs⟩, ?_⟩
    rw [List.map_map]
    rfl

/-- A filter yields each column at the positions where its predicate holds. -/
theorem yields_filter_iff (hu : ∀ fn args, Uniform (call fn args)) {p : Lambda}
    (hop : g.op = .filter p) :
    Yields w (g.toExp.eval call env) v k ↔ ∃ n, Aligned w call env g.operands n
      ∧ (∀ i ∈ List.range n, Eval.Succeeds w (p.test call env (cells call env g.operands i)))
      ∧ v = .ofResults (g.operands.map fun a => .array (((List.range n).filter fun i =>
          (p.test call env (cells call env g.operands i)).value).map (a.cell call env)))
      ∧ k = operandsPrice w call env g.operands + ((List.range n).map fun i =>
          (p.test call env (cells call env g.operands i)).price w).sum := by
  have hp : ∀ row, Uniform (p.test call env row) := fun row => p.test_uniform hu row
  -- the columns of the rows that are kept
  have hvalue : ∀ n, Value.ofColumns (columns g.operands.length
      (((List.range n).map (cells call env g.operands)).filter fun row =>
        (p.test call env row).value)) = .ofResults (g.operands.map fun a => .array
          (((List.range n).filter fun i =>
            (p.test call env (cells call env g.operands i)).value).map (a.cell call env))) := by
    intro n
    rw [Value.ofColumns, List.filter_map]
    refine congrArg _ ?_
    refine (congrArg (List.map Value.array)
      (columns_map (fun a i => Operand.cell call env a i) g.operands _)).trans ?_
    rw [List.map_map]
    rfl
  rw [eval_toExp, hop, Combinator.eval]
  change Yields w (_ >>= fun rows => Eval.keep (p.test call env) rows >>= fun kept =>
    pure (Value.ofColumns (columns g.operands.length kept))) v k ↔ _
  rw [(rows_uniform hu _).yields_bind_iff fun _ => (Uniform.keep hp _).bind fun _ => .pure _]
  constructor
  · rintro ⟨rows, i, j, hrows, hres, rfl⟩
    obtain ⟨n, hal, rfl, rfl⟩ := (yields_rows_iff hu).1 hrows
    obtain ⟨kept, hkept, rfl⟩ := (Uniform.keep hp _).yields_bind_pure_iff.1 hres
    obtain ⟨hs, rfl, rfl⟩ := (Eval.yields_keep hp).1 hkept
    rw [List.forall_mem_map] at hs
    refine ⟨n, hal, hs, hvalue n, ?_⟩
    rw [List.map_map]
    rfl
  · rintro ⟨n, hal, hs, rfl, rfl⟩
    refine ⟨_, _, _, (yields_rows_iff hu).2 ⟨n, hal, rfl, rfl⟩, (Uniform.keep hp
      _).yields_bind_pure_iff.2 ⟨_, (Eval.yields_keep hp).2 ⟨List.forall_mem_map.2 hs, rfl, rfl⟩,
        hvalue n⟩, ?_⟩
    rw [List.map_map]
    rfl

/-- A redomap yields what its inner lambda folds the rows to. -/
theorem yields_redomap_iff (hu : ∀ fn args, Uniform (call fn args)) {outer f : Lambda}
    {ne : List Exp} (hop : g.op = .redomap outer f ne) :
    Yields w (g.toExp.eval call env) v k ↔ ∃ n start r i j, Aligned w call env g.operands n
      ∧ Yields w (Exp.evalAll call env ne) start i
      ∧ Yields w ((List.range n).foldlM (fun acc i =>
          f.apply call env (acc ++ cells call env g.operands i)) start) r j
      ∧ v = .ofResults r ∧ k = i + operandsPrice w call env g.operands + j := by
  have hf := fun acc row => f.apply_uniform hu env (acc ++ row)
  -- the fold behind the neutral elements and the rows
  have hrest := fun start rows => ((Uniform.foldlM hf rows start).bind fun r =>
    .pure (Value.ofResults r))
  have hrows : Uniform (Eval.rows (g.operands.mapM (Operand.array call env))) :=
    rows_uniform hu g.operands
  rw [eval_toExp, hop, Combinator.eval, Uniform.yields_bind_iff (Exp.evalAll_uniform hu env ne)
    fun start => hrows.bind (hrest start)]
  constructor
  · rintro ⟨start, i, j, hstart, hj, rfl⟩
    obtain ⟨rows, i', j', hi', hj', rfl⟩ := (hrows.yields_bind_iff (hrest start)).1 hj
    obtain ⟨n, hal, rfl, rfl⟩ := (yields_rows_iff hu).1 hi'
    obtain ⟨r, hr, rfl⟩ := (Uniform.foldlM hf _ start).yields_bind_pure_iff.1 hj'
    rw [List.foldlM_map] at hr
    exact ⟨n, start, r, i, j', hal, hstart, hr, rfl, by omega⟩
  · rintro ⟨n, start, r, i, j, hal, hstart, hr, rfl, rfl⟩
    refine ⟨start, i, _, hstart, (hrows.yields_bind_iff (hrest start)).2 ⟨_, _, j,
      (yields_rows_iff hu).2 ⟨n, hal, rfl, rfl⟩, (Uniform.foldlM hf _
        start).yields_bind_pure_iff.2 ⟨r, ?_, rfl⟩, rfl⟩, by omega⟩
    rw [List.foldlM_map]
    exact hr

end Stage

end

end ArrayFusion
