import ArrayFusion.Eval.Session
import ArrayFusion.Proofs.Rows

/-!
# A scan is the sequence of its prefix reductions

A reduction and a scan go through the same rows with the same lambda, and differ in what they keep:
the last accumulator, or every one (`Eval.foldlM_eq_scan`).  So they fail together and with the same
error.  What a scan keeps at a position is the outcome of the fold that stops there
(`Eval.foldlM_take_of_scan`), and the rows of some arrays up to a position are the rows of their
prefixes (`Value.pairUp_take`).  Hence the entries of the columns of a scan at a position are the
results of the reduction of the prefixes up to it (`Program.evaluate_scan`).

Runs from one session are compared, because a lambda may call functions and fail for that reason.
-/

namespace ArrayFusion

/-! ## Loops -/

namespace Eval

variable {α β σ τ : Type}

/-- A sequence of two evaluations succeeds if both do, in the session that the first one leaves. -/
theorem run_bind_eq_ok {x : Evaluation τ α} {f : α → Evaluation τ β} {t t' : τ} {b : β} :
    (x >>= f).run.run t = (.ok b, t')
      ↔ ∃ a t₁, x.run.run t = (.ok a, t₁) ∧ (f a).run.run t₁ = (.ok b, t') := by
  change StateT.run (ExceptT.bindCont f (x.run.run t).1) (x.run.run t).2 = _ ↔ _
  rcases x.run.run t with ⟨e | a, t₁⟩
  · constructor
    · intro h
      cases h
    · rintro ⟨a, t₁, ha, -⟩
      cases ha
  · constructor
    · intro h
      exact ⟨a, t₁, rfl, h⟩
    · rintro ⟨a, t₁, ha, h⟩
      cases ha
      exact h

/-- To return a value leaves the session as it is. -/
theorem run_pure_eq_ok {a b : α} {t t' : τ} :
    (pure a : Evaluation τ α).run.run t = (.ok b, t') ↔ b = a ∧ t' = t := by
  constructor
  · intro h
    cases h
    exact ⟨rfl, rfl⟩
  · rintro ⟨rfl, rfl⟩
    rfl

/-- What is made of a result in the end makes no difference to the errors. -/
theorem run_return (x : Evaluation τ α) (g : α → β) (t : τ) :
    (do return g (← x)).run.run t = ((x.run.run t).1.map g, (x.run.run t).2) := by
  change StateT.run (ExceptT.bindCont (fun a => pure (g a)) (x.run.run t).1) (x.run.run t).2 = _
  rcases x.run.run t with ⟨e | a, t₁⟩ <;> rfl

variable {step : σ → α → Evaluation τ σ}

/-- A fold is a scan of which only the last accumulator is kept. -/
theorem foldlM_eq_scan (acc : σ) (xs : List α) :
    xs.foldlM step acc = do return (← scan step acc xs).getLastD acc := by
  induction xs generalizing acc with
  | nil => rw [scan, pure_bind]; rfl
  | cons x xs ih =>
    rw [List.foldlM_cons, scan, bind_assoc]
    refine congrArg (step acc x >>= ·) (funext fun acc' => ?_)
    rw [ih, bind_assoc]
    refine congrArg (scan step acc' xs >>= ·) (funext fun accs => ?_)
    rw [pure_bind, List.getLastD_cons]

/-- A scan has an accumulator for each member of the list, and that is the outcome of the fold which
stops behind the member. -/
theorem foldlM_take_of_scan {acc : σ} {xs : List α} {accs : List σ} {t t' : τ}
    (h : (scan step acc xs).run.run t = (.ok accs, t')) : accs.length = xs.length
      ∧ ∀ k u, accs[k]? = some u → ∃ t₁, ((xs.take (k + 1)).foldlM step acc).run.run t =
        (.ok u, t₁) := by
  induction xs generalizing acc accs t with
  | nil =>
    obtain ⟨rfl, -⟩ := run_pure_eq_ok.1 h
    exact ⟨rfl, fun k u hu => by simp at hu⟩
  | cons x xs ih =>
    obtain ⟨acc', t₁, hstep, h₁⟩ := run_bind_eq_ok.1 h
    obtain ⟨rest, t₂, hrest, h₂⟩ := run_bind_eq_ok.1 h₁
    obtain ⟨rfl, rfl⟩ := run_pure_eq_ok.1 h₂
    obtain ⟨hlength, hprefix⟩ := ih hrest
    refine ⟨congrArg (· + 1) hlength, ?_⟩
    intro k u hu
    rw [List.take_succ_cons, List.foldlM_cons]
    -- the first entry is one step, every later one is an entry of the scan of the rest
    cases k with
    | zero =>
      cases hu
      exact ⟨t₁, run_bind_eq_ok.2 ⟨_, t₁, hstep, rfl⟩⟩
    | succ k =>
      obtain ⟨t₃, hfold⟩ := hprefix k u hu
      exact ⟨t₃, run_bind_eq_ok.2 ⟨_, t₁, hstep, hfold⟩⟩

/-- What every step yields holds of all accumulators of a scan. -/
theorem forall_of_scan {P : σ → Prop}
    (hP : ∀ acc x t b t', (step acc x).run.run t = (.ok b, t') → P b) {acc : σ} {xs : List α}
    {accs : List σ} {t t' : τ} (h : (scan step acc xs).run.run t = (.ok accs, t')) :
    ∀ u ∈ accs, P u := by
  induction xs generalizing acc accs t with
  | nil =>
    obtain ⟨rfl, -⟩ := run_pure_eq_ok.1 h
    exact nofun
  | cons x xs ih =>
    obtain ⟨acc', t₁, hstep, h₁⟩ := run_bind_eq_ok.1 h
    obtain ⟨rest, t₂, hrest, h₂⟩ := run_bind_eq_ok.1 h₁
    obtain ⟨rfl, rfl⟩ := run_pure_eq_ok.1 h₂
    exact List.forall_mem_cons.2 ⟨hP _ _ _ _ _ hstep, ih hrest⟩

end Eval

/-! ## Rows -/

/-- The expressions are variables, and these are bound to the arrays. -/
def Exp.BoundTo (env : Env) (es : List Exp) (arrays : List (List Value)) : Prop :=
  List.Forall₂ (fun e rows => ∃ x s, e = .var x s ∧ env.lookup? x.name = some (.array rows))
  es arrays

/-- Expressions that are bound to arrays are evaluated to them. -/
theorem Exp.BoundTo.evalArrays_eq {τ : Type} (call : CalleeOver τ) {env : Env} {es : List Exp}
    {arrays : List (List Value)} (h : Exp.BoundTo env es arrays) :
    Exp.evalArrays call env es = pure arrays := by
  induction h with
  | nil => rfl
  | @cons e rows es arrays hvar _ ih =>
    obtain ⟨x, s, rfl, hx⟩ := hvar
    rw [Exp.evalArrays, Exp.eval, Env.get, hx, ih]
    rfl

/-- Their rows are those of the arrays. -/
theorem Exp.BoundTo.rows_eq {τ : Type} (call : CalleeOver τ) {env : Env} {es : List Exp}
    {arrays R : List (List Value)} (h : Exp.BoundTo env es arrays)
    (hpair : Value.pairUp arrays = .ok R) : Eval.rows (Exp.evalArrays call env es) = pure R := by
  rw [Eval.rows, h.evalArrays_eq, pure_bind, hpair]
  rfl

/-- The rows of arrays of length `n`. -/
def Value.rowsOf (arrays : List (List Value)) (n : Nat) : List (List Value) :=
  (List.range n).map fun i => arrays.map (·[i]!)

section

variable {arrays : List (List Value)} {n : Nat}

/-- There are as many rows as asked for. -/
theorem Value.length_rowsOf : (Value.rowsOf arrays n).length = n := by
  rw [rowsOf, List.length_map, List.length_range]

/-- Arrays of one length are paired up to that many rows. -/
theorem Value.pairUp_of_length (hlength : ∀ a ∈ arrays, a.length = n) (hnil : arrays = [] → n = 0) :
    Value.pairUp arrays = .ok (Value.rowsOf arrays n) := by
  rw [← List.map_id arrays] at hlength ⊢
  exact Value.pairUp_eq_ok.2 ⟨n, fun a ha => hlength a (by simpa using ha), hnil, by simp [rowsOf]⟩

/-- The prefixes of the arrays have the rows up to there. -/
theorem Value.pairUp_take (hlength : ∀ a ∈ arrays, a.length = n) (hnil : arrays = [] → n = 0)
    {k : Nat} (hk : k ≤ n) : Value.pairUp (arrays.map (·.take k)) =
    .ok ((Value.rowsOf arrays n).take k) := by
  have hprefixes : ∀ a ∈ arrays.map (·.take k), a.length = k := by
    intro a ha
    obtain ⟨b, hb, rfl⟩ := List.mem_map.1 ha
    rw [List.length_take, hlength b hb]
    omega
  rw [Value.pairUp_of_length hprefixes fun h =>
    by have := hnil (List.map_eq_nil_iff.1 h); omega, rowsOf,
    rowsOf, ← List.map_take, List.take_range, Nat.min_eq_left hk]
  refine congrArg _ (List.map_congr_left fun i hi => ?_)
  rw [List.map_map]
  refine List.map_congr_left fun a _ => ?_
  simp [List.getElem!_eq_getElem?_getD, List.getElem?_take_of_lt (List.mem_range.1 hi)]

end

/-! ## Columns -/

section

variable {α : Type} [Inhabited α] {width : Nat} {xs : List (List α)}
    (h : ∀ x ∈ xs, x.length = width)
include h

/-- The columns of rows of one length. -/
theorem columns_of_length : columns width xs = (List.range width).map fun j => xs.map (·[j]!) := by
  have h := columns_eq (f := id) h
  rwa [List.map_id] at h

/-- The entries of the columns at a position, column by column, are the row there. -/
theorem columns_getElem? {k : Nat} {u : List α} (hu : xs[k]? = some u) :
    (columns width xs).map (·[k]?) = u.map some := by
  have hlength : u.length = width := h u (List.mem_of_getElem? hu)
  rw [columns_of_length h, List.map_map]
  conv_rhs => rw [List.eq_map_range u, hlength, List.map_map]
  refine List.map_congr_left fun j _ => ?_
  rw [Function.comp_apply, Function.comp_apply, List.getElem?_map, hu]
  rfl

end

/-! ## Folds -/

section

variable {τ : Type} {call : CalleeOver τ} {env : Env} {f : Lambda} {ne : List Exp}
  {rows : Evaluation τ (List (List Value))} {width : Nat} {t t' : τ}

/-- The neutral elements, and the accumulators behind them, one for each row. -/
def Lambda.accumulators (call : CalleeOver τ) (env : Env) (f : Lambda) (ne : List Exp)
    (rows : Evaluation τ (List (List Value))) : Evaluation τ (List Value × List (List Value)) := do
  let start ← Exp.evalAll call env ne
  let accs ← Eval.scan (fun acc row => f.apply call env (acc ++ row)) start (← rows)
  return (start, accs)

/-- A scan returns the columns of all accumulators. -/
theorem Combinator.eval_scan : (Combinator.scan f ne).eval call env width rows = do
    let q ← f.accumulators call env ne rows
    return .ofColumns (columns q.1.length q.2) := by
  simp only [Combinator.eval, Lambda.accumulators, bind_assoc, pure_bind]

/-- A reduction returns the last of the accumulators. -/
theorem Combinator.eval_reduce : (Combinator.reduce f ne).eval call env width rows = do
    let q ← f.accumulators call env ne rows
    return .ofResults (q.2.getLastD q.1) := by
  simp only [Combinator.eval, Lambda.accumulators, bind_assoc, pure_bind, Eval.foldlM_eq_scan]

/-- There is one value for each expression. -/
theorem Exp.length_of_run_evalAll {es : List Exp} {vs : List Value}
    (h : (Exp.evalAll call env es).run.run t = (.ok vs, t')) : vs.length = es.length := by
  induction es generalizing vs t with
  | nil =>
    obtain ⟨rfl, -⟩ := Eval.run_pure_eq_ok.1 h
    rfl
  | cons e es ih =>
    obtain ⟨v, t₁, -, h₁⟩ := Eval.run_bind_eq_ok.1 h
    obtain ⟨rest, t₂, hrest, h₂⟩ := Eval.run_bind_eq_ok.1 h₁
    obtain ⟨rfl, rfl⟩ := Eval.run_pure_eq_ok.1 h₂
    rw [List.length_cons, List.length_cons, ih hrest]

/-- A lambda returns as many results as it has result types. -/
theorem Lambda.length_of_run_apply {args vs : List Value}
    (h : (f.apply call env args).run.run t = (.ok vs, t')) : vs.length = f.rets.length := by
  obtain ⟨ps, b, ts⟩ := f
  rw [Lambda.apply] at h
  split at h
  · obtain ⟨v, t₁, -, h₁⟩ := Eval.run_bind_eq_ok.1 h
    cases hvs : v.results ts.length with
    | error e =>
      rw [hvs] at h₁
      cases h₁
    | ok us =>
      rw [hvs] at h₁
      obtain ⟨rfl, -⟩ := Eval.run_pure_eq_ok.1 h₁
      exact Value.length_of_results hvs
  · cases h

/-- If the lambda has a result for each neutral element, the accumulators have as many members as
there are neutral elements, there is one for each row, and each is the outcome of the fold over the
rows up to its own. -/
theorem Lambda.accumulators_eq_ok (hrets : f.rets.length = ne.length) {R : List (List Value)}
    {start : List Value} {accs : List (List Value)}
    (h : (f.accumulators call env ne (pure R)).run.run t = (.ok (start, accs), t')) :
    start.length = ne.length ∧ accs.length = R.length ∧ (∀ u ∈ accs, u.length = ne.length)
      ∧ ∀ k u, accs[k]? = some u → ∀ width, ∃ t₁, ((Combinator.reduce f ne).eval call env width
        (pure (R.take (k + 1)))).run.run t = (.ok (.ofResults u), t₁) := by
  rw [Lambda.accumulators] at h
  -- the neutral elements once, then the scan from them
  obtain ⟨vs, t₁, hstart, h₁⟩ := Eval.run_bind_eq_ok.1 h
  rw [pure_bind] at h₁
  obtain ⟨us, t₂, hscan, h₂⟩ := Eval.run_bind_eq_ok.1 h₁
  obtain ⟨heq, rfl⟩ := Eval.run_pure_eq_ok.1 h₂
  cases heq
  obtain ⟨hlength, hprefix⟩ := Eval.foldlM_take_of_scan hscan
  refine ⟨Exp.length_of_run_evalAll hstart, hlength, ?_, ?_⟩
  · apply Eval.forall_of_scan (P := fun u => u.length = ne.length) _ hscan
    intro acc row s u s' hu
    exact (Lambda.length_of_run_apply hu).trans hrets
  · intro k u hu width
    obtain ⟨t₃, hfold⟩ := hprefix k u hu
    refine ⟨t₃, ?_⟩
    rw [Combinator.eval]
    refine Eval.run_bind_eq_ok.2 ⟨start, t₁, hstart, ?_⟩
    rw [pure_bind]
    exact Eval.run_bind_eq_ok.2 ⟨u, t₃, hfold, rfl⟩

/-- A scan fails if and only if the reduction does, and with the same error. -/
theorem Combinator.eval_scan_eq_error {e : EvalError} :
    (((Combinator.scan f ne).eval call env width rows).run.run t).1 = .error e
      ↔ (((Combinator.reduce f ne).eval call env width rows).run.run t).1 = .error e := by
  rw [Combinator.eval_scan, Combinator.eval_reduce, Eval.run_return, Eval.run_return]
  cases ((f.accumulators call env ne rows).run.run t).1 with
  | error e' => exact Iff.rfl
  | ok q =>
    constructor
    · intro h
      cases h
    · intro h
      cases h

/-- A scan that does not fail has a column for each neutral element, with an entry for each row.
The entries at a position are the results of the reduction of the rows up to there. -/
theorem Combinator.eval_scan_eq_ok (hrets : f.rets.length = ne.length) {R : List (List Value)}
    {v : Value} (h : (((Combinator.scan f ne).eval call env width (pure R)).run.run t).1 = .ok v) :
    ∃ entries, v = .ofColumns entries ∧ entries.length = ne.length
      ∧ (∀ c ∈ entries, c.length = R.length)
      ∧ ∀ k < R.length, ∃ us, entries.map (·[k]?) = us.map some ∧ ∀ width,
        (((Combinator.reduce f ne).eval call env width (pure (R.take (k + 1)))).run.run t).1
          = .ok (.ofResults us) := by
  rw [Combinator.eval_scan, Eval.run_return] at h
  cases hrun : (f.accumulators call env ne (pure R)).run.run t with
  | mk outcome t' =>
  rw [hrun] at h
  cases outcome with
  | error e => cases h
  | ok q =>
    obtain ⟨start, accs⟩ := q
    cases h
    obtain ⟨hstart, haccs, hwidth, hprefix⟩ := Lambda.accumulators_eq_ok hrets hrun
    rw [← hstart] at hwidth
    refine ⟨columns start.length accs, rfl, ?_, ?_, ?_⟩
    · rw [columns_of_length hwidth, List.length_map, List.length_range, hstart]
    · intro c hc
      rw [columns_of_length hwidth] at hc
      obtain ⟨j, -, rfl⟩ := List.mem_map.1 hc
      rw [List.length_map, haccs]
    · intro k hk
      -- an entry of each column at one index is an accumulator of the scan
      have hu := List.getElem?_eq_getElem (show k < accs.length by omega)
      refine ⟨accs[k], columns_getElem? hwidth hu, ?_⟩
      intro width
      obtain ⟨t₁, hreduce⟩ := hprefix k accs[k] hu width
      rw [hreduce]

end

/-! ## Scans and reductions -/

/-- A scan and the reduction with the same lambda, neutral elements and arrays fail together and
with the same error.  If the scan has a value, that is made of a column for each neutral element,
with an entry for each row, and the entries at a position are the results of the reduction of the
prefixes of the arrays up to there.  The prefixes may be bound wherever the lambda and the neutral
elements do not look. -/
theorem Program.evaluate_scan (p : Program) {env : Env} {f : Lambda} {ne : List Exp}
    (hrets : f.rets.length = ne.length) {es : List Exp} {arrays : List (List Value)} {n : Nat}
    (hes : Exp.BoundTo env es arrays) (hlength : ∀ a ∈ arrays, a.length = n)
    (hnil : arrays = [] → n = 0) (cs cs' : Certificates) (s s' : Span) (t : Session) :
    (∀ e, (p.evaluate env (.soac (.scan f ne) es cs s) t).1 = .error e
        ↔ (p.evaluate env (.soac (.reduce f ne) es cs' s') t).1 = .error e)
    ∧ ∀ v, (p.evaluate env (.soac (.scan f ne) es cs s) t).1 = .ok v → ∃ entries, v =
      .ofColumns entries
      ∧ entries.length = ne.length ∧ (∀ c ∈ entries, c.length = n)
      ∧ ∀ k, 1 ≤ k → k ≤ n → ∀ (env' : Env) (es' : List Exp),
        Env.AgreeOn (f.free false ∪ Exp.freeAll false ne) env env' →
        Exp.BoundTo env' es' (arrays.map (·.take k)) → ∃ us, entries.map (·[k - 1]?) = us.map some
          ∧ (p.evaluate env' (.soac (.reduce f ne) es' cs' s') t).1 = .ok (.ofResults us) := by
  have hscan := hes.rows_eq (p.answer maxDepth) (Value.pairUp_of_length hlength hnil)
  rw [Program.evaluate, Program.evaluate, Exp.eval, Exp.eval, hscan]
  refine ⟨fun e => Combinator.eval_scan_eq_error, ?_⟩
  intro v hv
  obtain ⟨entries, hentries, hwidth, hcolumns, hprefix⟩ := Combinator.eval_scan_eq_ok hrets hv
  rw [Value.length_rowsOf] at hcolumns hprefix
  refine ⟨entries, hentries, hwidth, hcolumns, ?_⟩
  intro k hk hkn env' es' hagree hes'
  obtain ⟨us, hus, hreduce⟩ := hprefix (k - 1) (by omega)
  refine ⟨us, hus, ?_⟩
  -- the lambda and the neutral elements mean the same where the prefixes are bound
  rw [Program.evaluate, Exp.eval, hes'.rows_eq _ (Value.pairUp_take hlength hnil hkn),
    ← Combinator.eval_congr (p.answer maxDepth) (.reduce f ne) hagree, ← hreduce es'.length,
    Nat.sub_add_cancel hk]

/-- Weighted sums and largest numbers of the prefixes of an array.  The larger of two numbers is
found by a function of the program. -/
theorem Program.evaluate_scan_sumAndLargest :
    let w : Ident := ⟨⟨"w", 0⟩, .int⟩
    let xs : Ident := ⟨⟨"xs", 1⟩, .array .int⟩
    let ys : Ident := ⟨⟨"ys", 2⟩, .array .int⟩
    let acc : Ident := ⟨⟨"acc", 3⟩, .int⟩
    let m : Ident := ⟨⟨"m", 4⟩, .int⟩
    let x : Ident := ⟨⟨"x", 5⟩, .int⟩
    let arith (op : BinaryOp) (a b : Exp) : Exp := .binary op a b .int .dummy
    let p : Program := ⟨[⟨"larger", [m, x], .int, arith .max (.ofIdent m) (.ofIdent x), .dummy⟩]⟩
    let f : Lambda := ⟨[acc, m, x], .tuple
      [arith .plus (.ofIdent acc) (arith .times (.ofIdent w) (.ofIdent x)),
        .call "larger" [.ofIdent m, .ofIdent x] .int .dummy] .dummy, [.int, .int]⟩
    let ne : List Exp := [.lit (.int 0) .dummy, .lit (.int 0) .dummy]
    let env := (Env.empty.extend w.name (.int 10)).extend xs.name (.intArray [3, 1, 7])
    let env' := env.extend ys.name (.intArray [3, 1])
    let scan : Exp := .soac (.scan f ne) [.ofIdent xs] [] .dummy
    let reduce (x : Ident) : Exp := .soac (.reduce f ne) [.ofIdent x] [] .dummy
    f.rets.length = ne.length
      ∧ Exp.BoundTo env [.ofIdent xs] [[.int 3, .int 1, .int 7]]
      ∧ Env.AgreeOn (f.free false ∪ Exp.freeAll false ne) env env'
      ∧ Exp.BoundTo env' [.ofIdent ys] [[.int 3, .int 1]]
      ∧ (∀ e, (p.evaluate env scan .new).1 = .error e
        ↔ (p.evaluate env (reduce xs) .new).1 = .error e)
      ∧ (p.evaluate env scan .new).1 = .ok (.tuple [.intArray [30, 40, 110], .intArray [3, 3, 7]])
      ∧ ∃ entries us, Value.tuple [.intArray [30, 40, 110], .intArray [3, 3, 7]] =
        .ofColumns entries
        ∧ entries.map (·[1]?) = us.map some
        ∧ (p.evaluate env' (reduce ys) .new).1 = .ok (.ofResults us) := by
  intro w xs ys acc m x arith p f ne env env' scan reduce
  have hvalue : (p.evaluate env scan .new).1
      = .ok (.tuple [.intArray [30, 40, 110], .intArray [3, 3, 7]]) := rfl
  have hbound : Exp.BoundTo env [.ofIdent xs] [[.int 3, .int 1, .int 7]] :=
    .cons ⟨_, _, rfl, rfl⟩ .nil
  have hprefix : Exp.BoundTo env' [.ofIdent ys] [[.int 3, .int 1]] :=
    .cons ⟨_, _, rfl, rfl⟩ .nil
  -- the prefix is bound to a name that neither the lambda nor the neutral elements use
  have hagree : Env.AgreeOn (f.free false ∪ Exp.freeAll false ne) env env' := by
    intro z hz
    have hne : z ≠ ys.name := by
      rintro rfl
      simp [f, ne, arith, w, acc, m, x, ys, Lambda.free, Exp.free, Exp.freeAll, Exp.ofIdent,
        Pattern.nameSet, Pattern.names] at hz
    exact ((Env.lookup?_extend env ys.name z _).trans (if_neg hne)).symm
  have hrets : f.rets.length = ne.length := rfl
  have hlength : ∀ a ∈ [[Value.int 3, .int 1, .int 7]], a.length = 3 := by simp
  obtain ⟨herrors, hentries⟩ := Program.evaluate_scan p hrets hbound hlength nofun []
    [] .dummy .dummy .new
  obtain ⟨entries, heq, -, -, hreductions⟩ := hentries _ hvalue
  obtain ⟨us, hus, hreduce⟩ := hreductions 2 (by decide) (by decide) env' _ hagree hprefix
  exact ⟨hrets, hbound, hagree, hprefix, herrors, hvalue, entries, us, heq, hus, hreduce⟩

end ArrayFusion
