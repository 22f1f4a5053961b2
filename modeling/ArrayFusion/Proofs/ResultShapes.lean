import ArrayFusion.Proofs.Classifying
import ArrayFusion.Proofs.Prefixes
import ArrayFusion.Proofs.Sessions

/-!
# The number and the shape of results

The arity of a stage is read off its syntax, and its value is built while the rows are gone through.
The two agree: a combinator that has a value has as many results as its stage has by its arity.  The
results of a map and of a scan are as long as the arguments, and those of a filter are the arguments
at the positions where the predicate holds (`Stage.ResultsFit`).  Only a fold needs a condition,
because its first accumulators are the neutral elements and the later ones are results of its lambda
(`Combinator.Balanced`).

Each kind of combinator has its own loop over the rows, so there is a lemma for each, and
`Stage.resultsFit_of_yields` puts them together.
-/

namespace ArrayFusion

open Eval (Yields Uniform)

/-- The lambda of a fold declares as many results as there are neutral elements. -/
def Combinator.Balanced (op : Combinator) : Prop :=
  op.kind = .map ∨ op.kind = .filter ∨ op.element.rets.length = op.neutral.length

namespace Stage

/-- The results have the shape that the stage gives them if its operands are the arrays `inputs`,
all of them of length `n`. -/
structure ResultsFit (g : Stage) (inputs : List (List Value)) (n : Nat) (us : List Value) :
    Prop where
  arity : us.length = g.arity
  /-- A map and a scan have a member for each position. -/
  full : g.kind = .map ∨ g.kind = .scan → ∀ u ∈ us, ∃ vs, u = .array vs ∧ vs.length = n
  /-- A filter keeps the same positions of all its arguments, in their order. -/
  kept : g.kind = .filter → ∃ ps : List Nat, ps.Pairwise (· < ·) ∧ (∀ i ∈ ps, i < n)
    ∧ List.Forall₂ (fun u rows => ∃ vs, u = .array vs ∧ vs.length = ps.length
      ∧ vs.map some = ps.map (rows[·]?)) us inputs

section

variable {g : Stage} {inputs : List (List Value)} {n : Nat} {us : List Value}

theorem ResultsFit.of_fold (hkind : g.kind = .reduce ∨ g.kind = .redomap)
    (harity : us.length = g.arity) : g.ResultsFit inputs n us where
  arity := harity
  full := fun h => by rcases hkind with hk | hk <;> rw [hk] at h <;> exact absurd h (by decide)
  kept := fun h => by rcases hkind with hk | hk <;> rw [hk] at h <;> exact absurd h (by decide)

theorem ResultsFit.of_full (hkind : g.kind = .map ∨ g.kind = .scan) (harity : us.length = g.arity)
    (hfull : ∀ u ∈ us, ∃ vs, u = .array vs ∧ vs.length = n) : g.ResultsFit inputs n us where
  arity := harity
  full := fun _ => hfull
  kept := fun h => by rcases hkind with hk | hk <;> rw [hk] at h <;> exact absurd h (by decide)

/-- The results are the arguments at some positions. -/
theorem ResultsFit.of_kept (hkind : g.kind = .filter) (harity : us.length = g.arity) {ps : List Nat}
    (hsorted : ps.Pairwise (· < ·)) (hlength : ∀ rows ∈ inputs, rows.length = n)
    (hbound : ∀ i ∈ ps, i < n) (hus : us = inputs.map fun rows => .array (ps.map (rows[·]!))) :
    g.ResultsFit inputs n us where
  arity := harity
  full := fun h => by rw [hkind] at h; exact absurd h (by decide)
  kept := fun _ => by
    refine ⟨ps, hsorted, hbound, ?_⟩
    rw [hus, List.forall₂_map_left_iff, List.forall₂_same]
    intro rows hrows
    refine ⟨_, rfl, List.length_map _, ?_⟩
    rw [List.map_map]
    refine List.map_congr_left fun i hi => ?_
    have hlt : i < rows.length := by
      rw [hlength rows hrows]
      exact hbound i hi
    rw [Function.comp_apply, getElem!_pos _ i hlt, List.getElem?_eq_getElem hlt]

end

section

variable {w : String → Nat} {call : Callee} {env : Env} (hu : ∀ fn args, Uniform (call fn args))
    {g : Stage}
  {f : Lambda} {ne : List Exp} {v : Value} {k : Nat} (h : Yields w (g.toExp.eval call env) v k)
include hu h

/-! ## Loops -/

theorem resultsFit_map (hop : g.op = .map f) :
    ∃ n us, Aligned w call env g.operands n ∧ v = .ofResults us
    ∧ us.length = f.rets.length ∧ ∀ u ∈ us, ∃ vs, u = .array vs ∧ vs.length = n := by
  obtain ⟨n, hal, -, rfl, -⟩ := (yields_map_iff hu hop).1 h
  refine ⟨n, _, hal, rfl, ?_, ?_⟩
  · rw [List.length_map, List.length_range]
  · rw [List.forall_mem_map]
    intro j _
    exact ⟨_, rfl, by rw [List.length_map, List.length_range]⟩

/-- A scan goes through the rows as one over arrays that are there already. -/
theorem resultsFit_scan (hop : g.op = .scan f ne) (hrets : f.rets.length = ne.length) :
    ∃ n us, Aligned w call env g.operands n ∧ v = .ofResults us ∧ us.length = ne.length
      ∧ ∀ u ∈ us, ∃ vs, u = .array vs ∧ vs.length = n := by
  have hloop : ∀ start rows, Uniform (Eval.scan (fun acc row =>
      f.apply call env (acc ++ row)) start rows
      >>= fun accs => pure (Value.ofColumns (columns start.length accs))) := by
    intro start rows
    exact (Uniform.scan (fun acc row => f.apply_uniform hu env (acc ++ row)) rows start).bind
      fun _ => .pure _
  have hrows : Uniform (Eval.rows (g.operands.mapM (Operand.array call env))) :=
    rows_uniform hu g.operands
  rw [eval_toExp, hop, Combinator.eval] at h
  obtain ⟨start, i, j, hstart, hj, -⟩ :=
    ((Exp.evalAll_uniform hu env ne).yields_bind_iff fun start => hrows.bind (hloop start)).1 h
  -- the rows are fixed, so the scan can be read as one over given rows
  obtain ⟨rows, i', j', hi', hj', -⟩ := (hrows.yields_bind_iff (hloop start)).1 hj
  obtain ⟨n, hal, rfl, -⟩ := (yields_rows_iff hu).1 hi'
  have hgiven : Yields w ((Combinator.scan f ne).eval call env g.operands.length
      (pure ((List.range n).map (cells call env g.operands)))) v (i + (0 + j')) := by
    rw [Combinator.eval]
    exact hstart.bind ((Yields.pure _).bind hj')
  obtain ⟨d, hd, -⟩ := hgiven
  obtain ⟨entries, rfl, hwidth, hlength, -⟩ :=
    Combinator.eval_scan_eq_ok hrets (congrArg Prod.fst (hd []))
  rw [List.length_map, List.length_range] at hlength
  refine ⟨n, entries.map .array, hal, rfl, by rw [List.length_map, hwidth], ?_⟩
  rw [List.forall_mem_map]
  exact fun c hc => ⟨c, rfl, hlength c hc⟩

theorem resultsFit_redomap {outer : Lambda} (hop : g.op = .redomap outer f ne)
    (hrets : f.rets.length = ne.length) :
    ∃ n us, Aligned w call env g.operands n ∧ v = .ofResults us ∧ us.length = ne.length := by
  obtain ⟨n, start, us, i, j, hal, hstart, hfold, rfl, -⟩ := (yields_redomap_iff hu hop).1 h
  -- the invariant of the fold: there are as many accumulators as neutral elements
  obtain ⟨hlength, -⟩ := hfold.foldlM_of (S := fun us : List Value => us.length = ne.length)
    (fun _ _ => f.apply_uniform hu env _)
    (fun i _ us _ t k ht => ⟨(Lambda.length_of_yields hu ht).trans hrets, k, ht⟩)
    (Exp.length_of_yields_evalAll hu hstart)
  exact ⟨n, us, hal, rfl, hlength⟩

/-- A reduction is a redomap whose outer lambda makes no difference. -/
theorem resultsFit_reduce (hop : g.op = .reduce f ne) (hrets : f.rets.length = ne.length) :
    ∃ n us, Aligned w call env g.operands n ∧ v = .ofResults us ∧ us.length = ne.length := by
  have heval : g.toExp.eval call env = (Stage.mk
      (.redomap f f ne) g.operands g.certs g.span).toExp.eval call env := by
    rw [eval_toExp, eval_toExp, hop]
    rfl
  rw [heval] at h
  exact resultsFit_redomap (g := ⟨.redomap f f ne, g.operands, g.certs, g.span⟩) hu h rfl hrets

theorem resultsFit_filter (hop : g.op = .filter f) :
    ∃ n us, Aligned w call env g.operands n ∧ v = .ofResults us
    ∧ us.length = g.operands.length ∧ ∃ ps : List Nat, ps.Pairwise (· < ·) ∧ (∀ i ∈ ps, i < n)
      ∧ us = g.operands.map fun a => .array (ps.map (a.cell call env)) := by
  obtain ⟨n, hal, -, rfl, -⟩ := (yields_filter_iff hu hop).1 h
  refine ⟨n, _, hal, rfl, List.length_map _, _, List.pairwise_lt_range.filter _, ?_, rfl⟩
  intro i hi
  exact List.mem_range.1 (List.mem_filter.1 hi).1

/-! ## All kinds -/

/-- A stage that yields a value yields results of the shape that it gives them. -/
theorem resultsFit_of_yields (hbalanced : g.op.Balanced) : ∃ n us, Aligned w call env g.operands n
    ∧ v = .ofResults us ∧ g.ResultsFit (g.operands.map fun a => (a.array call env).value) n us := by
  have harity {m : Nat} {op : Combinator} (hop : g.op = op) (hm : m = op.arity g.operands.length) :
      m = g.arity := by
    rw [Stage.arity, hop, hm]
  -- the statement speaks of the kind of the stage only
  have hkind {op : Combinator} (hop : g.op = op) : g.kind = op.kind := congrArg Combinator.kind hop
  cases hop : g.op with
  | map f =>
    obtain ⟨n, us, hal, hv, hlength, hfull⟩ := resultsFit_map hu h hop
    exact ⟨n, us, hal, hv, .of_full (.inl (hkind hop)) (harity hop hlength) hfull⟩
  | scan f ne =>
    rw [hop] at hbalanced
    obtain ⟨n, us, hal, hv, hlength, hfull⟩ := resultsFit_scan hu h hop
      (hbalanced.elim nofun fun h => h.elim nofun id)
    exact ⟨n, us, hal, hv, .of_full (.inr (hkind hop)) (harity hop hlength) hfull⟩
  | reduce f ne =>
    rw [hop] at hbalanced
    obtain ⟨n, us, hal, hv, hlength⟩ := resultsFit_reduce hu h hop
      (hbalanced.elim nofun fun h => h.elim nofun id)
    exact ⟨n, us, hal, hv, .of_fold (.inl (hkind hop)) (harity hop hlength)⟩
  | redomap outer f ne =>
    rw [hop] at hbalanced
    obtain ⟨n, us, hal, hv, hlength⟩ := resultsFit_redomap hu h hop
      (hbalanced.elim nofun fun h => h.elim nofun id)
    exact ⟨n, us, hal, hv, .of_fold (.inr (hkind hop)) (harity hop hlength)⟩
  -- the common length is that of the positions that are kept
  | filter f =>
    obtain ⟨n, us, hal, hv, hlength, ps, hsorted, hbound, rfl⟩ := resultsFit_filter hu h hop
    refine ⟨n, _, hal, hv, .of_kept (hkind hop) (harity hop hlength) hsorted ?_ hbound ?_⟩
    · rw [List.forall_mem_map]
      exact hal.length
    · rw [List.map_map]
      rfl

end

end Stage

/-! ## Evaluations -/

/-- The arrays of operands that are aligned are what the operands are evaluated to. -/
theorem Program.evaluate_operand {p : Program} {env : Env} {t : Session} {w : String → Nat}
    {as : List Operand} {n : Nat} (h : Aligned w (p.callWithin (maxDepth - t.depth)) env as n)
    (s : Span) {a : Operand} (ha : a ∈ as) : (p.evaluate env (a.toExp s) t).1
      = .ok (.array (a.array (p.callWithin (maxDepth - t.depth)) env).value) := by
  have hu := p.callWithin_uniform (maxDepth - t.depth)
  obtain ⟨v, i, j, hv, harray, -⟩ :=
    ((Exp.eval_uniform hu env _).yields_bind_iff fun _ => .lift _).1 (h.succeeds a ha)
  obtain ⟨hvalue, -⟩ := Eval.yields_lift_iff.1 harray
  obtain rfl := Value.toArray_eq_ok.1 hvalue
  rw [Program.evaluate_eq_ok w]
  exact ⟨i, by rwa [Operand.eval_toExp]⟩

/-- A combinator that evaluates to a value has as many results as its stage says.  Its operands are
arrays of one length, 0 if there are none.  The results of a map or a scan are arrays of that
length; those of a filter are what the operands have at some of the positions, the same for all of
them and in increasing order. -/
theorem Program.evaluate_resultsFit (p : Program) {env : Env} {e : Exp} {g : Stage}
    (hg : Stage.ofExp? e = .ok (some g)) (hbalanced : g.op.Balanced) {t : Session} {v : Value}
    (hv : (p.evaluate env e t).1 = .ok v) :
    ∃ (us : List Value) (inputs : List (List Value)) (n : Nat),
      v.results g.arity = .ok us
        ∧ List.Forall₂ (fun a rows => (p.evaluate env (a.toExp g.span) t).1 = .ok (.array rows))
          g.operands inputs
        ∧ (∀ rows ∈ inputs, rows.length = n) ∧ (inputs = [] → n = 0) ∧
          g.ResultsFit inputs n us := by
  obtain ⟨k, hk⟩ := (Program.evaluate_eq_ok 0).1 hv
  rw [← Stage.eval_ofExp? hg] at hk
  obtain ⟨n, us, hal, rfl, hfit⟩ :=
    Stage.resultsFit_of_yields (p.callWithin_uniform (maxDepth - t.depth)) hk hbalanced
  refine ⟨us, _, n, ?_, ?_, ?_, ?_, hfit⟩
  · rw [← hfit.arity]
    exact Value.results_ofResults us
  · rw [List.forall₂_map_right_iff, List.forall₂_same]
    exact fun a ha => Program.evaluate_operand hal g.span ha
  · rw [List.forall_mem_map]
    exact hal.length
  · intro hnil
    exact hal.nil (List.map_eq_nil_iff.1 hnil)

/-- A filter over an array and a range keeps the numbers above 1 and their positions. -/
theorem Program.evaluate_resultsFit_largeNumbers :
    let xs : Ident := ⟨⟨"xs", 0⟩, .array .int⟩
    let x : Ident := ⟨⟨"x", 1⟩, .int⟩
    let i : Ident := ⟨⟨"i", 2⟩, .int⟩
    let f : Lambda := ⟨[x, i], .binary .greater (.ofIdent x) (.lit (.int 1) .dummy) .bool .dummy,
      [.bool]⟩
    let e : Exp := .soac (.filter f) [.ofIdent xs, .unary .iota (.lit (.int 4) .dummy) .dummy]
      [] .dummy
    let g : Stage := ⟨.filter f, [.whole xs, .range (.lit (.int 4) .dummy)], [], .dummy⟩
    let env := Env.empty.extend xs.name (.intArray [3, 1, 7, 1])
    let v : Value := .tuple [.intArray [3, 7], .intArray [0, 2]]
    Stage.ofExp? e = .ok (some g) ∧ g.op.Balanced ∧ (Program.evaluate ⟨[]⟩ env e .new).1 = .ok v
      ∧ ∃ (us : List Value) (inputs : List (List Value)) (n : Nat), v.results 2 = .ok us
        ∧ (∀ rows ∈ inputs, rows.length = n) ∧ g.ResultsFit inputs n us := by
  intro xs x i f e g env v
  have hg : Stage.ofExp? e = .ok (some g) := rfl
  have hbalanced : g.op.Balanced := .inr (.inl rfl)
  have hv : (Program.evaluate ⟨[]⟩ env e .new).1 = .ok v := rfl
  obtain ⟨us, inputs, n, hus, -, hlength, -, hfit⟩ :=
    Program.evaluate_resultsFit ⟨[]⟩ hg hbalanced hv
  exact ⟨hg, hbalanced, hv, us, inputs, n, hus, hlength, hfit⟩

end ArrayFusion
