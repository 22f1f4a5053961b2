import ArrayFusion.Proofs.Freshening
import ArrayFusion.Proofs.Sessions
import ArrayFusion.Proofs.StageCopies
import ArrayFusion.Proofs.Transposition

/-!
# Transpositions pulled out of a kernel

A nest maps a lambda over the rows of its arguments, so a map of a nest over tables applies that
lambda at every pair of positions (`Nest.yields_map_iff`).  Over the transposed tables it does the
same with the positions exchanged.  This is why the map of a nest over transposed arrays may read
the arrays themselves, if its results are transposed afterwards.

The two differ where there are no pairs of positions at all.  Transposed arrays without columns are
empty, and a map over them has no rows whatever the numbers of their own rows are; but a map over
the arrays themselves pairs up those rows.  So the kernel that reads the arrays directly has a value
just if all of them have equally many rows (`Kernel.evaluate_pullTransposes`).
-/

namespace ArrayFusion

open Eval (Yields Uniform Succeeds)

variable {w : String → Nat} {call : Callee} {env : Env}

/-! ## Arrays that are read -/

theorem Eval.lift_bind_lift {α β τ : Type} (x : Except EvalError α) (f : α → Except EvalError β) :
    (Eval.lift x >>= fun a => (Eval.lift (f a) : Evaluation τ β)) = Eval.lift (x >>= f) := by
  cases x <;> rfl

namespace Operand

theorem array_whole (x : Ident) : (whole x).array call env =
    Eval.lift (env.get x.name >>= Value.toArray) := by
  rw [array, toExp, Exp.eval, Eval.lift_bind_lift]

theorem array_transposed (x : Ident) : (transposed x).array call env
    = Eval.lift (env.get x.name >>= Value.transpose >>= Value.toArray) := by
  rw [array, toExp, Exp.eval, Exp.eval]
  change (Eval.lift (env.get x.name) >>= fun v => Eval.lift v.transpose) >>= _ = _
  rw [Eval.lift_bind_lift, Eval.lift_bind_lift]

/-- An identifier yields an array if it is bound to one. -/
theorem yields_whole_iff {x : Ident} {vs : List Value} {k : Nat} :
    Yields w ((whole x).array call env) vs k ↔ env.get x.name = .ok (.array vs) ∧ k = 0 := by
  rw [array_whole, Eval.yields_lift_iff, Except.bind_eq_ok]
  simp only [Value.toArray_eq_ok, exists_eq_right]

/-- A transposed identifier yields the transpose of what it is bound to, if that is a matrix. -/
theorem yields_transposed_iff {x : Ident} {vs : List Value} {k : Nat} :
    Yields w ((transposed x).array call env) vs k
      ↔ (∃ v, env.get x.name = .ok v ∧ v.transpose = .ok (.array vs)) ∧ k = 0 := by
  rw [array_transposed, Eval.yields_lift_iff, Except.bind_eq_ok]
  simp only [Value.toArray_eq_ok, exists_eq_right, Except.bind_eq_ok]

end Operand

section

variable {as : List Operand} {cs : List (List Value)}

/-- Operands that yield arrays are aligned if these are of one length. -/
theorem aligned_iff (h : List.Forall₂ (fun a c => Yields w (a.array call env) c 0) as cs)
    {n : Nat} : Aligned w call env as n ↔ (∀ c ∈ cs, c.length = n) ∧ (cs = [] → n = 0) := by
  have hsucceeds : ∀ a ∈ as, Succeeds w (a.array call env) := fun a ha => by
    obtain ⟨c, -, hc⟩ := Recipe.exists_of_forall₂ h.flip ha
    exact (show Yields w _ c 0 from hc).succeeds
  have hlength : (∀ a ∈ as, (a.array call env).value.length = n) ↔ ∀ c ∈ cs, c.length = n := by
    clear hsucceeds
    induction h with
    | nil => exact ⟨nofun, nofun⟩
    | cons ha _ ih => rw [List.forall_mem_cons, List.forall_mem_cons, ih, ← ha.eq_value.1]
  have hnil : as = [] ↔ cs = [] := by
    rw [← List.length_eq_zero_iff, h.length_eq, List.length_eq_zero_iff]
  exact ⟨fun ha => ⟨hlength.1 ha.length, fun hcs => ha.nil (hnil.2 hcs)⟩,
    fun hc => ⟨hsucceeds, hlength.2 hc.1, fun has => hc.2 (hnil.1 has)⟩⟩

/-- A row of operands that yield arrays is read off these. -/
theorem cells_eq (h : List.Forall₂ (fun a c => Yields w (a.array call env) c 0) as cs) (i : Nat) :
    cells call env as i = cs.map fun vs => vs[i]! := by
  induction h with
  | nil => rfl
  | cons ha _ ih =>
    rw [cells, List.map_cons, List.map_cons, Operand.cell, ← ha.eq_value.1]
    exact congrArg _ ih

end

theorem Env.forall₂_get {xs : List Ident} {vs : List Value}
    (h : (Pattern.names xs).map env.lookup? = vs.map some) :
    List.Forall₂ (fun (x : Ident) v => env.get x.name = .ok v) xs vs := by
  induction xs generalizing vs with
  | nil =>
    cases vs with
    | nil => exact .nil
    | cons v vs => cases h
  | cons x xs ih =>
    cases vs with
    | nil => cases h
    | cons v vs =>
      obtain ⟨hx, hxs⟩ := List.cons.inj h
      exact .cons (by rw [Env.get, hx]) (ih hxs)

/-- Identifiers that are read as a whole, in an environment that has arrays for them. -/
theorem Operand.yields_whole {xs : List Ident} {cs : List (List Value)}
    (h : (Pattern.names xs).map env.lookup? = (cs.map Value.array).map some) :
    List.Forall₂ (fun (a : Operand) c => Yields w (a.array call env) c 0) (xs.map .whole) cs := by
  rw [List.forall₂_map_left_iff]
  exact (List.forall₂_map_right_iff.1 (Env.forall₂_get h)).imp fun x c hx =>
    yields_whole_iff.2 ⟨hx, rfl⟩

/-! ## Maps by positions -/

/-- What a lambda computes at each of `m` positions, one array for each of its results.  The
arguments are given as functions of the position. -/
def Lambda.arrays (call : Callee) (env : Env) (f : Lambda) (cs : List (Nat → Value)) (m : Nat) :
    List Value :=
  (List.range f.rets.length).map fun l => .array ((List.range m).map fun i =>
    (Eval.value (f.apply call env (cs.map fun c => c i)))[l]!)

theorem Lambda.length_arrays (f : Lambda) (cs : List (Nat → Value)) (m : Nat) :
    (f.arrays call env cs m).length = f.rets.length := by
  rw [arrays, List.length_map, List.length_range]

/-- A map over arrays of one length applies its lambda at each position. -/
theorem Stage.yields_map_arrays_iff (hu : ∀ fn args, Uniform (call fn args)) {g : Stage}
    {f : Lambda} (hop : g.op = .map f) {cs : List (Nat → Value)} (hne : cs ≠ []) {m : Nat}
    (hread : List.Forall₂ (fun (a : Operand) c => Yields w (a.array call env) c 0) g.operands
      (cs.map fun c => (List.range m).map c)) {v : Value} :
    (∃ k, Yields w (g.toExp.eval call env) v k)
      ↔ (∀ i < m, Succeeds w (f.apply call env (cs.map fun c => c i)))
        ∧ v = .ofResults (f.arrays call env cs m) := by
  -- arrays of one length have no other common length
  have haligned : ∀ {n}, Aligned w call env g.operands n ↔ n = m := fun {n} => by
    rw [aligned_iff hread, List.forall_mem_map, List.map_eq_nil_iff]
    obtain ⟨c, cs, rfl⟩ := List.exists_cons_of_ne_nil hne
    constructor
    · rintro ⟨hlen, -⟩
      have hc := hlen c List.mem_cons_self
      rwa [List.length_map, List.length_range, eq_comm] at hc
    · rintro rfl
      exact ⟨fun c _ => by rw [List.length_map, List.length_range], nofun⟩
  have hcells : ∀ i ∈ List.range m, cells call env g.operands i = cs.map fun c => c i :=
      fun i hi => by
    rw [cells_eq hread, List.map_map]
    refine List.map_congr_left fun c _ => ?_
    rw [Function.comp_apply, getElem!_pos _ i (by simpa using hi), List.getElem_map,
      List.getElem_range]
  have hvalue : Value.ofResults ((List.range f.rets.length).map fun l =>
        .array ((List.range m).map fun i =>
      (Eval.value (f.apply call env (cells call env g.operands i)))[l]!))
        = .ofResults (f.arrays call env cs m) := by
    refine congrArg _ (List.map_congr_left fun l _ =>
      congrArg _ (List.map_congr_left fun i hi => ?_))
    rw [hcells i hi]
  constructor
  · -- a run fixes its own length, and the length of the arrays is the only one it can be
    rintro ⟨k, hk⟩
    obtain ⟨n, hn, hs, hv, -⟩ := (yields_map_iff hu hop).1 hk
    obtain rfl := haligned.1 hn
    refine ⟨fun i hi => ?_, hv.trans hvalue⟩
    rw [← hcells i (List.mem_range.2 hi)]
    exact hs i (List.mem_range.2 hi)
  · rintro ⟨hs, hv⟩
    refine ⟨_, (yields_map_iff hu hop).2 ⟨m, haligned.2 rfl,
      fun i hi => ?_, hv.trans hvalue.symm, rfl⟩⟩
    rw [hcells i hi]
    exact hs i (List.mem_range.1 hi)

/-! ## Nests -/

/-- Uses of identifiers yield their values. -/
theorem Exp.yields_evalAll_uses {xs : List Ident} {es : List Exp} {vs : List Value}
    (huses : List.Forall₂ (fun x e => ∃ y s, e = Exp.var y s ∧ y.name = x.name) xs es)
    (h : List.Forall₂ (fun (x : Ident) v => env.get x.name = .ok v) xs vs) :
    Yields w (Exp.evalAll call env es) vs 0 := by
  induction huses generalizing vs with
  | nil =>
    cases h
    exact .pure _
  | cons he _ ih =>
    obtain ⟨y, s, rfl, hy⟩ := he
    cases h with
    | cons hv hvs =>
      rw [← hy] at hv
      exact (Yields.lift hv).bind (f := fun v => Exp.evalAll call env _ >>= fun vs =>
        pure (v :: vs)) (ih hvs).bind_pure

/-- An expression that just returns identifiers yields their values as results. -/
theorem Exp.yields_of_returns {xs : Pattern} {e : Exp} {vs : List Value} (h : e.returns xs = true)
    (hvs : List.Forall₂ (fun (x : Ident) v => env.get x.name = .ok v) xs vs) :
    Yields w (e.eval call env) (.ofResults vs) 0 := by
  unfold Exp.returns at h
  split at h
  · -- one result is the use of one name, any other number is a tuple of uses
    rename_i x
    obtain ⟨v, rfl⟩ := List.length_eq_one_iff.1 hvs.length_eq.symm
    have huses : Exp.areUsesOf [x] [e] = true := by simpa [Exp.areUsesOf] using h
    obtain ⟨y, s, rfl, hy⟩ := List.forall₂_cons.1 (Exp.forall₂_of_areUsesOf huses) |>.1
    refine .lift ?_
    rw [hy]
    exact (List.forall₂_cons.1 hvs).1
  · rename_i es _ hne
    have htuple : Value.ofResults vs = .tuple vs := by
      rcases vs with _ | ⟨v, _ | ⟨v', vs⟩⟩
      · rfl
      · obtain ⟨x, hx⟩ := List.length_eq_one_iff.1 hvs.length_eq
        exact absurd hx (hne x)
      · rfl
    rw [htuple]
    exact (Exp.yields_evalAll_uses (Exp.forall₂_of_areUsesOf h) hvs).bind_pure
  · cases h

theorem Exp.areUsesOf_ofIdent (xs : List Ident) : Exp.areUsesOf xs (xs.map .ofIdent) = true := by
  induction xs with
  | nil => rfl
  | cons x xs ih => simpa [areUsesOf, isUseOf, ofIdent] using ih

theorem Exp.returns_results (xs : List Ident) :
    (Exp.results (xs.map .ofIdent)).returns xs = true := by
  rcases xs with _ | ⟨x, _ | ⟨y, xs⟩⟩
  · rfl
  · exact beq_self_eq_true x.name
  · exact areUsesOf_ofIdent (x :: y :: xs)

/-- A combinator over uses of identifiers is a stage over these. -/
theorem Exp.eval_soac_uses {op : Combinator} {xs : List Ident} {args : List Exp}
    (h : Exp.areUsesOf xs args = true) (certs : Certificates) (s : Span) :
    (Exp.soac op args certs s).eval call env
      = (Stage.mk op (xs.map .whole) certs s).toExp.eval call env := by
  have hsame : List.Forall₂ (fun e e' => e'.eval call env = e.eval call env)
      ((xs.map Operand.whole).map (·.toExp s)) args := by
    rw [List.map_map, List.forall₂_map_left_iff]
    refine (Exp.forall₂_of_areUsesOf h).imp fun x e he => ?_
    obtain ⟨y, s', rfl, hy⟩ := he
    rw [Function.comp_apply, Operand.toExp, Exp.eval, Exp.eval, hy]
  rw [Stage.toExp, Exp.eval, Exp.eval, Exp.evalArrays_eq hsame, hsame.length_eq]

/-- A lambda does not notice the names around it that it does not use. -/
theorem Lambda.apply_extendMany {f : Lambda} {xs : List Ident} {vs : List Value}
    (hlen : (Pattern.names xs).length = vs.length) (h : ∀ y ∈ f.freeVars, y.name ∉ Pattern.names xs) :
    f.apply call (env.extendMany ((Pattern.names xs).zip vs)) = f.apply call env := by
  refine f.apply_congr call fun x hx => Env.lookup?_extendMany_of_notMem fun hmem => ?_
  rw [Env.map_fst_zip hlen] at hmem
  obtain ⟨y, hy, rfl⟩ := List.mem_map.1 (f.mem_freeVars.2 (f.free_subset hx))
  exact h y hy hmem

/-- The outer and the inner lambda of a nest declare as many results as are bound inside of it, and
what it binds is distinct. -/
structure Nest.Regular (n : Nest) : Prop where
  rows : (Pattern.names n.rows).Nodup
  names : n.results.names.Nodup
  results : n.results.length = n.inner.rets.length
  rets : n.rets.length = n.inner.rets.length

namespace Nest

variable {f : Lambda} {n : Nest}

/-- A nest applies its inner lambda at each position of its arguments. -/
theorem yields_apply_iff (hu : ∀ fn args, Uniform (call fn args)) (hn : ofLambda? f = some n)
    (hreg : n.Regular) {cs : List (Nat → Value)} (hlen : cs.length = n.rows.length) (hne : cs ≠ [])
    {m : Nat} {vs : List Value} :
    (∃ k, Yields w (f.apply call env (cs.map fun c => .array ((List.range m).map c))) vs k)
      ↔ (∀ i < m, Succeeds w (n.inner.apply call env (cs.map fun c => c i)))
        ∧ vs = n.inner.arrays call env cs m := by
  obtain ⟨hparams, hrets, args, returned, span, hbody, huses, hreturned, hfree⟩ :=
    ofLambda?_eq_some hn
  let rows := cs.map fun c => (List.range m).map c
  have hargs : (cs.map fun c => Value.array ((List.range m).map c)) = rows.map .array := by
    rw [List.map_map]
    rfl
  have hrows : (Pattern.names n.rows).length = (rows.map Value.array).length := by
    rw [Pattern.length_names, List.length_map, List.length_map, hlen]
  let inside := env.extendMany ((Pattern.names n.rows).zip (rows.map .array))
  let g : Stage := ⟨.map n.inner, n.rows.map .whole, n.certs, n.span⟩
  have hinner : n.inner.apply call inside = n.inner.apply call env :=
    Lambda.apply_extendMany hrows hfree
  have heval : (Exp.soac (.map n.inner) args n.certs n.span).eval call inside
      = g.toExp.eval call inside := Exp.eval_soac_uses huses n.certs n.span
  have hmap : ∀ v, (∃ k, Yields w (g.toExp.eval call inside) v k)
      ↔ (∀ i < m, Succeeds w (n.inner.apply call env (cs.map fun c => c i)))
        ∧ v = .ofResults (n.inner.arrays call env cs m) := fun v => by
    rw [Stage.yields_map_arrays_iff hu rfl hne
      (Operand.yields_whole (Env.map_lookup?_extendMany_zip hreg.rows hrows)), Lambda.arrays,
        hinner, Lambda.arrays]
  have hresults : ∀ {t : Nat}, t = n.inner.rets.length →
      (Value.ofResults (n.inner.arrays call env cs m)).results t =
        .ok (n.inner.arrays call env cs m) := by
    rintro t rfl
    rw [← n.inner.length_arrays cs m]
    exact Value.results_ofResults _
  -- the body returns what the inner combinator was bound to
  have hreturn : Yields w (returned.eval call (inside.extendMany
      (n.results.names.zip (n.inner.arrays call env cs m))))
        (.ofResults (n.inner.arrays call env cs m)) 0 :=
    Exp.yields_of_returns hreturned (Env.forall₂_get (Env.map_lookup?_extendMany_zip hreg.names (by
      rw [Pattern.length_names, hreg.results, Lambda.length_arrays])))
  rw [hargs]
  constructor
  · -- the body has one binding: what it binds succeeded, and what it returns is that
    rintro ⟨k, hk⟩
    obtain ⟨-, v, hv, hvs⟩ := (Lambda.yields_apply_iff hu).1 hk
    rw [hparams, hbody] at hv
    obtain ⟨v₁, i, vs₁, j, hv₁, hvs₁, hret⟩ := yields_letIn hu hv
    rw [heval] at hv₁
    obtain ⟨hs, rfl⟩ := (hmap v₁).1 ⟨i, hv₁⟩
    obtain rfl := Except.ok.inj (hvs₁.symm.trans (hresults hreg.results))
    obtain ⟨rfl, -⟩ := hret.unique hreturn
    exact ⟨hs, Except.ok.inj (hvs.symm.trans (hresults (hrets ▸ hreg.rets)))⟩
  · rintro ⟨hs, rfl⟩
    obtain ⟨k, hk⟩ := (hmap _).2 ⟨hs, rfl⟩
    rw [← heval] at hk
    refine ⟨k + 0, (Lambda.yields_apply_iff hu).2 ⟨?_, _, ?_, hresults (hrets ▸ hreg.rets)⟩⟩
    · rw [hparams, List.length_map, List.length_map, hlen]
    · rw [hparams, hbody]
      exact hk.letIn (hresults hreg.results) hreturn

/-- What the inner lambda of a nest computes at each pair of positions of some tables, one table for
each result. -/
def tables (call : Callee) (env : Env) (n : Nest) (cs : List (Nat → Nat → Value))
    (height width : Nat) : List Value :=
  (List.range n.inner.rets.length).map fun l => .table height width fun i j =>
    (Eval.value (n.inner.apply call env (cs.map fun c => c i j)))[l]!

/-- A map of a nest over tables applies the inner lambda at each pair of positions. -/
theorem yields_map_iff (hu : ∀ fn args, Uniform (call fn args)) {g : Stage} (hop : g.op = .map f)
    (hn : ofLambda? f = some n) (hreg : n.Regular) {cs : List (Nat → Nat → Value)}
    (hlen : cs.length = n.rows.length) (hne : cs ≠ []) {height width : Nat}
    (hread : List.Forall₂ (fun (a : Operand) c => Yields w (a.array call env) c 0) g.operands
      (cs.map fun c => (List.range height).map fun i => .array ((List.range width).map (c i)))) {v :
    Value} :
    (∃ k, Yields w (g.toExp.eval call env) v k)
      ↔ (∀ i < height, ∀ j < width, Succeeds w (n.inner.apply call env (cs.map fun c => c i j)))
        ∧ v = .ofResults (n.tables call env cs height width) := by
  let rows := cs.map fun c i => Value.array ((List.range width).map (c i))
  have hread' : List.Forall₂ (fun (a : Operand) c => Yields w (a.array call env) c 0) g.operands
      (rows.map fun c => (List.range height).map c) := by
    rw [List.map_map]
    exact hread
  have hne' : rows ≠ [] := by simpa [rows] using hne
  -- one row of the outer map is one run of the nest
  have hrow : ∀ i vs, (∃ k, Yields w (f.apply call env (rows.map fun c => c i)) vs k)
      ↔ (∀ j < width, Succeeds w (n.inner.apply call env (cs.map fun c => c i j)))
        ∧ vs = n.inner.arrays call env (cs.map fun c => c i) width := fun i vs => by
    have hargs : (rows.map fun c => c i)
        = (cs.map fun c => c i).map fun c => .array ((List.range width).map c) := by
      rw [List.map_map, List.map_map]
      rfl
    rw [hargs, yields_apply_iff hu hn hreg (by rw [List.length_map, hlen]) (by simpa using hne)]
    simp only [List.map_map, Function.comp_def]
  have hsucceeds : ∀ i, Succeeds w (f.apply call env (rows.map fun c => c i))
      ↔ ∀ j < width, Succeeds w (n.inner.apply call env (cs.map fun c => c i j)) := fun i =>
    ⟨fun h => ((hrow i _).1 ⟨_, h⟩).1, fun h => by
      obtain ⟨k, hk⟩ := (hrow i _).2 ⟨h, rfl⟩
      exact hk.succeeds⟩
  have hrets : f.rets.length = n.inner.rets.length := by
    rw [(ofLambda?_eq_some hn).2.1, hreg.rets]
  rw [Stage.yields_map_arrays_iff hu hop hne' hread']
  simp only [hsucceeds]
  refine and_congr_right fun hs => ?_
  -- the rows of the results, one run of the nest each
  have htables : f.arrays call env rows height = n.tables call env cs height width := by
    rw [Lambda.arrays, tables, hrets]
    refine List.map_congr_left fun l hl => congrArg Value.array (List.map_congr_left fun i hi => ?_)
    obtain ⟨k, hk⟩ := (hrow i _).2 ⟨hs i (List.mem_range.1 hi), rfl⟩
    rw [← hk.eq_value.1, Lambda.arrays, getElem!_pos _ l (by simpa using hl), List.getElem_map,
      List.getElem_range]
    simp only [List.map_map, Function.comp_def]
  rw [htables]

/-- What the inner lambda of a nest uses is free in the outer one. -/
theorem mem_free_of_inner (hn : ofLambda? f = some n) {x : Ident} (hx : x ∈ n.inner.freeVars) :
    x.name ∈ f.free true := by
  obtain ⟨ps, b, ts⟩ := f
  obtain ⟨rfl, -, args, returned, span, rfl, -, -, hfree⟩ := ofLambda?_eq_some hn
  exact ⟨.inl (.inr (.inl ((Lambda.mem_freeVars _).1 (List.mem_map_of_mem hx)))), hfree x hx⟩

/-- The nest with fresh names for its rows and its results. -/
def fresh (n : Nest) (s : NameSupply) : Nest :=
  { n with
    rows := (s.freshIdents n.rows).1
    results := ((s.freshIdents n.rows).2.freshIdents n.results).1 }

/-- As long as there are tags for them, the fresh names are distinct. -/
theorem Regular.fresh (h : n.Regular) {s : NameSupply} (hroom : (n.toLambda s).2.InRange) :
    (n.fresh s).Regular where
  rows := NameSupply.nodup_freshIdents
    (hroom.of_le ((s.freshIdents n.rows).2.count_le_freshIdents n.results))
  names := NameSupply.nodup_freshIdents hroom
  results := ((s.freshIdents n.rows).2.length_freshIdents n.results).trans h.results
  rets := h.rets

theorem count_le_toLambda (n : Nest) (s : NameSupply) : s.count ≤ (n.toLambda s).2.count :=
  Nat.le_trans (s.count_le_freshIdents n.rows)
    ((s.freshIdents n.rows).2.count_le_freshIdents n.results)

/-- The lambda that is built from a nest is a nest again, with fresh names. -/
theorem ofLambda?_toLambda {s : NameSupply} (hroom : (n.toLambda s).2.InRange)
    (hbelow : ∀ x ∈ n.inner.freeVars, x.name.tag < s.count) :
    ofLambda? (n.toLambda s).1 = some (n.fresh s) := by
  have hrows : (s.freshIdents n.rows).2.InRange :=
    hroom.of_le ((s.freshIdents n.rows).2.count_le_freshIdents n.results)
  have hfree : (n.inner.freeVars.any fun x => (n.fresh s).rows.any (·.name == x.name)) = false := by
    simp only [List.any_eq_false, List.any_eq_true, beq_iff_eq, not_exists, not_and]
    intro x hx y hy hyx
    have hle := hrows.le_of_mem_until (NameSupply.mem_until_of_freshIdents (List.mem_map_of_mem hy))
    rw [hyx] at hle
    exact absurd (hbelow x hx) (Nat.not_lt.2 hle)
  change (if Exp.areUsesOf (n.fresh s).rows ((n.fresh s).rows.map .ofIdent)
    && (Exp.results ((n.fresh s).results.map .ofIdent)).returns (n.fresh s).results
    && !(n.inner.freeVars.any fun x => (n.fresh s).rows.any (·.name == x.name)) then some
      (n.fresh s) else none) = _
  rw [Exp.areUsesOf_ofIdent, Exp.returns_results, hfree]
  rfl

end Nest

/-! ## Kernels -/

/-- The arrays that a stage reads transposed have equally many rows. -/
def Stage.Even (env : Env) (g : Stage) : Prop :=
  ∃ height, ∀ x, .transposed x ∈ g.operands → ∃ rows, env.get x.name = .ok (.array rows) ∧
  rows.length = height

/-- Arrays that can be transposed to equally many columns are tables, all of them of one shape if
they have equally many rows. -/
theorem Stage.exists_tables {g : Stage} {xs : List Ident}
    (hoperands : g.operands = xs.map .transposed) (hne : xs ≠ []) (heven : g.Even env) {width : Nat}
    (haligned : Aligned w call env g.operands width) :
    ∃ height cs, (height = 0 → width = 0)
      ∧ List.Forall₂ (fun (x : Ident) c =>
        env.get x.name = .ok (Value.table height width c)) xs cs := by
  obtain ⟨height, heven⟩ := heven
  have htable : ∀ x ∈ xs, ∃ c, (height = 0 → width = 0)
      ∧ env.get x.name = .ok (Value.table height width c) := by
    intro x hx
    have hmem : Operand.transposed x ∈ g.operands := hoperands ▸ List.mem_map_of_mem hx
    obtain ⟨⟨v, hv, hu⟩, -⟩ := Operand.yields_transposed_iff.1 (haligned.succeeds _ hmem)
    -- the transposition has as many rows as the table has columns
    obtain ⟨h, w', c, hempty, rfl⟩ := Value.exists_table_of_transpose hu
    obtain ⟨rows, hrows, hheight⟩ := heven x hmem
    have hlength := haligned.length _ hmem
    rw [Value.transpose_table hempty] at hu
    have hu' := Value.array.inj (Except.ok.inj hu)
    have hrows' := Value.array.inj (Except.ok.inj (hv.symm.trans hrows))
    rw [← hu', List.length_map, List.length_range] at hlength
    rw [← hrows', List.length_map, List.length_range] at hheight
    subst hlength hheight
    exact ⟨c, hempty, hv⟩
  obtain ⟨x, xs', rfl⟩ := List.exists_cons_of_ne_nil hne
  obtain ⟨-, hempty, -⟩ := htable x List.mem_cons_self
  obtain ⟨cs, hcs⟩ := exists_forall₂ fun x hx => (htable x hx).imp fun _ h => h.2
  exact ⟨height, cs, hempty, hcs⟩

/-- If a map of a nest over transposed arrays has results, and the arrays have equally many rows,
then the map over the arrays themselves has results that can be transposed to those. -/
theorem Nest.yields_pulled (hu : ∀ fn args, Uniform (call fn args)) {g : Stage} {f : Lambda}
    {n : Nest} {xs : List Ident} {s : NameSupply} (hop : g.op = .map f)
    (hoperands : g.operands = xs.map .transposed) (hne : xs ≠ []) (hlen : xs.length = n.rows.length)
    (hn : ofLambda? f = some n) (hreg : n.Regular) (hroom : (n.toLambda s).2.InRange)
    (hbelow : ∀ x ∈ n.inner.freeVars, x.name.tag < s.count) (heven : g.Even env) {v : Value}
    {k : Nat} (h : Yields w (g.toExp.eval call env) v k) :
    ∃ us ts k', v = .ofResults us ∧ us.length = n.inner.rets.length
      ∧ ts.length = n.inner.rets.length
      ∧ List.Forall₂ (fun (t : Value) u => t.transpose = .ok u) ts us
      ∧ Yields w ((Stage.mk (.map (n.toLambda s).1) (xs.map .whole) g.certs g.span).toExp.eval
      call env) (.ofResults ts) k' := by
  obtain ⟨width, haligned, -⟩ := (Stage.yields_map_iff hu hop).1 h
  obtain ⟨height, cs, hempty, hcs⟩ := Stage.exists_tables hoperands hne heven haligned
  have hlen' : cs.length = n.rows.length := hcs.length_eq.symm.trans hlen
  have hne' : cs ≠ [] := fun hnil => hne (List.length_eq_zero_iff.1
    (hcs.length_eq.trans (by rw [hnil]; rfl)))
  -- the transposed operand has the columns of the table as its rows
  have htransposed : List.Forall₂ (fun (a : Operand) c =>
      Yields w (a.array call env) c 0) g.operands
      ((cs.map fun c j i => c i j).map fun c => (List.range width).map fun j =>
        .array ((List.range height).map (c j))) := by
    rw [hoperands, List.map_map, List.forall₂_map_left_iff, List.forall₂_map_right_iff]
    exact hcs.imp fun x c hx => Operand.yields_transposed_iff.2
      ⟨⟨_, hx, Value.transpose_table hempty c⟩, rfl⟩
  have hwhole : List.Forall₂ (fun (a : Operand) c => Yields w (a.array call env) c 0)
      (xs.map .whole)
      (cs.map fun c => (List.range height).map fun i => .array ((List.range width).map (c i))) := by
    rw [List.forall₂_map_left_iff, List.forall₂_map_right_iff]
    exact hcs.imp fun x c hx => Operand.yields_whole_iff.2 ⟨hx, rfl⟩
  -- the old kernel runs the inner lambda at every place, so the new one does, in the other order
  obtain ⟨hs, hv⟩ := (Nest.yields_map_iff hu hop hn hreg
    (by rw [List.length_map, hlen']) (by simpa using hne')
    htransposed).1 ⟨k, h⟩
  obtain ⟨k', hk'⟩ := (Nest.yields_map_iff
    (g := ⟨.map (n.toLambda s).1, xs.map .whole, g.certs, g.span⟩) hu rfl
    (ofLambda?_toLambda hroom hbelow) (hreg.fresh hroom)
    (hlen'.trans (s.length_freshIdents n.rows).symm) hne' hwhole).2
    ⟨fun i hi j hj => by
      have hij := hs j hj i hi
      rwa [List.map_map] at hij, rfl⟩
  refine ⟨_, _, k', hv, by rw [tables, List.length_map, List.length_range],
    by rw [tables, List.length_map, List.length_range]; rfl, ?_, hk'⟩
  rw [tables, tables, List.forall₂_map_left_iff, List.forall₂_map_right_iff]
  refine List.forall₂_same.2 fun l _ => ?_
  rw [Value.transpose_table hempty]
  simp only [List.map_map, Function.comp_def]
  rfl

/-- The transforms of some outputs bind the targets to the transposed values. -/
theorem Transform.yields_bind {xs ys : List Ident} {us : List Value}
    (hread : List.Forall₂ (fun (x : Ident) u =>
    ∃ v, env.get x.name = .ok v ∧ v.transpose = .ok u) xs us)
    (hlen : ys.length = xs.length) (hne : ∀ x ∈ xs, ∀ y ∈ ys, x.name ≠ y.name) {body : Exp}
    {v : Value} {k : Nat} (h : Yields w
    (body.eval call (env.extendMany ((Pattern.names ys).zip us))) v k) :
    Yields w ((((xs.zip ys).map fun (x, y) => Transform.mk x y).foldr Transform.bind body).eval call
      env) v k := by
  induction xs generalizing env ys us with
  | nil =>
    cases hread
    obtain rfl := List.length_eq_zero_iff.1 hlen
    exact h
  | cons x xs ih =>
    obtain ⟨y, ys, rfl⟩ := List.exists_cons_of_length_eq_add_one hlen
    cases hread with
    | @cons _ u _ us hx hxs =>
      obtain ⟨a, ha, hu⟩ := hx
      have htarget : Yields w ((Exp.unary .transpose (.ofIdent x) .dummy).eval call env) u 0 :=
        (Yields.lift ha).bind (f := fun v => Eval.lift v.transpose) (.lift hu)
      -- the binding of one transposition hides none of the names the others read
      have hrest : List.Forall₂ (fun (z : Ident) u' =>
          ∃ v, (env.extend y.name u).get z.name = .ok v ∧ v.transpose = .ok u') xs us := by
        refine ((List.forall₂_and_left _ _).2 ⟨fun z hz =>
          hne z (List.mem_cons_of_mem _ hz) y List.mem_cons_self,
          hxs⟩).imp fun z u' hz => ?_
        obtain ⟨hzy, v', hv', hu'⟩ := hz
        rw [Env.get] at hv'
        exact ⟨v', by rwa [Env.get, Env.lookup?_extend, if_neg hzy], hu'⟩
      have hbody := ih hrest (by simpa using hlen)
        (fun z hz y' hy' => hne z (List.mem_cons_of_mem _ hz) y' (List.mem_cons_of_mem _ hy')) h
      have hlet := htarget.letIn (p := [y]) (s := .dummy) (Value.results_one u) hbody
      rwa [Nat.zero_add] at hlet

/-- Fresh outputs stand for the targets of a pattern, which the transforms bind to the transposed
values. -/
theorem Transform.yields_outputs {p : Pattern} {s : NameSupply} {ts us : List Value}
    (hroom : (s.freshIdents p).2.InRange)
    (htransposed : List.Forall₂ (fun (t : Value) u => t.transpose = .ok u) ts us)
    (hlen : p.length = ts.length) (hpattern : ∀ x ∈ p.names, x.tag < s.count) {body : Exp}
    (hbody : ∀ x ∈ body.free false, x.tag < s.count) {v : Value} {k : Nat}
    (h : Yields w (body.eval call (env.extendMany (p.names.zip us))) v k) :
    let outputs := (s.freshIdents p).1
    Yields w ((((outputs.zip p).map fun (x, y) =>
      Transform.mk x y).foldr Transform.bind body).eval call
      (env.extendMany ((Pattern.names outputs).zip ts))) v k := by
  intro outputs
  have hnew : ∀ x ∈ Pattern.names outputs, s.count ≤ x.tag := fun x hx =>
    hroom.le_of_mem_until (NameSupply.mem_until_of_freshIdents hx)
  have hnames : (Pattern.names outputs).length = ts.length := by
    rw [Pattern.length_names, NameSupply.length_freshIdents, hlen]
  have hbound : List.Forall₂ (fun (x : Ident) t =>
      (env.extendMany ((Pattern.names outputs).zip ts)).get x.name = .ok t) outputs ts :=
    Env.forall₂_get (Env.map_lookup?_extendMany_zip (NameSupply.nodup_freshIdents hroom) hnames)
  refine yields_bind (Recipe.forall₂_of_two hbound htransposed fun x t _ u hx hu => ⟨t, hx, hu⟩)
    (s.length_freshIdents p).symm (fun x hx y hy hxy => ?_) ?_
  · -- an output is fresh, so it is none of the names of the pattern
    have hle := hnew x.name (List.mem_map_of_mem hx)
    rw [hxy] at hle
    exact absurd (hpattern _ (List.mem_map_of_mem hy)) (Nat.not_lt.2 hle)
  · -- what is behind does not use the outputs
    have hagree : Env.AgreeOn (body.free false)
        ((env.extendMany ((Pattern.names outputs).zip ts)).extendMany
        (p.names.zip us)) (env.extendMany (p.names.zip us)) := by
      refine .extendMany _ fun x hx => Env.lookup?_extendMany_of_notMem fun hmem => ?_
      rw [Env.map_fst_zip hnames] at hmem
      exact absurd (hbody x hx.1) (Nat.not_lt.2 (hnew x hmem))
    rw [body.eval_congr _ hagree]
    exact h

/-- A map that reads the arrays as they are has a value only if they have equally many rows. -/
theorem Stage.even_of_whole (hu : ∀ fn args, Uniform (call fn args)) {g g' : Stage} {f : Lambda}
    {xs : List Ident} (hoperands : g.operands = xs.map .transposed) (hop : g'.op = .map f)
    (hoperands' : g'.operands = xs.map .whole) {v : Value} {k : Nat}
    (h : Yields w (g'.toExp.eval call env) v k) : g.Even env := by
  obtain ⟨height, haligned, -⟩ := (Stage.yields_map_iff hu hop).1 h
  refine ⟨height, fun x hx => ?_⟩
  rw [hoperands] at hx
  obtain ⟨y, hy, heq⟩ := List.mem_map.1 hx
  cases heq
  have hmem : Operand.whole x ∈ g'.operands := hoperands' ▸ List.mem_map_of_mem hy
  exact ⟨_, (Operand.yields_whole_iff.1 (haligned.succeeds _ hmem)).1, haligned.length _ hmem⟩

/-- If what a map of a nest over evenly high transposed arrays binds gives what is behind it a
value, then so do the map over the arrays themselves and the transforms of its fresh outputs. -/
theorem Nest.yields_letIn_pulled (hu : ∀ fn args, Uniform (call fn args)) {g : Stage} {f : Lambda}
    {n : Nest} {xs : List Ident} {p : Pattern} {s : NameSupply} (hop : g.op = .map f)
    (hoperands : g.operands = xs.map .transposed) (hne : xs ≠ []) (hlen : xs.length = n.rows.length)
    (hn : ofLambda? f = some n) (hreg : n.Regular) (hrets : n.rets.length = p.length)
    (hroom : ((n.toLambda s).2.freshIdents p).2.InRange)
    (hbelow : ∀ x ∈ n.inner.freeVars, x.name.tag < s.count)
    (hpattern : ∀ x ∈ p.names, x.tag < s.count) {body : Exp} (hbody : ∀ x ∈ body.free false,
    x.tag < s.count) (heven : g.Even env) {span : Span} {v : Value} {k : Nat}
    (h : Yields w ((Exp.letIn p g.toExp body span).eval call env) v k) :
    let outputs := ((n.toLambda s).2.freshIdents p).1
    ∃ k', Yields w ((Exp.letIn outputs (Stage.mk (.map (n.toLambda s).1)
      (xs.map .whole) g.certs g.span).toExp
      (((outputs.zip p).map fun (x, y) => Transform.mk x y).foldr Transform.bind body) span).eval
        call env) v k' := by
  intro outputs
  obtain ⟨v', i, us, j, hv', hus, hrest⟩ := yields_letIn hu h
  obtain ⟨us', ts, i', rfl, hlenu, hlent, htransposed, hpulled⟩ :=
    Nest.yields_pulled hu hop hoperands hne hlen hn hreg
      (hroom.of_le ((n.toLambda s).2.count_le_freshIdents p)) hbelow heven hv'
  have hlenp : p.length = n.inner.rets.length := hrets.symm.trans hreg.rets
  -- both ways of taking the results apart give the same values
  obtain rfl : us' = us := by
    have hall := Value.results_ofResults us'
    rw [hlenu, ← hlenp] at hall
    exact Except.ok.inj (hall.symm.trans hus)
  have hres : (Value.ofResults ts).results outputs.length = .ok ts := by
    rw [NameSupply.length_freshIdents, hlenp, ← hlent]
    exact Value.results_ofResults ts
  have hle := n.count_le_toLambda s
  exact ⟨i' + j, hpulled.letIn hres (Transform.yields_outputs hroom htransposed
    (hlenp.trans hlent.symm) (fun x hx => Nat.lt_of_lt_of_le (hpattern x hx) hle) (fun x hx =>
      Nat.lt_of_lt_of_le (hbody x hx) hle) hrest)⟩

/-- A kernel that reads its arrays directly does what it did before if, and only if, the arrays that
were read transposed have equally many rows: bound to its outputs, and behind the transforms, its
results give to whatever is behind it what the results of the original stage give to it. -/
theorem Kernel.evaluate_pullTransposes {id : KernelId} {g : Stage} {p : Pattern} {s s' : NameSupply}
    {K : Kernel} (h : (Kernel.new id g p).pullTransposes s = (K, s')) (hroom : s'.InRange)
    (hnest : ∀ f n, g.op = .map f → Nest.ofLambda? f = some n → n.Regular ∧ n.rets.length =
    p.length) (hstage : ∀ f ∈ g.op.lambdas, ∀ x ∈ f.freeVars, x.name.tag < s.count)
    (hpattern : ∀ x ∈ p.names, x.tag < s.count) {body : Exp}
    (hbody : ∀ x ∈ body.free false, x.tag < s.count) {prog : Program} {env : Env} {t : Session}
    {span : Span} {v : Value} (hv : (prog.evaluate env (.letIn p g.toExp body span) t).1 = .ok v) :
    (prog.evaluate env (.letIn K.outputs K.stage.toExp (K.bindTransforms body) span) t).1 = .ok v
      ↔ K.stage.operands = g.operands ∨ g.Even env := by
  -- a kernel that is left alone does what it did
  have hstays : (Kernel.new id g p).pullTransposes s = (Kernel.new id g p, s) →
      ((prog.evaluate env (.letIn K.outputs K.stage.toExp (K.bindTransforms body) span) t).1 = .ok v
        ↔ K.stage.operands = g.operands ∨ g.Even env) := fun heq => by
    obtain ⟨rfl, -⟩ := Prod.mk.inj (h.symm.trans heq)
    exact ⟨fun _ => .inl rfl, fun _ => hv⟩
  by_cases hempty : g.operands = []
  · exact hstays (Kernel.pullTransposes_of_operands_nil hempty s)
  rcases (Kernel.new id g p).pullTransposes_cases s with heq |
    ⟨xs, f, n, hoperands, hop, hn, hlen, heq⟩
  · exact hstays heq
  have hoperands : g.operands = xs.map .transposed := hoperands
  have hop : g.op = .map f := hop
  have hne : xs ≠ [] := by
    rintro rfl
    exact hempty hoperands
  obtain ⟨hreg, hrets⟩ := hnest f n hop hn
  have hu := prog.callWithin_uniform (Program.maxDepth - t.depth)
  have hbelow : ∀ x ∈ n.inner.freeVars, x.name.tag < s.count := fun x hx => by
    obtain ⟨y, hy, hyx⟩ := List.mem_map.1 (f.mem_freeVars.2 (Nest.mem_free_of_inner hn hx))
    rw [← hyx]
    exact hstage f (by rw [hop]; exact List.mem_singleton_self f) y hy
  obtain ⟨rfl, rfl⟩ := Prod.mk.inj (h.symm.trans heq)
  let g' : Stage := ⟨.map (n.toLambda s).1, xs.map .whole, g.certs, g.span⟩
  let outputs := ((n.toLambda s).2.freshIdents p).1
  change (prog.evaluate env (.letIn outputs g'.toExp
    (((outputs.zip p).map fun (x, y) => Transform.mk x y).foldr Transform.bind body) span)
      t).1 = .ok v
      ↔ xs.map .whole = g.operands ∨ _
  constructor
  · -- the map over the arrays themselves has a value already
    intro hk
    obtain ⟨k, hk⟩ := (Program.evaluate_eq_ok fun _ => 0).1 hk
    obtain ⟨v', i, -, -, hv', -⟩ := yields_letIn hu hk
    exact .inr (Stage.even_of_whole hu hoperands rfl rfl hv')
  rintro (hsame | heven)
  · -- a whole array is not a transposed one
    obtain ⟨x, xs, rfl⟩ := List.exists_cons_of_ne_nil hne
    rw [hoperands] at hsame
    cases hsame
  · obtain ⟨k, hk⟩ := (Program.evaluate_eq_ok fun _ => 0).1 hv
    exact (Program.evaluate_eq_ok fun _ => 0).2
      (Nest.yields_letIn_pulled hu hop hoperands hne hlen hn hreg hrets hroom hbelow hpattern hbody
        heven hk)

/-- The sums of two tables, transposed before and not, with the tables read as they are. -/
theorem Kernel.evaluate_pullTransposes_sums :
    let a : Ident := ⟨⟨"a", 0⟩, .array (.array .int)⟩
    let b : Ident := ⟨⟨"b", 1⟩, .array (.array .int)⟩
    let c : Ident := ⟨⟨"c", 2⟩, .array .int⟩
    let d : Ident := ⟨⟨"d", 3⟩, .array .int⟩
    let u : Ident := ⟨⟨"u", 4⟩, .int⟩
    let v : Ident := ⟨⟨"v", 5⟩, .int⟩
    let w : Ident := ⟨⟨"w", 6⟩, .array .int⟩
    let z : Ident := ⟨⟨"z", 7⟩, .array (.array .int)⟩
    let add : Lambda := ⟨[u, v], .binary .plus (.ofIdent u) (.ofIdent v) .int .dummy, [.int]⟩
    let f : Lambda := ⟨[c, d], .bind [w] (.soac (.map add) [.ofIdent c, .ofIdent d] [] .dummy)
      (.ofIdent w), [.array .int]⟩
    let g : Stage := ⟨.map f, [.transposed a, .transposed b], [], .dummy⟩
    let K := ((Kernel.new ⟨0⟩ g [z]).pullTransposes ⟨8⟩).1
    let row (i j k : Int64) : Value := .array [.int i, .int j, .int k]
    let env : Env := (Env.empty.extend a.name (.array [row 1 2 3, row 4 5 6])).extend b.name
      (.array [row 10 20 30, row 40 50 60])
    let sums : Value := .array [.array [.int 11, .int 44], .array [.int 22, .int 55],
      .array [.int 33, .int 66]]
    let run (e : Exp) : Except EvalError Value := ((Program.mk []).evaluate env e .new).1
    K.stage.operands = [.whole a, .whole b] ∧ g.Even env
      ∧ run (.bind [z] g.toExp (.ofIdent z)) = .ok sums
      ∧ run (.bind K.outputs K.stage.toExp (K.bindTransforms (.ofIdent z))) = .ok sums := by
  intro a b c d u v w z add f g K row env sums run
  have heven : g.Even env := ⟨2, fun x hx => by
    simp only [g, List.mem_cons, Operand.transposed.injEq, List.not_mem_nil, or_false] at hx
    rcases hx with rfl | rfl
    · exact ⟨_, rfl, rfl⟩
    · exact ⟨_, rfl, rfl⟩⟩
  have hvalue : run (.bind [z] g.toExp (.ofIdent z)) = .ok sums := rfl
  -- the lambda of the stage is the one nest there is
  have hnest : ∀ f' n, g.op = .map f' → Nest.ofLambda? f' = some n → n.Regular
      ∧ n.rets.length = [z].length := by
    rintro _ n ⟨⟩ hn
    obtain rfl : Nest.mk [c, d] add [w] [] .dummy [.array .int] = n := Option.some.inj hn
    exact ⟨⟨by decide, by decide, rfl, rfl⟩, rfl⟩
  have hbody : ∀ x ∈ (Exp.ofIdent z).free false, x.tag < 8 := fun x hx => by
    obtain rfl : x = z.name := hx
    decide
  exact ⟨rfl, heven, hvalue, (Kernel.evaluate_pullTransposes rfl (by decide) hnest
    (by decide) (by decide) hbody hvalue).2 (.inr heven)⟩

/-- Tables without columns, one with no rows and one with two. -/
example :
    let a : Ident := ⟨⟨"a", 0⟩, .array (.array .int)⟩
    let b : Ident := ⟨⟨"b", 1⟩, .array (.array .int)⟩
    let c : Ident := ⟨⟨"c", 2⟩, .array .int⟩
    let d : Ident := ⟨⟨"d", 3⟩, .array .int⟩
    let u : Ident := ⟨⟨"u", 4⟩, .int⟩
    let v : Ident := ⟨⟨"v", 5⟩, .int⟩
    let w : Ident := ⟨⟨"w", 6⟩, .array .int⟩
    let z : Ident := ⟨⟨"z", 7⟩, .array (.array .int)⟩
    let add : Lambda := ⟨[u, v], .binary .plus (.ofIdent u) (.ofIdent v) .int .dummy, [.int]⟩
    let f : Lambda := ⟨[c, d], .bind [w] (.soac (.map add) [.ofIdent c, .ofIdent d] [] .dummy)
      (.ofIdent w), [.array .int]⟩
    let g : Stage := ⟨.map f, [.transposed a, .transposed b], [], .dummy⟩
    let K := ((Kernel.new ⟨0⟩ g [z]).pullTransposes ⟨8⟩).1
    let env : Env := (Env.empty.extend a.name (.array [])).extend b.name
      (.array [.array [], .array []])
    let run (e : Exp) : Except EvalError Value := ((Program.mk []).evaluate env e .new).1
    run (.bind [z] g.toExp (.ofIdent z)) = .ok (.array [])
      ∧ run (.bind K.outputs K.stage.toExp (K.bindTransforms (.ofIdent z)))
        = .error (.shapeMismatch (.lengths 0 2)) := ⟨rfl, rfl⟩

end ArrayFusion
