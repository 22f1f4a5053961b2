import ArrayFusion.Proofs.FusedKernels

/-!
# One parameter for each source

The parameters of a lambda that range over the same source become one, and the others take its
value.  Of the operands exactly the first ones of each source are left, in order
(`Recipe.operands_dedupOperands`).

A row of the operands that are left gives the lambda what it got from the whole row before
(`Recipe.apply_dedupOperands_cells`).  So a map or a fold computes what it computed before
(`Recipe.dedupOperands_exact`).  A row that fits the lambda has a value for each accumulator, so
nothing needs to be known about the neutral elements: unless they fit, there are no rows.
-/

namespace ArrayFusion

open Eval (Yields Uniform)

/-! ## First occurrences -/

/-- The members that are left are not related to any before them. -/
theorem List.pairwise_eraseDupsBy {α : Type} (r : α → α → Bool) (as : List α) :
    (as.eraseDupsBy r).Pairwise fun a b => r b a = false := by
  suffices h : ∀ (as bs : List α), (bs.reverse.Pairwise fun a b => r b a = false) →
      (List.eraseDupsBy.loop r as bs).Pairwise fun a b => r b a = false from h as [] .nil
  intro as
  induction as with
  | nil => exact fun _ => id
  | cons a as ih =>
    intro bs hbs
    rw [List.eraseDupsBy.loop]
    cases hany : bs.any (r a) with
    | true => exact ih bs hbs
    | false =>
      refine ih (a :: bs) ?_
      rw [List.reverse_cons, List.pairwise_append]
      refine ⟨hbs, List.pairwise_singleton _ _, fun b hb c hc => ?_⟩
      rw [List.mem_singleton.1 hc]
      exact eq_false_of_ne_true (List.any_eq_false.1 hany b (List.mem_reverse.1 hb))

/-- To have the same source is symmetric. -/
theorem Operand.sameSource_comm (a b : Operand) : a.sameSource b = b.sameSource a := by
  cases a <;> cases b <;> first | rfl | exact BEq.comm

namespace Recipe

/-- What is kept of operands is what the removal of duplicates leaves. -/
theorem Coalesced.map_kept_foldl (es : List (Ident × Operand)) (l : Coalesced) :
    (es.foldl Coalesced.add l).kept.map (·.2)
      = List.eraseDupsBy.loop Operand.sameSource (es.map (·.2)) (l.kept.map (·.2)).reverse := by
  induction es generalizing l with
  | nil => exact (List.reverse_reverse _).symm
  | cons e es ih =>
    have hany : (l.kept.map (·.2)).reverse.any e.2.sameSource = l.kept.any fun k =>
        k.2.sameSource e.2 := by
      rw [List.any_reverse, List.any_map]
      exact congrArg (List.any l.kept) (funext fun k => e.2.sameSource_comm k.2)
    rw [List.foldl_cons, ih, List.map_cons, List.eraseDupsBy.loop, hany, Coalesced.add]
    cases hfind : l.kept.find? fun k => k.2.sameSource e.2 with
    | some k =>
      rw [List.any_eq_true.2 ⟨k, List.mem_of_find?_eq_some hfind, List.find?_some hfind⟩]
    | none =>
      rw [List.any_eq_false.2 (List.find?_eq_none.1 hfind), List.map_append, List.reverse_append]
      rfl

section

variable {f : Lambda} {operands : List Operand} {acc : Nat}
    (hparams : f.params.length = acc + operands.length)
include hparams

/-- The operands that are left are the first ones of their sources. -/
theorem operands_dedupOperands :
    (dedupOperands f operands acc).2 = operands.eraseDupsBy Operand.sameSource := by
  rw [dedupOperands, Coalesced.map_kept_foldl, map_snd_params hparams]
  rfl

variable {w : String → Nat} {call : Callee} {env : Env}

/-- Operands stay aligned without duplicates. -/
theorem aligned_dedupOperands {n : Nat} (h : Aligned w call env operands n) :
    Aligned w call env (dedupOperands f operands acc).2 n :=
  h.of_mem h (fun _ ha => .inl (mem_of_mem_dedupOperands ha)) (eq_nil_of_dedupOperands hparams)

variable (hu : ∀ fn args, Uniform (call fn args)) (hnodup : (Pattern.names f.params).Nodup)
include hu hnodup

/-- A row of the operands that are left has the results that the whole row has. -/
theorem apply_dedupOperands_cells {us vs : List Value} {i k : Nat}
    (h : Yields w (f.apply call env (us ++ cells call env operands i)) vs k) :
    (dedupOperands f operands acc).1.apply call env
        (us ++ cells call env (dedupOperands f operands acc).2 i)
      = f.apply call env (us ++ cells call env operands i) := by
  have hus : us.length = acc := by
    have hlength := ((Lambda.yields_apply_iff hu).1 h).1
    rw [List.length_append, cells, List.length_map] at hlength
    omega
  exact dedupOperands_apply hparams hnodup hus fun _ _ => Operand.cell_eq_of_sameSource call env i

variable {certs : Certificates} {span : Span} {v : Value} {k : Nat}

/-- A map has the results that it had before. -/
theorem yields_map_dedupOperands (h : Yields w
    ((Stage.mk (.map f) operands certs span).toExp.eval call env) v k) :
    ∃ k, Yields w ((Stage.mk (.map (dedupOperands f operands acc).1)
      (dedupOperands f operands acc).2 certs span).toExp.eval call env) v k := by
  obtain ⟨n, haligned, hrows, rfl, -⟩ := (Stage.yields_map_iff hu rfl).1 h
  have hrow : ∀ i ∈ List.range n,
      (dedupOperands f operands acc).1.apply call env
        (cells call env (dedupOperands f operands acc).2 i)
        = f.apply call env (cells call env operands i) := fun i hi => by
    have hcells : Yields w (f.apply call env ([] ++ cells call env operands i)) _ _ := hrows i hi
    exact apply_dedupOperands_cells hparams hu hnodup hcells
  refine ⟨_, (Stage.yields_map_iff hu rfl).2 ⟨n, aligned_dedupOperands hparams haligned,
    fun i hi => ?_, ?_, rfl⟩⟩
  · rw [hrow i hi]
    exact hrows i hi
  · refine congrArg Value.ofResults (List.map_congr_left fun j _ =>
      congrArg Value.array (List.map_congr_left fun i hi => ?_))
    rw [hrow i hi]

/-- A fold has the results that it had before. -/
theorem yields_redomap_dedupOperands {outer : Lambda} {ne : List Exp}
    (h : Yields w ((Stage.mk (.redomap outer f ne) operands certs span).toExp.eval call env) v k) :
    ∃ k, Yields w ((Stage.mk (.redomap outer (dedupOperands f operands acc).1 ne)
      (dedupOperands f operands acc).2 certs span).toExp.eval call env) v k := by
  obtain ⟨n, start, r, i, j, haligned, hstart, hfold, rfl, -⟩ :=
    (Stage.yields_redomap_iff hu rfl).1 h
  have hstep : ∀ i ∈ List.range n, ∀ us : List Value, True → ∀ t k,
      Yields w (f.apply call env (us ++ cells call env operands i)) t k →
        True ∧ ∃ k, Yields w ((dedupOperands f operands acc).1.apply call env
          (us ++ cells call env (dedupOperands f operands acc).2 i)) t k :=
    fun i _ us _ t k ht => ⟨trivial, k, by rwa [apply_dedupOperands_cells hparams hu hnodup ht]⟩
  obtain ⟨-, j', hfold'⟩ :=
    hfold.foldlM_of (S := fun _ => True) (fun _ _ => f.apply_uniform hu env _) hstep trivial
  exact ⟨_, (Stage.yields_redomap_iff hu rfl).2
    ⟨n, start, r, i, j', aligned_dedupOperands hparams haligned,
    hstart, hfold', rfl, rfl⟩⟩

end

/-- Parameters with one source are made one exactly.  No two of the operands that are left have the
same source, and they are the first ones of their sources, in order.  And where a map or a fold with
the lambda has a value, it has the same one with the new lambda over the operands that are left. -/
theorem dedupOperands_exact {f : Lambda} {operands : List Operand} {acc : Nat}
    (hparams : f.params.length = acc + operands.length) (hnodup : (Pattern.names f.params).Nodup) :
    let f' := (dedupOperands f operands acc).1
    let operands' := (dedupOperands f operands acc).2
    (operands'.Pairwise fun a b => a.sameSource b = false)
      ∧ operands' = operands.eraseDupsBy Operand.sameSource
      ∧ ∀ (p : Program) (env : Env) (certs : Certificates) (span : Span) (s : Session) (v : Value),
        ((p.evaluate env (Stage.mk (.map f) operands certs span).toExp s).1 = .ok v →
          (p.evaluate env (Stage.mk (.map f') operands' certs span).toExp s).1 = .ok v)
        ∧ ∀ (outer : Lambda) (ne : List Exp),
          (p.evaluate env (Stage.mk (.redomap outer f ne) operands certs span).toExp s).1 = .ok v →
          (p.evaluate env (Stage.mk (.redomap outer f' ne) operands' certs span).toExp s).1 =
            .ok v := by
  intro f' operands'
  have hoperands : operands' = operands.eraseDupsBy Operand.sameSource :=
    operands_dedupOperands hparams
  refine ⟨?_, hoperands, fun p env certs span s v => ⟨fun h => ?_, fun outer ne h => ?_⟩⟩
  · rw [hoperands]
    exact (List.pairwise_eraseDupsBy _ _).imp fun {a b} h => (a.sameSource_comm b).trans h
  · obtain ⟨k, hk⟩ := (Program.evaluate_eq_ok 0).1 h
    exact (Program.evaluate_eq_ok 0).2 (yields_map_dedupOperands hparams
      (p.callWithin_uniform _) hnodup hk)
  · obtain ⟨k, hk⟩ := (Program.evaluate_eq_ok 0).1 h
    exact (Program.evaluate_eq_ok 0).2 (yields_redomap_dedupOperands hparams
      (p.callWithin_uniform _) hnodup hk)

theorem dedupOperands_exact_sumOfProducts :
    let xs := Ident.numbers "xs" 0
    let rows : Ident := ⟨⟨"rows", 1⟩, .array (.array .int)⟩
    let acc := Ident.number "acc" 2
    let x := Ident.number "x" 3
    let r := Ident.numbers "r" 4
    let i := Ident.number "i" 5
    let y := Ident.number "y" 6
    let q := Ident.numbers "q" 7
    let entry (x : Ident) (i : Int64) : Exp := .index x [.lit (.int i) .dummy] .dummy
    let f : Lambda := ⟨[acc, x, r, i, y, q], .arith .plus (.ofIdent acc) (.arith .plus (.ofIdent i)
      (.arith .plus (.arith .times (.ofIdent x) (.ofIdent y))
        (.arith .times (entry r 0) (entry q 1)))), [.int]⟩
    let operands : List Operand :=
      [.whole xs, .transposed rows, .range (.lit (.int 2) .dummy), .whole xs, .transposed rows]
    let ne : List Exp := [.lit (.int 0) .dummy]
    let env := (Env.empty.extend xs.name (.intArray [3, 4])).extend rows.name
      (.array [.intArray [1, 2], .intArray [5, 6]])
    let f' := (dedupOperands f operands 1).1
    let operands' := (dedupOperands f operands 1).2
    f.params.length = 1 + operands.length ∧ (Pattern.names f.params).Nodup
      ∧ operands' = [.whole xs, .transposed rows, .range (.lit (.int 2) .dummy)]
      ∧ Pattern.names f'.params = [acc.name, x.name, r.name, i.name]
      ∧ (Program.evaluate ⟨[]⟩ env (Stage.mk (.redomap f f ne) operands [] .dummy).toExp .new).1 =
        .ok (.int 43)
      ∧ (Program.evaluate ⟨[]⟩ env (Stage.mk (.redomap f f' ne) operands' [] .dummy).toExp .new).1
        = .ok (.int 43) := by
  intro xs rows acc x r i y q entry f operands ne env f' operands'
  have hparams : f.params.length = 1 + operands.length := rfl
  have hnodup : (Pattern.names f.params).Nodup := by decide
  have hvalue : (Program.evaluate ⟨[]⟩ env (Stage.mk (.redomap f f ne) operands [] .dummy).toExp
      .new).1
      = .ok (.int 43) := rfl
  -- the copies give the old value, so by the theorem the merged operands do
  obtain ⟨-, -, hsame⟩ := dedupOperands_exact hparams hnodup
  exact ⟨hparams, hnodup, rfl, rfl, hvalue, (hsame ⟨[]⟩ env [] .dummy .new (.int 43)).2 f ne hvalue⟩

end Recipe

end ArrayFusion
