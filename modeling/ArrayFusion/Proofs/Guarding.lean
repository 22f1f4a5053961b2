import ArrayFusion.Proofs.Linking

/-!
# A consumer behind a filter

Behind a filter the body of the consumer is guarded by the predicate of the producer.  A fold stays
where it is at an element that the predicate rejects (`Recipe.foldAfterFilter_apply`), and a filter
rejects the element, too (`Recipe.filterAfterFilter_test`).
-/

namespace ArrayFusion

open Eval (Yields Uniform)

theorem Value.toBool_eq_ok {v : Value} {b : Bool} : v.toBool = .ok b ↔ v = .bool b := by
  cases v <;> simp [toBool]

/-- A predicate with one result decides by the value of its body. -/
theorem Lambda.yields_test_iff {w : String → Nat} {call : Callee} {env : Env}
    (hu : ∀ fn args, Uniform (call fn args)) {p : Lambda} (hp : p.rets.length = 1)
    {args : List Value} {flag : Bool} {k : Nat} :
    Yields w (p.test call env args) flag k ↔ p.params.length = args.length
      ∧ Yields w (p.body.eval call (env.extendMany ((Pattern.names p.params).zip args)))
          (.bool flag) k := by
  rw [Lambda.test, (p.apply_uniform hu env args).yields_bind_iff fun _ => .verdict _]
  constructor
  · rintro ⟨vs, i, j, hvs, hj, rfl⟩
    obtain ⟨hlen, v, hv, hres⟩ := (Lambda.yields_apply_iff hu).1 hvs
    rw [hp, Value.results_one] at hres
    cases hres
    obtain ⟨hflag, rfl⟩ := Eval.yields_lift_iff.1 hj
    rw [Value.toBool_eq_ok.1 hflag] at hv
    exact ⟨hlen, hv⟩
  · rintro ⟨hlen, hv⟩
    refine ⟨[.bool flag], k, 0, (Lambda.yields_apply_iff hu).2 ⟨hlen, _, hv, ?_⟩, .lift rfl, rfl⟩
    rw [hp, Value.results_one]

/-- Several results as one expression yield the results as one value. -/
theorem Exp.yields_results {w : String → Nat} {call : Callee} {env : Env} {es : List Exp}
    {vs : List Value} {k : Nat} (hu : ∀ fn args, Uniform (call fn args))
    (h : Yields w (Exp.evalAll call env es) vs k) :
    Yields w ((Exp.results es).eval call env) (.ofResults vs) k := by
  -- one result is returned as it is, and other numbers as a tuple
  rcases es with _ | ⟨e, _ | ⟨e', es⟩⟩
  · cases (Eval.yields_pure_iff.1 h).1
    rw [(Eval.yields_pure_iff.1 h).2]
    exact (Yields.pure _).bind_pure
  · rw [Exp.evalAll, (e.eval_uniform hu env).yields_bind_iff fun _ =>
      (Exp.evalAll_uniform hu env []).bind fun _ => .pure _] at h
    obtain ⟨v, i, j, hv, hj, rfl⟩ := h
    obtain ⟨rest, hrest, rfl⟩ := (Exp.evalAll_uniform hu env []).yields_bind_pure_iff.1 hj
    obtain ⟨rfl, rfl⟩ := Eval.yields_pure_iff.1 hrest
    exact hv
  · have hlen : ∃ v v' vs', vs = v :: v' :: vs' := by
      rw [Exp.evalAll, (e.eval_uniform hu env).yields_bind_iff fun _ =>
        (Exp.evalAll_uniform hu env _).bind fun _ => .pure _] at h
      obtain ⟨v, i, j, hv, hj, rfl⟩ := h
      obtain ⟨rest, hrest, rfl⟩ := (Exp.evalAll_uniform hu env _).yields_bind_pure_iff.1 hj
      rw [Exp.evalAll, (e'.eval_uniform hu env).yields_bind_iff fun _ =>
        (Exp.evalAll_uniform hu env _).bind fun _ => .pure _] at hrest
      obtain ⟨v', i', j', hv', hj', rfl⟩ := hrest
      obtain ⟨rest', hrest', rfl⟩ := (Exp.evalAll_uniform hu env _).yields_bind_pure_iff.1 hj'
      exact ⟨v, v', rest', rfl⟩
    obtain ⟨v, v', vs', rfl⟩ := hlen
    exact h.bind_pure

/-- Identifiers that are bound are evaluated to what they are bound to, without a call. -/
theorem Exp.yields_evalAll_idents {w : String → Nat} {call : Callee} {env : Env} {xs : List Ident}
    {vs : List Value} (h : (Pattern.names xs).map env.lookup? = vs.map some) :
    Yields w (Exp.evalAll call env (xs.map .ofIdent)) vs 0 := by
  induction xs generalizing vs with
  | nil =>
    rw [List.map_eq_nil_iff.1 h.symm]
    exact .pure []
  | cons x xs ih =>
    rcases vs with _ | ⟨v, vs⟩
    · cases h
    obtain ⟨hx, hxs⟩ := List.cons.inj h
    have hv : Yields w ((Exp.ofIdent x).eval call env) v 0 := by
      refine .lift ?_
      rw [Env.get, hx]
    rw [List.map_cons, Exp.evalAll, ← Nat.zero_add 0]
    exact hv.bind (ih hxs).bind_pure

namespace Recipe

section

variable {w : String → Nat} {call : Callee} {env : Env} {col : Operand → Value}

/-- The code behind a predicate: the new name of its value, and the conditional on it. -/
theorem guardedBy_eq_ok {p : Lambda} {yes no e : Exp} {ty : Ty} {s s' : NameSupply}
    (h : guardedBy p yes no ty s = .ok (e, s')) :
    ∃ check : Ident, check.name.tag = s.next ∧ s'.count = s.count + 1
      ∧ e = .bind [check] p.body (.cond (.ofIdent check) yes no ty .dummy) := by
  cases h
  exact ⟨⟨⟨"check", s.next⟩, .bool⟩, rfl, rfl, rfl⟩

/-- Guarded code does what the arm does that the predicate selects. -/
theorem yields_guarded {p : Lambda} {check : Ident} {yes no : Exp} {ty : Ty} {flag : Bool}
    {t : Value} {i j : Nat} (hp : Yields w (p.body.eval call env) (.bool flag) i)
    (ht : Yields w ((if flag then yes else no).eval call
    (env.extend check.name (.bool flag))) t j) :
    Yields w ((Exp.bind [check] p.body (.cond (.ofIdent check) yes no ty .dummy)).eval call env) t
      (i + j) := by
  have hresults : (Value.bool flag).results [check].length = .ok [.bool flag] := rfl
  refine hp.letIn hresults ?_
  -- the condition is the flag, which was bound just before
  have hcheck : Yields w ((Exp.ofIdent check).eval call (env.extend check.name (.bool flag)))
      (.bool flag) 0 := by
    refine .lift ?_
    rw [Env.get, Env.lookup?_extend, if_pos rfl]
  change Yields w (Exp.eval call (env.extend check.name (.bool flag)) _) t j
  rw [Exp.eval, ← Nat.zero_add j]
  refine hcheck.bind ?_
  rw [← Nat.zero_add j]
  refine (Eval.Yields.lift (a := flag) rfl).bind ?_
  cases flag
  · exact ht
  · exact ht

/-- What is bound where the body of a composition with a filter is evaluated: the parameters of the
producer have the values of its operands, and nothing else is in the way of the two lambdas. -/
structure Guarded (p c : Lambda) (s : NameSupply) (col : Operand → Value) (pOperands : List Operand)
    (bs : List (Name × Value)) (check : Name) (xs : List Name) : Prop where
  apart : Apart p c s
  rets : p.rets.length = 1
  nodup : (bs.map (·.1) ++ check :: xs).Nodup
  producer : ∀ b ∈ bound col (p.params.zip pOperands), b ∈ bs
  names : ∀ b ∈ bs, b.1 ∈ Pattern.names (c.params ++ p.params) ∨ s.count ≤ b.1.tag
  check : s.count ≤ check.tag

/-- If the predicate of the producer yields a flag, then so does its body in the environment of the
guarded lambda, with as many calls. -/
theorem Guarded.yields_body {p c : Lambda} {s : NameSupply} {pOperands : List Operand}
    {bs : List (Name × Value)} {check : Name} {xs : List Name} {flag : Bool} {i : Nat}
    (h : Guarded p c s col pOperands bs check xs) (hu : ∀ fn args, Uniform (call fn args))
    (hflag : Yields w (p.test call env (pOperands.map col)) flag i) :
    Yields w (p.body.eval call (env.extendMany bs)) (.bool flag) i := by
  obtain ⟨hlen, hbody⟩ := (Lambda.yields_test_iff hu h.rets).1 hflag
  rw [Lambda.eval_body hlen h.apart.nodup.1 (List.nodup_append.1 h.nodup).1]
  · exact hbody
  · rw [List.length_map] at hlen
    rw [zip_params_all hlen]
    exact h.producer
  · exact fun b hb => (h.apart.notMem_free (h.names b hb)).1

/-- Behind a rejected element the other arm is evaluated. -/
theorem Guarded.yields_rejected {p c : Lambda} {s : NameSupply} {pOperands : List Operand}
    {bs : List (Name × Value)} {check : Ident} {xs : List Name} {i : Nat}
    (h : Guarded p c s col pOperands bs check.name xs) (hu : ∀ fn args, Uniform (call fn args))
    (hflag : Yields w (p.test call env (pOperands.map col)) false i) {yes no : Exp} {ty : Ty}
    {t : Value} {j : Nat}
    (ht : Yields w (no.eval call (env.extendMany (bs ++ [(check.name, .bool false)]))) t j) :
    Yields w ((Exp.bind [check] p.body (.cond (.ofIdent check) yes no ty .dummy)).eval call
      (env.extendMany bs)) t (i + j) := by
  refine yields_guarded (h.yields_body hu hflag) ?_
  rw [Env.extendMany_append] at ht
  exact ht

/-- Behind an accepted element the consumer does what it does on the values of its parameters. -/
theorem Guarded.yields_accepted {p c : Lambda} {s : NameSupply} {pOperands : List Operand}
    {bs : List (Name × Value)} {check : Ident} {forwards : List (Ident × Ident)} {i : Nat}
    (h : Guarded p c s col pOperands bs check.name (Pattern.names (forwards.map (·.1))))
    (hu : ∀ fn args, Uniform (call fn args))
    (hflag : Yields w (p.test call env (pOperands.map col)) true i) {acc : Nat}
    {cOperands : List Operand} {us : List Value} {col' : Operand → Value} (hus : us.length = acc)
    (hparams : c.params.length = acc + cOperands.length)
    (hacc : ∀ b ∈ (Pattern.names (c.params.take acc)).zip us, b ∈ bs)
    (hforwards : forwards.map (·.1) = c.params.drop acc)
    (hsource : ∀ b ∈ forwards, ∃ a, (b.1, a) ∈ (c.params.drop acc).zip cOperands
      ∧ (b.2.name, col' a) ∈ bs) {no : Exp} {ty : Ty} {t : Value} {j : Nat}
    (ht : Yields w (c.body.eval call (env.extendMany
      ((Pattern.names c.params).zip (us ++ cOperands.map col')))) t j) :
    Yields w ((Exp.bind [check] p.body
      (.cond (.ofIdent check) (forward forwards c.body) no ty .dummy)).eval call
        (env.extendMany bs)) t (i + j) := by
  refine yields_guarded (h.yields_body hu hflag) ?_
  -- the flag is bound behind the elements
  have hkeys : (bs ++ [(check.name, Value.bool true)]).map (·.1) = bs.map (·.1) ++
      [check.name] := by
    rw [List.map_append]
    rfl
  have hnodup := h.nodup
  rw [← List.singleton_append, ← List.append_assoc, ← hkeys] at hnodup
  change Yields w ((forward forwards c.body).eval call ((env.extendMany bs).extend _ _)) t j
  rw [show (env.extendMany bs).extend check.name (.bool true)
      = env.extendMany (bs ++ [(check.name, .bool true)]) by rw [Env.extendMany_append]; rfl,
    eval_forward_body hparams hus h.apart.nodup.2 hnodup (fun b hb =>
      List.mem_append_left _ (hacc b hb)) (fun b hb => ?_) (fun e he => .inl ?_) fun x hx => ?_]
  · exact ht
  · obtain ⟨a, ha, hmem⟩ := hsource b hb
    exact ⟨a, ha, List.mem_append_left _ hmem⟩
  · rw [hforwards]
    exact (List.of_mem_zip he).1
  · -- what is bound is a parameter of one of the two, or it is the name of the test, which is new
    rw [hkeys, hforwards, List.append_assoc] at hx
    refine (h.apart.notMem_free ?_).2
    rcases List.mem_append.1 hx with hx | hx
    · obtain ⟨b, hb, rfl⟩ := List.mem_map.1 hx
      exact h.names b hb
    · rcases List.mem_cons.1 hx with rfl | hx
      · exact .inr h.check
      · rw [Pattern.names_append]
        exact .inl (List.mem_append_left _ (((List.drop_sublist acc c.params).map _).subset hx))

/-! ## A fold behind a filter -/

/-- What a parameter of the consumer has to do with the reader made of it. -/
def IsReader (ss : List Source) (e : Ident × Operand) (r : Ident × Nat × Source) : Prop :=
  r.1 = e.1 ∧ link (ss.map (·.output)) e.2 = some r.2.1 ∧ ss[r.2.1]? = some r.2.2

/-- What is read of each parameter of the consumer, in their order. -/
theorem readers_of_readers? {ss : List Source} {params : List Ident} {operands : List Operand}
    {readers : List (Ident × Nat × Source)} (h : readers? ss params operands = some readers) :
    List.Forall₂ (IsReader ss) (params.zip operands) readers := by
  refine (Option.mapM_eq_some.1 h).imp fun e r hr => ?_
  obtain ⟨i, hi, hr⟩ := Option.bind_eq_some_iff.1 hr
  obtain ⟨s, hs, hr⟩ := Option.bind_eq_some_iff.1 hr
  cases hr
  exact ⟨rfl, hi, hs⟩

theorem map_fst_of_forall₂ {α β γ : Type} {R : α × β → α × γ → Prop}
    (hR : ∀ e d, R e d → d.1 = e.1) {es : List (α × β)} {ds : List (α × γ)}
    (h : List.Forall₂ R es ds) : ds.map (·.1) = es.map (·.1) := by
  induction h with
  | nil => rfl
  | cons hd _ ih => rw [List.map_cons, List.map_cons, ih, hR _ _ hd]

theorem exists_of_forall₂ {α β : Type} {R : α → β → Prop} {as : List α} {bs : List β}
    (h : List.Forall₂ R as bs) {b : β} (hb : b ∈ bs) : ∃ a ∈ as, R a b := by
  induction h with
  | nil => cases hb
  | cons hab _ ih =>
    rcases List.mem_cons.1 hb with rfl | hb
    · exact ⟨_, List.mem_cons_self, hab⟩
    · obtain ⟨a, ha, h⟩ := ih hb
      exact ⟨a, List.mem_cons_of_mem _ ha, h⟩

/-- There is one source for each output of the producer. -/
theorem map_output_sources {outs params : List Ident} {operands : List Operand}
    (houts : outs.length = operands.length) (hparams : params.length = operands.length) :
    (sources outs params operands).map (·.output) = outs := by
  rw [sources, List.map_map]
  change (outs.zip (params.zip operands)).map Prod.fst = outs
  refine List.map_fst_zip ?_
  rw [List.length_zip, hparams, houts, Nat.min_self]

/-- A source is a parameter of the producer and the operand that it stands for. -/
theorem sources_getElem? {outs params : List Ident} {operands : List Operand} {i : Nat}
    {s : Source} (h : (sources outs params operands)[i]? = some s) :
    (s.param, s.operand) ∈ params.zip operands ∧ operands[i]? = some s.operand := by
  rw [sources, List.getElem?_map, Option.map_eq_some_iff] at h
  obtain ⟨⟨x, q, a⟩, h, rfl⟩ := h
  obtain ⟨-, h⟩ := List.getElem?_zip_eq_some.1 h
  exact ⟨List.mem_of_getElem? h, (List.getElem?_zip_eq_some.1 h).2⟩

/-- What a fold behind a filter is made of: the parameters of the consumer for the accumulators,
those of the producer, and the body of the consumer under the flag. -/
theorem foldAfterFilter_eq_ok {p c : Lambda} {pOperands cOperands : List Operand}
    {outs : List Ident} {acc : Nat} {s s' : NameSupply} {r : Lambda × List Operand}
    (h : foldAfterFilter p pOperands outs c acc cOperands s = .ok (some r, s')) :
    p.params.length = pOperands.length ∧ c.params.length = acc + cOperands.length ∧
      ∃ readers check,
        readers? (sources outs p.params pOperands) (c.params.drop acc) cOperands = some readers
        ∧ check.name.tag = s.next ∧ s'.count = s.count + 1
        ∧ r = dedupOperands
          ⟨c.params.take acc ++ p.params,
            .bind [check] p.body (.cond (.ofIdent check)
              (forward (readers.map fun (q, _, s) => (q, s.param)) c.body)
              (.results ((c.params.take acc).map .ofIdent)) (.ofResults c.rets) .dummy), c.rets⟩
          pOperands acc := by
  unfold foldAfterFilter at h
  obtain ⟨_, s₁, hp, h₁⟩ := State.bind_eq_ok.1 h
  obtain ⟨hparams, rfl⟩ := Fresh.lift_eq_ok.1 hp
  obtain ⟨_, s₂, hc, h₂⟩ := State.bind_eq_ok.1 h₁
  obtain ⟨hcParams, rfl⟩ := Fresh.lift_eq_ok.1 hc
  refine ⟨checkParams_eq_ok.1 hparams, checkParams_eq_ok.1 hcParams, ?_⟩
  -- without a reader for each operand no recipe applies
  cases hreaders : readers? (sources outs p.params pOperands) (c.params.drop acc) cOperands with
  | none =>
    rw [hreaders] at h₂
    cases (State.pure_eq_ok.1 h₂).1
  | some readers =>
    rw [hreaders] at h₂
    obtain ⟨body, s₃, hbody, h₃⟩ := State.bind_eq_ok.1 h₂
    obtain ⟨check, htag, hcount, rfl⟩ := guardedBy_eq_ok hbody
    obtain ⟨hr, rfl⟩ := State.pure_eq_ok.1 h₃
    exact ⟨readers, check, rfl, htag, hcount, Option.some.inj hr⟩

/-- The values of the accumulators are bound to the first parameters of the consumer. -/
theorem map_fst_accs {c : Lambda} {acc n : Nat} {us : List Value} (hc : c.params.length = acc + n)
    (hus : us.length = acc) :
    ((Pattern.names (c.params.take acc)).zip us).map (·.1) = Pattern.names (c.params.take acc) := by
  refine Env.map_fst_zip ?_
  rw [Pattern.length_names, List.length_take, hus, hc]
  omega

/-- A new name among the parameters of a composition, whose order does not matter. -/
theorem Apart.nodup_guarded {p c : Lambda} {s : NameSupply} (h : Apart p c s) {check : Name}
    (hcheck : s.count ≤ check.tag) (acc : Nat) :
    (Pattern.names (c.params.take acc) ++ Pattern.names p.params
      ++ check :: Pattern.names (c.params.drop acc)).Nodup := by
  have hparams := h.params
  rw [← List.take_append_drop acc c.params, Pattern.names_append, Pattern.names_append] at hparams
  have hnew : check ∉ Pattern.names (c.params.take acc) ++ Pattern.names (c.params.drop acc)
      ++ Pattern.names p.params := by
    intro hmem
    rw [← Pattern.names_append, List.take_append_drop, ← Pattern.names_append] at hmem
    exact absurd (h.below _ hmem) (Nat.not_lt.2 hcheck)
  refine (List.Perm.nodup_iff ?_).1 (List.nodup_cons.2 ⟨hnew, hparams⟩)
  rw [List.append_assoc]
  refine (List.perm_append_comm.append_left _).cons check |>.trans ?_
  rw [← List.append_assoc]
  exact List.perm_middle.symm

/-- The parts of the lambda of a fold behind a filter keep apart, with the accumulators bound and a
name for the flag that the source has not handed out before. -/
theorem Apart.guarded {p c : Lambda} {s : NameSupply} (h : Apart p c s)
    (hrets : p.rets.length = 1) {pOperands : List Operand}
    (hp : p.params.length = pOperands.length) {acc n : Nat} (hc : c.params.length = acc + n)
    {us : List Value} (hus : us.length = acc) {check : Name} (hcheck : s.count ≤ check.tag) :
    Guarded p c s col pOperands
      ((Pattern.names (c.params.take acc)).zip us ++ bound col (p.params.zip pOperands)) check
      (Pattern.names (c.params.drop acc)) where
  apart := h
  rets := hrets
  nodup := by
    rw [List.map_append, map_fst_accs hc hus, map_fst_bound, List.map_fst_zip (Nat.le_of_eq hp)]
    exact h.nodup_guarded hcheck acc
  producer := fun b hb => List.mem_append_right _ hb
  names := by
    intro b hb
    refine .inl ?_
    rw [Pattern.names_append]
    -- bound are the accumulators and the elements of the producer
    rcases List.mem_append.1 hb with hb | hb
    · refine List.mem_append_left _ ?_
      exact ((List.take_sublist acc c.params).map _).subset (List.of_mem_zip hb).1
    · obtain ⟨e, he, rfl⟩ := List.mem_map.1 hb
      exact List.mem_append_right _ (List.mem_map_of_mem (List.of_mem_zip he).1)
  check := hcheck

/-- Names that are bound differently from each other are looked up as they are bound. -/
theorem map_lookup?_of_mem {bs : List (Name × Value)} (hbs : (bs.map (·.1)).Nodup) {xs : List Name}
    {vs : List Value} (hlen : xs.length = vs.length) (hmem : ∀ b ∈ xs.zip vs, b ∈ bs) :
    xs.map (env.extendMany bs).lookup? = vs.map some := by
  refine List.ext_getElem (by rw [List.length_map, List.length_map, hlen]) fun i hi hi' => ?_
  rw [List.length_map] at hi hi'
  rw [List.getElem_map, List.getElem_map]
  refine Env.lookup?_extendMany_of_mem hbs (hmem _ ?_)
  rw [← List.getElem_zip (h := by rw [List.length_zip, ← hlen, Nat.min_self]; exact hi)]
  exact List.getElem_mem _

section

variable {p c : Lambda} {pOperands cOperands : List Operand} {acc : Nat} {us : List Value}

/-- The lambda of a fold behind a filter takes the accumulators and one element of each operand of
the producer. -/
theorem length_params_guarded (hp : p.params.length = pOperands.length)
    (hc : c.params.length = acc + cOperands.length) :
    (c.params.take acc ++ p.params).length = acc + pOperands.length := by
  rw [List.length_append, List.length_take, hp, hc]
  omega

/-- To apply it is to evaluate its body with the accumulators and the elements bound. -/
theorem apply_guarded (hp : p.params.length = pOperands.length)
    (hc : c.params.length = acc + cOperands.length) (hus : us.length = acc) {body : Exp}
    {rets : List Ty} :
    Lambda.apply call env ⟨c.params.take acc ++ p.params, body, rets⟩ (us ++ pOperands.map col)
      = body.eval call (env.extendMany ((Pattern.names (c.params.take acc)).zip us
          ++ bound col (p.params.zip pOperands)))
        >>= fun v => Eval.lift (v.results rets.length) := by
  have hlen := length_params_guarded hp hc
  rw [Lambda.apply_of_length (by rw [hlen, List.length_append, List.length_map, hus])]
  change (body.eval call (env.extendMany
    ((Pattern.names (c.params.take acc ++ p.params)).zip (us ++ pOperands.map col))) >>= _) = _
  rw [Pattern.names_append, List.zip_append, zip_params_all hp]
  rw [Pattern.length_names, List.length_take, hc, hus]
  omega

/-- A fold behind a filter returns its accumulators where the predicate rejects the element. -/
theorem fold_rejected {s : NameSupply} (h : Apart p c s) (hrets : p.rets.length = 1)
    (hu : ∀ fn args, Uniform (call fn args)) (hp : p.params.length = pOperands.length)
    (hc : c.params.length = acc + cOperands.length) (hus : us.length = acc)
    {check : Ident} (hcheck : s.count ≤ check.name.tag) {i : Nat}
    (hflag : Yields w (p.test call env (pOperands.map col)) false i) {yes : Exp} {ty : Ty}
    {rets : List Ty} (hlen : rets.length = acc) :
    Yields w (Lambda.apply call env ⟨c.params.take acc ++ p.params, .bind [check] p.body
      (.cond (.ofIdent check) yes (.results ((c.params.take acc).map .ofIdent)) ty .dummy), rets⟩
        (us ++ pOperands.map col)) us i := by
  have hguarded : Guarded p c s col pOperands _ _ _ := h.guarded hrets hp hc hus hcheck
  have hnodup := hguarded.nodup
  rw [← List.singleton_append, ← List.append_assoc] at hnodup
  have hlookup : (Pattern.names (c.params.take acc)).map (env.extendMany
      ((Pattern.names (c.params.take acc)).zip us ++ bound col (p.params.zip pOperands)
        ++ [(check.name, .bool false)])).lookup? = us.map some := by
    refine map_lookup?_of_mem ?_ ?_ fun b hb => ?_
    · rw [List.map_append]
      exact (List.nodup_append.1 hnodup).1
    · rw [Pattern.length_names, List.length_take, hc, hus]
      omega
    · exact List.mem_append_left _ (List.mem_append_left _ hb)
  rw [apply_guarded hp hc hus]
  refine (hguarded.yields_rejected hu hflag (Exp.yields_results hu
    (Exp.yields_evalAll_idents hlookup))).bind
      (f := fun v => Eval.lift (v.results rets.length)) (.lift ?_)
  rw [hlen, ← hus]
  exact Value.results_ofResults us

/-- A fold behind a filter does its step where the predicate accepts the element. -/
theorem fold_accepted {s : NameSupply} (h : Apart p c s) (hrets : p.rets.length = 1)
    (hu : ∀ fn args, Uniform (call fn args)) (hp : p.params.length = pOperands.length)
    (hc : c.params.length = acc + cOperands.length) (hus : us.length = acc)
    {check : Ident} (hcheck : s.count ≤ check.name.tag) {i j : Nat}
    (hflag : Yields w (p.test call env (pOperands.map col)) true i)
    {readers : List (Ident × Nat × Source)} {outs : List Ident}
    (houts : outs.length = pOperands.length)
    (hreaders : List.Forall₂ (IsReader (sources outs p.params pOperands))
      ((c.params.drop acc).zip cOperands) readers) {col' : Operand → Value}
    (hlink : ∀ a ∈ cOperands, ∀ k b, link outs a = some k → pOperands[k]? = some b → col' a = col b)
    {t : List Value} (ht : Yields w (c.apply call env (us ++ cOperands.map col')) t j) {no : Exp}
    {ty : Ty} :
    Yields w (Lambda.apply call env ⟨c.params.take acc ++ p.params, .bind [check] p.body
      (.cond (.ofIdent check) (forward (readers.map fun (q, _, s) => (q, s.param)) c.body) no ty
        .dummy), c.rets⟩ (us ++ pOperands.map col)) t (i + j) := by
  have hforwards : (readers.map fun r => (r.1, r.2.2.param)).map (·.1) = c.params.drop acc := by
    rw [List.map_map]
    change readers.map Prod.fst = _
    rw [map_fst_of_forall₂ (fun _ _ h => h.1) hreaders, map_fst_params hc]
  have hguarded : Guarded p c s col pOperands _ _ _ := h.guarded hrets hp hc hus hcheck
  rw [← hforwards] at hguarded
  obtain ⟨-, v, hv, hres⟩ := (Lambda.yields_apply_iff hu).1 ht
  rw [apply_guarded hp hc hus]
  refine (hguarded.yields_accepted hu hflag hus hc (fun b hb => List.mem_append_left _ hb) hforwards
    (fun b hb => ?_) hv).bind (f := fun v => Eval.lift (v.results c.rets.length)) (.lift hres)
  · obtain ⟨r, hr, rfl⟩ := List.mem_map.1 hb
    obtain ⟨e, he, hparam, hlinked, hsource⟩ := exists_of_forall₂ hreaders hr
    rw [map_output_sources houts hp] at hlinked
    obtain ⟨hmem, hget⟩ := sources_getElem? hsource
    refine ⟨e.2, ?_, List.mem_append_right _ (List.mem_map.2 ⟨_, hmem, ?_⟩)⟩
    · rw [hparam]
      exact he
    · rw [hlink e.2 (List.of_mem_zip he).2 _ _ hlinked hget]

end

/-- A fold behind a filter reads nothing but its outputs. -/
theorem linked_foldAfterFilter {p c : Lambda} {pOperands cOperands : List Operand}
    {outs : List Ident} {acc : Nat} {s s' : NameSupply} {r : Lambda × List Operand}
    (h : foldAfterFilter p pOperands outs c acc cOperands s = .ok (some r, s'))
    (houts : outs.length = pOperands.length) {a : Operand} (ha : a ∈ cOperands) :
    ∃ k, link outs a = some k := by
  obtain ⟨hp, hc, readers, -, hreaders, -, -, -⟩ := foldAfterFilter_eq_ok h
  have hparams : (c.params.drop acc).length = cOperands.length := by
    rw [List.length_drop]
    omega
  rw [← List.map_snd_zip (Nat.le_of_eq hparams.symm)] at ha
  obtain ⟨e, he, rfl⟩ := List.mem_map.1 ha
  obtain ⟨r, -, -, hlink, -⟩ := exists_of_forall₂ (readers_of_readers? hreaders).flip he
  rw [map_output_sources houts hp] at hlink
  exact ⟨_, hlink⟩

/-- At an element that the predicate accepts, a fold behind a filter does what the fold does on the
element; at any other one it returns its accumulators.  This is so if there is a tag for the name of
the guard, which could otherwise be that of a parameter or a name that is free in the fold. -/
theorem foldAfterFilter_apply {p c : Lambda} {pOperands cOperands : List Operand}
    {outs : List Ident} {acc : Nat} {s s' : NameSupply} {r : Lambda × List Operand}
    (h : foldAfterFilter p pOperands outs c acc cOperands s = .ok (some r, s'))
    (hroom : s.Serves s') (hapart : Apart p c s) (hrets : p.rets.length = 1)
    (hu : ∀ fn args, Uniform (call fn args)) (houts : outs.length = pOperands.length)
    (hc : c.rets.length = acc) (hcol : ∀ a b : Operand, a.sameSource b = true → col a = col b)
    {us t : List Value} {flag : Bool} {i j : Nat} (hus : us.length = acc)
    (hflag : Yields w (p.test call env (pOperands.map col)) flag i) {col' : Operand → Value}
    (hlink : flag = true → ∀ a ∈ cOperands, ∀ k b, link outs a = some k → pOperands[k]? = some b →
      col' a = col b)
    (ht : if flag then Yields w (c.apply call env (us ++ cOperands.map col')) t j
      else t = us ∧ j = 0) :
    Yields w (r.1.apply call env (us ++ r.2.map col)) t (i + j) := by
  obtain ⟨hp, hcLength, readers, check, hreaders, htag, hcount, rfl⟩ := foldAfterFilter_eq_ok h
  have hcheck : s.count ≤ check.name.tag := (htag.trans (hroom.next_eq (by omega))).ge
  have hnodup : (Pattern.names (c.params.take acc ++ p.params)).Nodup := by
    rw [Pattern.names_append]
    exact (List.nodup_append.1 (hapart.nodup_guarded hcheck acc)).1
  rw [dedupOperands_apply (length_params_guarded hp hcLength) hnodup hus hcol]
  cases flag with
  | false =>
    obtain ⟨rfl, rfl⟩ := ht
    exact fold_rejected hapart hrets hu hp hcLength hus hcheck hflag hc
  | true =>
    exact fold_accepted hapart hrets hu hp hcLength hus hcheck hflag houts
      (readers_of_readers? hreaders) (hlink rfl) ht

end

end Recipe

end ArrayFusion
