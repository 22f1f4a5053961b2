import ArrayFusion.Fusion.Composition
import ArrayFusion.Proofs.Ends
import ArrayFusion.Proofs.Rows

/-!
# Parameters of a composition

The recipes rearrange the parameters of the lambdas that they compose: some parameters become `let`s
that forward the value of another one, and the rest comes in another order.  An environment that
binds distinct names is determined by the set of its bindings, so all of this comes down to which
parameter gets which value.
-/

namespace ArrayFusion

open Eval (Yields Uniform)
open Env (AgreeOn)

/-! ## Environments by their bindings -/

namespace Env

variable {env : Env} {V : Set Name}

/-- Of different names each has the value that it is bound to. -/
theorem lookup?_extendMany_of_mem {bs : List (Name × Value)} (hbs : (bs.map (·.1)).Nodup) {x : Name}
    {v : Value} (h : (x, v) ∈ bs) : (env.extendMany bs).lookup? x = some v := by
  induction bs generalizing env with
  | nil => cases h
  | cons b bs ih =>
    obtain ⟨hb, hbs⟩ := List.nodup_cons.1 hbs
    rw [show env.extendMany (b :: bs) = (env.extend b.1 b.2).extendMany bs from rfl]
    rcases List.mem_cons.1 h with rfl | h
    · rw [lookup?_extendMany_of_notMem hb, lookup?_extend, if_pos rfl]
    · exact ih hbs h

/-- Distinct bindings give the names of `V` what other distinct bindings give to them, if the others
are among them and they bind no further name of `V`. -/
theorem agreeOn_of_bindings {bs cs : List (Name × Value)} (hbs : (bs.map (·.1)).Nodup)
    (hcs : (cs.map (·.1)).Nodup) (hsub : ∀ c ∈ cs, c.1 ∈ V → c ∈ bs)
    (hrest : ∀ b ∈ bs, b.1 ∈ V → b.1 ∈ cs.map (·.1)) :
    AgreeOn V (env.extendMany bs) (env.extendMany cs) := by
  intro x hx
  by_cases hxc : x ∈ cs.map (·.1)
  · obtain ⟨⟨y, v⟩, hc, rfl⟩ := List.mem_map.1 hxc
    rw [lookup?_extendMany_of_mem hcs hc, lookup?_extendMany_of_mem hbs (hsub _ hc hx)]
  · rw [lookup?_extendMany_of_notMem hxc, lookup?_extendMany_of_notMem]
    intro hxb
    obtain ⟨b, hb, rfl⟩ := List.mem_map.1 hxb
    exact hxc (hrest b hb hx)

end Env

namespace Recipe

/-! ## Forwarding -/

/-- What a chain of forwarding `let`s binds, if each source has the value that `val` says. -/
def forwarded (val : Ident × Ident → Value) (bs : List (Ident × Ident)) : List (Name × Value) :=
  bs.map fun b => (b.1.name, val b)

/-- Forwarding binds the names in front. -/
theorem map_fst_forwarded (val : Ident × Ident → Value) (bs : List (Ident × Ident)) :
    (forwarded val bs).map (·.1) = Pattern.names (bs.map (·.1)) := by
  rw [forwarded, List.map_map, Pattern.names, List.map_map]
  rfl

/-- Forwarding gives each identifier the value of its source. -/
theorem eval_forward {call : Callee} {env : Env} {body : Exp} {bs : List (Ident × Ident)}
    {val : Ident × Ident → Value} (hval : ∀ b ∈ bs, env.lookup? b.2.name = some (val b))
    (hnew : ∀ b ∈ bs, b.2.name ∉ Pattern.names (bs.map (·.1))) :
    (forward bs body).eval call env = body.eval call (env.extendMany (forwarded val bs)) := by
  induction bs generalizing env with
  | nil => rfl
  | cons b bs ih =>
    -- the binding in front forwards a value that is looked up outside
    have hb : (Exp.ofIdent b.2).eval call env = pure (val b) := by
      rw [Exp.ofIdent, Exp.eval, Env.get, hval b List.mem_cons_self]
      rfl
    have hstep : (forward (b :: bs) body).eval call env
        = (forward bs body).eval call (env.extend b.1.name (val b)) := by
      rw [show forward (b :: bs) body = .letIn [b.1] (.ofIdent b.2)
        (forward bs body) .dummy from rfl, Exp.eval, hb]
      rfl
    rw [hstep, ih]
    · rfl
    · -- the sources of the others are not hidden by it
      intro c hc
      rw [Env.lookup?_extend, if_neg, hval c (List.mem_cons_of_mem _ hc)]
      rintro h
      exact hnew c (List.mem_cons_of_mem _ hc) (h ▸ List.mem_cons_self)
    · exact fun c hc h => hnew c (List.mem_cons_of_mem _ hc) (List.mem_cons_of_mem _ h)

/-! ## Binding parameters -/

/-- What the application of a lambda binds, where the parameters range over operands. -/
def bound (col : Operand → Value) (es : List (Ident × Operand)) : List (Name × Value) :=
  es.map fun e => (e.1.name, col e.2)

variable {col : Operand → Value}

/-- The names of a list with operands are bound. -/
theorem map_fst_bound (es : List (Ident × Operand)) :
    (bound col es).map (·.1) = Pattern.names (es.map (·.1)) := by
  rw [bound, List.map_map, Pattern.names, List.map_map]
  rfl

/-- Accumulators and columns are bound one after the other. -/
theorem zip_bound {accs : List Ident} {us : List Value} (hlen : accs.length = us.length)
    (es : List (Ident × Operand)) :
    (Pattern.names (accs ++ es.map (·.1))).zip (us ++ es.map fun e => col e.2)
      = (Pattern.names accs).zip us ++ bound col es := by
  rw [Pattern.names, List.map_append, List.zip_append (by rw [List.length_map, hlen]), List.map_map,
    bound, List.zip_map']
  rfl

/-- The parameters of a fold are bound to the accumulators and then to the columns. -/
theorem zip_params {f : Lambda} {acc : Nat} {operands : List Operand} {us : List Value}
    (hparams : f.params.length = acc + operands.length) (hus : us.length = acc) :
    (Pattern.names f.params).zip (us ++ operands.map col)
      = (Pattern.names (f.params.take acc)).zip us
        ++ bound col ((f.params.drop acc).zip operands) := by
  have hdrop : (f.params.drop acc).length = operands.length := by
    rw [List.length_drop]
    omega
  -- the operands are in step with the parameters behind those of the accumulators
  have hfst : ((f.params.drop acc).zip operands).map (·.1) = f.params.drop acc :=
    List.map_fst_zip (Nat.le_of_eq hdrop)
  have hsnd : (((f.params.drop acc).zip operands).map fun e => col e.2) = operands.map col := by
    change List.map (col ∘ Prod.snd) _ = _
    rw [← List.map_map, List.map_snd_zip (Nat.le_of_eq hdrop.symm)]
  have hlen : (f.params.take acc).length = us.length := by
    rw [List.length_take]
    omega
  have h : _ = _ ++ bound col _ := zip_bound hlen ((f.params.drop acc).zip operands)
  rwa [hfst, hsnd, List.take_append_drop] at h

/-- The parameters of a lambda without accumulators are bound to the columns. -/
theorem zip_params_all {f : Lambda} {operands : List Operand}
    (hparams : f.params.length = operands.length) :
    (Pattern.names f.params).zip (operands.map col) = bound col (f.params.zip operands) :=
  zip_params (hparams.trans (Nat.zero_add _).symm) (rfl : ([] : List Value).length = 0)

/-! ## One parameter for each source -/

/-- What is known when the parameters of `es` were taken into account. -/
structure Coalesced.Covers (es : List (Ident × Operand)) (l : Coalesced) : Prop where
  kept : ∀ e ∈ l.kept, e ∈ es
  forwards : ∀ b ∈ l.forwards, ∃ a a', (b.1, a) ∈ es ∧ (b.2, a') ∈ l.kept ∧ a'.sameSource a = true
  perm : (l.kept.map (·.1) ++ l.forwards.map (·.1)).Perm (es.map (·.1))

/-- One more parameter is covered when it is added. -/
theorem Coalesced.Covers.add {es : List (Ident × Operand)} {l : Coalesced} (h : l.Covers es)
    (e : Ident × Operand) : (l.add e).Covers (es ++ [e]) := by
  unfold Coalesced.add
  split
  · -- the source has been kept before, so the parameter is forwarded
    rename_i kept hfind
    have hkept := List.mem_of_find?_eq_some hfind
    have hsame := List.find?_some hfind
    refine ⟨fun d hd => List.mem_append_left _ (h.kept d hd), fun b hb => ?_, ?_⟩
    · rcases List.mem_append.1 hb with hb | hb
      · obtain ⟨a, a', ha, ha', hs⟩ := h.forwards b hb
        exact ⟨a, a', List.mem_append_left _ ha, ha', hs⟩
      · rw [List.mem_singleton.1 hb]
        exact ⟨e.2, kept.2, by simp, hkept, hsame⟩
    · simp only [List.map_append, List.map_cons, List.map_nil]
      rw [← List.append_assoc]
      exact h.perm.append_right _
  · -- it is new, and kept
    refine ⟨fun d hd => ?_, fun b hb => ?_, ?_⟩
    · rcases List.mem_append.1 hd with hd | hd
      · exact List.mem_append_left _ (h.kept d hd)
      · exact List.mem_append_right _ hd
    · obtain ⟨a, a', ha, ha', hs⟩ := h.forwards b hb
      exact ⟨a, a', List.mem_append_left _ ha, List.mem_append_left _ ha', hs⟩
    · simp only [List.map_append, List.map_cons, List.map_nil]
      refine List.Perm.trans ?_ (h.perm.append_right _)
      rw [List.append_assoc, List.append_assoc]
      exact List.Perm.append_left _ (List.perm_append_comm : ([e.1] ++ _).Perm _)

/-- All parameters are covered when they were added one by one. -/
theorem Coalesced.covers (es : List (Ident × Operand)) :
    (es.foldl Coalesced.add ⟨[], []⟩).Covers es := by
  suffices h : ∀ (es ds : List (Ident × Operand)) (l : Coalesced), l.Covers ds →
      (es.foldl Coalesced.add l).Covers (ds ++ es) from
    h es [] ⟨[], []⟩ ⟨nofun, nofun, .nil⟩
  intro es
  induction es with
  | nil =>
    intro ds l h
    rwa [List.append_nil]
  | cons e es ih =>
    intro ds l h
    rw [List.foldl_cons, ← List.singleton_append (l := es), ← List.append_assoc]
    exact ih _ _ (h.add e)

/-- The parameters of a lambda are accumulators and those that are taken into account. -/
theorem map_fst_params {f : Lambda} {acc : Nat} {operands : List Operand}
    (hparams : f.params.length = acc + operands.length) :
    ((f.params.drop acc).zip operands).map (·.1) = f.params.drop acc :=
  List.map_fst_zip (by rw [List.length_drop]; omega)

/-- Behind the accumulators there is a parameter for each operand. -/
theorem map_snd_params {f : Lambda} {acc : Nat} {operands : List Operand}
    (hparams : f.params.length = acc + operands.length) :
    ((f.params.drop acc).zip operands).map (·.2) = operands :=
  List.map_snd_zip (by rw [List.length_drop]; omega)

/-- A lambda with as many arguments as parameters is applied. -/
theorem Lambda.apply_of_length {call : Callee} {env : Env} {f : Lambda} {args : List Value}
    (h : f.params.length = args.length) :
    f.apply call env args = f.body.eval call (env.extendMany ((Pattern.names f.params).zip args))
      >>= fun v => Eval.lift (v.results f.rets.length) := by
  obtain ⟨ps, b, ts⟩ := f
  rw [Lambda.apply, if_pos h]

/-- Behind the `let`s for the parameters that were left out all parameters have their values. -/
theorem Coalesced.Covers.eval_forward {call : Callee} {env : Env} {body : Exp}
    {es : List (Ident × Operand)} {l : Coalesced} (h : l.Covers es) {as : List (Name × Value)}
    (hnodup : (as.map (·.1) ++ Pattern.names (es.map (·.1))).Nodup)
    (hcol : ∀ a b : Operand, a.sameSource b = true → col a = col b) :
    (forward l.forwards body).eval call (env.extendMany (as ++ bound col l.kept))
      = body.eval call (env.extendMany (as ++ bound col es)) := by
  have hnames : (Pattern.names (l.kept.map (·.1)) ++ Pattern.names (l.forwards.map (·.1))).Perm
      (Pattern.names (es.map (·.1))) := by
    rw [← Pattern.names_append]
    exact h.perm.map _
  have hnodup' : (as.map (·.1) ++ Pattern.names (l.kept.map (·.1))
      ++ Pattern.names (l.forwards.map (·.1))).Nodup := by
    rw [List.append_assoc]
    exact (hnames.append_left _).nodup_iff.2 hnodup
  obtain ⟨hkept, -, hdisjoint⟩ := List.nodup_append.1 hnodup'
  have hkeys : ((as ++ bound col l.kept).map (·.1)).Nodup := by
    rwa [List.map_append, map_fst_bound]
  have hsource : ∀ b ∈ l.forwards, ∃ a, (b.1, a) ∈ es ∧
      (env.extendMany (as ++ bound col l.kept)).lookup? b.2.name = some (col a) := by
    intro b hb
    obtain ⟨a, a', ha, ha', hsame⟩ := h.forwards b hb
    refine ⟨a, ha, ?_⟩
    rw [← hcol a' a hsame]
    exact Env.lookup?_extendMany_of_mem hkeys
      (List.mem_append_right _ (List.mem_map.2 ⟨(b.2, a'), ha', rfl⟩))
  -- the value that a parameter gets that was left out
  let val (b : Ident × Ident) : Value :=
    ((env.extendMany (as ++ bound col l.kept)).lookup? b.2.name).getD default
  have hval : ∀ b ∈ l.forwards, ∃ a, (b.1, a) ∈ es ∧ val b = col a := fun b hb => by
    obtain ⟨a, ha, hlookup⟩ := hsource b hb
    exact ⟨a, ha, by simp only [val, hlookup, Option.getD_some]⟩
  have hforward : ∀ b ∈ l.forwards, (env.extendMany (as ++ bound col l.kept)).lookup? b.2.name
      = some (val b) := fun b hb => by
    obtain ⟨a, -, hlookup⟩ := hsource b hb
    simp only [val, hlookup, Option.getD_some]
  rw [Recipe.eval_forward hforward fun b hb hmem => ?_, ← Env.extendMany_append]
  · -- both environments bind the same names, and to the same values
    refine body.eval_congr call ((Env.agreeOn_of_bindings (V := Set.univ) ?_ ?_ ?_ ?_).symm.mono
      (Set.subset_univ _))
    · rwa [List.map_append, map_fst_bound]
    · rwa [List.map_append, List.map_append, map_fst_bound, map_fst_forwarded]
    · rintro c hc -
      rcases List.mem_append.1 hc with hc | hc
      · rcases List.mem_append.1 hc with hc | hc
        · exact List.mem_append_left _ hc
        · obtain ⟨e, he, rfl⟩ := List.mem_map.1 hc
          exact List.mem_append_right _ (List.mem_map.2 ⟨e, h.kept e he, rfl⟩)
      · obtain ⟨b, hb, rfl⟩ := List.mem_map.1 hc
        obtain ⟨a, ha, hv⟩ := hval b hb
        exact List.mem_append_right _ (List.mem_map.2 ⟨(b.1, a), ha, by rw [hv]⟩)
    · intro b hb _
      have hb := List.mem_map_of_mem (f := (·.1)) hb
      rw [List.map_append, map_fst_bound] at hb
      rw [List.map_append, List.map_append, map_fst_bound, map_fst_forwarded, List.append_assoc]
      exact (hnames.append_left _).mem_iff.2 hb
  · obtain ⟨a, a', -, ha', -⟩ := h.forwards b hb
    refine hdisjoint _ (List.mem_append_right _ ?_) _ hmem rfl
    exact List.mem_map_of_mem (List.mem_map.2 ⟨(b.2, a'), ha', rfl⟩)

/-- The operands that are read once are operands. -/
theorem mem_of_mem_dedupOperands {f : Lambda} {operands : List Operand} {acc : Nat} {a : Operand}
    (h : a ∈ (dedupOperands f operands acc).2) : a ∈ operands := by
  obtain ⟨e, he, rfl⟩ := List.mem_map.1 h
  exact (List.of_mem_zip ((Coalesced.covers _).kept e he)).2

/-- No operand is left out without one in its place. -/
theorem eq_nil_of_dedupOperands {f : Lambda} {operands : List Operand} {acc : Nat}
    (hparams : f.params.length = acc + operands.length)
    (h : (dedupOperands f operands acc).2 = []) : operands = [] := by
  have hcovers := Coalesced.covers ((f.params.drop acc).zip operands)
  have hkept := List.map_eq_nil_iff.1 h
  have hforwards : (((f.params.drop acc).zip operands).foldl Coalesced.add
      ⟨[], []⟩).forwards = [] :=
    List.eq_nil_iff_forall_not_mem.2 fun b hb => by
      obtain ⟨a, a', -, ha', -⟩ := hcovers.forwards b hb
      rw [hkept] at ha'
      cases ha'
  have hperm := hcovers.perm
  rw [hkept, hforwards] at hperm
  have hes := List.map_eq_nil_iff.1 (List.nil_perm.1 hperm)
  rw [← map_snd_params hparams, hes]
  rfl

/-- With one parameter for each source a lambda does what it did before. -/
theorem dedupOperands_apply {call : Callee} {env : Env} {f : Lambda} {operands : List Operand}
    {acc : Nat} {us : List Value} (hparams : f.params.length = acc + operands.length)
    (hnodup : (Pattern.names f.params).Nodup) (hus : us.length = acc)
    (hcol : ∀ a b : Operand, a.sameSource b = true → col a = col b) :
    (dedupOperands f operands acc).1.apply call env
        (us ++ (dedupOperands f operands acc).2.map col)
      = f.apply call env (us ++ operands.map col) := by
  -- what is kept and what is forwarded cover all parameters of the elements
  have hcovers := Coalesced.covers ((f.params.drop acc).zip operands)
  have htake : (f.params.take acc).length = us.length := by
    rw [List.length_take]
    omega
  have hkeys : ((Pattern.names (f.params.take acc)).zip us).map (·.1)
      = Pattern.names (f.params.take acc) :=
    Env.map_fst_zip (by rw [Pattern.length_names, htake])
  rw [dedupOperands, Lambda.apply_of_length, Lambda.apply_of_length, List.map_map,
    zip_params hparams hus, ← hcovers.eval_forward _ hcol]
  · exact congrArg (fun bs => (forward _ f.body).eval call (env.extendMany bs) >>= _)
      (zip_bound htake _)
  · -- the names of the accumulators and of the elements are different
    rw [hkeys, map_fst_params hparams, ← Pattern.names_append, List.take_append_drop]
    exact hnodup
  · rw [hparams, List.length_append, List.length_map, hus]
  · rw [List.length_append, List.length_append, htake, List.length_map, List.length_map,
      List.length_map]

end Recipe

end ArrayFusion
