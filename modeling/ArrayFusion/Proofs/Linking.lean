import Mathlib.Data.List.Nodup
import ArrayFusion.Data.Table
import ArrayFusion.Proofs.Freshening
import ArrayFusion.Proofs.Parameters

/-!
# A consumer behind a map

`Recipe.afterMap` sorts the parameters of the consumer: one that reads an output of the producer is
bound to the result of the producer's body, and a second one that reads the same output forwards its
value.  At one position, the composition yields what the consumer yields on the results of the
producer there (`Recipe.afterMap_apply`).
-/

namespace ArrayFusion

open Eval (Yields Uniform)

namespace Recipe

/-- What the two lambdas of a composition must not share: the parameters of one are neither free in
the other nor parameters of it, and all names were handed out before. -/
structure Apart (p c : Lambda) (s : NameSupply) : Prop where
  params : (Pattern.names (c.params ++ p.params)).Nodup
  producer : ∀ x ∈ Pattern.names p.params, x ∉ c.free false
  consumer : ∀ x ∈ Pattern.names c.params, x ∉ p.free false
  below : ∀ x ∈ Pattern.names (c.params ++ p.params), x.tag < s.count
  free : ∀ x ∈ p.free false ∪ c.free false, x.tag < s.count

/-- The parameters of a lambda are checked to be as many as asked for. -/
theorem checkParams_eq_ok {role : Role} {f : Lambda} {n : Nat} {u : Unit} :
    checkParams role f n = .ok u ↔ f.params.length = n := by
  unfold checkParams
  split
  · rename_i h
    exact ⟨fun _ => h, fun _ => rfl⟩
  · rename_i h
    exact ⟨nofun, fun h' => absurd h' h⟩

/-! ## Sorting the parameters -/

/-- What is known when the parameters of `es` were taken into account. -/
structure Linking.Sorts (outs : List Ident) (es : List (Ident × Operand)) (l : Linking) : Prop where
  binders : ∀ b ∈ l.binders, ∃ a, (b.2, a) ∈ es ∧ link outs a = some b.1
  keys : (l.binders.map (·.1)).Nodup
  forwards : ∀ b ∈ l.forwards, ∃ a i, (b.1, a) ∈ es ∧ link outs a = some i ∧ (i, b.2) ∈ l.binders
  others : ∀ e ∈ l.others, e ∈ es ∧ link outs e.2 = none
  covers : ∀ e ∈ es, ∀ i, link outs e.2 = some i → ∃ x, l.binders.lookup i = some x
  perm : (l.binders.map (·.2) ++ l.forwards.map (·.1) ++ l.others.map (·.1)).Perm (es.map (·.1))

/-- One more operand is sorted into the linking. -/
theorem Linking.Sorts.add {outs : List Ident} {es : List (Ident × Operand)} {l : Linking}
    (h : l.Sorts outs es) (e : Ident × Operand) : (l.add outs e).Sorts outs (es ++ [e]) := by
  have hmem : ∀ d ∈ es, d ∈ es ++ [e] := fun d hd => List.mem_append_left _ hd
  have hbinders : ∀ b ∈ l.binders, ∃ a, (b.2, a) ∈ es ++ [e] ∧ link outs a = some b.1 := by
    intro b hb
    obtain ⟨a, ha, hlink⟩ := h.binders b hb
    exact ⟨a, hmem _ ha, hlink⟩
  have hothers : ∀ d ∈ l.others, d ∈ es ++ [e] ∧ link outs d.2 = none := fun d hd =>
    ⟨hmem d (h.others d hd).1, (h.others d hd).2⟩
  have hlast : e ∈ es ++ [e] := by simp
  unfold Linking.add
  split
  · -- it reads none of the outputs
    rename_i hnone
    refine ⟨hbinders, h.keys, fun b hb => ?_, fun d hd => ?_, fun d hd i hi => ?_, ?_⟩
    · obtain ⟨a, i, ha, hrest⟩ := h.forwards b hb
      exact ⟨a, i, hmem _ ha, hrest⟩
    · rcases List.mem_append.1 hd with hd | hd
      · exact hothers d hd
      · rw [List.mem_singleton.1 hd]
        exact ⟨hlast, hnone⟩
    · rcases List.mem_append.1 hd with hd | hd
      · exact h.covers d hd i hi
      · rw [List.mem_singleton.1 hd, hnone] at hi
        cases hi
    · simp only [List.map_append, List.map_cons, List.map_nil]
      rw [← List.append_assoc]
      exact h.perm.append_right _
  · rename_i i hlink
    split
    · -- the first parameter that reads the output binds it
      rename_i hlookup
      refine ⟨fun b hb => ?_, ?_, fun b hb => ?_, hothers, fun d hd j hj => ?_, ?_⟩
      · rcases List.mem_cons.1 hb with rfl | hb
        · exact ⟨e.2, hlast, hlink⟩
        · exact hbinders b hb
      · refine List.nodup_cons.2 ⟨fun hi => ?_, h.keys⟩
        obtain ⟨b, hb, rfl⟩ := List.mem_map.1 hi
        simpa using List.lookup_eq_none_iff.1 hlookup b hb
      · obtain ⟨a, j, ha, hj, hb⟩ := h.forwards b hb
        exact ⟨a, j, hmem _ ha, hj, List.mem_cons_of_mem _ hb⟩
      · by_cases hji : j = i
        · exact ⟨e.1, by rw [hji, List.lookup_cons_self]⟩
        · rw [List.lookup_cons, beq_eq_false_iff_ne.2 hji]
          rcases List.mem_append.1 hd with hd | hd
          · exact h.covers d hd j hj
          · rw [List.mem_singleton.1 hd, hlink] at hj
            exact absurd (Option.some.inj hj).symm hji
      · simp only [List.map_append, List.map_cons, List.map_nil, List.cons_append]
        exact (h.perm.cons e.1).trans (List.perm_append_singleton _ _).symm
    · -- the output is bound already, and the parameter is forwarded to its binder
      rename_i x hlookup
      refine ⟨hbinders, h.keys, fun b hb => ?_, hothers, fun d hd j hj => ?_, ?_⟩
      · rcases List.mem_append.1 hb with hb | hb
        · obtain ⟨a, j, ha, hrest⟩ := h.forwards b hb
          exact ⟨a, j, hmem _ ha, hrest⟩
        · rw [List.mem_singleton.1 hb]
          refine ⟨e.2, i, hlast, hlink, ?_⟩
          obtain ⟨l₁, l₂, heq, -⟩ := List.lookup_eq_some_iff.1 hlookup
          rw [heq]
          simp
      · rcases List.mem_append.1 hd with hd | hd
        · exact h.covers d hd j hj
        · rw [List.mem_singleton.1 hd, hlink] at hj
          exact ⟨x, Option.some.inj hj ▸ hlookup⟩
      · simp only [List.map_append, List.map_cons, List.map_nil]
        refine List.Perm.trans ?_ (h.perm.append_right _)
        simp only [List.append_assoc]
        exact ((List.perm_append_comm : ([e.1] ++ _).Perm _).append_left _).append_left _

/-- The parameters of a consumer by what they read. -/
def linking (outs : List Ident) (es : List (Ident × Operand)) : Linking :=
  es.foldl (Linking.add outs) ⟨[], [], []⟩

/-- The linking of operands sorts all of them. -/
theorem linking_sorts (outs : List Ident) (es : List (Ident × Operand)) :
    (linking outs es).Sorts outs es := by
  suffices h : ∀ (es ds : List (Ident × Operand)) (l : Linking), l.Sorts outs ds →
      (es.foldl (Linking.add outs) l).Sorts outs (ds ++ es) from
    h es [] ⟨[], [], []⟩ ⟨nofun, List.nodup_nil, nofun, nofun, nofun, .nil⟩
  intro es
  induction es with
  | nil =>
    intro ds l h
    rwa [List.append_nil]
  | cons e es ih =>
    intro ds l h
    rw [List.foldl_cons, ← List.singleton_append (l := es), ← List.append_assoc]
    exact ih _ _ (h.add e)

/-! ## The pattern of the producer -/

/-- A pattern for the outputs of the producer from the `k`-th one on: the parameters that read them,
and fresh names in between. -/
structure Linking.Patterned (l : Linking) (k n : Nat) (s s' : NameSupply) (p : Pattern) : Prop where
  supply : s.count ≤ s'.count
  length : p.length = n
  binder : ∀ i < n, ∀ x, l.binders.lookup (k + i) = some x → p[i]? = some x
  source : ∀ y ∈ p, (∃ j, k ≤ j ∧ l.binders.lookup j = some y) ∨ y.name ∈ s.until s'
  nodup : p.names.Nodup

/-- Parameters that read different outputs are different, and if names are taken for outputs that
nothing reads, there are tags for them. -/
theorem Linking.patterned {l : Linking}
    (hinj : ∀ i j x y, l.binders.lookup i = some x → l.binders.lookup j = some y →
      x.name = y.name → i = j)
    {es : List (Ident × Ty)} {k : Nat} {s s' : NameSupply} {p : Pattern}
    (hbelow : ∀ i x, l.binders.lookup i = some x → x.name.tag < s.count) (hroom : s.Serves s')
    (h : ((es.zipIdx k).mapM fun ((out, ty), i) =>
      match l.binders.lookup i with
      | some x => pure x
      | none => Fresh.ident out.name.base ty : Fresh Pattern) s = .ok (p, s')) :
    l.Patterned k es.length s s' p := by
  induction es generalizing k s p with
  | nil =>
    obtain ⟨rfl, rfl⟩ := State.pure_eq_ok.1 h
    exact ⟨Nat.le_refl _, rfl, nofun, nofun, List.nodup_nil⟩
  | cons e es ih =>
    rw [List.zipIdx_cons, List.mapM_cons] at h
    obtain ⟨x, s₁, hx, h⟩ := State.bind_eq_ok.1 h
    obtain ⟨p₁, s₂, hp, h⟩ := State.bind_eq_ok.1 h
    obtain ⟨rfl, rfl⟩ := State.pure_eq_ok.1 h
    -- an output is either bound already or gets the next name of the supply
    have hhead : s.count ≤ s₁.count ∧ (l.binders.lookup k = some x ∨
        l.binders.lookup k = none ∧ x.name.tag = s.next ∧ s₁.count = s.count + 1) := by
      change (match l.binders.lookup k with
        | some x => pure x
        | none => Fresh.ident e.1.name.base e.2 : Fresh Ident) s = .ok (x, s₁) at hx
      cases hlookup : l.binders.lookup k with
      | some y =>
        rw [hlookup] at hx
        obtain ⟨rfl, rfl⟩ := State.pure_eq_ok.1 hx
        exact ⟨Nat.le_refl _, .inl rfl⟩
      | none =>
        rw [hlookup] at hx
        cases hx
        exact ⟨Nat.le_succ _, .inr ⟨rfl, rfl, rfl⟩⟩
    -- the supply only grows, so the binders lie below whatever is handed out behind
    have htail := ih (fun i y hy => Nat.lt_of_lt_of_le (hbelow i y hy) hhead.1)
      (hroom.behind hhead.1) hp
    have hle := htail.supply
    have hnext (hlt : s.count < s₁.count) : s.next = s.count := hroom.next_eq (by omega)
    refine ⟨by omega, by rw [List.length_cons, List.length_cons, htail.length], ?_, ?_, ?_⟩
    · intro i hi y hy
      cases i with
      | zero =>
        rcases hhead.2 with hx | ⟨hnone, -⟩
        · rw [List.getElem?_cons_zero, ← hx]
          exact hy
        · rw [Nat.add_zero, hnone] at hy
          cases hy
      | succ i =>
        rw [List.getElem?_cons_succ]
        refine htail.binder i (by simpa using hi) y ?_
        rwa [Nat.add_right_comm, Nat.add_assoc]
    · intro y hy
      rcases List.mem_cons.1 hy with rfl | hy
      · rcases hhead.2 with hx | ⟨-, htag, hcount⟩
        · exact .inl ⟨k, Nat.le_refl k, hx⟩
        · exact .inr (NameSupply.mem_until_of_tag_eq htag (by omega))
      · rcases htail.source y hy with ⟨j, hj, hlookup⟩ | hy
        · exact .inl ⟨j, by omega, hlookup⟩
        · exact .inr (NameSupply.until_subset hhead.1 (Nat.le_refl _) hy)
    · -- two binders of one name are for one output, and fresh names lie above the binders
      refine List.nodup_cons.2 ⟨fun hmem => ?_, htail.nodup⟩
      obtain ⟨y, hy, hname : y.name = x.name⟩ := List.mem_map.1 hmem
      rcases hhead.2 with hx | ⟨-, htag, hcount⟩
      · rcases htail.source y hy with ⟨j, hj, hlookup⟩ | hy
        · have hjk := hinj j k y x hlookup hx hname
          omega
        · have hlt := hbelow k x hx
          have hlow := (hroom.behind hhead.1).le_of_mem_until hy
          rw [hname] at hlow
          omega
      · have heq := hnext (by omega)
        rcases htail.source y hy with ⟨j, hj, hlookup⟩ | hy
        · have hlt := hbelow j y hlookup
          rw [hname] at hlt
          omega
        · have hlow := (hroom.behind hhead.1).le_of_mem_until hy
          rw [hname] at hlow
          omega

/-- The pattern for the outputs of the producer binds what is read of them, and fresh names for the
others. -/
theorem Linking.patterned_of_pattern {outs : List Ident} {es : List (Ident × Operand)}
    {rets : List Ty} {s s' : NameSupply} {p : Pattern}
    (hnodup : (Pattern.names (es.map (·.1))).Nodup)
    (hbelow : ∀ x ∈ Pattern.names (es.map (·.1)), x.tag < s.count) (hroom : s.Serves s')
    (h : (linking outs es).pattern outs rets s = .ok (p, s')) :
    (linking outs es).Patterned 0 (outs.zip rets).length s s' p := by
  have hs := linking_sorts outs es
  have hmem : ∀ {i x}, (linking outs es).binders.lookup i = some x →
      (i, x) ∈ (linking outs es).binders := by
    intro i x hlookup
    obtain ⟨l₁, l₂, heq, -⟩ := List.lookup_eq_some_iff.1 hlookup
    rw [heq]
    simp
  -- the binders are a part of the consumer's parameters, so they have distinct names
  have hnames : (Pattern.names ((linking outs es).binders.map (·.2))).Nodup := by
    have hall : (Pattern.names ((linking outs es).binders.map (·.2)
        ++ (linking outs es).forwards.map (·.1) ++ (linking outs es).others.map (·.1))).Nodup :=
      (hs.perm.map _).nodup_iff.2 hnodup
    rw [Pattern.names_append, Pattern.names_append] at hall
    exact (List.nodup_append.1 (List.nodup_append.1 hall).1).1
  refine Linking.patterned (fun i j x y hx hy hxy => ?_) (fun i x hx => ?_) hroom h
  · rw [Pattern.names, List.map_map] at hnames
    have heq := List.inj_on_of_nodup_map hnames (hmem hx) (hmem hy) hxy
    exact congrArg Prod.fst heq
  · obtain ⟨a, ha, -⟩ := hs.binders _ (hmem hx)
    exact hbelow _ (List.mem_map_of_mem (List.mem_map.2 ⟨_, ha, rfl⟩))

/-- No name is taken for the pattern if a parameter reads each of the outputs. -/
theorem Linking.supply_of_pattern {l : Linking} {outs : List Ident} {rets : List Ty}
    {s s' : NameSupply} {p : Pattern} (hall : ∀ i < outs.length, ∃ x, l.binders.lookup i = some x)
    (h : l.pattern outs rets s = .ok (p, s')) : s' = s := by
  have hindices : ∀ e ∈ (outs.zip rets).zipIdx, ∃ x, l.binders.lookup e.2 = some x := fun e he => by
    obtain ⟨hlt, -⟩ := List.getElem?_eq_some_iff.1 (List.mk_mem_zipIdx_iff_getElem?.1 he)
    exact hall e.2 (Nat.lt_of_lt_of_le hlt (by rw [List.length_zip]; exact Nat.min_le_left _ _))
  unfold Linking.pattern at h
  generalize (outs.zip rets).zipIdx = es at h hindices
  induction es generalizing s p with
  | nil => exact (State.pure_eq_ok.1 h).2
  | cons e es ih =>
    obtain ⟨⟨x, hx⟩, hes⟩ := List.forall_mem_cons.1 hindices
    rw [List.mapM_cons] at h
    obtain ⟨y, s₁, hy, h⟩ := State.bind_eq_ok.1 h
    obtain ⟨q, s₂, hq, h⟩ := State.bind_eq_ok.1 h
    obtain ⟨-, rfl⟩ := State.pure_eq_ok.1 h
    dsimp only at hy
    rw [hx] at hy
    obtain ⟨-, rfl⟩ := State.pure_eq_ok.1 hy
    exact ih hq hes

/-! ## The composition -/

/-- What a stage behind a map is made of: the lambda of the producer with its results bound to the
pattern, and the consumer's body behind it. -/
theorem afterMap_eq_ok {p c : Lambda} {pOperands cOperands : List Operand} {outs : List Ident}
    {acc : Nat} {s s' : NameSupply} {r : Lambda × List Operand}
    (h : afterMap p pOperands outs c acc cOperands s = .ok (r, s')) :
    p.params.length = pOperands.length ∧ c.params.length = acc + cOperands.length ∧
      ∃ pattern, (linking outs ((c.params.drop acc).zip cOperands)).pattern outs p.rets s
          = .ok (pattern, s') ∧
        r = dedupOperands
          ⟨c.params.take acc ++ (p.params
              ++ (linking outs ((c.params.drop acc).zip cOperands)).others.map (·.1)),
            .bind pattern p.body
              (forward (linking outs ((c.params.drop acc).zip cOperands)).forwards c.body), c.rets⟩
          (pOperands ++ (linking outs ((c.params.drop acc).zip cOperands)).others.map (·.2))
    acc := by
  unfold afterMap at h
  obtain ⟨_, s₁, h₁, hrest₁⟩ := State.bind_eq_ok.1 h
  obtain ⟨hp, rfl⟩ := Fresh.lift_eq_ok.1 h₁
  obtain ⟨_, s₂, h₂, hrest₂⟩ := State.bind_eq_ok.1 hrest₁
  obtain ⟨hc, rfl⟩ := Fresh.lift_eq_ok.1 h₂
  obtain ⟨pattern, s₃, hpattern, hrest₃⟩ := State.bind_eq_ok.1 hrest₂
  obtain ⟨rfl, rfl⟩ := State.pure_eq_ok.1 hrest₃
  exact ⟨checkParams_eq_ok.1 hp, checkParams_eq_ok.1 hc, pattern, hpattern, rfl⟩

section

variable {p c : Lambda} {pOperands cOperands : List Operand} {outs : List Ident} {acc : Nat}
  {s s' : NameSupply} {r : Lambda × List Operand}

/-- A stage behind a map returns what the consumer returns. -/
theorem afterMap_rets (h : afterMap p pOperands outs c acc cOperands s = .ok (r, s')) :
    r.1.rets = c.rets := by
  obtain ⟨-, -, pattern, -, rfl⟩ := afterMap_eq_ok h
  rfl

/-- A map whose outputs the consumer reads all as a whole takes no names. -/
theorem supply_afterMap (h : afterMap p pOperands outs c acc cOperands s = .ok (r, s'))
    (hall : ∀ i < outs.length, ∃ a ∈ cOperands, link outs a = some i) : s' = s := by
  obtain ⟨-, hc, pattern, hpattern, -⟩ := afterMap_eq_ok h
  refine Linking.supply_of_pattern (fun i hi => ?_) hpattern
  obtain ⟨a, ha, hlink⟩ := hall i hi
  have hsnd : ((c.params.drop acc).zip cOperands).map (·.2) = cOperands :=
    List.map_snd_zip (by rw [List.length_drop]; omega)
  rw [← hsnd] at ha
  obtain ⟨e, he, rfl⟩ := List.mem_map.1 ha
  exact (linking_sorts outs _).covers e he i hlink

/-- The operands of the composition are those of the producer and the others of the consumer. -/
theorem mem_of_mem_afterMap (h : afterMap p pOperands outs c acc cOperands s = .ok (r, s'))
    {a : Operand} (ha : a ∈ r.2) :
    a ∈ pOperands ∨ a ∈ cOperands ∧ link outs a = none := by
  obtain ⟨-, -, pattern, -, rfl⟩ := afterMap_eq_ok h
  refine (List.mem_append.1 (mem_of_mem_dedupOperands ha)).imp_right fun ha => ?_
  obtain ⟨e, he, rfl⟩ := List.mem_map.1 ha
  obtain ⟨hmem, hlink⟩ := (linking_sorts outs ((c.params.drop acc).zip cOperands)).others e he
  exact ⟨(List.of_mem_zip hmem).2, hlink⟩

theorem length_params_afterMap (hp : p.params.length = pOperands.length)
    (hc : c.params.length = acc + cOperands.length) (others : List (Ident × Operand)) :
    (c.params.take acc ++ (p.params ++ others.map (·.1))).length
      = acc + (pOperands ++ others.map (·.2)).length := by
  simp only [List.length_append, List.length_take, List.length_map]
  omega

theorem eq_nil_of_afterMap (h : afterMap p pOperands outs c acc cOperands s = .ok (r, s'))
    (hr : r.2 = []) : pOperands = [] := by
  obtain ⟨hp, hc, pattern, -, rfl⟩ := afterMap_eq_ok h
  exact (List.append_eq_nil_iff.1
    (eq_nil_of_dedupOperands (length_params_afterMap hp hc _) hr)).1

end

section

variable {w : String → Nat} {call : Callee} {env : Env} {col : Operand → Value}

/-- The body of a lambda means what it means for the arguments wherever the parameters have them as
values and no free name of the lambda is bound. -/
theorem Lambda.eval_body {f : Lambda} {args : List Value} (hlen : f.params.length = args.length)
    (hparams : (Pattern.names f.params).Nodup) {bs : List (Name × Value)}
    (hnodup : (bs.map (·.1)).Nodup) (hmem : ∀ b ∈ (Pattern.names f.params).zip args, b ∈ bs)
    (hfree : ∀ b ∈ bs, b.1 ∉ f.free false) :
    f.body.eval call (env.extendMany bs)
      = f.body.eval call (env.extendMany ((Pattern.names f.params).zip args)) := by
  have hkeys : ((Pattern.names f.params).zip args).map (·.1) = Pattern.names f.params :=
    Env.map_fst_zip (by rw [Pattern.length_names, hlen])
  refine f.body.eval_congr call (Env.agreeOn_of_bindings hnodup ?_ (fun b hb _ => hmem b hb) ?_)
  · rw [hkeys]
    exact hparams
  · intro b hb hbody
    rw [hkeys]
    exact (Lambda.mem_free_body hbody).resolve_left (hfree b hb)

/-- Neither a parameter nor a new name is free in the producer or in the consumer. -/
theorem Apart.notMem_free {p c : Lambda} {s : NameSupply} (h : Apart p c s) {x : Name}
    (hx : x ∈ Pattern.names (c.params ++ p.params) ∨ s.count ≤ x.tag) :
    x ∉ p.free false ∧ x ∉ c.free false := by
  rcases hx with hx | hx
  · rw [Pattern.names_append] at hx
    rcases List.mem_append.1 hx with hx | hx
    · exact ⟨h.consumer x hx, Lambda.notMem_free_of_param hx⟩
    · exact ⟨Lambda.notMem_free_of_param hx, h.producer x hx⟩
  · exact ⟨fun hfree => absurd (h.free x (.inl hfree)) (by omega),
      fun hfree => absurd (h.free x (.inr hfree)) (by omega)⟩

theorem Apart.nodup {p c : Lambda} {s : NameSupply} (h : Apart p c s) :
    (Pattern.names p.params).Nodup ∧ (Pattern.names c.params).Nodup := by
  have hnames := h.params
  rw [Pattern.names_append] at hnames
  exact ⟨(List.nodup_append.1 hnames).2.1, (List.nodup_append.1 hnames).1⟩

/-- Two operands of one parameter are the same. -/
theorem operand_unique {es : List (Ident × Operand)} (hnodup : (Pattern.names (es.map (·.1))).Nodup)
    {x : Ident} {a b : Operand} (ha : (x, a) ∈ es) (hb : (x, b) ∈ es) : a = b :=
  congrArg Prod.snd (List.inj_on_of_nodup_map hnodup.of_map ha hb rfl)

/-- Behind some bindings, the body of a consumer that is led on from them does what it does on its
arguments, if each parameter has its value there or is led on from a name that has it. -/
theorem eval_forward_body {f : Lambda} {acc : Nat} {operands : List Operand} {us : List Value}
    (hlen : f.params.length = acc + operands.length) (hus : us.length = acc)
    (hparams : (Pattern.names f.params).Nodup) {bs : List (Name × Value)}
    {forwards : List (Ident × Ident)}
    (hnodup : (bs.map (·.1) ++ Pattern.names (forwards.map (·.1))).Nodup)
    (hacc : ∀ b ∈ (Pattern.names (f.params.take acc)).zip us, b ∈ bs) (hforwards : ∀ b ∈ forwards,
    ∃ a, (b.1, a) ∈ (f.params.drop acc).zip operands ∧ (b.2.name, col a) ∈ bs)
    (hbound : ∀ e ∈ (f.params.drop acc).zip operands, e.1 ∈ forwards.map (·.1) ∨
    (e.1.name, col e.2) ∈ bs)
    (hfree : ∀ x ∈ bs.map (·.1) ++ Pattern.names (forwards.map (·.1)), x ∉ f.free false) :
    (forward forwards f.body).eval call (env.extendMany bs)
      = f.body.eval call (env.extendMany
        ((Pattern.names f.params).zip (us ++ operands.map col))) := by
  have hlookup : ∀ b ∈ forwards, ∃ a, (b.1, a) ∈ (f.params.drop acc).zip operands
      ∧ (env.extendMany bs).lookup? b.2.name = some (col a) := fun b hb => by
    obtain ⟨a, ha, hmem⟩ := hforwards b hb
    exact ⟨a, ha, Env.lookup?_extendMany_of_mem (List.nodup_append.1 hnodup).1 hmem⟩
  -- what the environment holds for the parameter that another one is led on to
  let val (b : Ident × Ident) : Value := ((env.extendMany bs).lookup? b.2.name).getD default
  have hval : ∀ b ∈ forwards, ∀ a, (env.extendMany bs).lookup? b.2.name = some (col a) → val b =
      col a :=
    fun b _ a hlook => by simp only [val, hlook, Option.getD_some]
  have hforward : ∀ b ∈ forwards, (env.extendMany bs).lookup? b.2.name = some (val b) :=
      fun b hb => by
    obtain ⟨a, -, hlook⟩ := hlookup b hb
    rw [hlook, hval b hb a hlook]
  have hunique : (Pattern.names (((f.params.drop acc).zip operands).map (·.1))).Nodup := by
    rw [map_fst_params hlen]
    exact hparams.sublist ((List.drop_sublist acc f.params).map _)
  have hkeys : (bs ++ forwarded val forwards).map (·.1) = bs.map (·.1) ++
      Pattern.names (forwards.map (·.1)) := by
    rw [List.map_append, map_fst_forwarded]
  rw [eval_forward hforward fun b hb hmem => ?_, ← Env.extendMany_append]
  · -- every parameter of the consumer is bound to the column of its own operand
    refine Lambda.eval_body (by rw [hlen, List.length_append, List.length_map, hus]) hparams
      (hkeys ▸ hnodup) (fun b hb => ?_) fun b hb => hfree _ (hkeys ▸ List.mem_map_of_mem hb)
    rw [zip_params hlen hus] at hb
    rcases List.mem_append.1 hb with hb | hb
    · exact List.mem_append_left _ (hacc b hb)
    obtain ⟨e, he, rfl⟩ := List.mem_map.1 hb
    rcases hbound e he with hx | hx
    · obtain ⟨d, hd, hde⟩ := List.mem_map.1 hx
      obtain ⟨a, ha, hlook⟩ := hlookup d hd
      rw [hde] at ha
      rw [operand_unique hunique he ha, ← hval d hd a hlook, ← hde]
      exact List.mem_append_right _ (List.mem_map_of_mem hd)
    · exact List.mem_append_left _ hx
  · -- a name that is led on is not bound by the environment itself
    obtain ⟨a, -, hbs⟩ := hforwards b hb
    exact (List.nodup_append.1 hnodup).2.2 _ (List.mem_map_of_mem (f := (·.1)) hbs) _ hmem rfl

/-- The binders of the composition, in the order in which it binds them, are distinct. -/
theorem nodup_composition {A B F O P Q : List Name} (h : (A ++ (B ++ F ++ O) ++ P).Nodup)
    (hQ : Q.Nodup) (hQB : ∀ x ∈ Q, x ∈ B ∨ x ∉ A ++ (B ++ F ++ O) ++ P) :
    (A ++ (P ++ O) ++ (Q ++ F)).Nodup := by
  rw [List.nodup_iff_count_le_one] at h hQ ⊢
  intro x
  have hx := h x
  have hQx := hQ x
  simp only [List.count_append] at hx ⊢
  by_cases hmem : x ∈ Q
  · rcases hQB x hmem with hB | hnot
    · have hpos := List.count_pos_iff.2 hB
      omega
    · have hzero := List.count_eq_zero.2 hnot
      simp only [List.count_append] at hzero
      omega
  · have hzero := List.count_eq_zero.2 hmem
    omega

/-- A consumer behind a map before there is one operand for each source: `l` says how the parameters
of the consumer get their values, and the results of the producer are bound to `pattern`. -/
structure Linked (p c : Lambda) (cOperands : List Operand) (outs : List Ident) (acc : Nat)
    (s s' : NameSupply) (l : Linking) (pattern : Pattern) : Prop where
  apart : Apart p c s
  room : s.Serves s'
  sorts : l.Sorts outs ((c.params.drop acc).zip cOperands)
  patterned : l.Patterned 0 (outs.zip p.rets).length s s' pattern
  perm : (Pattern.names (c.params.take acc) ++ (Pattern.names (l.binders.map (·.2))
    ++ Pattern.names (l.forwards.map (·.1)) ++ Pattern.names (l.others.map (·.1)))).Perm
      (Pattern.names c.params)
  source : ∀ x ∈ pattern.names, x ∈ Pattern.names (l.binders.map (·.2)) ∨ x ∈ s.until s'
  nodup : (Pattern.names (c.params.take acc)
    ++ (Pattern.names p.params ++ Pattern.names (l.others.map (·.1)))
    ++ (pattern.names ++ Pattern.names (l.forwards.map (·.1)))).Nodup

/-- The lambda of the composition before there is one operand for each source. -/
def linkedLambda (p c : Lambda) (acc : Nat) (l : Linking) (pattern : Pattern) : Lambda :=
  ⟨c.params.take acc ++ (p.params ++ l.others.map (·.1)),
    .bind pattern p.body (forward l.forwards c.body), c.rets⟩

/-- With the pattern of its linking a consumer is linked to the producer. -/
theorem linked_of_pattern {p c : Lambda} {cOperands : List Operand} {outs : List Ident} {acc : Nat}
    {s s' : NameSupply} {pattern : Pattern} (hapart : Apart p c s) (hroom : s.Serves s')
    (hc : c.params.length = acc + cOperands.length)
    (h : (linking outs ((c.params.drop acc).zip cOperands)).pattern outs p.rets s
      = .ok (pattern, s')) :
    Linked p c cOperands outs acc s s' (linking outs ((c.params.drop acc).zip cOperands))
      pattern := by
  have hsorts := linking_sorts outs ((c.params.drop acc).zip cOperands)
  have hfst := map_fst_params hc
  have hsub := ((List.drop_sublist acc c.params).map (·.name)).subset
  have hpatterned := Linking.patterned_of_pattern
    (by rw [hfst]; exact hapart.nodup.2.sublist ((List.drop_sublist acc c.params).map _))
    (fun x hx => hapart.below x (by
      rw [hfst] at hx
      rw [Pattern.names_append]
      exact List.mem_append_left _ (hsub hx))) hroom h
  have hperm := (hsorts.perm.append_left (c.params.take acc)).map (·.name)
  rw [hfst, List.take_append_drop] at hperm
  generalize linking outs ((c.params.drop acc).zip cOperands) = l at *
  -- the linking puts every parameter of the consumer into exactly one of its three lists
  have hcperm : (Pattern.names (c.params.take acc) ++ (Pattern.names (l.binders.map (·.2))
      ++ Pattern.names (l.forwards.map (·.1)) ++ Pattern.names (l.others.map (·.1)))).Perm
        (Pattern.names c.params) := by
    simpa only [Pattern.names, List.map_append] using hperm
  have hsource : ∀ x ∈ pattern.names,
      x ∈ Pattern.names (l.binders.map (·.2)) ∨ x ∈ s.until s' := by
    intro x hx
    obtain ⟨y, hy, rfl⟩ := List.mem_map.1 hx
    refine (hpatterned.source y hy).imp_left ?_
    rintro ⟨k, -, hlookup⟩
    obtain ⟨l₁, l₂, heq, -⟩ := List.lookup_eq_some_iff.1 hlookup
    refine List.mem_map_of_mem (List.mem_map.2 ⟨(k, y), ?_, rfl⟩)
    rw [heq]
    exact List.mem_append_right _ List.mem_cons_self
  have hnames := hapart.params
  rw [Pattern.names_append] at hnames
  refine ⟨hapart, hroom, hsorts, hpatterned, hcperm, hsource, nodup_composition
    ((hcperm.append_right _).nodup_iff.2 hnames) hpatterned.nodup fun x hx => ?_⟩
  -- a fresh name lies above all names of the two lambdas
  refine (hsource x hx).imp_right fun hfresh hmem => ?_
  rw [(hcperm.append_right _).mem_iff, ← Pattern.names_append] at hmem
  exact absurd (hapart.below x hmem) (Nat.not_lt.2 (hroom.le_of_mem_until hfresh))

namespace Linked

variable {p c : Lambda} {pOperands cOperands : List Operand} {outs : List Ident} {acc : Nat}
  {s s' : NameSupply} {l : Linking} {pattern : Pattern}

/-- Whatever the composition binds is a parameter of one of the two or new. -/
theorem mem_names (h : Linked p c cOperands outs acc s s' l pattern) {x : Name}
    (hx : x ∈ Pattern.names (c.params.take acc)
      ++ (Pattern.names p.params ++ Pattern.names (l.others.map (·.1)))
      ++ (pattern.names ++ Pattern.names (l.forwards.map (·.1)))) :
    x ∈ Pattern.names (c.params ++ p.params) ∨ x ∈ s.until s' := by
  have hmem : x ∈ Pattern.names p.params ∨ x ∈ Pattern.names (c.params.take acc)
      ++ (Pattern.names (l.binders.map (·.2)) ++ Pattern.names (l.forwards.map (·.1))
        ++ Pattern.names (l.others.map (·.1))) ∨ x ∈ s.until s' := by
    have hsource := h.source x
    simp only [List.mem_append] at hx ⊢
    tauto
  rw [Pattern.names_append, List.mem_append, ← h.perm.mem_iff]
  tauto

/-- Nothing that the composition binds is free in one of the two. -/
theorem notMem_free (h : Linked p c cOperands outs acc s s' l pattern) {x : Name}
    (hx : x ∈ Pattern.names (c.params.take acc)
      ++ (Pattern.names p.params ++ Pattern.names (l.others.map (·.1)))
      ++ (pattern.names ++ Pattern.names (l.forwards.map (·.1)))) :
    x ∉ p.free false ∧ x ∉ c.free false :=
  h.apart.notMem_free ((h.mem_names hx).imp_right h.room.le_of_mem_until)

/-- What is bound where the body of the producer is evaluated. -/
def bindings (col : Operand → Value) (p c : Lambda) (pOperands : List Operand) (acc : Nat)
    (l : Linking) (us : List Value) : List (Name × Value) :=
  (Pattern.names (c.params.take acc)).zip us
    ++ (bound col (p.params.zip pOperands) ++ bound col l.others)

variable {us R t : List Value}

theorem length_take (hc : c.params.length = acc + cOperands.length) (hus : us.length = acc) :
    (c.params.take acc).length = us.length := by
  rw [List.length_take]
  omega

theorem map_fst_bindings (hc : c.params.length = acc + cOperands.length) (hus : us.length = acc)
    (hp : p.params.length = pOperands.length) :
    (bindings col p c pOperands acc l us).map (·.1) = Pattern.names (c.params.take acc)
      ++ (Pattern.names p.params ++ Pattern.names (l.others.map (·.1))) := by
  rw [bindings, List.map_append, List.map_append, map_fst_bound, map_fst_bound,
    List.map_fst_zip (Nat.le_of_eq hp),
    Env.map_fst_zip (by rw [Pattern.length_names, length_take hc hus])]

theorem zip_linkedLambda (hc : c.params.length = acc + cOperands.length) (hus : us.length = acc)
    (hp : p.params.length = pOperands.length) :
    (Pattern.names (linkedLambda p c acc l pattern).params).zip
      (us ++ (pOperands ++ l.others.map (·.2)).map col) = bindings col p c pOperands acc l us := by
  have hzip : _ = _ ++ bound col _ :=
    zip_bound (length_take hc hus) (p.params.zip pOperands ++ l.others)
  rw [List.map_append, List.map_fst_zip (Nat.le_of_eq hp)] at hzip
  have hsnd : ((p.params.zip pOperands ++ l.others).map fun e => col e.2)
      = (pOperands ++ l.others.map (·.2)).map col := by
    change List.map (col ∘ Prod.snd) _ = _
    rw [← List.map_map, List.map_append, List.map_snd_zip (Nat.le_of_eq hp.symm)]
  rw [hsnd] at hzip
  rw [linkedLambda, hzip, bindings, bound, List.map_append]
  rfl

/-- The body of the producer yields there what the producer returns. -/
theorem eval_producer (h : Linked p c cOperands outs acc s s' l pattern)
    (hc : c.params.length = acc + cOperands.length) (hus : us.length = acc)
    (hp : p.params.length = pOperands.length) :
    p.body.eval call (env.extendMany (bindings col p c pOperands acc l us))
      = p.body.eval call (env.extendMany ((Pattern.names p.params).zip (pOperands.map col))) := by
  have hkeys : (bindings col p c pOperands acc l us).map (·.1) = _ := map_fst_bindings hc hus hp
  refine Lambda.eval_body (by rw [List.length_map, hp]) h.apart.nodup.1 ?_ (fun b hb => ?_)
    fun b hb => ?_
  · rw [hkeys]
    exact (List.nodup_append.1 h.nodup).1
  · rw [zip_params_all hp] at hb
    exact List.mem_append_right _ (List.mem_append_left _ hb)
  · have hmem := List.mem_map_of_mem (f := (·.1)) hb
    rw [hkeys] at hmem
    exact (h.notMem_free (List.mem_append_left _ hmem)).1

variable (hlink : ∀ a ∈ cOperands, ∀ k, link outs a = some k → R[k]? = some (col a))
include hlink

/-- The parameter that an output is bound to has its value. -/
theorem mem_zip_of_binder (h : Linked p c cOperands outs acc s s' l pattern)
    (hlen : pattern.length = R.length) {k : Nat} {x : Ident} {a : Operand} (hk : (k, x) ∈ l.binders)
    (ha : (x, a) ∈ (c.params.drop acc).zip cOperands) (hka : link outs a = some k) :
    (x.name, col a) ∈ pattern.names.zip R := by
  have hRk := hlink a (List.of_mem_zip ha).2 k hka
  obtain ⟨hlt, -⟩ := List.getElem?_eq_some_iff.1 hRk
  have hlookup : l.binders.lookup (0 + k) = some x := by
    rw [Nat.zero_add]
    exact (Table.find?_eq_some_iff (t := ⟨l.binders, h.sorts.keys⟩)).2 hk
  have hpk := h.patterned.binder k (by rw [← h.patterned.length]; omega) x hlookup
  refine List.mem_of_getElem? (i := k) ?_
  rw [List.getElem?_zip_eq_some]
  refine ⟨?_, hRk⟩
  rw [Pattern.names, List.getElem?_map, hpk]
  rfl

/-- So has the source of a parameter that reads the output, too. -/
theorem mem_zip_of_forward (h : Linked p c cOperands outs acc s s' l pattern)
    (hlen : pattern.length = R.length) {b : Ident × Ident} (hb : b ∈ l.forwards) :
    ∃ a, (b.1, a) ∈ (c.params.drop acc).zip cOperands
      ∧ (b.2.name, col a) ∈ pattern.names.zip R := by
  obtain ⟨a, k, ha, hka, hk⟩ := h.sorts.forwards b hb
  obtain ⟨a', ha', hka'⟩ := h.sorts.binders _ hk
  refine ⟨a, ha, ?_⟩
  have heq := (hlink a (List.of_mem_zip ha).2 k hka).symm.trans
    (hlink a' (List.of_mem_zip ha').2 k hka')
  rw [Option.some.inj heq]
  exact h.mem_zip_of_binder hlink hlen hk ha' hka'

/-- Behind the results of the producer the body of the consumer means what it means for the values
of the outputs. -/
theorem eval_consumer (h : Linked p c cOperands outs acc s s' l pattern)
    (hc : c.params.length = acc + cOperands.length) (hus : us.length = acc)
    (hp : p.params.length = pOperands.length) (hlen : pattern.length = R.length) :
    (forward l.forwards c.body).eval call (env.extendMany
        (bindings col p c pOperands acc l us ++ pattern.names.zip R))
      = c.body.eval call (env.extendMany
        ((Pattern.names c.params).zip (us ++ cOperands.map col))) := by
  have hkeys : (bindings col p c pOperands acc l us ++ pattern.names.zip R).map (·.1)
      = Pattern.names (c.params.take acc)
        ++ (Pattern.names p.params ++ Pattern.names (l.others.map (·.1))) ++ pattern.names := by
    rw [List.map_append, map_fst_bindings hc hus hp,
      Env.map_fst_zip (by rw [Pattern.length_names, hlen])]
  have hnames := h.nodup
  rw [← List.append_assoc] at hnames
  have hunique : (Pattern.names (((c.params.drop acc).zip cOperands).map (·.1))).Nodup := by
    rw [map_fst_params hc]
    exact h.apart.nodup.2.sublist ((List.drop_sublist acc c.params).map _)
  refine eval_forward_body hc hus h.apart.nodup.2 (hkeys ▸ hnames)
    (fun b hb => List.mem_append_left _ (List.mem_append_left _ hb))
      (fun b hb => ?_) (fun e he => ?_)
    fun x hx => (h.notMem_free (by rwa [hkeys, List.append_assoc _ pattern.names] at hx)).2
  · -- a parameter that is led on stands for the column of an output
    obtain ⟨a, ha, hmem⟩ := h.mem_zip_of_forward hlink hlen hb
    exact ⟨a, ha, List.mem_append_right _ hmem⟩
  · -- the parameter is bound by the pattern, or led on from one that is, or that of an operand
    have hmem : e.1 ∈ ((c.params.drop acc).zip cOperands).map (·.1) := List.mem_map_of_mem he
    rcases List.mem_append.1 (h.sorts.perm.mem_iff.2 hmem) with hx | hx
    · refine (List.mem_append.1 hx).symm.imp_right fun hx => ?_
      obtain ⟨⟨k, x⟩, hk, rfl⟩ := List.mem_map.1 hx
      obtain ⟨a, ha, hka⟩ := h.sorts.binders _ hk
      rw [operand_unique hunique he ha]
      exact List.mem_append_right _ (h.mem_zip_of_binder hlink hlen hk ha hka)
    · -- two operands of one parameter are the same operand
      obtain ⟨d, hd, hdx⟩ := List.mem_map.1 hx
      have heq : e.2 = d.2 := operand_unique hunique he (by
        rw [← hdx]
        exact (h.sorts.others d hd).1)
      rw [heq, ← hdx]
      exact .inr (List.mem_append_left _ (List.mem_append_right _ (List.mem_append_right _
        (List.mem_map_of_mem hd))))

end Linked

/-- At one position the composition yields what the consumer yields on the results of the producer.
-/
theorem afterMap_apply {p c : Lambda} {pOperands cOperands : List Operand} {outs : List Ident}
    {acc : Nat} {s s' : NameSupply} {r : Lambda × List Operand}
    (h : afterMap p pOperands outs c acc cOperands s = .ok (r, s')) (hapart : Apart p c s)
    (hroom : s.Serves s') (hu : ∀ fn args, Uniform (call fn args))
    (houts : outs.length = p.rets.length)
    (hcol : ∀ a b : Operand, a.sameSource b = true → col a = col b) {us R t : List Value}
    {i j : Nat} (hus : us.length = acc) (hR : Yields w (p.apply call env (pOperands.map col)) R i)
    (hlink : ∀ a ∈ cOperands, ∀ k, link outs a = some k → R[k]? = some (col a))
    (ht : Yields w (c.apply call env (us ++ cOperands.map col)) t j) :
    Yields w (r.1.apply call env (us ++ r.2.map col)) t (i + j) := by
  obtain ⟨hp, hc, pattern, hpattern, rfl⟩ := afterMap_eq_ok h
  have hlinked := linked_of_pattern hapart hroom hc hpattern
  generalize linking outs ((c.params.drop acc).zip cOperands) = l at *
  have hlen : pattern.length = p.rets.length := by
    rw [hlinked.patterned.length, List.length_zip, houts, Nat.min_self]
  -- the results of the producer are bound by the pattern before the consumer's body runs
  obtain ⟨-, u, hu', hures⟩ := (Lambda.yields_apply_iff hu).1 hR
  obtain ⟨-, v, hv, hres⟩ := (Lambda.yields_apply_iff hu).1 ht
  have hnames : (Pattern.names (linkedLambda p c acc l pattern).params).Nodup := by
    rw [linkedLambda, Pattern.names_append, Pattern.names_append]
    exact (List.nodup_append.1 hlinked.nodup).1
  rw [← linkedLambda, dedupOperands_apply (length_params_afterMap hp hc _) hnames hus hcol,
    Lambda.yields_apply_iff hu]
  refine ⟨?_, v, ?_, hres⟩
  · rw [linkedLambda, length_params_afterMap hp hc]
    simp only [List.length_append, List.length_map, hus]
  · rw [Linked.zip_linkedLambda hc hus hp]
    rw [← hlinked.eval_producer hc hus hp] at hu'
    -- the producer's body first, then the consumer's under what the pattern binds
    refine hu'.letIn (by rw [hlen]; exact hures) ?_
    rw [← Env.extendMany_append, hlinked.eval_consumer hlink hc hus hp
      (by rw [hlen, Lambda.length_of_yields hu hR])]
    exact hv

end

end Recipe

end ArrayFusion
