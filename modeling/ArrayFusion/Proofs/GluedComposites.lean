import ArrayFusion.Proofs.Gluing
import ArrayFusion.Proofs.FusedKernels

/-!
# Compositions are glued together

The recipes put the lambdas of a producer and of its consumer behind common parameters, with new
code in between that hands values from the one to the other.  So if the two stages are glued
together, each binding names of its own, then so is their composition, which binds the names of both
and some from the supply (`Composed.glued`).

Each of the two bodies now stands where the parameters of the other are in scope.  It stays in order
because it could not bind any of those (`Glued.weaken`).
-/

namespace ArrayFusion

open Recipe (forward dedupOperands Apart)

section

variable {piece : Spot → Prop} {fixed G G' V V' : Set Name}

/-! ## New code -/

/-- Glued code may stand where more names are in scope, as long as it could not bind them. -/
theorem Glued.weaken {e : Exp} (h : Glued piece fixed G V e) (hG : G ⊆ G') (hV : V ⊆ V')
    (hV' : ∀ x ∈ V', x ∈ V ∨ x ∉ G) : Glued piece fixed G' V' e :=
  h.change (fun _ ho => ho) (fun _ hx => hx) (fun _ hx => .inl hx) hG hV hV'

theorem Glued.use {x : Ident} (hx : x.name ∈ V) (hfixed : x.name ∈ fixed) :
    Glued piece fixed G V (.ofIdent x) := .plain ⟨hx, hfixed⟩

theorem Glued.results {xs : List Ident} (h : ∀ x ∈ xs, x.name ∈ V ∧ x.name ∈ fixed) :
    Glued piece fixed G V (.results (xs.map .ofIdent)) := by
  have hall : Exp.TidyAll false G (V ∩ fixed) (xs.map .ofIdent) := by
    induction xs with
    | nil => trivial
    | cons x xs ih => exact ⟨h x List.mem_cons_self, ih fun y hy => h y (List.mem_cons_of_mem _ hy)⟩
  rcases xs with _ | ⟨x, _ | ⟨y, xs⟩⟩
  · exact .plain hall
  · exact .plain hall.1
  · exact .plain hall

/-- Forwarded values are bound in front of the body. -/
theorem Glued.forward {bs : List (Ident × Ident)} {body : Exp}
    (hbs : FreshIn V G (Pattern.names (bs.map (·.1))))
    (hsources : ∀ b ∈ bs, b.2.name ∈ V ∧ b.2.name ∈ fixed)
    (hbody : Glued piece fixed G (V ∪ Pattern.nameSet (bs.map (·.1))) body) :
    Glued piece fixed G V (forward bs body) := by
  induction bs generalizing V with
  | nil =>
    exact hbody.weaken subset_rfl (fun x hx => hx.resolve_right List.not_mem_nil) fun x hx =>
      .inl (.inl hx)
  | cons b bs ih =>
    obtain ⟨hb, hbs, hne⟩ := hbs.cons
    obtain ⟨hsource, hsources⟩ := List.forall_mem_cons.1 hsources
    -- the others are forwarded behind the first one, whose name is none of theirs
    refine .bind hb (.use hsource.1 hsource.2) (ih ⟨hbs.nodup, hbs.bound, fun x hx hin => ?_⟩
      (fun d hd => ⟨.inl (hsources d hd).1, (hsources d hd).2⟩) ?_)
    · rcases hin with hin | hin
      · exact hbs.new x hx hin
      · rw [List.mem_singleton.1 hin] at hx
        exact hne hx
    · rwa [Set.union_right_comm, Pattern.union_nameSet_cons]

/-- With one parameter for each source a lambda is glued together as before. -/
theorem GluedLambda.dedup {f : Lambda} {operands : List Operand} {acc : Nat}
    (h : GluedLambda piece fixed G V f) (hfixed : G ⊆ fixed)
    (hparams : f.params.length = acc + operands.length) :
    GluedLambda piece fixed G V (dedupOperands f operands acc).1 := by
  have hcovers := Recipe.Coalesced.covers ((f.params.drop acc).zip operands)
  unfold Recipe.dedupOperands
  generalize ((f.params.drop acc).zip operands).foldl Recipe.Coalesced.add ⟨[], []⟩ = l at *
  -- the parameters that are kept and those that are forwarded are all the parameters
  have hperm : (Pattern.names (f.params.take acc ++ l.kept.map (·.1))
      ++ Pattern.names (l.forwards.map (·.1))).Perm (Pattern.names f.params) := by
    have := (hcovers.perm.append_left (f.params.take acc)).map (·.name)
    rw [Recipe.map_fst_params hparams, List.take_append_drop] at this
    simpa only [Pattern.names, List.map_append, List.append_assoc] using this
  have hall : FreshIn V G (Pattern.names (f.params.take acc ++ l.kept.map (·.1))
      ++ Pattern.names (l.forwards.map (·.1))) :=
    ⟨hperm.nodup_iff.2 h.params.nodup, fun x hx => h.params.bound x (hperm.mem_iff.1 hx),
      fun x hx => h.params.new x (hperm.mem_iff.1 hx)⟩
  obtain ⟨hkept, hforwards, hne⟩ := hall.append
  -- what is forwarded is bound again in front of the body, from a parameter that was kept
  refine ⟨hkept, Glued.forward ⟨hforwards.nodup, hforwards.bound,
    fun x hx hin => ?_⟩ (fun b hb => ?_)
    (h.body.weaken subset_rfl (fun x hx => ?_) fun x hx => .inl ?_)⟩
  · exact hin.elim (hforwards.new x hx) fun hin => hne x hin hx
  · obtain ⟨a, a', -, ha', -⟩ := hcovers.forwards b hb
    have hmem : b.2.name ∈ Pattern.names (f.params.take acc ++ l.kept.map (·.1)) :=
      List.mem_map_of_mem (List.mem_append_right _ (List.mem_map.2 ⟨_, ha', rfl⟩))
    exact ⟨.inr hmem, hfixed (hkept.bound _ hmem)⟩
  · rcases hx with hx | hx
    · exact .inl (.inl hx)
    · rcases List.mem_append.1 (hperm.mem_iff.2 hx) with hx | hx
      · exact .inl (.inr hx)
      · exact .inr hx
  · rcases hx with (hx | hx) | hx
    · exact .inl hx
    · exact .inr (hperm.mem_iff.1 (List.mem_append_left _ hx))
    · exact .inr (hperm.mem_iff.1 (List.mem_append_right _ hx))

end

/-! ## The recipes -/

/-- A producer that binds names of `P` and a consumer that binds names of `C` may be composed where
the names of `V` are in scope, such that the composition binds names of `G`: the two bind different
names, and there are tags for the names that the supply hands out. -/
structure Composable (fixed P C G V : Set Name) (s s' : NameSupply) : Prop where
  apart : ∀ x ∈ P, x ∉ C
  below : ∀ x, x ∈ P ∨ x ∈ C ∨ x ∈ V → x.tag < s.count
  producer : P ⊆ G
  consumer : C ⊆ G
  room : s'.InRange
  handedOut : s.until s' ⊆ G
  fixed : G ⊆ fixed

namespace Composable

variable {piece : Spot → Prop} {fixed P C G V : Set Name} {s s' : NameSupply} {p c : Lambda}
  {x : Name}

/-- What the supply hands out is neither bound by one of the two nor in scope. -/
theorem fresh (h : Composable fixed P C G V s s') (hx : x ∈ s.until s') : x ∉ P ∧ x ∉ C ∧ x ∉ V :=
  have hle := h.room.le_of_mem_until hx
  ⟨fun hin => absurd (h.below x (.inl hin)) (Nat.not_lt.2 hle),
    fun hin => absurd (h.below x (.inr (.inl hin))) (Nat.not_lt.2 hle),
    fun hin => absurd (h.below x (.inr (.inr hin))) (Nat.not_lt.2 hle)⟩

/-- Glued lambdas of the two share nothing. -/
theorem lambdas_apart (h : Composable fixed P C G V s s') (hp : GluedLambda piece fixed P V p)
    (hc : GluedLambda piece fixed C V c) (hpiece : ∀ o, piece o → o.Clear) : Apart p c s := by
  have hboth : ∀ x ∈ Pattern.names (c.params ++ p.params), x ∈ P ∨ x ∈ C := fun x hx =>
    (Pattern.mem_names_append.1 hx).symm.imp (hp.params.bound x) (hc.params.bound x)
  refine ⟨?_, fun x hx hin => hp.params.new x hx (hc.free_subset hpiece hin),
    fun x hx hin => hc.params.new x hx (hp.free_subset hpiece hin),
    fun x hx => h.below x ((hboth x hx).imp_right .inl), fun x hx => h.below x (.inr (.inr ?_))⟩
  · rw [Pattern.names_append]
    refine List.nodup_append.2 ⟨hc.params.nodup, hp.params.nodup, fun x hx y hy hxy => ?_⟩
    exact h.apart y (hp.params.bound y hy) (hxy ▸ hc.params.bound x hx)
  · exact hx.elim (fun hx => hp.free_subset hpiece hx) fun hx => hc.free_subset hpiece hx

end Composable

namespace Recipe

variable {piece : Spot → Prop} {fixed P C G V : Set Name} {s s' : NameSupply} {p c : Lambda}
  {pOperands cOperands : List Operand} {outs cOutputs : List Ident} {acc : Nat}
  (h : Composable fixed P C G V s s') (hp : GluedLambda piece fixed P V p)
  (hc : GluedLambda piece fixed C V c)
include h hp hc

/-- Behind a map a lambda is glued together. -/
theorem glued_afterMap {r : Lambda × List Operand} (hpiece : ∀ o, piece o → o.Clear)
    (hr : afterMap p pOperands outs c acc cOperands s = .ok (r, s'))
    (houts : outs.length = p.rets.length) : GluedLambda piece fixed G V r.1 := by
  obtain ⟨hplen, hclen, pattern, hpattern, rfl⟩ := afterMap_eq_ok hr
  have hbound := Linking.binders_subset_pattern houts hpattern
  have hl := linked_of_pattern (h.lambdas_apart hp hc hpiece) (h.room.serves s) hclen hpattern
  generalize linking outs ((c.params.drop acc).zip cOperands) = l at *
  refine GluedLambda.dedup ?_ h.fixed (length_params_afterMap hplen hclen _)
  -- where each of the names comes from
  have hconsumer : ∀ x, x ∈ Pattern.names (c.params.take acc) ∨
      x ∈ Pattern.names (l.binders.map (·.2))
      ∨ x ∈ Pattern.names (l.forwards.map (·.1)) ∨ x ∈ Pattern.names (l.others.map (·.1))
      ↔ x ∈ Pattern.names c.params := fun x => by
    rw [← hl.perm.mem_iff]
    simp only [List.mem_append, or_assoc]
  have hpatternC : ∀ x ∈ pattern.names, x ∈ Pattern.names c.params ∨ x ∈ s.until s' := fun x hx =>
    (hl.source x hx).imp_left fun hx => (hconsumer x).1 (.inr (.inl hx))
  -- the pattern is new: its names are of the consumer, or fresh
  have hnew : ∀ x ∈ pattern.names, x ∈ G ∧ x ∉ V := fun x hx => by
    rcases hl.source x hx with hx | hx
    · have hx := (hconsumer x).1 (.inr (.inl hx))
      exact ⟨h.consumer (hc.params.bound x hx), hc.params.new x hx⟩
    · exact ⟨h.handedOut hx, (h.fresh hx).2.2⟩
  have hparams : ∀ x ∈ Pattern.names (c.params.take acc ++ (p.params ++ l.others.map (·.1))),
      x ∈ Pattern.names p.params ∨ x ∈ Pattern.names c.params := fun x hx => by
    rcases Pattern.mem_names_append.1 hx with hx | hx
    · exact .inr ((hconsumer x).1 (.inl hx))
    · exact (Pattern.mem_names_append.1 hx).imp_right fun hx =>
        (hconsumer x).1 (.inr (.inr (.inr hx)))
  -- the parameters, the pattern and what is forwarded bind different names
  obtain ⟨hnodup, hnodup', hne⟩ := List.nodup_append.1 hl.nodup
  obtain ⟨hnodupP, hnodupF, hneF⟩ := List.nodup_append.1 hnodup'
  have hnames : Pattern.names (c.params.take acc ++ (p.params ++ l.others.map (·.1)))
      = Pattern.names (c.params.take acc) ++ (Pattern.names p.params ++
        Pattern.names (l.others.map (·.1))) := by
    rw [Pattern.names_append, Pattern.names_append]
  refine ⟨⟨hnames ▸ hnodup, fun x hx => ?_, fun x hx => ?_⟩, .bind ⟨hnodupP, fun x hx =>
    (hnew x hx).1,
    fun x hx hin => ?_⟩ ?_ (Glued.forward ⟨hnodupF, fun x hx => ?_, fun x hx hin => ?_⟩
      (fun b hb => ?_) ?_)⟩
  · exact (hparams x hx).elim (fun hx => h.producer (hp.params.bound x hx))
      fun hx => h.consumer (hc.params.bound x hx)
  · exact (hparams x hx).elim (hp.params.new x) (hc.params.new x)
  · rcases hin with hin | hin
    · exact (hnew x hx).2 hin
    · exact hne x (hnames ▸ hin) x (List.mem_append_left _ hx) rfl
  · -- the body of the producer does not bind a parameter of the consumer
    refine hp.body.weaken h.producer (fun x hx => ?_) fun x hx => ?_
    · refine hx.imp_right fun hx => ?_
      exact Pattern.mem_names_append.2 (.inr (Pattern.mem_names_append.2 (.inl hx)))
    · rcases hx with hx | hx
      · exact .inl (.inl hx)
      · exact (hparams x hx).elim (fun hx => .inl (.inr hx))
          fun hx => .inr fun hin => h.apart x hin (hc.params.bound x hx)
  · exact h.consumer (hc.params.bound x ((hconsumer x).1 (.inr (.inr (.inl hx)))))
  · rcases hin with (hin | hin) | hin
    · exact hc.params.new x ((hconsumer x).1 (.inr (.inr (.inl hx)))) hin
    · exact hne x (hnames ▸ hin) x (List.mem_append_right _ hx) rfl
    · exact hneF x hin x hx rfl
  · obtain ⟨a, i, -, -, hi⟩ := hl.sorts.forwards b hb
    have hin : b.2.name ∈ pattern.names := List.mem_map_of_mem (hbound _ hi)
    exact ⟨.inr hin, h.fixed (hnew _ hin).1⟩
  · -- nor does that of the consumer bind anything that came in front of it
    refine hc.body.weaken h.consumer (fun x hx => ?_) fun x hx => ?_
    · rcases hx with hx | hx
      · exact .inl (.inl (.inl hx))
      · rcases (hconsumer x).2 hx with hx | hx | hx | hx
        · exact .inl (.inl (.inr (Pattern.mem_names_append.2 (.inl hx))))
        · obtain ⟨y, hy, rfl⟩ := List.mem_map.1 hx
          obtain ⟨d, hd, rfl⟩ := List.mem_map.1 hy
          exact .inl (.inr (List.mem_map_of_mem (hbound d hd)))
        · exact .inr hx
        · refine .inl (.inl (.inr (Pattern.mem_names_append.2 (.inr ?_))))
          exact Pattern.mem_names_append.2 (.inr hx)
    · rcases hx with ((hx | hx) | hx) | hx
      · exact .inl (.inl hx)
      · exact (hparams x hx).elim (fun hx => .inr (h.apart x (hp.params.bound x hx))) fun hx =>
          .inl (.inr hx)
      · exact (hpatternC x hx).imp (fun hx => .inr hx) fun hx => (h.fresh hx).2.1
      · exact .inl (.inr ((hconsumer x).1 (.inr (.inr (.inl hx)))))

omit hc in
/-- What is guarded by a predicate is glued together behind parameters that have those of the
predicate among them. -/
theorem glued_guarded {ps : Pattern} {check : Ident} {yes no : Exp} {ty : Ty}
    (hps : ∀ x ∈ Pattern.names p.params, x ∈ ps.names)
    (hps' : ∀ x ∈ ps.names, x ∈ Pattern.names p.params ∨ x ∉ P) (hcheck : check.name ∈ s.until s')
    (hnew : check.name ∉ ps.names) (hyes : Glued piece fixed G
    (V ∪ ps.nameSet ∪ Pattern.nameSet [check]) yes)
    (hno : Glued piece fixed G (V ∪ ps.nameSet ∪ Pattern.nameSet [check]) no) :
    Glued piece fixed G (V ∪ ps.nameSet)
      (Exp.bind [check] p.body (.cond (.ofIdent check) yes no ty .dummy)) := by
  refine .bind ⟨List.nodup_singleton _, fun x hx => ?_, fun x hx hin => ?_⟩ ?_
    (.cond (.use (.inr List.mem_cons_self) (h.fixed (h.handedOut hcheck))) hyes hno)
  · rw [List.mem_singleton.1 hx]
    exact h.handedOut hcheck
  · rw [List.mem_singleton.1 hx] at hin
    exact hin.elim (h.fresh hcheck).2.2 hnew
  · -- the body of the producer stands where its parameters are bound, among others that it does
    -- not bind
    refine hp.body.weaken h.producer (fun x hx => hx.imp_right (hps x)) fun x hx => ?_
    rcases hx with hx | hx
    · exact .inl (.inl hx)
    · exact (hps' x hx).imp_left .inr

/-- So is the body of a consumer that is guarded by a predicate and led on from the parameters in
front of it.  The first parameters of the consumer are among these. -/
theorem glued_guarded_forward {ps : Pattern} {check : Ident} {forwards : List (Ident × Ident)}
    {no : Exp} {ty : Ty} (hps : FreshIn V G ps.names)
    (hproducer : ∀ x ∈ Pattern.names p.params, x ∈ ps.names)
    (hconsumer : ∀ x ∈ Pattern.names (c.params.take acc), x ∈ ps.names) (horigin : ∀ x ∈ ps.names,
    x ∈ Pattern.names p.params ∨ x ∈ Pattern.names (c.params.take acc) ∨ x ∈ s.until s')
    (hcheck : check.name ∈ s.until s') (hnew : check.name ∉ ps.names)
    (hforwards : forwards.map (·.1) = c.params.drop acc)
    (hsources : ∀ b ∈ forwards, b.2.name ∈ ps.names)
    (hno : Glued piece fixed G (V ∪ ps.nameSet ∪ Pattern.nameSet [check]) no) :
    Glued piece fixed G (V ∪ ps.nameSet)
      (Exp.bind [check] p.body (.cond (.ofIdent check)
    (forward forwards c.body) no ty .dummy)) := by
  have hparts : ∀ x, x ∈ Pattern.names (c.params.take acc) ∨ x ∈ Pattern.names (c.params.drop acc)
      ↔ x ∈ Pattern.names c.params := fun x => by
    rw [← Pattern.mem_names_append, List.take_append_drop]
  have hnodup : (Pattern.names (c.params.take acc) ++ Pattern.names (c.params.drop acc)).Nodup := by
    rw [← Pattern.names_append, List.take_append_drop]
    exact hc.params.nodup
  obtain ⟨-, hnodupD, hneD⟩ := List.nodup_append.1 hnodup
  -- the consumer binds neither parameters of the producer nor new names
  have hforeign : ∀ x ∈ ps.names, x ∈ Pattern.names (c.params.take acc) ∨ x ∉ C := fun x hx => by
    rcases horigin x hx with hx | hx | hx
    · exact .inr (h.apart x (hp.params.bound x hx))
    · exact .inl hx
    · exact .inr (h.fresh hx).2.1
  -- the flag first, then what is forwarded, and then the body of the consumer
  refine glued_guarded h hp hproducer (fun x hx => ?_) hcheck hnew
    (Glued.forward ⟨hforwards ▸ hnodupD, fun x hx => ?_, fun x hx hin => ?_⟩
      (fun b hb => ⟨.inl (.inr (hsources b hb)), h.fixed (hps.bound _ (hsources b hb))⟩) ?_) hno
  · rcases horigin x hx with hx | hx | hx
    · exact .inl hx
    · exact .inr fun hin => h.apart x hin (hc.params.bound x ((hparts x).1 (.inl hx)))
    · exact .inr (h.fresh hx).1
  · rw [hforwards] at hx
    exact h.consumer (hc.params.bound x ((hparts x).1 (.inr hx)))
  · rw [hforwards] at hx
    have hxc := (hparts x).1 (.inr hx)
    rcases hin with (hin | hin) | hin
    · exact hc.params.new x hxc hin
    · exact (hforeign x hin).elim (fun hin => hneD x hin x hx rfl) fun hin =>
        hin (hc.params.bound x hxc)
    · rw [List.mem_singleton.1 hin] at hxc
      exact (h.fresh hcheck).2.1 (hc.params.bound _ hxc)
  · rw [hforwards]
    refine hc.body.weaken h.consumer (fun x hx => ?_) fun x hx => ?_
    · rcases hx with hx | hx
      · exact .inl (.inl (.inl hx))
      · exact ((hparts x).2 hx).imp (fun hx => .inl (.inr (hconsumer x hx))) id
    · rcases hx with ((hx | hx) | hx) | hx
      · exact .inl (.inl hx)
      · exact (hforeign x hx).imp_left fun hx => .inr ((hparts x).1 (.inl hx))
      · rw [List.mem_singleton.1 hx]
        exact .inr (h.fresh hcheck).2.1
      · exact .inl (.inr ((hparts x).1 (.inr hx)))

/-- Behind a filter the step of a fold is glued together. -/
theorem glued_foldAfterFilter {r : Lambda × List Operand}
    (hr : foldAfterFilter p pOperands outs c acc cOperands s = .ok (some r, s')) :
    GluedLambda piece fixed G V r.1 := by
  obtain ⟨hplen, hclen, readers, check, hreaders?, htag, hnext, rfl⟩ := foldAfterFilter_eq_ok hr
  have hreaders := readers_of_readers? hreaders?
  have hcheck : check.name ∈ s.until s' := NameSupply.mem_until_of_tag_eq htag (by omega)
  have hforwards : (readers.map fun r => (r.1, r.2.2.param)).map (·.1) = c.params.drop acc := by
    rw [← map_fst_params hclen, List.map_map, ← map_fst_of_forall₂ (fun _ _ h => h.1) hreaders]
    rfl
  have htake : ∀ x ∈ Pattern.names (c.params.take acc), x ∈ Pattern.names c.params := fun x hx =>
    ((List.take_sublist acc c.params).map _).subset hx
  -- the parameters are those of the producer, behind those of the accumulators
  have horigin : ∀ x ∈ Pattern.names (c.params.take acc ++ p.params),
      x ∈ Pattern.names p.params ∨ x ∈ Pattern.names (c.params.take acc) := fun x hx =>
    (Pattern.mem_names_append.1 hx).symm
  have hproducer : ∀ x ∈ Pattern.names p.params,
      x ∈ Pattern.names (c.params.take acc ++ p.params) :=
    fun x hx => Pattern.mem_names_append.2 (.inr hx)
  have hconsumer : ∀ x ∈ Pattern.names (c.params.take acc),
      x ∈ Pattern.names (c.params.take acc ++ p.params) :=
    fun x hx => Pattern.mem_names_append.2 (.inl hx)
  -- they are fresh together, for the two lambdas bind different names
  have hps : FreshIn V G (Pattern.names (c.params.take acc ++ p.params)) := by
    refine ⟨?_, fun x hx => ?_, fun x hx => ?_⟩
    · rw [Pattern.names_append]
      refine List.nodup_append.2 ⟨hc.params.nodup.sublist ((List.take_sublist acc c.params).map _),
        hp.params.nodup, fun x hx y hy hxy => ?_⟩
      exact h.apart y (hp.params.bound y hy) (hxy ▸ hc.params.bound x (htake x hx))
    · exact (horigin x hx).elim (fun hx => h.producer (hp.params.bound x hx))
        fun hx => h.consumer (hc.params.bound x (htake x hx))
    · exact (horigin x hx).elim (hp.params.new x) fun hx => hc.params.new x (htake x hx)
  refine GluedLambda.dedup ?_ h.fixed (length_params_guarded hplen hclen)
  refine ⟨hps, glued_guarded_forward h hp hc hps hproducer hconsumer
    (fun x hx => (horigin x hx).imp_right .inl) hcheck (fun hin => ?_) hforwards
    (fun b hb => ?_) (.results fun x hx => ?_)⟩
  · rcases horigin _ hin with hin | hin
    · exact (h.fresh hcheck).1 (hp.params.bound _ hin)
    · exact (h.fresh hcheck).2.1 (hc.params.bound _ (htake _ hin))
  · obtain ⟨d, hd, rfl⟩ := List.mem_map.1 hb
    obtain ⟨e, he, -, -, hsource⟩ := exists_of_forall₂ hreaders hd
    exact hproducer _ (List.mem_map_of_mem (List.of_mem_zip (sources_getElem? hsource).1).1)
  · have hmem : x.name ∈ Pattern.names (c.params.take acc) := List.mem_map_of_mem hx
    exact ⟨.inl (.inr (hconsumer _ hmem)), h.fixed (hps.bound _ (hconsumer _ hmem))⟩

/-- Behind a filter the predicate of a filter is glued together. -/
theorem glued_filterAfterFilter {r : Lambda × List Operand × List Ident}
    (hpiece : ∀ o, piece o → o.Clear)
    (hr : filterAfterFilter p pOperands outs c cOperands cOutputs s = .ok (some r, s'))
    (houts : outs.length = pOperands.length) : GluedLambda piece fixed G V r.1 := by
  obtain ⟨hplen, hclen, s₁, s₂, read, unread, unused, check, hchain, hunused, -, htag, hnext,
      rfl⟩ :=
    filterAfterFilter_chain hr (h.room.serves s) (h.lambdas_apart hp hc hpiece) houts
  have hle₁ := hchain.supply
  have hle₂ := hunused.supply
  have hroom₂ : s₂.InRange := h.room.of_le (by omega)
  -- the name of the flag is the last one that is taken
  have hcheck : check.name ∈ s.until s' := by
    refine NameSupply.until_subset (Nat.le_trans hle₁ hle₂) (Nat.le_refl _)
      (NameSupply.mem_until_of_tag_eq (htag.trans (h.room.next_eq ?_).symm) ?_) <;> omega
  have hforwards : (read.map fun d => (d.1, d.2.1)).map (·.1) = c.params.drop 0 := by
    rw [List.drop_zero, List.map_map, ← List.map_fst_zip (Nat.le_of_eq hclen)]
    exact map_fst_of_forall₂ (fun _ _ h => h.1) hchain.reads
  have hproducer : ∀ x ∈ Pattern.names p.params,
      x ∈ Pattern.names ((read.map (·.2) ++ unread).map (·.1)) := fun x hx => by
    obtain ⟨y, hy, rfl⟩ := List.mem_map.1 hx
    rw [← List.map_fst_zip (Nat.le_of_eq hplen)] at hy
    obtain ⟨e, he, rfl⟩ := List.mem_map.1 hy
    exact List.mem_map_of_mem (List.mem_map_of_mem (hchain.covers e he))
  -- the parameters are those of the producer, and fresh ones for what is read twice
  have horigin : ∀ x ∈ Pattern.names ((read.map (·.2) ++ unread).map (·.1)),
      x ∈ Pattern.names p.params ∨ x ∈ s.until s₁ := fun x hx => by
    obtain ⟨y, hy, rfl⟩ := List.mem_map.1 hx
    obtain ⟨e, he, rfl⟩ := List.mem_map.1 hy
    exact (hchain.source e he).2.imp_left fun h => List.mem_map_of_mem h
  have hend : s.until s₁ ⊆ s.until s' := NameSupply.until_subset (Nat.le_refl _) (by omega)
  have hps : FreshIn V G (Pattern.names ((read.map (·.2) ++ unread).map (·.1))) :=
    ⟨hchain.nodup, fun x hx => (horigin x hx).elim (fun hx => h.producer (hp.params.bound x hx))
      fun hx => h.handedOut (hend hx),
      fun x hx => (horigin x hx).elim (hp.params.new x) fun hx => (h.fresh (hend hx)).2.2⟩
  refine ⟨hps, glued_guarded_forward h hp hc hps hproducer (fun x hx => ?_)
    (fun x hx => (horigin x hx).imp_right fun hx => .inr (hend hx)) hcheck
      (fun hin => ?_) hforwards (fun b hb => ?_) (.plain trivial)⟩
  · cases hx
  · rcases horigin _ hin with hin | hin
    · exact (h.fresh hcheck).1 (hp.params.bound _ hin)
    · have := NameSupply.lt_of_mem_until hin
      omega
  · obtain ⟨d, hd, rfl⟩ := List.mem_map.1 hb
    exact List.mem_map_of_mem (List.mem_map.2
      ⟨d.2, List.mem_append_left _ (List.mem_map_of_mem hd), rfl⟩)

end Recipe

/-! ## Stages -/

section

variable {piece : Spot → Prop} {fixed P C G V B : Set Name} {s s' : NameSupply} {g c : Stage}

/-- A lambda of new code, such as a copy. -/
theorem GluedLambda.plain {f : Lambda} (h : f.Tidy false B (V ∩ fixed)) (hV : ∀ x ∈ B, x ∉ V)
    (hB : B ⊆ G) (hfixed : G ⊆ fixed) : GluedLambda piece fixed G V f := by
  obtain ⟨ps, b, ts⟩ := f
  obtain ⟨hps, hb⟩ := h
  refine ⟨⟨hps.nodup, fun x hx => hB (hps.bound x hx), fun x hx => hV x (hps.bound x hx)⟩,
    .plain ?_⟩
  refine hb.change hB (hb.free_subset.trans ?_) fun x hx =>
    .inl (hx.1.imp (fun hv => ⟨hv, hx.2⟩) id)
  exact Set.union_subset (fun x hx => ⟨.inl hx.1, hx.2⟩)
    fun x hx => ⟨.inr hx, hfixed (hB (hps.bound x hx))⟩

/-- A reduction that is made a redomap is glued together: its outer lambda is a copy. -/
theorem GluedStage.asRedomap (h : GluedStage piece fixed C V g) (hV : ∀ x ∈ V, x.tag < s.count)
    (hreduce : ∀ f ne, g.op = .reduce f ne → ∃ B, f.Tidy false B (V ∩ fixed)) (hC : C ⊆ G)
    (hroom : (g.asRedomap s).2.InRange) (hG : s.until (g.asRedomap s).2 ⊆ G) (hfixed : G ⊆ fixed) :
    GluedStage piece fixed G V (g.asRedomap s).1 := by
  have hsame : GluedStage piece fixed G V g := h.change (fun _ ho => ho) (fun _ hx => hx)
    (fun _ hx => .inl hx) hC subset_rfl fun _ hx => .inl hx
  rcases g.asRedomap_cases s with ⟨heq, -⟩ | ⟨f, ne, hop, heq⟩
  · rwa [heq]
  · rw [heq] at hroom hG ⊢
    -- the lambda for the accumulators is a copy of the one that reduces
    obtain ⟨B, hf⟩ := hreduce f ne hop
    have hfreshen : f.freshen s = ((f.freshen s).1, (f.freshen s).2) := rfl
    obtain ⟨-, hcopy, -⟩ := Lambda.freshen_tidy hfreshen hroom hf
      fun x hx => hV x hx.1
    have hlambdas := hsame.lambdas
    have hneutral := hsame.neutral
    have hshaped := hsame.shaped
    rw [hop] at hlambdas hneutral hshaped
    refine { hsame with
      lambdas := List.forall_mem_cons.2 ⟨?_, hlambdas⟩
      neutral := hneutral
      shaped := hshaped }
    exact .plain hcopy (fun x hx hv => absurd (hV x hv)
      (Nat.not_lt.2 (hroom.le_of_mem_until hx))) hG hfixed

/-- A composition is glued together if the two stages are. -/
theorem Composed.glued {outs cOutputs outputs : List Ident} {op : Combinator}
    {operands : List Operand} {certs : Certificates} {span : Span}
    (h : Composed g outs c cOutputs s s' op operands outputs) (hs : Composable fixed P C G V s s')
    (hg : GluedStage piece fixed P V g) (hc : GluedStage piece fixed C V c)
    (hpiece : ∀ o, piece o → o.Clear) (harity : g.arity = outs.length) :
    GluedStage piece fixed G V ⟨op, operands, certs, span⟩ := by
  -- both stages are glued with the names of the other one besides
  have hg' : GluedStage piece fixed G V g := hg.change (fun _ ho => ho) (fun _ hx => hx)
    (fun _ hx => .inl hx) hs.producer subset_rfl fun _ hx => .inl hx
  have hc' : GluedStage piece fixed G V c := hc.change (fun _ ho => ho) (fun _ hx => hx)
    (fun _ hx => .inl hx) hs.consumer subset_rfl fun _ hx => .inl hx
  have hoperand : ∀ a ∈ operands, a ∈ g.operands ∨ a ∈ c.operands := fun a ha =>
    (h.mem_operands ha).imp_right And.left
  refine ⟨?_, fun d hd => hc'.neutral d (h.neutral_eq ▸ hd), fun a ha =>
    (hoperand a ha).elim (hg'.sources a) (hc'.sources a), fun a ha =>
      (hoperand a ha).elim (hg'.operands a) (hc'.operands a), ?_⟩
  · -- the lambda of the elements is glued together, and that of the accumulators is as it was
    have hproducer := hg.lambdas
    have hconsumer := hc.lambdas
    have hconsumer' := hc'.lambdas
    cases h with
    | mapMap hp hf hr =>
      rw [Stage.arity, hp] at harity
      rw [hp] at hproducer
      rw [hf] at hconsumer
      exact List.forall_mem_singleton.2 (Recipe.glued_afterMap hs
        (hproducer _ (List.mem_singleton_self _))
        (hconsumer _ (List.mem_singleton_self _)) hpiece hr harity.symm)
    | mapFold hp hf hr =>
      rw [Stage.arity, hp] at harity
      rw [hp] at hproducer
      rw [hf] at hconsumer hconsumer'
      refine List.forall_mem_cons.2 ⟨hconsumer' _ List.mem_cons_self,
        List.forall_mem_singleton.2 ?_⟩
      exact Recipe.glued_afterMap hs (hproducer _ (List.mem_singleton_self _))
        (hconsumer _ (List.mem_cons_of_mem _ (List.mem_singleton_self _))) hpiece hr harity.symm
    | filterFilter hp hf hr =>
      rw [Stage.arity, hp] at harity
      rw [hp] at hproducer
      rw [hf] at hconsumer
      exact List.forall_mem_singleton.2 (Recipe.glued_filterAfterFilter hs
        (hproducer _ (List.mem_singleton_self _)) (hconsumer _ (List.mem_singleton_self _)) hpiece
          hr harity.symm)
    | filterFold hp hf hr =>
      rw [hp] at hproducer
      rw [hf] at hconsumer hconsumer'
      refine List.forall_mem_cons.2 ⟨hconsumer' _ List.mem_cons_self,
        List.forall_mem_singleton.2 ?_⟩
      exact Recipe.glued_foldAfterFilter hs (hproducer _ (List.mem_singleton_self _))
        (hconsumer _ (List.mem_cons_of_mem _ (List.mem_singleton_self _))) hr
  · have hshaped := hc.shaped
    cases h with
    | mapMap => trivial
    | mapFold hp hf hr =>
      rw [hf] at hshaped
      exact (congrArg List.length (Recipe.afterMap_rets hr)).trans hshaped
    | filterFilter hp hf hr =>
      obtain ⟨-, -, readers, read, s₁, unused, s₂, check, -, -, -, -, -, rfl⟩ :=
        Recipe.filterAfterFilter_eq_ok hr
      rfl
    | filterFold hp hf hr =>
      rw [hf] at hshaped
      obtain ⟨-, -, readers, check, -, -, -, rfl⟩ := Recipe.foldAfterFilter_eq_ok hr
      exact hshaped

end

end ArrayFusion
