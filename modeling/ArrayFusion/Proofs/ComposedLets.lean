import ArrayFusion.Proofs.FreshBinders
import ArrayFusion.Proofs.StageCopies

/-!
# The lets of a composition

A composition binds what the producer and the consumer bind.  Besides, each recipe adds `let`s that
bind parameters or fresh names.  `Stage.Over` keeps track of both: the parameters of a stage belong
to a set of names, and its `let`s have a property that every `let` of such names has.
-/

namespace ArrayFusion

open Recipe (forward dedupOperands afterMap foldAfterFilter filterAfterFilter)

/-! ## Lambdas and stages -/

/-- The parameters of the lambda belong to `N`, and the patterns of its `let`s have the property. -/
structure Lambda.Over (N : Set Name) (P : Pattern → Prop) (f : Lambda) : Prop where
  params : ∀ x ∈ Pattern.names f.params, x ∈ N
  lets : ∀ l ∈ f.body.lets, P l.1

/-- The parameters for the elements belong to `N`, and the patterns of all `let`s of the stage have
the property. -/
structure Stage.Over (N : Set Name) (P : Pattern → Prop) (g : Stage) : Prop where
  params : ∀ x ∈ Pattern.names g.op.element.params, x ∈ N
  op : ∀ l ∈ g.op.lets, P l.1
  operands : ∀ a ∈ g.operands, ∀ l ∈ Exp.letsAll a.exps, P l.1

/-- The `let`s of a lambda are those of its body. -/
theorem Lambda.lets_eq (f : Lambda) : f.lets = f.body.lets := by
  obtain ⟨ps, b, ts⟩ := f
  rfl

/-- A `let` of a list of expressions is one of a member. -/
theorem Exp.mem_letsAll {es : List Exp} {l : Pattern × Exp} :
    l ∈ Exp.letsAll es ↔ ∃ e ∈ es, l ∈ e.lets := by
  induction es with
  | nil => exact ⟨nofun, fun ⟨_, he, _⟩ => nomatch he⟩
  | cons e es ih => rw [Exp.letsAll, List.mem_append, ih, List.exists_mem_cons_iff]

/-- An operand has the `let`s of what it computes. -/
theorem Operand.lets_toExp (a : Operand) (s : Span) : (a.toExp s).lets = Exp.letsAll a.exps := by
  cases a with
  | range n => exact (List.append_nil _).symm
  | _ => rfl

/-- The `let`s of a stage are in its combinator or in what its operands compute. -/
theorem Stage.mem_lets_toExp {g : Stage} {l : Pattern × Exp} :
    l ∈ g.toExp.lets ↔ l ∈ g.op.lets ∨ ∃ a ∈ g.operands, l ∈ Exp.letsAll a.exps := by
  change l ∈ g.op.lets ++ Exp.letsAll _ ↔ _
  rw [List.mem_append, Exp.mem_letsAll]
  simp only [List.mem_map, exists_exists_and_eq_and, Operand.lets_toExp]

/-- The patterns of all `let`s of a stage have what is said of the stage. -/
theorem Stage.Over.toExp {N : Set Name} {P : Pattern → Prop} {g : Stage} (h : g.Over N P) :
    ∀ l ∈ g.toExp.lets, P l.1 := fun l hl =>
  (Stage.mem_lets_toExp.1 hl).elim (h.op l) fun ⟨a, ha, hl⟩ => h.operands a ha l hl

/-- The `let`s of the lambda for the elements are `let`s of the combinator. -/
theorem Combinator.mem_lets_of_element {op : Combinator} {l : Pattern × Exp}
    (h : l ∈ op.element.body.lets) : l ∈ op.lets := by
  rw [← Lambda.lets_eq] at h
  cases op with
  | map f => exact h
  | filter f => exact h
  | reduce f ne => exact List.mem_append_left _ h
  | scan f ne => exact List.mem_append_left _ h
  | redomap f g ne => exact List.mem_append_left _ (List.mem_append_right _ h)

/-- What is said of a stage is so of its lambda for the elements. -/
theorem Stage.Over.element {N : Set Name} {P : Pattern → Prop} {g : Stage} (h : g.Over N P) :
    g.op.element.Over N P where
  params := h.params
  lets := fun l hl => h.op l (Combinator.mem_lets_of_element hl)

section

variable {N : Set Name} {P : Pattern → Prop} (hP : ∀ p : Pattern, (∀ x ∈ p.names, x ∈ N) → P p)

/-! ## The recipes -/

include hP in
/-- Forwarding adds one `let` for each binding in front of the body. -/
theorem Recipe.lets_forward {bs : List (Ident × Ident)} {body : Exp}
    (hbs : ∀ b ∈ bs, b.1.name ∈ N) (hbody : ∀ l ∈ body.lets, P l.1) :
    ∀ l ∈ (forward bs body).lets, P l.1 := by
  induction bs with
  | nil => exact hbody
  | cons b bs ih =>
    obtain ⟨hb, hbs⟩ := List.forall_mem_cons.1 hbs
    refine List.forall_mem_cons.2 ⟨hP _ fun x hx => ?_, ih hbs⟩
    rw [List.mem_singleton.1 hx]
    exact hb

theorem Exp.lets_idents (xs : List Ident) : Exp.letsAll (xs.map Exp.ofIdent) = [] := by
  induction xs with
  | nil => rfl
  | cons x xs ih => exact ih

/-- Results that are variables have no `let`s. -/
theorem Exp.lets_results (xs : List Ident) : (Exp.results (xs.map Exp.ofIdent)).lets = [] := by
  rcases xs with _ | ⟨x, _ | ⟨y, xs⟩⟩
  · rfl
  · rfl
  · exact Exp.lets_idents (x :: y :: xs)

include hP in
/-- When operands are read once, no `let` is added but those that forward parameters. -/
theorem Lambda.Over.dedup {f : Lambda} (h : f.Over N P) (as : List Operand) (acc : Nat) :
    (dedupOperands f as acc).1.Over N P ∧ ∀ a ∈ (dedupOperands f as acc).2, a ∈ as := by
  have hcovers := Recipe.Coalesced.covers ((f.params.drop acc).zip as)
  have hparam : ∀ x a, (x, a) ∈ (f.params.drop acc).zip as → x.name ∈ N := fun x a hx =>
    h.params _ (List.mem_map_of_mem (List.mem_of_mem_drop (List.of_mem_zip hx).1))
  refine ⟨⟨fun x hx => ?_, Recipe.lets_forward hP (fun b hb => ?_) h.lets⟩,
    fun a ha => Recipe.mem_of_mem_dedupOperands ha⟩
  · obtain ⟨y, hy, rfl⟩ := List.mem_map.1 hx
    rcases List.mem_append.1 hy with hy | hy
    · exact h.params _ (List.mem_map_of_mem (List.mem_of_mem_take hy))
    · obtain ⟨e, he, rfl⟩ := List.mem_map.1 hy
      exact hparam e.1 e.2 (hcovers.kept e he)
  · obtain ⟨a, _, ha, -⟩ := hcovers.forwards b hb
    exact hparam b.1 a ha

namespace Recipe

/-- What the outputs of a producer are bound to: parameters that read them, and fresh names. -/
theorem Linking.source_of_pattern {l : Linking} {outs : List Ident} {rets : List Ty}
    {s s' : NameSupply} {p : Pattern} (h : l.pattern outs rets s = .ok (p, s')) :
    s.count ≤ s'.count ∧ ∀ y ∈ p, (∃ i, (i, y) ∈ l.binders) ∨ y.name ∈ s.until s' := by
  unfold Linking.pattern at h
  generalize (outs.zip rets).zipIdx = es at h
  induction es generalizing s p with
  | nil =>
    obtain ⟨rfl, rfl⟩ := State.pure_eq_ok.1 h
    exact ⟨Nat.le_refl _, nofun⟩
  | cons e es ih =>
    rw [List.mapM_cons] at h
    obtain ⟨x, s₁, hx, h⟩ := State.bind_eq_ok.1 h
    obtain ⟨p₁, s₂, hp, h⟩ := State.bind_eq_ok.1 h
    obtain ⟨rfl, rfl⟩ := State.pure_eq_ok.1 h
    obtain ⟨hle, hsource⟩ := ih hp
    -- bound by the linking already, or the next name of the supply
    have hhead : s.count ≤ s₁.count ∧ ((∃ i, (i, x) ∈ l.binders) ∨ x.name ∈ s.until s₁) := by
      dsimp only at hx
      cases hlookup : l.binders.lookup e.2 with
      | some y =>
        rw [hlookup] at hx
        obtain ⟨rfl, rfl⟩ := State.pure_eq_ok.1 hx
        obtain ⟨l₁, l₂, heq, -⟩ := List.lookup_eq_some_iff.1 hlookup
        exact ⟨Nat.le_refl _, .inl ⟨e.2, by rw [heq]; simp⟩⟩
      | none =>
        rw [hlookup] at hx
        cases hx
        exact ⟨Nat.le_succ _, .inr (NameSupply.mem_until_of_tag_eq rfl (Nat.lt_succ_self _))⟩
    refine ⟨Nat.le_trans hhead.1 hle, List.forall_mem_cons.2 ⟨hhead.2.imp_right
      fun hx => ?_, fun y hy => ?_⟩⟩
    · exact NameSupply.until_subset (Nat.le_refl _) hle hx
    · exact (hsource y hy).imp_right fun hy => NameSupply.until_subset hhead.1 (Nat.le_refl _) hy

variable {p c : Lambda} {pOperands cOperands : List Operand} {outs : List Ident} {acc : Nat}
  {s s' : NameSupply}

/-- A composition with a map takes names from the supply, and gives none back. -/
theorem count_le_afterMap {r : Lambda × List Operand}
    (h : afterMap p pOperands outs c acc cOperands s = .ok (r, s')) : s.count ≤ s'.count := by
  obtain ⟨-, -, pattern, hpattern, -⟩ := afterMap_eq_ok h
  exact (Linking.source_of_pattern hpattern).1

/-- A fold behind a filter takes a name for the guard at least. -/
theorem count_lt_foldAfterFilter {r : Lambda × List Operand}
    (h : foldAfterFilter p pOperands outs c acc cOperands s = .ok (some r, s')) :
    s.count < s'.count := by
  obtain ⟨-, -, readers, check, -, -, hcount, -⟩ := foldAfterFilter_eq_ok h
  omega

/-- A filter behind a filter takes a name for the guard at least. -/
theorem count_lt_filterAfterFilter {cOutputs : List Ident} {r : Lambda × List Operand × List Ident}
    (h : filterAfterFilter p pOperands outs c cOperands cOutputs s = .ok (some r, s')) :
    s.count < s'.count := by
  obtain ⟨-, -, readers, read, s₁, unused, s₂, check, -, hread, hunused, -, hcount, -⟩ :=
    filterAfterFilter_eq_ok h
  have hle₁ := (source_of_readInOrder hread).1
  have hle₂ := (handedOut_mapM hunused).1.supply
  omega

variable (hs : s.until s' ⊆ N)

include hP hs

/-- A composition with a map binds what the two lambdas bind, and fresh names. -/
theorem over_afterMap {r : Lambda × List Operand}
    (h : afterMap p pOperands outs c acc cOperands s = .ok (r, s')) (hp : p.Over N P)
    (hc : c.Over N P) : r.1.Over N P ∧ ∀ a ∈ r.2, a ∈ pOperands ∨ a ∈ cOperands := by
  obtain ⟨-, -, pattern, hpattern, rfl⟩ := afterMap_eq_ok h
  have hsource := (Linking.source_of_pattern hpattern).2
  have hsorts := linking_sorts outs ((c.params.drop acc).zip cOperands)
  have hparam : ∀ x a, (x, a) ∈ (c.params.drop acc).zip cOperands → x.name ∈ N := fun x a hx =>
    hc.params _ (List.mem_map_of_mem (List.mem_of_mem_drop (List.of_mem_zip hx).1))
  have hf : Lambda.Over N P ⟨c.params.take acc ++ (p.params
        ++ (linking outs ((c.params.drop acc).zip cOperands)).others.map (·.1)),
      .bind pattern p.body
        (forward (linking outs ((c.params.drop acc).zip cOperands)).forwards c.body), c.rets⟩ := by
    refine ⟨fun x hx => ?_, List.forall_mem_cons.2 ⟨hP _ fun x hx => ?_, List.forall_mem_append.2
      ⟨hp.lets, lets_forward hP (fun b hb => ?_) hc.lets⟩⟩⟩
    · -- a parameter of the consumer, of the producer, or of an operand that is not linked
      obtain ⟨y, hy, rfl⟩ := List.mem_map.1 hx
      rcases List.mem_append.1 hy with hy | hy
      · exact hc.params _ (List.mem_map_of_mem (List.mem_of_mem_take hy))
      · rcases List.mem_append.1 hy with hy | hy
        · exact hp.params _ (List.mem_map_of_mem hy)
        · obtain ⟨e, he, rfl⟩ := List.mem_map.1 hy
          exact hparam e.1 e.2 (hsorts.others e he).1
    · obtain ⟨y, hy, rfl⟩ := List.mem_map.1 hx
      rcases hsource y hy with ⟨i, hi⟩ | hi
      · obtain ⟨a, ha, -⟩ := hsorts.binders _ hi
        exact hparam y a ha
      · exact hs hi
    · obtain ⟨a, i, ha, -⟩ := hsorts.forwards b hb
      exact hparam b.1 a ha
  obtain ⟨hover, hoperands⟩ := hf.dedup hP (pOperands
    ++ (linking outs ((c.params.drop acc).zip cOperands)).others.map (·.2)) acc
  refine ⟨hover, fun a ha => (List.mem_append.1 (hoperands a ha)).imp_right fun ha => ?_⟩
  obtain ⟨e, he, rfl⟩ := List.mem_map.1 ha
  exact (List.of_mem_zip (hsorts.others e he).1).2

/-- A guard binds a fresh name in front of the two lambdas. -/
theorem over_guarded {check : Ident} (hcheck : check.name ∈ s.until s')
    {forwards : List (Ident × Ident)} {otherwise : Exp} {ty : Ty}
    (hforwards : ∀ b ∈ forwards, b.1.name ∈ N) (hotherwise : otherwise.lets = [])
    (hp : p.Over N P) (hc : c.Over N P) :
    ∀ l ∈ (Exp.bind [check] p.body (.cond (.ofIdent check) (forward forwards c.body) otherwise ty
      .dummy)).lets, P l.1 := by
  refine List.forall_mem_cons.2 ⟨hP _ fun x hx => ?_, List.forall_mem_append.2 ⟨hp.lets, ?_⟩⟩
  · rw [List.mem_singleton.1 hx]
    exact hs hcheck
  · change ∀ l ∈ [] ++ (forward forwards c.body).lets ++ otherwise.lets, P l.1
    rw [hotherwise, List.append_nil]
    exact lets_forward hP hforwards hc.lets

/-- A fold behind a filter binds what the two lambdas bind, and a fresh guard. -/
theorem over_foldAfterFilter {r : Lambda × List Operand}
    (h : foldAfterFilter p pOperands outs c acc cOperands s = .ok (some r, s')) (hp : p.Over N P)
    (hc : c.Over N P) : r.1.Over N P ∧ ∀ a ∈ r.2, a ∈ pOperands := by
  obtain ⟨-, -, readers, check, hreaders, htag, hcount, rfl⟩ := foldAfterFilter_eq_ok h
  have hcheck : check.name ∈ s.until s' := NameSupply.mem_until_of_tag_eq htag (by omega)
  have hf : Lambda.Over N P ⟨c.params.take acc ++ p.params,
      .bind [check] p.body (.cond (.ofIdent check)
        (forward (readers.map fun e => (e.1, e.2.2.param)) c.body)
        (.results ((c.params.take acc).map .ofIdent)) (.ofResults c.rets) .dummy), c.rets⟩ := by
    refine ⟨fun x hx => ?_, over_guarded hP hs hcheck (fun b hb => ?_)
      (Exp.lets_results _) hp hc⟩
    · obtain ⟨y, hy, rfl⟩ := List.mem_map.1 hx
      rcases List.mem_append.1 hy with hy | hy
      · exact hc.params _ (List.mem_map_of_mem (List.mem_of_mem_take hy))
      · exact hp.params _ (List.mem_map_of_mem hy)
    · obtain ⟨r, hr, rfl⟩ := List.mem_map.1 hb
      obtain ⟨e, he, hq, -⟩ := exists_of_forall₂ (readers_of_readers? hreaders) hr
      change r.1.name ∈ N
      rw [hq]
      exact hc.params _ (List.mem_map_of_mem (List.mem_of_mem_drop (List.of_mem_zip he).1))
  exact hf.dedup hP pOperands acc

/-- A filter behind a filter binds what the two lambdas bind, and fresh names; it has an output for
each operand if the consumer has. -/
theorem over_filterAfterFilter {cOutputs : List Ident} {r : Lambda × List Operand × List Ident}
    (h : filterAfterFilter p pOperands outs c cOperands cOutputs s = .ok (some r, s'))
    (hp : p.Over N P) (hc : c.Over N P) : r.1.Over N P ∧ (∀ a ∈ r.2.1, a ∈ pOperands)
      ∧ (cOutputs.length = cOperands.length → r.2.2.length = r.2.1.length) := by
  obtain ⟨-, hcl, readers, read, s₁, unused, s₂, check, hreaders, hread, hunused, htag, hcount,
      rfl⟩ :=
    filterAfterFilter_eq_ok h
  have hreaders := readers_of_readers? hreaders
  obtain ⟨hle₁, hsame⟩ := source_of_readInOrder hread
  obtain ⟨hhanded, hlen⟩ := handedOut_mapM hunused
  have hle₂ := hhanded.supply
  have hparam : ∀ i, ∀ a : Source, (sources outs p.params pOperands)[i]? = some a →
      a.param.name ∈ N ∧ a.operand ∈ pOperands := fun i a ha =>
    ⟨hp.params _ (List.mem_map_of_mem (List.of_mem_zip (sources_getElem? ha).1).1),
      List.mem_of_getElem? (sources_getElem? ha).2⟩
  have hcheck : check.name ∈ s.until s' := NameSupply.until_subset (Nat.le_trans hle₁ hle₂)
    (Nat.le_refl _) (NameSupply.mem_until_of_tag_eq htag (by omega))
  refine ⟨⟨fun x hx => ?_, ?_⟩, fun a ha => ?_, fun hout => ?_⟩
  · -- the parameters are those of the producer, or fresh
    obtain ⟨y, hy, rfl⟩ := List.mem_map.1 hx
    rcases List.mem_append.1 hy with hy | hy
    · obtain ⟨e, he, rfl⟩ := List.mem_map.1 hy
      obtain ⟨r, hr, -, -, hsource⟩ := exists_of_forall₂ hsame he
      rcases hsource with heq | hfresh
      · obtain ⟨_, -, -, -, hget⟩ := exists_of_forall₂ hreaders hr
        rw [heq]
        exact (hparam _ _ hget).1
      · exact hs (NameSupply.until_subset (Nat.le_refl _) (by omega) hfresh)
    · obtain ⟨source, hsource, rfl⟩ := List.mem_map.1 hy
      obtain ⟨i, hi, -⟩ := mem_unreadSources.1 hsource
      exact (hparam i source hi).1
  · -- what is bound again are parameters of the consumer
    refine over_guarded hP hs hcheck (fun b hb => ?_) rfl hp hc
    obtain ⟨e, he, rfl⟩ := List.mem_map.1 hb
    obtain ⟨r, hr, hq, -⟩ := exists_of_forall₂ hsame he
    obtain ⟨d, hd, hq', -⟩ := exists_of_forall₂ hreaders hr
    change e.1.name ∈ N
    rw [hq, hq']
    exact hc.params _ (List.mem_map_of_mem (List.of_mem_zip hd).1)
  · -- read by the consumer or not, an operand is one of the producer
    rcases List.mem_append.1 ha with ha | ha
    · obtain ⟨e, he, rfl⟩ := List.mem_map.1 ha
      obtain ⟨r, hr, -, heq, -⟩ := exists_of_forall₂ hsame he
      obtain ⟨_, -, -, -, hget⟩ := exists_of_forall₂ hreaders hr
      rw [heq]
      exact (hparam _ _ hget).2
    · obtain ⟨source, hsource, rfl⟩ := List.mem_map.1 ha
      obtain ⟨i, hi, -⟩ := mem_unreadSources.1 hsource
      exact (hparam i source hi).2
  · have hreadLen := hsame.length_eq
    have hreadersLen := hreaders.length_eq
    rw [List.length_zip] at hreadersLen
    simp only [List.length_append, List.length_map]
    omega

end Recipe

/-! ## Fused kernels -/

/-- A name that `let`s bind is in the pattern of one of them. -/
theorem mem_letNames {ls : List (Pattern × Exp)} {x : Name} :
    x ∈ letNames ls ↔ ∃ l ∈ ls, x ∈ l.1.names := List.mem_flatMap

/-- What the `let`s of a lambda bind, the lambda binds. -/
theorem Lambda.mem_binders_of_lets {f : Lambda} {l : Pattern × Exp} (hl : l ∈ f.lets) {x : Name}
    (hx : x ∈ l.1.names) : x ∈ f.binders := by
  have hcount := f.count_binders x
  have hpos := List.count_pos_iff.2 (mem_letNames.2 ⟨l, hl, hx⟩)
  exact List.count_pos_iff.1 (by omega)

include hP in
/-- A lambda all of whose binders are in a set binds nothing else. -/
theorem Lambda.over_of_binders {f : Lambda} (h : ∀ x ∈ f.binders, x ∈ N) : f.Over N P where
  params := by
    obtain ⟨ps, b, ts⟩ := f
    exact fun x hx => h x (List.mem_append_left _ hx)
  lets := fun l hl => hP _ fun x hx => h x (f.mem_binders_of_lets (f.lets_eq ▸ hl) hx)

variable {s s' : NameSupply}

include hP in
/-- A reduction that becomes a redomap binds fresh names besides its own. -/
theorem Stage.Over.asRedomap {g : Stage} (h : g.Over N P) (hs : s.until (g.asRedomap s).2 ⊆ N) :
    (g.asRedomap s).1.Over N P := by
  rcases g.asRedomap_cases s with ⟨heq, -⟩ | ⟨f, ne, hop, heq⟩
  · rw [heq]
    exact h
  · obtain ⟨hparams, hlets, hoperands⟩ := h
    rw [hop] at hparams hlets
    rw [heq] at hs ⊢
    refine ⟨hparams, ?_, hoperands⟩
    have hcopy := Lambda.over_of_binders hP fun x hx => hs (Lambda.mem_until_of_freshen hx)
    refine List.forall_mem_append.2 ⟨List.forall_mem_append.2 ⟨?_, ?_⟩, ?_⟩
    · rw [Lambda.lets_eq]
      exact hcopy.lets
    · exact fun l hl => hlets l (List.mem_append_left _ hl)
    · exact fun l hl => hlets l (List.mem_append_right _ hl)

/-- A composition takes names from the supply, and gives none back. -/
theorem Composed.count_le {g c : Stage} {outs cOutputs outputs : List Ident} {op : Combinator}
    {operands : List Operand} (h : Composed g outs c cOutputs s s' op operands outputs) :
    s.count ≤ s'.count := by
  cases h with
  | mapMap _ _ hr | mapFold _ _ hr => exact Recipe.count_le_afterMap hr
  | filterFilter _ _ hr => exact Nat.le_of_lt (Recipe.count_lt_filterAfterFilter hr)
  | filterFold _ _ hr => exact Nat.le_of_lt (Recipe.count_lt_foldAfterFilter hr)

include hP in
/-- A composition binds what the two stages bind, and fresh names. -/
theorem Composed.binds {g c : Stage} {outs cOutputs outputs : List Ident} {op : Combinator}
    {operands : List Operand} {certs : Certificates} {span : Span}
    (h : Composed g outs c cOutputs s s' op operands outputs) (hs : s.until s' ⊆ N)
    (hg : g.Over N P) (hc : c.Over N P) : (Stage.mk op operands certs span).Over N P := by
  have hge := hg.element
  have hce := hc.element
  have hop := hc.op
  cases h with
  | mapMap hgop hcop hr =>
    rw [hgop] at hge
    rw [hcop] at hce
    obtain ⟨hover, hoperands⟩ := Recipe.over_afterMap hP hs hr hge hce
    exact ⟨hover.params, fun l hl => hover.lets l (Lambda.lets_eq _ ▸ hl), fun a ha =>
      (hoperands a ha).elim (hg.operands a) (hc.operands a)⟩
  -- a fold keeps its outer operator and its neutral elements
  -- a fold keeps its outer operator and its neutral elements
  | mapFold hgop hcop hr =>
    rw [hgop] at hge
    rw [hcop] at hce hop
    obtain ⟨hover, hoperands⟩ := Recipe.over_afterMap hP hs hr hge hce
    obtain ⟨hfg, hne⟩ := List.forall_mem_append.1 hop
    refine ⟨hover.params, List.forall_mem_append.2 ⟨List.forall_mem_append.2
      ⟨(List.forall_mem_append.1 hfg).1, ?_⟩, hne⟩, fun a ha =>
      (hoperands a ha).elim (hg.operands a) (hc.operands a)⟩
    exact fun l hl => hover.lets l (Lambda.lets_eq _ ▸ hl)
  | filterFilter hgop hcop hr =>
    rw [hgop] at hge
    rw [hcop] at hce
    obtain ⟨hover, hoperands, -⟩ := Recipe.over_filterAfterFilter hP hs hr hge hce
    exact ⟨hover.params, fun l hl => hover.lets l (Lambda.lets_eq _ ▸ hl), fun a ha =>
      hg.operands a (hoperands a ha)⟩
  | filterFold hgop hcop hr =>
    rw [hgop] at hge
    rw [hcop] at hce hop
    obtain ⟨hover, hoperands⟩ := Recipe.over_foldAfterFilter hP hs hr hge hce
    obtain ⟨hfg, hne⟩ := List.forall_mem_append.1 hop
    refine ⟨hover.params, List.forall_mem_append.2 ⟨List.forall_mem_append.2
      ⟨(List.forall_mem_append.1 hfg).1, ?_⟩, hne⟩, fun a ha =>
      hg.operands a (hoperands a ha)⟩
    exact fun l hl => hover.lets l (Lambda.lets_eq _ ▸ hl)

/-- A fusion takes names from the supply, and gives none back. -/
theorem Producer.count_le_fuseInto {p : Producer} {K K' : Kernel}
    (h : p.fuseInto K s = .ok (some K', s')) : s.count ≤ s'.count := by
  obtain ⟨-, -, op, operands, outputs, hcomposed, rfl, -⟩ := Producer.fuseInto_eq_ok h
  exact Nat.le_trans (K.stage.count_le_asRedomap s) hcomposed.count_le

include hP in
/-- A kernel binds what it bound before, and what the stage binds that was fused into it, besides
names that are handed out meanwhile. -/
theorem Producer.over_fuseInto {p : Producer} {K K' : Kernel}
    (h : p.fuseInto K s = .ok (some K', s')) (hs : s.until s' ⊆ N) (hp : p.stage.Over N P)
    (hK : K.stage.Over N P) : K'.stage.Over N P := by
  obtain ⟨-, -, op, operands, outputs, hcomposed, rfl, -⟩ := Producer.fuseInto_eq_ok h
  have hover := hK.asRedomap hP
    ((NameSupply.until_subset (Nat.le_refl _) hcomposed.count_le).trans hs)
  exact hcomposed.binds hP
    ((NameSupply.until_subset (K.stage.count_le_asRedomap s) (Nat.le_refl _)).trans hs) hp hover

/-! ## Copies and nests -/

include hP in
/-- A copy binds names in its lambdas that are handed out for it, and elsewhere what the stage
binds. -/
theorem Registry.over_copyOf {r : Registry} {g g' : Stage} (h : r.copyOf g s = .ok (g', s'))
    (hs : s.until s' ⊆ N) (hg : g.Over N P) : g'.Over N P := by
  obtain ⟨-, op', rfl, hpaired⟩ := Registry.copyOf_paired (P := fun _ f' => f'.Over N P) h
    fun _ _ s₁ s₂ hle hle' h => Lambda.over_of_binders hP fun x hx =>
      hs (NameSupply.until_subset hle hle' ((Registry.copyLambda_binders h).2 x hx))
  have hlets : ∀ {f : Lambda}, f.Over N P → ∀ l ∈ f.lets, P l.1 := fun hf l hl =>
    hf.lets l (Lambda.lets_eq _ ▸ hl)
  obtain ⟨op, operands, certs, span⟩ := g
  have hop := hg.op
  cases hpaired with
  | map hf => exact ⟨hf.params, hlets hf, hg.operands⟩
  | filter hf => exact ⟨hf.params, hlets hf, hg.operands⟩
  | reduce hf =>
    exact ⟨hf.params, List.forall_mem_append.2 ⟨hlets hf, (List.forall_mem_append.1 hop).2⟩,
      hg.operands⟩
  | scan hf =>
    exact ⟨hf.params, List.forall_mem_append.2 ⟨hlets hf, (List.forall_mem_append.1 hop).2⟩,
      hg.operands⟩
  | redomap hf he =>
    exact ⟨he.params, List.forall_mem_append.2 ⟨List.forall_mem_append.2 ⟨hlets hf, hlets he⟩,
      (List.forall_mem_append.1 hop).2⟩, hg.operands⟩

include hP in
/-- A kernel that reads arrays instead of their transpositions binds what it bound before and names
that are handed out for it. -/
theorem Kernel.over_pullTransposes {K : Kernel} (h : K.stage.Over N P)
    (hs : s.until (K.pullTransposes s).2 ⊆ N) : (K.pullTransposes s).1.stage.Over N P := by
  rcases K.pullTransposes_cases s with heq | ⟨arrays, f, nest, -, hop, hn, -, heq⟩
  · rw [heq]
    exact h
  · have hrowsLe := s.count_le_freshIdents nest.rows
    have hresultsLe := (s.freshIdents nest.rows).2.count_le_freshIdents nest.results
    have houtputsLe := (nest.toLambda s).2.count_le_freshIdents K.outputs
    obtain ⟨-, -, args, returned, span, hbody, -⟩ := Nest.ofLambda?_eq_some hn
    -- the inner lambda is a part of the lambda that is taken apart
    have hinner : ∀ l ∈ nest.inner.lets, P l.1 := fun l hl => by
      refine h.element.lets l ?_
      rw [hop]
      change l ∈ f.body.lets
      rw [hbody]
      exact List.mem_cons_of_mem _ (List.mem_append_left _ (List.mem_append_left _ hl))
    rw [heq] at hs ⊢
    refine ⟨fun x hx => ?_, List.forall_mem_cons.2 ⟨hP _ fun x hx => ?_, ?_⟩, ?_⟩
    · exact hs (NameSupply.until_subset (Nat.le_refl _) (Nat.le_trans hresultsLe houtputsLe)
        (NameSupply.mem_until_of_freshIdents hx))
    · exact hs (NameSupply.until_subset hrowsLe houtputsLe (NameSupply.mem_until_of_freshIdents hx))
    · change ∀ l ∈ nest.inner.lets ++ Exp.letsAll _ ++ Exp.lets (.results _), P l.1
      rw [Exp.lets_idents, Exp.lets_results, List.append_nil, List.append_nil]
      exact hinner
    · intro a ha l hl
      obtain ⟨x, -, rfl⟩ := List.mem_map.1 ha
      cases hl

end

end ArrayFusion
