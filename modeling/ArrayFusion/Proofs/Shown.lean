import ArrayFusion.Proofs.Certificates
import ArrayFusion.Proofs.Faultless
import ArrayFusion.Proofs.WholeReads

/-!
# `let`s that are shown

Where a kernel stands for a `let`, the right-hand side of that `let` is not emitted but the stage of
the kernel.  `Exp.shown` are the `let`s of an expression that stand outside of all such right-hand
sides, and each `let` of the expression is shown in it or in one of them (`Exp.covers`).

No recipe hides a `let`: a kernel shows what it showed before, and what the stage shows that was
fused into it (`Producer.shown_fuseInto`).  Only when a transposition is taken out of a kernel the
innermost map is bound to fresh names; it keeps its certificates and reads only fresh names then, as
before it read only parameters (`Kernel.retains_pullTransposes`).
-/

namespace ArrayFusion

mutual

/-- The `let`s of an expression that are not in the right-hand side of a `let` that binds a name of
`H`.
-/
def Exp.shown (H : Set Name) : Exp → Set (Pattern × Exp)
  | .lit _ _ => ∅
  | .var _ _ => ∅
  | .tuple es _ => Exp.shownAll H es
  | .array es _ _ => Exp.shownAll H es
  | .binary _ a b _ _ => a.shown H ∪ b.shown H
  | .unary _ e _ => e.shown H
  | .cond c a b _ _ => c.shown H ∪ a.shown H ∪ b.shown H
  | .call _ es _ _ => Exp.shownAll H es
  | .letIn p e b _ => {(p, e)} ∪ ({l ∈ e.shown H | ∀ x ∈ p.names, x ∉ H} ∪ b.shown H)
  | .update _ _ is v b _ => Exp.shownAll H is ∪ v.shown H ∪ b.shown H
  | .index _ is _ => Exp.shownAll H is
  | .replicate n v _ => n.shown H ∪ v.shown H
  | .loop _ is _ n b r _ => Exp.shownAll H is ∪ n.shown H ∪ b.shown H ∪ r.shown H
  | .soac op es _ _ => op.shown H ∪ Exp.shownAll H es

/-- The `let`s of a list of expressions that are shown. -/
def Exp.shownAll (H : Set Name) : List Exp → Set (Pattern × Exp)
  | [] => ∅
  | e :: es => e.shown H ∪ Exp.shownAll H es

/-- The `let`s of a lambda that are shown. -/
def Lambda.shown (H : Set Name) : Lambda → Set (Pattern × Exp)
  | ⟨_, b, _⟩ => b.shown H

/-- The `let`s in the lambdas and the neutral elements of a combinator that are shown. -/
def Combinator.shown (H : Set Name) : Combinator → Set (Pattern × Exp)
  | .map f => f.shown H
  | .reduce f ne => f.shown H ∪ Exp.shownAll H ne
  | .scan f ne => f.shown H ∪ Exp.shownAll H ne
  | .filter p => p.shown H
  | .redomap f g ne => f.shown H ∪ g.shown H ∪ Exp.shownAll H ne

end

/-! ## Which `let`s are shown -/

/-- Only `let`s of the list are shown, and each of them is shown or else shown in the right-hand
side of one that binds a name of `H`. -/
structure Covers (H : Set Name) (S : Set (Pattern × Exp)) (ls : List (Pattern × Exp)) : Prop where
  mem : ∀ l ∈ S, l ∈ ls
  covered : ∀ l ∈ ls, l ∈ S ∨ ∃ m ∈ ls, (∃ x ∈ m.1.names, x ∈ H) ∧ l ∈ m.2.shown H

namespace Covers

variable {H : Set Name} {S S' : Set (Pattern × Exp)} {ls ls' : List (Pattern × Exp)}

/-- No `let`s cover nothing. -/
theorem nil : Covers H ∅ [] := ⟨nofun, nofun⟩

/-- Two lists of `let`s cover together what each of them covers. -/
theorem append (h : Covers H S ls) (h' : Covers H S' ls') : Covers H (S ∪ S') (ls ++ ls') where
  mem := fun l hl => List.mem_append.2 (hl.imp (h.mem l) (h'.mem l))
  covered := fun l hl => (List.mem_append.1 hl).elim
    (fun hl => (h.covered l hl).imp .inl fun ⟨m, hm, hlm⟩ => ⟨m, List.mem_append_left _ hm, hlm⟩)
    (fun hl => (h'.covered l hl).imp .inr fun ⟨m, hm, hlm⟩ => ⟨m, List.mem_append_right _ hm, hlm⟩)

/-- The right-hand side of a `let` is hidden if the `let` binds a name of `H`. -/
theorem bind {p : Pattern} {e : Exp} (h : Covers H (e.shown H) ls) :
    Covers H ({(p, e)} ∪ {l ∈ e.shown H | ∀ x ∈ p.names, x ∉ H}) ((p, e) :: ls) where
  mem := fun l hl => List.mem_cons.2 (hl.imp id fun hl => h.mem l hl.1)
  covered := fun l hl => by
    rcases List.mem_cons.1 hl with rfl | hl
    · exact .inl (.inl rfl)
    rcases h.covered l hl with hshown | ⟨m, hm, hlm⟩
    · by_cases hhidden : ∃ x ∈ p.names, x ∈ H
      · exact .inr ⟨(p, e), List.mem_cons_self, hhidden, hshown⟩
      · exact .inl (.inr ⟨hshown, fun x hx hmem => hhidden ⟨x, hx, hmem⟩⟩)
    · exact .inr ⟨m, List.mem_cons_of_mem _ hm, hlm⟩

end Covers

mutual

/-- Each `let` of an expression is shown, or else shown in a right-hand side that is hidden. -/
theorem Exp.covers (H : Set Name) : ∀ e : Exp, Covers H (e.shown H) e.lets
  | .lit _ _ => .nil
  | .var _ _ => .nil
  | .tuple es _ => Exp.coversAll H es
  | .array es _ _ => Exp.coversAll H es
  | .binary _ a b _ _ => (a.covers H).append (b.covers H)
  | .unary _ e _ => Exp.covers H e
  | .cond c a b _ _ => ((c.covers H).append (a.covers H)).append (b.covers H)
  | .call _ es _ _ => Exp.coversAll H es
  | .letIn p e b _ => by
    have h := (Covers.bind (p := p) (e.covers H)).append (b.covers H)
    rwa [Set.union_assoc] at h
  | .update _ _ is v b _ => ((Exp.coversAll H is).append (v.covers H)).append (b.covers H)
  | .index _ is _ => Exp.coversAll H is
  | .replicate n v _ => (n.covers H).append (v.covers H)
  | .loop _ is _ n b r _ =>
    (((Exp.coversAll H is).append (n.covers H)).append (b.covers H)).append (r.covers H)
  | .soac op es _ _ => (op.covers H).append (Exp.coversAll H es)

/-- Those that expressions show are covered by their `let`s. -/
theorem Exp.coversAll (H : Set Name) :
    ∀ es : List Exp, Covers H (Exp.shownAll H es) (Exp.letsAll es)
  | [] => .nil
  | e :: es => (e.covers H).append (Exp.coversAll H es)

/-- Those that a lambda shows are covered by its `let`s. -/
theorem Lambda.covers (H : Set Name) : ∀ f : Lambda, Covers H (f.shown H) f.lets
  | ⟨_, b, _⟩ => b.covers H

/-- Those that a combinator shows are covered by its `let`s. -/
theorem Combinator.covers (H : Set Name) : ∀ op : Combinator, Covers H (op.shown H) op.lets
  | .map f => f.covers H
  | .filter p => p.covers H
  | .reduce f ne => (f.covers H).append (Exp.coversAll H ne)
  | .scan f ne => (f.covers H).append (Exp.coversAll H ne)
  | .redomap f g ne => ((f.covers H).append (g.covers H)).append (Exp.coversAll H ne)

end

section

variable {H : Set Name} {l : Pattern × Exp}

/-- Expressions show what one of them shows. -/
theorem Exp.mem_shownAll {es : List Exp} : l ∈ Exp.shownAll H es ↔ ∃ e ∈ es, l ∈ e.shown H := by
  induction es with
  | nil => simp [Exp.shownAll]
  | cons e es ih => rw [Exp.shownAll, Set.mem_union, ih, List.exists_mem_cons_iff]

theorem Lambda.shown_eq (f : Lambda) : f.shown H = f.body.shown H := by
  obtain ⟨ps, b, ts⟩ := f
  rfl

/-- The `let`s in operands that are shown. -/
def Operand.shownAll (H : Set Name) (as : List Operand) : Set (Pattern × Exp) :=
  {l | ∃ a ∈ as, l ∈ Exp.shownAll H a.exps}

/-- More operands show more. -/
theorem Operand.shownAll_mono {as bs : List Operand} (h : ∀ a ∈ as, a ∈ bs) :
    Operand.shownAll H as ⊆ Operand.shownAll H bs := fun _ ⟨a, ha, hl⟩ => ⟨a, h a ha, hl⟩

/-- The expression of an operand shows what its parts show. -/
theorem Operand.shown_toExp (a : Operand) (s : Span) :
    (a.toExp s).shown H = Exp.shownAll H a.exps := by
  cases a with
  | range n => exact (Set.union_empty _).symm
  | _ => rfl

/-- A stage shows what its combinator and its operands show. -/
theorem Stage.shown_toExp (g : Stage) :
    g.toExp.shown H = g.op.shown H ∪ Operand.shownAll H g.operands := by
  ext l
  change l ∈ g.op.shown H ∪ Exp.shownAll H _ ↔ _
  rw [Set.mem_union, Set.mem_union, Exp.mem_shownAll]
  simp only [List.mem_map, exists_exists_and_eq_and, Operand.shown_toExp]
  rfl

/-- What an array reads as a whole or transposed shows nothing. -/
theorem Operand.exps_of_sameSource {a b : Operand} (h : a.sameSource b = true) : b.exps = [] := by
  cases a <;> cases b <;> first | rfl | cases h

/-- What is read from the output of a producer shows nothing. -/
theorem Operand.exps_of_link {outs : List Ident} {a : Operand} {i : Nat}
    (h : Recipe.link outs a = some i) : a.exps = [] := by
  obtain ⟨x, y, rfl, -⟩ := Recipe.link_eq_some h
  rfl

/-! ## What the recipes show -/

/-- A `let` that is not hidden shows what both of its parts show. -/
theorem Exp.shown_bind {p : Pattern} {e b : Exp} (hp : ∀ x ∈ p.names, x ∉ H) :
    e.shown H ⊆ (Exp.bind p e b).shown H ∧ b.shown H ⊆ (Exp.bind p e b).shown H :=
  ⟨fun _ hl => .inr (.inl ⟨hl, hp⟩), fun _ hl => .inr (.inr hl)⟩

namespace Recipe

/-- Forwarding a parameter hides nothing of the body. -/
theorem shown_forward (bs : List (Ident × Ident)) (body : Exp) :
    body.shown H ⊆ (forward bs body).shown H := by
  induction bs with
  | nil => exact subset_rfl
  | cons b bs ih => exact ih.trans fun _ hl => .inr (.inr hl)

/-- A lambda over operands shows what a producer and a consumer show, each with its own operands. -/
structure Shows (H : Set Name) (p c : Lambda) (pOperands cOperands : List Operand) (f : Lambda)
    (operands : List Operand) : Prop where
  producer : p.body.shown H ⊆ f.body.shown H
  consumer : c.body.shown H ⊆ f.body.shown H
  pOperands : Operand.shownAll H pOperands ⊆ Operand.shownAll H operands
  cOperands : Operand.shownAll H cOperands ⊆ Operand.shownAll H operands

/-- Only operands that show nothing are left out. -/
theorem Shows.dedup {p c f : Lambda} {pOperands cOperands operands : List Operand} {acc : Nat}
    (h : Shows H p c pOperands cOperands f operands)
    (hparams : f.params.length = acc + operands.length) :
    Shows H p c pOperands cOperands (dedupOperands f operands acc).1
      (dedupOperands f operands acc).2 := by
  have hbody : f.body.shown H ⊆ (dedupOperands f operands acc).1.body.shown H := shown_forward _ _
  have hoperands : Operand.shownAll H operands
      ⊆ Operand.shownAll H (dedupOperands f operands acc).2 := by
    -- an operand is left out for another one with the same source only
    rintro l ⟨a, ha, hl⟩
    rw [← map_snd_params hparams] at ha
    obtain ⟨e, he, rfl⟩ := List.mem_map.1 ha
    obtain ⟨k, hk, heq | hsame⟩ := Coalesced.exists_kept _ e he
    · exact ⟨k.2, List.mem_map_of_mem hk, heq ▸ hl⟩
    · rw [Operand.exps_of_sameSource hsame] at hl
      cases hl
  exact ⟨h.producer.trans hbody, h.consumer.trans hbody, h.pOperands.trans hoperands,
    h.cOperands.trans hoperands⟩

/-- Whoever reads nothing but the outputs of a filter has no `let`s in the operands. -/
theorem shownAll_of_readers? {ss : List Source} {params : List Ident} {operands : List Operand}
    {readers : List (Ident × Nat × Source)} (h : readers? ss params operands = some readers)
    (hlen : params.length = operands.length) : Operand.shownAll H operands = ∅ := by
  refine Set.eq_empty_of_forall_notMem fun l ⟨a, ha, hl⟩ => ?_
  rw [← List.map_snd_zip (Nat.le_of_eq hlen.symm)] at ha
  obtain ⟨e, he, rfl⟩ := List.mem_map.1 ha
  obtain ⟨r, -, -, hlink, -⟩ := exists_of_forall₂ (readers_of_readers? h).flip he
  rw [Operand.exps_of_link hlink] at hl
  cases hl

section

variable {p c : Lambda} {pOperands cOperands : List Operand} {outs : List Ident} {acc : Nat}
  {s s' : NameSupply} (hs : ∀ x ∈ s.until s', x ∉ H)

include hs

/-- A map in front of another lambda whose parameters hide nothing. -/
theorem shows_afterMap {r : Lambda × List Operand}
    (h : afterMap p pOperands outs c acc cOperands s = .ok (r, s'))
    (hc : ∀ x ∈ Pattern.names c.params, x ∉ H) : Shows H p c pOperands cOperands r.1 r.2 := by
  obtain ⟨hp, hlen, pattern, hpattern, rfl⟩ := afterMap_eq_ok h
  obtain ⟨-, hsource⟩ := Linking.source_of_pattern hpattern
  have hsorts := linking_sorts outs ((c.params.drop acc).zip cOperands)
  -- the results of the map are bound to parameters of the consumer and to fresh names
  have hnames : ∀ x ∈ pattern.names, x ∉ H := fun x hx => by
    obtain ⟨y, hy, rfl⟩ := List.mem_map.1 hx
    rcases hsource y hy with ⟨i, hi⟩ | hi
    · obtain ⟨a, ha, -⟩ := hsorts.binders _ hi
      exact hc _ (List.mem_map_of_mem (List.mem_of_mem_drop (List.of_mem_zip ha).1))
    · exact hs _ hi
  obtain ⟨hfirst, hsecond⟩ := Exp.shown_bind (e := p.body) (b := forward
    (linking outs ((c.params.drop acc).zip cOperands)).forwards c.body) hnames
  refine Shows.dedup ⟨hfirst, (shown_forward _ _).trans hsecond,
    Operand.shownAll_mono fun a ha => List.mem_append_left _ ha, fun l ⟨a, ha, hl⟩ => ?_⟩
      (length_params_afterMap hp hlen _)
  rw [← map_snd_params hlen] at ha
  obtain ⟨e, he, rfl⟩ := List.mem_map.1 ha
  -- an operand that is a result of the producer shows nothing, and the others stay
  cases hlink : link outs e.2 with
  | none =>
    refine ⟨e.2, List.mem_append_right _ (List.mem_map_of_mem ?_), hl⟩
    rw [linking_others]
    exact List.mem_filter.2 ⟨he, by rw [hlink]; rfl⟩
  | some i =>
    rw [Operand.exps_of_link hlink] at hl
    cases hl

/-- The body under a flag shows what the predicate and the guarded code show, for the flag is fresh.
-/
theorem shown_guarded {check : Ident} (hcheck : check.name ∈ s.until s')
    (forwards : List (Ident × Ident)) (otherwise : Exp) (ty : Ty) :
    p.body.shown H ⊆ (Exp.bind [check] p.body (.cond (.ofIdent check) (forward forwards c.body)
        otherwise ty .dummy)).shown H
      ∧ c.body.shown H ⊆ (Exp.bind [check] p.body (.cond (.ofIdent check) (forward forwards c.body)
        otherwise ty .dummy)).shown H := by
  have hnames : ∀ x ∈ Pattern.names [check], x ∉ H :=
    List.forall_mem_singleton.2 (hs check.name hcheck)
  obtain ⟨htest, hguarded⟩ := Exp.shown_bind (e := p.body) (b := .cond (.ofIdent check)
    (forward forwards c.body) otherwise ty .dummy) hnames
  exact ⟨htest, (shown_forward _ _).trans (Set.Subset.trans (fun _ hl => .inl (.inr hl)) hguarded)⟩

/-- A fold behind a filter shows what both stages show. -/
theorem shows_foldAfterFilter {r : Lambda × List Operand}
    (h : foldAfterFilter p pOperands outs c acc cOperands s = .ok (some r, s')) :
    Shows H p c pOperands cOperands r.1 r.2 := by
  obtain ⟨hp, hc, readers, check, hreaders, htag, hcount, rfl⟩ := foldAfterFilter_eq_ok h
  obtain ⟨hfirst, hsecond⟩ := shown_guarded (p := p) (c := c) hs
    (NameSupply.mem_until_of_tag_eq htag (by omega))
    (readers.map fun r => (r.1, r.2.2.param)) (.results ((c.params.take acc).map .ofIdent))
    (.ofResults c.rets)
  refine Shows.dedup ⟨hfirst, hsecond, subset_rfl, ?_⟩ (length_params_guarded hp hc)
  rw [shownAll_of_readers? hreaders (by rw [List.length_drop]; omega)]
  exact Set.empty_subset _

/-- A filter behind a filter shows what both stages show. -/
theorem shows_filterAfterFilter {cOutputs : List Ident} {r : Lambda × List Operand × List Ident}
    (h : filterAfterFilter p pOperands outs c cOperands cOutputs s = .ok (some r, s'))
    (houts : outs.length = pOperands.length) : Shows H p c pOperands cOperands r.1 r.2.1 := by
  obtain ⟨hoperands, -⟩ := whole_filterAfterFilter h houts
  obtain ⟨-, hc, readers, read, s₁, unused, s₂, check, hreaders, hread, hunused, htag, hcount,
      rfl⟩ :=
    filterAfterFilter_eq_ok h
  have hle := Nat.le_trans (source_of_readInOrder hread).1 (handedOut_mapM hunused).1.supply
  have hcheck : check.name ∈ s.until s' := NameSupply.until_subset hle (Nat.le_refl _)
    (NameSupply.mem_until_of_tag_eq htag (by omega))
  obtain ⟨hfirst, hsecond⟩ := shown_guarded (p := p) (c := c) hs hcheck
    (read.map fun d => (d.1, d.2.1)) (.lit (.bool false) .dummy) .bool
  refine ⟨hfirst, hsecond, Operand.shownAll_mono fun a => (hoperands a).2, ?_⟩
  rw [shownAll_of_readers? hreaders hc]
  exact Set.empty_subset _

end

end Recipe

/-! ## What kernels show -/

/-- A reduction that is seen as a redomap shows no less. -/
theorem Stage.shown_asRedomap (g : Stage) (s : NameSupply) :
    g.toExp.shown H ⊆ (g.asRedomap s).1.toExp.shown H := by
  rcases g.asRedomap_cases s with ⟨heq, -⟩ | ⟨f, ne, hop, heq⟩
  · rw [heq]
  · rw [heq, Stage.shown_toExp, Stage.shown_toExp, hop]
    refine Set.union_subset_union_left _ ?_
    exact Set.union_subset_union_left _ Set.subset_union_right

/-- A composition shows what the producer and the consumer show, if the parameters of the consumer
hide nothing. -/
theorem Composed.shown {g c : Stage} {outs cOutputs outputs : List Ident} {s s' : NameSupply}
    {op : Combinator} {operands : List Operand}
    (h : Composed g outs c cOutputs s s' op operands outputs) (houts : g.arity = outs.length)
    (hs : ∀ x ∈ s.until s', x ∉ H)
    (hc : ∀ x ∈ Pattern.names c.op.element.params, x ∉ H) (certs : Certificates) (span : Span) :
    g.toExp.shown H ⊆ (Stage.mk op operands certs span).toExp.shown H
      ∧ c.toExp.shown H ⊆ (Stage.mk op operands certs span).toExp.shown H := by
  simp only [Stage.shown_toExp]
  cases h with
  | mapMap hgop hcop hr =>
    rw [hcop] at hc
    obtain ⟨hp, hf, hpo, hco⟩ := Recipe.shows_afterMap hs hr hc
    rw [hgop, hcop]
    simp only [Combinator.shown, Lambda.shown_eq]
    exact ⟨Set.union_subset_union hp hpo, Set.union_subset_union hf hco⟩
  -- the lambda for the accumulators stands in front, and is left as it was
  | mapFold hgop hcop hr =>
    rw [hcop] at hc
    obtain ⟨hp, hf, hpo, hco⟩ := Recipe.shows_afterMap hs hr hc
    rw [hgop, hcop]
    simp only [Combinator.shown, Lambda.shown_eq]
    exact ⟨Set.union_subset_union (hp.trans (Set.subset_union_right.trans
      Set.subset_union_left)) hpo, Set.union_subset_union (Set.union_subset_union_left _
        (Set.union_subset_union_right _ hf)) hco⟩
  | filterFilter hgop hcop hr =>
    rw [Stage.arity, hgop] at houts
    obtain ⟨hp, hf, hpo, hco⟩ := Recipe.shows_filterAfterFilter hs hr houts.symm
    rw [hgop, hcop]
    simp only [Combinator.shown, Lambda.shown_eq]
    exact ⟨Set.union_subset_union hp hpo, Set.union_subset_union hf hco⟩
  | filterFold hgop hcop hr =>
    obtain ⟨hp, hf, hpo, hco⟩ := Recipe.shows_foldAfterFilter hs hr
    rw [hgop, hcop]
    simp only [Combinator.shown, Lambda.shown_eq]
    exact ⟨Set.union_subset_union (hp.trans (Set.subset_union_right.trans
      Set.subset_union_left)) hpo, Set.union_subset_union (Set.union_subset_union_left _
        (Set.union_subset_union_right _ hf)) hco⟩

/-- A kernel shows what it showed before, and what the stage shows that was fused into it. -/
theorem Producer.shown_fuseInto {p : Producer} {K K' : Kernel} {s s' : NameSupply}
    (h : p.fuseInto K s = .ok (some K', s')) (hs : ∀ x ∈ s.until s', x ∉ H)
    (hK : ∀ x ∈ Pattern.names K.stage.op.element.params, x ∉ H) :
    p.stage.toExp.shown H ⊆ K'.stage.toExp.shown H
      ∧ K.stage.toExp.shown H ⊆ K'.stage.toExp.shown H := by
  obtain ⟨harity, -, op, operands, outputs, hcomposed, rfl, -⟩ := Producer.fuseInto_eq_ok h
  obtain ⟨hp, hc⟩ := hcomposed.shown harity
    (fun x hx => hs x (NameSupply.until_subset (K.stage.count_le_asRedomap s) (Nat.le_refl _) hx))
      (K.stage.element_asRedomap s ▸ hK)
      (Certificates.union p.stage.certs K.stage.certs) K.stage.span
  exact ⟨hp, (K.stage.shown_asRedomap s).trans hc⟩

/-- A kernel has the certificates that it had before, and those of the stage that was fused into
it. -/
theorem Producer.certs_fuseInto {p : Producer} {K K' : Kernel} {s s' : NameSupply}
    (h : p.fuseInto K s = .ok (some K', s')) {x : Name} :
    x ∈ K'.stage.certs.names ↔ x ∈ p.stage.certs.names ∨ x ∈ K.stage.certs.names := by
  obtain ⟨-, -, op, operands, outputs, -, rfl, -⟩ := Producer.fuseInto_eq_ok h
  exact Certificates.mem_names_union

end

/-! ## What is retained -/

/-- The expression is a combinator that reads nothing but variables of `N`. -/
def Exp.ReadsOnly (N : Set Name) : Exp → Prop
  | .soac _ args _ _ => ∀ e ∈ args, ∃ x s, e = .var x s ∧ x.name ∈ N
  | _ => False

/-- Each `let` of `S` is in `T`.  But if transpositions are taken out of kernels, one whose
combinator reads nothing but variables of `N` may have given way to one that binds names of `N`
instead, with the same certificates. -/
def Retains (c : Config) (N : Set Name) (S T : Set (Pattern × Exp)) : Prop :=
  ∀ l ∈ S, l ∈ T ∨ c.transposePull = true ∧ l.2.ReadsOnly N
    ∧ ∃ m ∈ T, (∀ x ∈ m.1.names, x ∈ N) ∧ m.2.certs = l.2.certs

namespace Retains

variable {c : Config} {N : Set Name} {S S' T T' : Set (Pattern × Exp)}

/-- What is kept as it is is retained. -/
theorem of_subset (h : S ⊆ T) : Retains c N S T := fun _ hl => .inl (h hl)

/-- Less is retained by more. -/
theorem mono (h : Retains c N S T) (hS : S' ⊆ S) (hT : T ⊆ T') : Retains c N S' T' := fun l hl =>
  (h l (hS hl)).imp (fun hmem => hT hmem) fun ⟨hc, hreads, m, hm, hnames⟩ =>
    ⟨hc, hreads, m, hT hm, hnames⟩

end Retains

/-- Plain uses of names show nothing. -/
theorem Exp.shown_of_areUsesOf {H : Set Name} {xs : List Ident} {es : List Exp}
    (h : Exp.areUsesOf xs es = true) : Exp.shownAll H es = ∅ := by
  refine Set.eq_empty_of_forall_notMem fun l hl => ?_
  obtain ⟨e, he, hl⟩ := Exp.mem_shownAll.1 hl
  obtain ⟨x, -, y, s, rfl, -⟩ := Recipe.exists_of_forall₂ (Exp.forall₂_of_areUsesOf h) he
  exact hl

/-- A body that just returns names shows nothing. -/
theorem Exp.shown_of_returns {H : Set Name} {xs : List Ident} {e : Exp} (h : e.returns xs = true) :
    e.shown H = ∅ := by
  unfold Exp.returns at h
  split at h
  · unfold Exp.isUseOf at h
    split at h
    · rfl
    · cases h
  · exact Exp.shown_of_areUsesOf h
  · cases h

/-- The map inside of a nest is all that changes when the nest is rebuilt. -/
theorem Kernel.retains_pullTransposes {c : Config} {N H : Set Name} {K : Kernel} {s : NameSupply}
    (hc : c.transposePull = true) (hN : ∀ x ∈ N, x ∉ H) (hs : s.until (K.pullTransposes s).2 ⊆ N)
    (hK : ∀ x ∈ Pattern.names K.stage.op.element.params, x ∈ N) :
    Retains c N (K.stage.toExp.shown H) ((K.pullTransposes s).1.stage.toExp.shown H) := by
  rcases K.pullTransposes_cases s with heq | ⟨arrays, f, nest, hoperands, hop, hn, -, heq⟩
  · rw [heq]
    exact .of_subset subset_rfl
  obtain ⟨hparams, -, args, returned, span, hbody, hargs, hreturned, -⟩ := Nest.ofLambda?_eq_some hn
  have huses := Exp.forall₂_of_areUsesOf hargs
  -- the inner map is bound to fresh names instead of its results
  have hfresh : ∀ x ∈ Pattern.names ((s.freshIdents nest.rows).2.freshIdents nest.results).1,
      x ∈ N := by
    rw [heq] at hs
    exact fun x hx => hs (NameSupply.until_subset (s.count_le_freshIdents nest.rows)
      ((nest.toLambda s).2.count_le_freshIdents K.outputs) (NameSupply.mem_until_of_freshIdents hx))
  -- before there is the inner map with whatever it shows, and so there is afterwards
  have hshown : K.stage.toExp.shown H ⊆
      {(nest.results, .soac (.map nest.inner) args nest.certs nest.span)} ∪ nest.inner.shown H := by
    have hnone : Operand.shownAll H K.stage.operands = ∅ := by
      rw [hoperands]
      refine Set.eq_empty_of_forall_notMem fun l ⟨a, ha, hl⟩ => ?_
      obtain ⟨x, -, rfl⟩ := List.mem_map.1 ha
      exact hl
    rw [Stage.shown_toExp, hnone, Set.union_empty, hop, Combinator.shown, Lambda.shown_eq, hbody,
      Exp.shown, Exp.shown, Exp.shown_of_areUsesOf hargs, Exp.shown_of_returns hreturned,
      Set.union_empty, Set.union_empty]
    exact Set.union_subset_union_right _ fun l hl => hl.1
  have hnew : ({(((s.freshIdents nest.rows).2.freshIdents nest.results).1, .soac (.map nest.inner)
        ((s.freshIdents nest.rows).1.map .ofIdent) nest.certs nest.span)} : Set (Pattern × Exp))
      ∪ nest.inner.shown H ⊆ (K.pullTransposes s).1.stage.toExp.shown H := by
    rw [heq, Stage.shown_toExp]
    refine Set.Subset.trans ?_ Set.subset_union_left
    refine Set.union_subset (fun l hl => .inl hl) fun l hl => .inr (.inl ⟨.inl hl, fun x hx => ?_⟩)
    exact hN x (hfresh x hx)
  intro l hl
  rcases hshown hl with rfl | hl
  · refine .inr ⟨hc, fun e he => ?_, _, hnew (.inl rfl), hfresh, rfl⟩
    obtain ⟨x, hx, y, t, rfl, hname⟩ := Recipe.exists_of_forall₂ huses he
    refine ⟨y, t, rfl, hname ▸ hK x.name ?_⟩
    rw [hop]
    exact List.mem_map_of_mem (hparams ▸ hx)
  · -- whatever stands in the inner map stays
    exact .inl (hnew (.inr hl))

end ArrayFusion
