import ArrayFusion.Proofs.Analyses
import ArrayFusion.Proofs.NormalPass
import ArrayFusion.Proofs.Occurrences

/-!
# The pass keeps its own rules

The analysis of a function keeps its registry coherent (`Exp.analyses`), since the code in front of
what is known is analysed before its binders are known.  So the pass fails with errors about the
function only (`FunDef.fuse_ofInput`).
-/

namespace ArrayFusion

open FusionError (OfInput)

/-- If the expression is a combinator, it has so many results. -/
def Exp.HasArity (n : Nat) : Exp → Prop
  | .soac op args _ _ => n = op.arity args.length
  | _ => True

/-! ## One law for each form of an expression -/

section

variable (Λ : List (Pattern × Exp)) (c : Config) (site : Option Pattern) (S : Set Name)

/-- The analysis of the expression keeps the rules, whatever is in scope. -/
def Exp.Orderly (e : Exp) : Prop := ∀ {V : Set Name}, e.free true ⊆ V →
    Portion Λ V e.binders e.lets e.slots → Analyses Λ V e.binders S fun r => e.analyse c site r

/-- The analysis of each of the expressions, one after another, keeps the rules. -/
def Exp.OrderlyAll (es : List Exp) : Prop := ∀ {V : Set Name}, Exp.freeAll true es ⊆ V →
  Portion Λ V (Exp.bindersAll es) (Exp.letsAll es) (Exp.slotsAll es) →
    Analyses Λ V (Exp.bindersAll es) S fun r => Exp.analyseAll c r es

end

section

variable {Λ : List (Pattern × Exp)} {c : Config} {site : Option Pattern} {S : Set Name}
    {e a b : Exp} {s : Span}

theorem Exp.Orderly.cond {t : Ty} (htest : e.Orderly Λ c none ∅) (harm : a.Orderly Λ c none ∅)
    (harm' : b.Orderly Λ c none ∅) : (Exp.cond e a b t s).Orderly Λ c site S := by
  intro V hu hp
  obtain ⟨hue, hab⟩ := Set.union_subset_iff.1 hu
  obtain ⟨hua, hub⟩ := Set.union_subset_iff.1 hab
  obtain ⟨hea, hb, hneb⟩ := hp.append
  obtain ⟨he, ha, hnea⟩ := hea.append
  have harms := (harm hua ha).region.branches
    (harm' hub hb).region (fun z hz hmem => ha.new z hmem hz)
    fun z hz => ⟨hb.new z hz, fun hmem => hneb z (List.mem_append_right _ hmem) hz⟩
  have hnew : ∀ z ∈ a.binders ++ b.binders, z ∉ _ := List.forall_mem_append.2 ⟨ha.new, hb.new⟩
  refine (Analyses.join (e.binders ++ a.binders ++ b.binders)
    (harms.merge (fun _ => []) hnew nofun) (htest hue he) (fun z hz => ?_)
    (fun z hz => ⟨he.new z hz, fun hmem => ?_⟩) hnew).congr fun r => ?_
  · simpa only [List.mem_append, or_assoc] using hz
  · rcases List.mem_append.1 hmem with hmem | hmem
    · exact hnea z hz hmem
    · exact hneb z (List.mem_append_left _ hz) hmem
  · simp only [Exp.analyse, bind_assoc, pure_bind]

/-- The body comes first, while the names of the pattern are unknown yet. -/
theorem Exp.Orderly.letIn {p : Pattern} (hrhs : ∀ {V : Set Name}, e.free true ⊆ V →
      Portion Λ V e.binders e.lets e.slots → Bound Λ V e (some p) →
        Analyses Λ V e.binders p.nameSet fun r => e.analyse c (some p) r)
    (hafter : b.Orderly Λ c none ∅) : (Exp.letIn p e b s).Orderly Λ c site S := by
  intro V hu hp
  obtain ⟨hue, hub⟩ := Set.union_subset_iff.1 hu
  have hp : Portion Λ V ((p.names ++ e.binders) ++ b.binders) (((p, e) :: e.lets) ++ b.lets)
    (e.slots ++ b.slots) := hp
  obtain ⟨hpe, hb, hneb⟩ := hp.append
  have hpe : Portion Λ V (p.names ++ e.binders) ([(p, e)] ++ e.lets) ([] ++ e.slots) := hpe
  obtain ⟨hpat, he, hnee⟩ := hpe.append
  have hbody := hb.enter p.nameSet fun z hz hmem => hneb z (List.mem_append_left _ hmem) hz
  refine (hafter (free_subset_union_of_diff hub) hbody).seq
    (hrhs hue he fun q hq => ?_) ?_ ?_ ?_ ?_ ?_
  · cases hq
    exact ⟨hpat.lets _ List.mem_cons_self, fun z hz => ⟨hpat.new z hz, hnee z hz⟩⟩
  · exact fun z hz => hz.imp_right fun hz => List.mem_append_left _ (List.mem_append_left _ hz)
  · exact fun z hz => List.mem_append_right _ hz
  · exact fun z hz => ⟨.inl hz, fun hmem => hb.new z hmem hz⟩
  · exact fun z hz => ⟨.inr (List.mem_append_left _ (List.mem_append_left _ hz)),
      hneb z (List.mem_append_left _ hz)⟩
  · refine fun z hz => ⟨List.mem_append_left _ (List.mem_append_right _ hz), fun hmem => ?_,
      hneb z (List.mem_append_right _ hz)⟩
    exact hmem.elim (he.new z hz) fun hmem => hnee z hmem hz

theorem Exp.Orderly.update {x y : Ident} {is : List Exp} {v : Exp} (hafter : b.Orderly Λ c none ∅)
    (hnew : v.Orderly Λ c none ∅) (hpath : Exp.OrderlyAll Λ c ∅ is) :
    (Exp.update x y is v b s).Orderly Λ c site S := by
  intro V hu hp
  rw [Exp.free, Set.union_subset_iff, Set.union_subset_iff, Set.union_subset_iff] at hu
  obtain ⟨huy, hui, huv, hub⟩ := hu
  have hp : Portion Λ V ([x.name] ++ (Exp.bindersAll is ++ v.binders ++ b.binders))
    ([] ++ (Exp.letsAll is ++ v.lets ++ b.lets))
    ([x.name] ++ (Exp.slotsAll is ++ v.slots ++ b.slots)) := hp
  obtain ⟨hx, hrest, hnex⟩ := hp.append
  -- the target is in scope behind the update only, but nothing else has its name
  obtain ⟨hiv, hb, hneb⟩ := (hrest.enter {x.name} fun z hz hmem =>
    hnex z (List.mem_singleton.2 hmem) hz).append
  obtain ⟨hi, hv, hnei⟩ := hiv.append
  have hnote : Analyses Λ (V ∪ {x.name}) [] ∅ fun r =>
      return (r.noteUpdate y.name).forbid [y.name, x.name] := .step fun r o hr hV => by
    have hmem : ∀ z ∈ [y.name, x.name], z ∈ V ∪ {x.name} := fun z hz => by
      rcases List.mem_cons.1 hz with rfl | hz
      · exact .inl (huy rfl)
      · exact .inr (List.mem_singleton.1 hz)
    exact (hr.advances_noteUpdate y.name _ ∅ ∅).forbid hmem fun z hz =>
      Registry.Coherent.not_dropped (hV z (hmem z hz))
  -- in the order of the analysis: what follows the update, the value and the positions
  have hbody := (hafter (free_subset_union_of_diff hub) hb).join (S := ∅) b.binders
    hnote (fun z hz => hz.elim nofun id) nofun hb.new
  have hvalue := hbody.join (S := ∅) (v.binders ++ b.binders)
    (hnew (huv.trans Set.subset_union_left) hv) (fun z hz => List.mem_append.2 hz)
    (fun z hz => ⟨hv.new z hz, hneb z (List.mem_append_right _ hz)⟩) hb.new
  have hindices := hvalue.join (S := ∅) (Exp.bindersAll is ++ (v.binders ++ b.binders))
    (hpath (hui.trans Set.subset_union_left) hi)
    (fun z hz => List.mem_append.2 hz)
    (fun z hz => ⟨hi.new z hz, fun hmem => (List.mem_append.1 hmem).elim (hnei z hz)
      (hneb z (List.mem_append_left _ hz))⟩) (List.forall_mem_append.2 ⟨hv.new, hb.new⟩)
  refine (hindices.mono (fun z hz => ?_) fun z hz => ?_).congr fun r => ?_
  · exact hz.imp_right fun hz => List.mem_cons.2 (.inl hz)
  · rw [← List.append_assoc] at hz
    exact List.mem_cons_of_mem _ hz
  · simp only [Exp.analyse, bind_assoc, pure_bind]

/-- The body of a loop is a region of its own. -/
theorem Exp.Orderly.loop {p : Pattern} {is : List Exp} {i : Ident} {n : Exp}
    (hnext : e.Orderly Λ c none ∅) (hround : b.Orderly Λ c none ∅) (hlimit : n.Orderly Λ c none ∅)
    (hstart : Exp.OrderlyAll Λ c ∅ is) : (Exp.loop p is i n b e s).Orderly Λ c site S := by
  intro V hu hp
  rw [Exp.free, Set.union_subset_iff, Set.union_subset_iff, Set.union_subset_iff] at hu
  obtain ⟨hui, hun, hub, hue⟩ := hu
  have hp : Portion Λ V ((i.name :: p.names) ++ (Exp.bindersAll is ++ n.binders ++ b.binders
      ++ e.binders)) ([] ++ (Exp.letsAll is ++ n.lets ++ b.lets ++ e.lets))
    ((i.name :: p.names) ++ (Exp.slotsAll is ++ n.slots ++ b.slots ++ e.slots)) := by
    simpa only [Exp.binders, Exp.lets, Exp.slots, List.cons_append, List.nil_append,
      List.append_assoc] using hp
  obtain ⟨hslots, hrest, hnep⟩ := hp.append
  obtain ⟨hinb, he, hnee⟩ := (hrest.enter ({i.name} ∪ p.nameSet) fun z hz hmem =>
    hnep z (List.mem_cons.2 hmem) hz).append
  obtain ⟨hin, hb, hneb⟩ := hinb.append
  obtain ⟨hi, hn, hnen⟩ := hin.append
  have hue : e.free true ⊆ V ∪ ({i.name} ∪ p.nameSet) :=
    (free_subset_union_of_diff hue).trans (Set.union_subset_union_right _ Set.subset_union_right)
  -- in the order of the analysis: what follows the loop, the body, the bound and the first values
  have hregion := (hround (free_subset_union_of_diff hub) hb).region.merge (S := ∅)
    (fun q => q.consumers.keys) hb.new fun _ _ => .inl
  have hbehind := (hnext hue he).join (S := ∅) (b.binders ++ e.binders) hregion
    (fun z hz => List.mem_append.2 hz)
    (fun z hz => ⟨hb.new z hz, hnee z (List.mem_append_right _ hz)⟩) he.new
  have hbound := hbehind.join (S := ∅) (n.binders ++ (b.binders ++ e.binders))
    (hlimit (hun.trans Set.subset_union_left) hn) (fun z hz => List.mem_append.2 hz)
    (fun z hz => ⟨hn.new z hz, fun hmem => (List.mem_append.1 hmem).elim
      (hneb z (List.mem_append_right _ hz))
      (hnee z (List.mem_append_left _ (List.mem_append_right _ hz)))⟩)
    (List.forall_mem_append.2 ⟨hb.new, he.new⟩)
  have hinits := hbound.join (S := ∅) (Exp.bindersAll is ++ (n.binders ++ (b.binders ++ e.binders)))
    (hstart (hui.trans Set.subset_union_left) hi)
    (fun z hz => List.mem_append.2 hz)
    (fun z hz => ⟨hi.new z hz, fun hmem => by
      rcases List.mem_append.1 hmem with hmem | hmem
      · exact hnen z hz hmem
      · exact (List.mem_append.1 hmem).elim (hneb z (List.mem_append_left _ hz))
          (hnee z (List.mem_append_left _ (List.mem_append_left _ hz)))⟩)
    (List.forall_mem_append.2 ⟨hn.new, List.forall_mem_append.2 ⟨hb.new, he.new⟩⟩)
  refine (hinits.mono (fun z hz => ?_) fun z hz => ?_).congr fun r => ?_
  · refine hz.imp_right fun hz => ?_
    rw [Exp.binders, List.mem_cons, List.append_assoc, List.append_assoc, List.append_assoc,
      List.mem_append]
    exact hz.imp_right .inl
  · simp only [Exp.binders, List.mem_cons, List.mem_append] at hz ⊢
    tauto
  · simp only [Exp.analyse, bind_assoc, pure_bind]

theorem Exp.analyses_replicate (hΛ : (letNames Λ).Nodup) {n v : Exp} {V : Set Name}
    (hvalue : v.Orderly Λ c none ∅) (hcount : n.Orderly Λ c none ∅)
    (hu : (Exp.replicate n v s).free true ⊆ V) (hp : Portion Λ V (Exp.replicate n v s).binders
    (Exp.replicate n v s).lets (Exp.replicate n v s).slots)
    (hsite : Bound Λ V (.replicate n v s) site) :
    Analyses Λ V (Exp.replicate n v s).binders (siteNames site) fun r =>
      (Exp.replicate n v s).analyse c site r := by
  obtain ⟨hun, huv⟩ := Set.union_subset_iff.1 hu
  obtain ⟨hn, hv, hne⟩ := hp.append
  intro r o a
  dsimp only
  rw [Exp.analyse_replicate]
  -- the replicate is offered first, its value and its count are analysed behind that
  have hparts : Analyses Λ V (n.binders ++ v.binders) ∅
      fun r => v.analyse c none r >>= n.analyse c none :=
    .join _ (hvalue huv hv) (hcount hun hn)
      (fun z hz => List.mem_append.2 hz) (fun z hz => ⟨hn.new z hz, hne z hz⟩) hv.new
  refine (Awaits.placeReplicate c hΛ hsite hun hp).bind_exists fun r' b ω =>
    (hparts r' (o ++ ω) b).imp (fun ⟨h, hr, hb⟩ => ?_)
      fun r'' d ⟨_, hr, hb⟩ ⟨ω', hr', hd⟩ => ⟨ω ++ ω', ?_, hb.trans hd⟩
  · rw [Set.union_empty]
    exact (h.mono (fun z hz => .inl (.inl hz)) fun _ => (·)).after hr hb
      (fun z hz => hsite.notMem_siteNames (.inl hz))
      fun z hz => ⟨hp.new z hz, hsite.notMem_siteNames (.inr hz)⟩
  rw [Set.union_empty] at hr'
  exact (hr.mono Set.subset_union_left Set.subset_union_right subset_rfl).trans
    (hr'.mono subset_rfl Set.subset_union_left subset_rfl)

theorem Exp.analyses_soac (hΛ : (letNames Λ).Nodup) {op : Combinator} {args : List Exp}
    {certs : Certificates} {p : Pattern} {V : Set Name}
    (harity : (Exp.soac op args certs s).HasArity p.length)
    (hlambdas : op.free true ⊆ V → Portion Λ V op.binders op.lets op.slots →
      Analyses Λ V (op.lambdas.flatMap Lambda.binders) ∅ fun r => op.analyseLambdas c r)
    (hsources : Exp.freeAll true args ⊆ V → Portion Λ V (Exp.bindersAll args) (Exp.letsAll args)
      (Exp.slotsAll args) → Analyses Λ V (Exp.bindersAll args) ∅ fun r =>
    Exp.analyseOperands c r args)
    (hneutral : op.free true ⊆ V → Portion Λ V op.binders op.lets op.slots →
      Analyses Λ V (Exp.bindersAll op.neutral) ∅ fun r => op.analyseNeutral c r)
    (hu : (Exp.soac op args certs s).free true ⊆ V)
    (hp : Portion Λ V (Exp.soac op args certs s).binders (Exp.soac op args certs s).lets
      (Exp.soac op args certs s).slots) (hsite : Bound Λ V (.soac op args certs s) (some p)) :
    Analyses Λ V (Exp.soac op args certs s).binders p.nameSet
      fun r => (Exp.soac op args certs s).analyse c (some p) r := by
  obtain ⟨huop, huargs⟩ := Set.union_subset_iff.1 (Set.union_subset_iff.1 hu).2
  obtain ⟨hmem, hfresh⟩ := hsite p rfl
  obtain ⟨hop, hargs, hne⟩ := hp.append
  intro r o a
  -- if the arguments are no operands, then the function is to blame for that
  refine .lift (fun _ => Stage.ofInput_of_ofExp?) fun g hg => ?_
  cases g with
  | none => exact Analyses.pure r o a
  | some g =>
    obtain ⟨hwithin, hg⟩ := Stage.within_of_ofExp? hg huargs hp
    have hlen : p.length = g.arity := Eq.trans harity hg.symm
    have hmemop : ∀ z, z ∈ op.binders ↔
        z ∈ op.lambdas.flatMap Lambda.binders ∨ z ∈ Exp.bindersAll op.neutral := fun z => by
      rw [op.binders_eq, List.mem_append]
    have hneop : ∀ z ∈ Exp.bindersAll op.neutral, z ∉ op.lambdas.flatMap Lambda.binders := by
      have hnodup := hop.nodup
      rw [op.binders_eq] at hnodup
      exact fun z hz hz' => (List.nodup_append.1 hnodup).2.2 z hz' z hz rfl
    -- in the order of the analysis: the lambdas, the operands and the neutral elements
    have hoperands := (hlambdas huop hop).join (S := ∅)
      (Exp.bindersAll args ++ op.lambdas.flatMap Lambda.binders)
      (hsources huargs hargs) (fun z hz => List.mem_append.2 hz)
      (fun z hz => ⟨hargs.new z hz, fun hz' => hne z ((hmemop z).2 (.inl hz')) hz⟩)
      fun z hz => hop.new z ((hmemop z).2 (.inl hz))
    have hparts := hoperands.join (S := ∅) (op.binders ++ Exp.bindersAll args)
      (hneutral huop hop)
      (fun z hz => by
        rw [List.mem_append, hmemop]
        rw [List.mem_append] at hz
        tauto)
      (fun z hz => ⟨hop.new z ((hmemop z).2 (.inr hz)), fun hz' => (List.mem_append.1 hz').elim
        (hne z ((hmemop z).2 (.inr hz))) (hneop z hz)⟩)
      (List.forall_mem_append.2 ⟨hargs.new, fun z hz => hop.new z ((hmemop z).2 (.inl hz))⟩)
    have hplace := hparts.place hwithin hΛ (List.mem_map_of_mem hmem) hfresh hp.new hlen.symm
      c r o a
    simp only [bind_assoc] at hplace
    simp only [if_pos hlen]
    exact hplace

end

/-! ## Expressions -/

/-- The `let`s of a function bind different names, and where one binds the results of a combinator
there is a name for each. -/
structure LetsFit (Λ : List (Pattern × Exp)) : Prop where
  distinct : (letNames Λ).Nodup
  arity : ∀ l ∈ Λ, l.2.HasArity l.1.length

section

variable {Λ : List (Pattern × Exp)} {c : Config}

mutual

/-- The analysis of an expression keeps the rules, whatever is in scope and whatever it is bound
to. -/
theorem Exp.analyses (hfit : LetsFit Λ) : ∀ (e : Exp) (site : Option Pattern) {V : Set Name},
    e.free true ⊆ V → Portion Λ V e.binders e.lets e.slots → Bound Λ V e site →
      Analyses Λ V e.binders (siteNames site) fun r => e.analyse c site r
  | .lit _ _, _, _, _, _, _ => .pure
  | .var x _, _, V, hu, _, _ => by
    have hx : x.name ∈ V := hu rfl
    refine .step fun r o hr hV => ?_
    split
    · exact (hr.advances V ∅ ∅).forbid (fun y hy => List.mem_singleton.1 hy ▸ hx) fun y hy =>
        Registry.Coherent.not_dropped (hV y (List.mem_singleton.1 hy ▸ hx))
    · exact hr.advances V ∅ ∅
  | .tuple es _, _, _, hu, hp, _ => Exp.analysesAll hfit es hu hp
  | .array es _ _, _, _, hu, hp, _ => Exp.analysesAll hfit es hu hp
  | .binary _ a b _ _, _, _, hu, hp, _ => by
    obtain ⟨hua, hub⟩ := Set.union_subset_iff.1 hu
    obtain ⟨ha, hb, hne⟩ := hp.append
    exact .join _ (b.analyses hfit none hub hb nofun) (a.analyses hfit none hua ha nofun)
      (fun z hz => List.mem_append.2 hz) (fun z hz => ⟨ha.new z hz, hne z hz⟩) hb.new
  | .unary _ e _, _, _, hu, hp, _ =>
    (Exp.analyses hfit e none hu hp nofun).mono (fun _ => .inl) fun _ => (·)
  | .cond e a b _ _, _, _, hu, hp, _ => Exp.Orderly.cond (e.analyses hfit none · · nofun)
    (a.analyses hfit none · · nofun) (b.analyses hfit none · · nofun) hu hp
  | .call _ es _ _, _, _, hu, hp, _ => Exp.analysesAll hfit es hu hp
  | .letIn p e b _, _, _, hu, hp, _ =>
    Exp.Orderly.letIn (e.analyses hfit (some p)) (b.analyses hfit none · · nofun) hu hp
  | .update x y is v b _, _, _, hu, hp, _ => Exp.Orderly.update (b.analyses hfit none · · nofun)
    (v.analyses hfit none · · nofun) (Exp.analysesAll hfit is) hu hp
  | .index x is _, _, V, hu, hp, _ => by
    obtain ⟨hux, hui⟩ := Set.union_subset_iff.1 hu
    have hforbid : Analyses Λ V [] ∅ fun r => return r.forbid [x.name] := .step fun r o hr hV => by
      have hmem : ∀ z ∈ [x.name], z ∈ V := fun z hz => hux (List.mem_singleton.1 hz)
      exact (hr.advances V ∅ ∅).forbid hmem fun z hz =>
        Registry.Coherent.not_dropped (hV z (hmem z hz))
    refine (hforbid.join (Exp.bindersAll is) (Exp.analysesAll hfit is hui hp)
      (fun z hz => hz.elim id nofun) (fun z hz => ⟨hp.new z hz, nofun⟩) nofun).congr fun r => ?_
    simp only [Exp.analyse, pure_bind]
  | .replicate n v s, site, V, hu, hp, hsite => Exp.analyses_replicate hfit.distinct
    (v.analyses hfit none · · nofun) (n.analyses hfit none · · nofun) hu hp hsite
  | .loop p is i n b e _, _, _, hu, hp, _ => Exp.Orderly.loop (e.analyses hfit none · · nofun)
    (b.analyses hfit none · · nofun) (n.analyses hfit none · · nofun)
      (Exp.analysesAll hfit is) hu hp
  | .soac op args certs s, none, _, _, _, _ => fun _ _ _ => ⟨Nat.le_refl _, fun _ _ => nofun⟩
  | .soac op args certs s, some p, _, hu, hp, hsite =>
    Exp.analyses_soac hfit.distinct (hfit.arity _ (hsite p rfl).1) (op.analysesLambdas hfit)
      (Exp.analysesOperands hfit args) (op.analysesNeutral hfit) hu hp hsite

theorem Exp.analysesAll (hfit : LetsFit Λ) : ∀ (es : List Exp) {V S : Set Name},
    Exp.freeAll true es ⊆ V → Portion Λ V (Exp.bindersAll es) (Exp.letsAll es) (Exp.slotsAll es) →
      Analyses Λ V (Exp.bindersAll es) S fun r => Exp.analyseAll c r es
  | [], _, _, _, _ => .pure
  | e :: es, _, _, hu, hp => by
    obtain ⟨hue, hues⟩ := Set.union_subset_iff.1 hu
    obtain ⟨he, hes, hne⟩ := hp.append
    exact .join _ (Exp.analysesAll hfit es hues hes) (e.analyses hfit none hue he nofun)
      (fun z hz => List.mem_append.2 hz) (fun z hz => ⟨he.new z hz, hne z hz⟩) hes.new

/-- The analysis of the arguments of a combinator keeps the rules. -/
theorem Exp.analysesOperands (hfit : LetsFit Λ) : ∀ (es : List Exp) {V S : Set Name},
    Exp.freeAll true es ⊆ V → Portion Λ V (Exp.bindersAll es) (Exp.letsAll es) (Exp.slotsAll es) →
      Analyses Λ V (Exp.bindersAll es) S fun r => Exp.analyseOperands c r es
  | [], _, _, _, _ => .pure
  | .index x is _ :: es, _, _, hu, hp => by
    obtain ⟨hue, hues⟩ := Set.union_subset_iff.1 hu
    obtain ⟨he, hes, hne⟩ := hp.append
    exact .join _ (Exp.analysesOperands hfit es hues hes)
      (Exp.analysesAll hfit is (Set.union_subset_iff.1 hue).2 he) (fun z hz => List.mem_append.2 hz)
      (fun z hz => ⟨he.new z hz, hne z hz⟩) hes.new
  | .unary .iota n _ :: es, _, _, hu, hp => by
    obtain ⟨hue, hues⟩ := Set.union_subset_iff.1 hu
    obtain ⟨he, hes, hne⟩ := hp.append
    exact .join _ (Exp.analysesOperands hfit es hues hes) (n.analyses hfit none hue he nofun)
      (fun z hz => List.mem_append.2 hz) (fun z hz => ⟨he.new z hz, hne z hz⟩) hes.new
  | .unary .not _ _ :: es, _, _, hu, hp | .unary .negate _ _ :: es, _, _, hu, hp
  | .unary .size _ _ :: es, _, _, hu, hp | .unary .transpose _ _ :: es, _, _, hu, hp
  | .lit .. :: es, _, _, hu, hp | .var .. :: es, _, _, hu, hp
  | .tuple .. :: es, _, _, hu, hp | .array .. :: es, _, _, hu, hp
  | .binary .. :: es, _, _, hu, hp | .cond .. :: es, _, _, hu, hp
  | .call .. :: es, _, _, hu, hp | .letIn .. :: es, _, _, hu, hp
  | .update .. :: es, _, _, hu, hp | .replicate .. :: es, _, _, hu, hp
  | .loop .. :: es, _, _, hu, hp | .soac .. :: es, _, _, hu, hp =>
    .join _ (Exp.analysesOperands hfit es (Set.union_subset_iff.1 hu).2 hp.append.2.1)
      (show Analyses Λ _ [] ∅ _ from .pure)
      (fun _ hz => List.mem_append_right _ (hz.resolve_left List.not_mem_nil))
        nofun hp.append.2.1.new

/-- The analysis of a lambda keeps the rules: its body is a region of its own. -/
theorem Lambda.analyses (hfit : LetsFit Λ) : ∀ (f : Lambda) {V S : Set Name}, f.free true ⊆ V →
    Portion Λ V f.binders f.lets f.slots → Analyses Λ V f.binders S fun r => f.analyse c r
  | ⟨ps, b, ts⟩, V, S, hu, hp => by
    have hpb : Portion Λ V (Pattern.names ps ++ b.binders) ([] ++ b.lets)
      (Pattern.names ps ++ b.slots) := hp
    obtain ⟨-, hb, hne⟩ := hpb.append
    have hb := hb.enter (Pattern.nameSet ps) fun z hz hmem => hne z hmem hz
    have hregion := (b.analyses hfit none (free_subset_union_of_diff hu) hb nofun).region.merge
      (S := ∅) (fun q => q.consumers.keys ++ Lambda.freeArrays ⟨ps, b, ts⟩) hb.new fun q z hz => by
        refine (List.mem_append.1 hz).imp_right fun hz => .inl (hu ?_)
        obtain ⟨x, hx, rfl⟩ := List.mem_map.1 hz
        exact (Lambda.mem_freeVars _).1 (List.mem_map_of_mem (List.mem_filter.1 hx).1)
    exact hregion.mono (fun z hz => hz.imp_right (List.mem_append_left _))
      fun z hz => List.mem_append_right _ hz

theorem Combinator.analysesLambdas (hfit : LetsFit Λ) : ∀ (op : Combinator) {V S : Set Name},
    op.free true ⊆ V → Portion Λ V op.binders op.lets op.slots →
      Analyses Λ V (op.lambdas.flatMap Lambda.binders) S fun r => op.analyseLambdas c r
  | .map f, _, _, hu, hp => by
    rw [Combinator.lambdas, List.flatMap_singleton]
    exact f.analyses hfit hu hp
  | .filter f, _, _, hu, hp => by
    rw [Combinator.lambdas, List.flatMap_singleton]
    exact f.analyses hfit hu hp
  | .reduce f _, _, _, hu, hp => by
    rw [Combinator.lambdas, List.flatMap_singleton]
    exact f.analyses hfit (Set.union_subset_iff.1 hu).1 hp.append.1
  | .scan f _, _, _, hu, hp => by
    rw [Combinator.lambdas, List.flatMap_singleton]
    exact f.analyses hfit (Set.union_subset_iff.1 hu).1 hp.append.1
  | .redomap f g _, _, _, hu, hp => by
    obtain ⟨huf, hug⟩ := Set.union_subset_iff.1 hu
    obtain ⟨hf, hg, hne⟩ := hp.append.1.append
    rw [Combinator.lambdas, List.flatMap_cons, List.flatMap_singleton]
    exact .join _ (f.analyses hfit huf hf) (g.analyses hfit (Set.union_subset_iff.1 hug).1 hg)
      (fun z hz => List.mem_append.2 hz.symm)
      (fun z hz => ⟨hg.new z hz, fun hmem => hne z hmem hz⟩) hf.new

theorem Combinator.analysesNeutral (hfit : LetsFit Λ) : ∀ (op : Combinator) {V S : Set Name},
    op.free true ⊆ V → Portion Λ V op.binders op.lets op.slots →
      Analyses Λ V (Exp.bindersAll op.neutral) S fun r => op.analyseNeutral c r
  | .map _, _, _, _, _ => .pure
  | .filter _, _, _, _, _ => .pure
  | .reduce _ ne, _, _, hu, hp =>
    Exp.analysesAll hfit ne (Set.union_subset_iff.1 hu).2 hp.append.2.1
  | .scan _ ne, _, _, hu, hp =>
    Exp.analysesAll hfit ne (Set.union_subset_iff.1 hu).2 hp.append.2.1
  | .redomap _ _ ne, _, _, hu, hp =>
    Exp.analysesAll hfit ne (Set.union_subset_iff.1 (Set.union_subset_iff.1 hu).2).2 hp.append.2.1

end

end

/-! ## The pass -/

/-- Each combinator that a `let` binds has as many results as there are names. -/
def FunDef.ArityFits (f : FunDef) : Prop := ∀ l ∈ f.body.lets, l.2.HasArity l.1.length

/-- The different binders of a function make it a portion of itself. -/
theorem FunDef.portion {f : FunDef} (h : f.binders.Nodup) : (letNames f.body.lets).Nodup
    ∧ Portion f.body.lets (Pattern.nameSet f.params) f.body.binders f.body.lets f.body.slots := by
  obtain ⟨-, hbody, hne⟩ := List.nodup_append.1 h
  have hcount : ∀ z, (letNames f.body.lets).count z + f.body.slots.count z ≤ 1 := fun z => by
    rw [← f.body.count_binders z]
    exact List.nodup_iff_count_le_one.1 hbody z
  refine ⟨Exp.nodup_letNames hbody, hbody, fun z hz hmem => hne z hmem z hz rfl,
    fun l hl => hl, fun z hz hmem => ?_⟩
  · have := hcount z
    have := List.count_pos_iff.2 hz
    have := List.count_pos_iff.2 hmem
    omega

/-- The names that the `let`s of a function bind are below the supply for it. -/
theorem FunDef.tag_lt_of_mem_letNames {f : FunDef}
    (htags : ∀ x ∈ f.params ++ f.body.idents, x.name.tag < Name.maxTag) :
    ∀ z ∈ letNames f.body.lets, z.tag < (NameSupply.forFun f).count := by
  intro z hz
  obtain ⟨x, hx, rfl⟩ := List.mem_map.1 (f.body.mem_idents z (Exp.mem_binders_of_lets hz))
  exact NameSupply.lt_forFun htags (List.mem_append_right _ hx)

/-- The analysis of a whole function, from a supply behind all its tags. -/
theorem FunDef.leads_analyse {f : FunDef} (c : Config) (hbinders : f.binders.Nodup)
    (huses : f.body.free true ⊆ Pattern.nameSet f.params) (harity : f.ArityFits)
    (htags : ∀ x ∈ f.params ++ f.body.idents, x.name.tag < Name.maxTag) :
    (f.body.analyse c none .empty).Leads ⟨.forFun f, 0, []⟩ True fun r _ =>
      ∃ o, r.Coherent f.body.lets o := by
  obtain ⟨hΛ, hportion⟩ := FunDef.portion hbinders
  exact ((f.body.analyses ⟨hΛ, harity⟩ none huses hportion nofun).region ⟨.forFun f, 0, []⟩).imp
    (fun _ => FunDef.tag_lt_of_mem_letNames htags) fun _ _ _ ⟨_, hadvances, _⟩ =>
      ⟨_, hadvances.coherent⟩

/-- If the pass fails on a function with distinct binders and all uses in scope, whose combinators
have as many results as there are names for them, then the error is about the function: the pass
does not break its own rules.  The tags have to suffice for the fresh names. -/
theorem FunDef.fuse_ofInput {c : Config} {f : FunDef} {e : FusionError} (hbinders : f.binders.Nodup)
    (huses : f.body.free true ⊆ Pattern.nameSet f.params) (harity : f.ArityFits)
    (htags : ∀ x ∈ f.params ++ f.body.idents, x.name.tag < Name.maxTag) (hroom : f.TagsSuffice c)
    (h : f.fuse c = .error e) : e.cause.category ≠ .invariant := by
  have hanalyse := FunDef.leads_analyse c hbinders huses harity htags
  unfold FunDef.fuse at h
  cases henabled : c.enabled with
  | false =>
    rw [henabled] at h
    cases h
  | true =>
    rw [henabled] at h
    -- the cleaning at the end succeeds whenever the analysis does
    have hclean : ∀ {r b}, f.body.analyse c none .empty ⟨.forFun f, 0, []⟩ = .ok (r, b) →
        ∃ o, r.dropUnfused.Coherent f.body.lets o ∧ r.clean f.span = .ok r.dropUnfused := by
      intro r b hr
      rw [FunDef.TagsSuffice, FunDef.supplyAfter_of_ok henabled hr] at hroom
      obtain ⟨o, hcoherent⟩ := (hanalyse.of_ok hr).2 hroom trivial
      have hcoherent := hcoherent.dropUnfused
      exact ⟨_, hcoherent, Except.bind_eq_ok.2 ⟨(), hcoherent.check_eq_ok f.span, rfl⟩⟩
    -- so a run can fail in the analysis only, and that blames its input
    rcases Except.bind_eq_error.1 h with hrun | ⟨⟨q, b⟩, hrun, h⟩
    · obtain ⟨e', hfails, rfl⟩ := Except.mapError_eq_error.1 hrun
      rcases State.bind_eq_error.1 hfails with hbody | ⟨r, b, hr, hlift⟩
      · rw [FunDef.TagsSuffice, FunDef.supplyAfter_of_error henabled hbody] at hroom
        exact (hanalyse.of_error hbody).2 hroom trivial
      · obtain ⟨o, -, hok⟩ := hclean hr
        exact nomatch hok.symm.trans (Analysis.lift_eq_error.1 hlift).1
    · obtain ⟨r, b', hr, hlift⟩ := State.bind_eq_ok.1 (Except.mapError_eq_ok.1 hrun)
      obtain ⟨o, hcoherent, hok⟩ := hclean hr
      -- what is left after cleaning can be emitted
      obtain ⟨body, hbody⟩ := Emit.exists_expAt fun l hl =>
        hcoherent.emittable (.inl (List.mem_map_of_mem hl))
      cases hok.symm.trans (Analysis.lift_eq_ok.1 hlift).1
      dsimp only at h
      split at h
      · cases h
      · rw [show r.dropUnfused.emit f.body = .ok body from hbody] at h
        cases h

/-- A map behind another one, whose lambda takes a parameter too many. -/
def mapOfPairs : FunDef :=
  let array (base : String) (tag : Nat) : Ident := ⟨⟨base, tag⟩, .array .int⟩
  let negate (x : Ident) : Exp := .unary .negate (.ofIdent x) .dummy
  let row (base : String) (tag : Nat) : Ident := ⟨⟨base, tag⟩, .int⟩
  ⟨"f", [array "xs" 0], .array .int,
    .bind [array "ys" 1]
      (.soac (.map ⟨[row "x" 2], negate (row "x" 2), [.int]⟩) [.ofIdent (array "xs" 0)] [] .dummy)
      (.bind [array "zs" 3]
        (.soac (.map ⟨[row "y" 4, row "z" 5], negate (row "y" 4), [.int]⟩)
          [.ofIdent (array "ys" 1)] [] .dummy)
        (.ofIdent (array "zs" 3))), .dummy⟩

theorem FunDef.fuse_ofInput_mapOfPairs : mapOfPairs.binders.Nodup
    ∧ mapOfPairs.body.free true ⊆ Pattern.nameSet mapOfPairs.params ∧ mapOfPairs.ArityFits
    ∧ (∀ x ∈ mapOfPairs.params ++ mapOfPairs.body.idents, x.name.tag < Name.maxTag)
    ∧ mapOfPairs.TagsSuffice .default ∧ ∃ e, mapOfPairs.fuse Config.default = .error e ∧
    e.cause.category ≠ .invariant := by
  have hbinders : mapOfPairs.binders.Nodup := by decide
  have huses : mapOfPairs.body.free true ⊆ Pattern.nameSet mapOfPairs.params := by
    simp [mapOfPairs, Exp.bind, Exp.ofIdent, Exp.free, Exp.freeAll, Combinator.free, Lambda.free,
      Pattern.nameSet, Pattern.names]
  have harity : mapOfPairs.ArityFits := by
    simp [FunDef.ArityFits, mapOfPairs, Exp.bind, Exp.ofIdent, Exp.lets, Exp.letsAll,
      Combinator.lets, Lambda.lets, Exp.HasArity, Combinator.arity]
  have htags : ∀ x ∈ mapOfPairs.params ++ mapOfPairs.body.idents, x.name.tag < Name.maxTag := by
    decide
  have hroom : mapOfPairs.TagsSuffice .default := by decide +kernel
  have hfails : (mapOfPairs.fuse Config.default).toOption.isNone = true := by decide +kernel
  refine ⟨hbinders, huses, harity, htags, hroom, ?_⟩
  cases h : mapOfPairs.fuse Config.default with
  | ok r =>
    rw [h] at hfails
    cases hfails
  | error e => exact ⟨e, rfl, FunDef.fuse_ofInput hbinders huses harity htags hroom h⟩

/-- A sum of negated numbers, by a step that names its arguments anew.  One tag is left behind those
of the function. -/
def sumOfRenamed : FunDef :=
  let number (base : String) (tag : Nat) : Ident := ⟨⟨base, tag⟩, .int⟩
  let array (base : String) (tag : Nat) : Ident := ⟨⟨base, tag⟩, .array .int⟩
  let negate : Lambda := ⟨[number "x" 3], .unary .negate (.ofIdent (number "x" 3)) .dummy, [.int]⟩
  let u := number "u" 7
  let v := number "v" 4294967294
  let step : Lambda := ⟨[number "acc" 5, number "y" 6],
    .bind [u, v] (.tuple [.ofIdent (number "acc" 5), .ofIdent (number "y" 6)] .dummy)
      (.binary .plus (.ofIdent u) (.ofIdent v) .int .dummy), [.int]⟩
  ⟨"f", [array "xs" 0], .int,
    .bind [array "u" 1] (.soac (.map negate) [.ofIdent (array "xs" 0)] [] .dummy)
      (.bind [number "r" 4]
        (.soac (.reduce step [.lit (.int 0) .dummy]) [.ofIdent (array "u" 1)] [] .dummy)
        (.ofIdent (number "r" 4))), .dummy⟩

/-- In the copy of the step that becomes the lambda for the accumulators, one of the two new names
is that of the negated numbers, which a kernel produces, and the other one is not. -/
theorem FunDef.fuse_splits_sumOfRenamed : sumOfRenamed.binders.Nodup
    ∧ sumOfRenamed.body.free true ⊆ Pattern.nameSet sumOfRenamed.params ∧ sumOfRenamed.ArityFits
    ∧ (∀ x ∈ sumOfRenamed.params ++ sumOfRenamed.body.idents, x.name.tag < Name.maxTag)
    ∧ ∃ e, sumOfRenamed.fuse Config.default = .error e ∧ e.cause.category = .invariant := by
  have hbinders : sumOfRenamed.binders.Nodup := by decide
  have huses : sumOfRenamed.body.free true ⊆ Pattern.nameSet sumOfRenamed.params := by
    simp +contextual [sumOfRenamed, Exp.bind, Exp.ofIdent, Exp.free, Exp.freeAll, Combinator.free,
      Lambda.free, Pattern.nameSet, Pattern.names, or_imp]
  have harity : sumOfRenamed.ArityFits := by
    simp [FunDef.ArityFits, sumOfRenamed, Exp.bind, Exp.ofIdent, Exp.lets, Exp.letsAll,
      Combinator.lets, Lambda.lets, Exp.HasArity, Combinator.arity, Combinator.neutral]
  have hfails : Except.casesOn (motive := fun _ => Bool) (sumOfRenamed.fuse Config.default)
      (fun e => e.cause.category == .invariant) (fun _ => false) = true := by
    decide +kernel
  refine ⟨hbinders, huses, harity, by decide, ?_⟩
  cases h : sumOfRenamed.fuse Config.default with
  | ok r =>
    rw [h] at hfails
    cases hfails
  | error e =>
    rw [h] at hfails
    exact ⟨e, rfl, eq_of_beq hfails⟩

end ArrayFusion
