import ArrayFusion.Fusion.Pass
import ArrayFusion.Proofs.Deciding
import ArrayFusion.Proofs.NormalKernels

/-!
# The pass keeps functions in normal form

All kernels that the analysis of a normal function leaves behind are normal (`Exp.analyse_normal`),
so the function that is emitted is normal, too (`FunDef.fuse_normal`).  The types of uses come in at
one place only: a map whose rows are mapped over in turn may read the rows as arrays, because the
uses of its parameters are operands and the parameters have the same types.
-/

namespace ArrayFusion

/-! ## Functions -/

/-- Every name that is bound in a function, its parameters included. -/
def FunDef.binders (f : FunDef) : List Name := Pattern.names f.params ++ f.body.binders

/-- All names that a function binds are different, and every use is in scope and carries the type of
its binder. -/
structure FunDef.WellScoped (f : FunDef) : Prop where
  distinct : f.binders.Nodup
  uses : f.body.Scoped {x | x ∈ f.params}

/-- The body of a well-scoped function is tidy. -/
theorem FunDef.WellScoped.tidy {f : FunDef} (h : f.WellScoped) (c : Bool) :
    f.body.Tidy c {x | x ∈ f.body.binders} (Scope.names {x | x ∈ f.params}) := by
  obtain ⟨-, hbody, hne⟩ := List.nodup_append.1 h.distinct
  refine h.uses.tidy ⟨hbody, fun x hx => hx, ?_⟩
  rintro x hx ⟨y, hy, rfl⟩
  exact hne _ (List.mem_map_of_mem hy) _ hx rfl

/-- The body uses no other names from outside than the parameters. -/
theorem FunDef.WellScoped.free_subset {f : FunDef} (h : f.WellScoped) (c : Bool) :
    f.body.free c ⊆ Pattern.nameSet f.params := by
  refine (h.tidy c).free_subset.trans ?_
  rintro _ ⟨y, hy, rfl⟩
  exact List.mem_map_of_mem hy

/-- The binders of a well-scoped function are different from each other and from the parameters. -/
theorem FunDef.WellScoped.fresh_binders {f : FunDef} (h : f.WellScoped) :
    FreshIn (Pattern.nameSet f.params) Set.univ f.body.binders := by
  obtain ⟨-, hbody, hne⟩ := List.nodup_append.1 h.distinct
  exact ⟨hbody, fun _ _ => trivial, fun x hx hin => hne x hin x hx rfl⟩

/-- Every combinator of the function is in normal form. -/
def FunDef.Normal (f : FunDef) : Prop := f.body.NormalAt none

/-! ## Nests -/

/-- In a scope with distinct names a use of the name of a parameter is a use of the parameter. -/
theorem Scope.eq_of_mem_enter {Γ : Scope} {B : Set Name} {p : Pattern} {x y : Ident}
    (hp : FreshIn Γ.names B p.names) (hx : x ∈ p) (hy : y ∈ Γ.enter p) (hxy : y.name = x.name) :
    y = x := by
  rcases hy with hy | hy
  · exact absurd ⟨y, hy, hxy⟩ (hp.new _ (List.mem_map_of_mem hx))
  · exact List.inj_on_of_nodup_map hp.nodup hy hx hxy

/-- The rows of a nest in normal code are arrays. -/
theorem Nest.normal_of_ofLambda? {f : Lambda} {n : Nest} {Γ : Scope} {B : Set Name}
    (h : Nest.ofLambda? f = some n) (hf : f.Normal) (hs : f.Scoped Γ)
    (ht : f.Tidy false B Γ.names) : n.Normal := by
  obtain ⟨hparams, -, args, returned, s, hbody, huses, -⟩ := Nest.ofLambda?_eq_some h
  obtain ⟨ps, b, ts⟩ := f
  cases hparams
  cases hbody
  obtain ⟨⟨hsite, hops, hlen, hinner, -⟩, -⟩ := hf
  have huses := Exp.forall₂_of_areUsesOf huses
  refine ⟨hinner, ?_, Option.some.inj hsite, fun x hx => ?_⟩
  · rw [huses.length_eq]
    exact hlen.trans (Nat.zero_add _)
  · obtain ⟨e, he, y, s', rfl, hyx⟩ := Recipe.exists_of_forall₂ huses.flip hx
    have hy : y ∈ Γ.enter n.rows := Exp.scopedAll_iff.1 hs.1.2.2 _ he
    rcases Exp.isOperand_iff.1 (hops _ he) with ⟨z, _, heq, hz⟩ | ⟨_, _, _, heq⟩
      | ⟨_, _, _, heq, -⟩ | ⟨_, _, heq⟩
    · cases heq
      rw [← Scope.eq_of_mem_enter ht.1 hx hy hyx]
      exact hz
    · cases heq
    · cases heq
    · cases heq

/-! ## Registries -/

/-- A normal kernel that has noted an update is normal. -/
theorem Kernel.Normal.noteUpdate {K : Kernel} (x : Name) (h : K.Normal) :
    (K.noteUpdate x).Normal := by
  obtain ⟨hstage, houtputs⟩ := h
  exact ⟨by rwa [stage_noteUpdate], by rwa [stage_noteUpdate, outputs_noteUpdate]⟩

namespace Registry

/-- A normal stage that is fused into normal kernels makes normal kernels. -/
theorem FusedInto.normal {r : Registry} (hr : r.Normal) {g : Stage} {outs : List Ident}
    (hg : g.Normal) {first : Bool} {Ks Ks' : List Kernel} {s s' : NameSupply}
    (h : r.FusedInto g outs first Ks s Ks' s') (hKs : ∀ K ∈ Ks, K.Normal) :
    ∀ K ∈ Ks', K.Normal := by
  induction h with
  | nil => exact nofun
  | first hfuse _ ih =>
    obtain ⟨hK, hKs⟩ := List.forall_mem_cons.1 hKs
    exact List.forall_mem_cons.2 ⟨Producer.normal_fuseInto hfuse hg hK, ih hKs⟩
  | copy hcopy hfuse _ ih =>
    obtain ⟨hK, hKs⟩ := List.forall_mem_cons.1 hKs
    exact List.forall_mem_cons.2
      ⟨Producer.normal_fuseInto hfuse (hr.copyOf hcopy hg) hK, ih hKs⟩

end Registry

/-- Whatever is decided about a normal stage, all kernels are normal afterwards. -/
theorem Placed.normal {c : Config} {o : Origin} {p : Pattern} {g : Stage} {r r' : Registry}
    {a b : Progress} (h : Placed c o p g r a r' b) (hr : r.Normal) (hg : g.Normal)
    (hp : p.length = g.arity)
    (hnest : ∀ f n, g.op = .map f → Nest.ofLambda? f = some n → n.Normal) : r'.Normal := by
  cases h with
  | stays => exact hr
  | fused htried =>
    obtain ⟨Ks, hKs, -, -, hfused⟩ := htried.compatible
    refine Registry.All.fused hr o p g (hfused.normal hr hg fun K hK => ?_)
    obtain ⟨id, -, hid⟩ := Recipe.exists_of_forall₂ (Registry.mem_of_mapM_kernel hKs) hK
    exact hr id K hid
  | registered _ _ _ hK =>
    have hnew : (Kernel.new ⟨a.nextKernel⟩ g p).Normal := ⟨hg, hp⟩
    refine Registry.All.register hr ?_
    rcases hK with ⟨-, rfl, -⟩ | ⟨-, hpull⟩
    · exact hnew
    · rw [← (Prod.mk.inj hpull).1]
      exact hnew.pullTransposes hnest _

/-! ## The analysis -/

/-- The stage of a normal combinator is normal, and has as many results as there are names. -/
theorem Stage.normal_of_ofExp? {e : Exp} {g : Stage} {n : Nat} (h : Stage.ofExp? e = .ok (some g))
    (he : e.NormalAt (some n)) : g.Normal ∧ n = g.arity := by
  cases e with
  | soac op args certs s =>
    obtain ⟨as, hpairs, rfl⟩ := Stage.ofExp?_eq_ok h
    obtain ⟨hsite, -, hparams, hop, hargs⟩ := he
    refine ⟨⟨hop, by rw [hparams, hpairs.length_eq], fun a ha => ?_⟩, ?_⟩
    · obtain ⟨e, he, hea⟩ := Recipe.exists_of_forall₂ hpairs ha
      exact Operand.normal_of_ofExp? hea (Exp.normalAll_iff.1 hargs e he)
    · rw [Option.some.inj hsite, hpairs.length_eq]
      rfl
  | _ => cases h

/-- The map that stands for a replicate is normal. -/
theorem normal_replicateStage {c : Config} {p : Pattern} {n v : Exp} {span : Span} {g : Stage}
    {s s' : NameSupply} (h : replicateStage c p n v span s = .ok (some g, s'))
    (hn : n.NormalAt none) (hv : v.NormalAt none) : g.Normal := by
  rcases replicateStage_cases h with ⟨hnone, -⟩ | ⟨-, x, row, -, -, -, heq⟩
  · cases hnone
  cases heq
  refine ⟨hv, rfl, fun a ha => ?_⟩
  rw [List.mem_singleton.1 ha]
  exact fun _ => ⟨rfl, hn⟩

section

variable {c : Config} {B : Set Name}

/-- An analysis that ends with a result leaves normal kernels only. -/
abbrev LeavesNormal (x : Analysis Registry) : Prop :=
  ∀ a, Ends (fun _ => True) x a fun r _ => r.Normal

mutual

/-- The analysis of a normal expression leaves registries normal. -/
theorem Exp.analyse_normal : ∀ (e : Exp) (site : Option Pattern) {Γ : Scope} {r : Registry},
    e.NormalAt (site.map List.length) → e.Scoped Γ → e.Tidy false B Γ.names → r.Normal →
      LeavesNormal (e.analyse c site r)
  | .lit _ _, _, _, _, _, _, _, hr => fun _ => .pure hr
  | .var x _, _, _, _, _, _, _, hr => fun _ => by
    unfold Exp.analyse
    refine .pure ?_
    split
    · exact hr
    · exact hr
  | .tuple es _, _, _, _, hn, hs, ht, hr => Exp.analyseAll_normal es hn hs ht hr
  | .array es _ _, _, _, _, hn, hs, ht, hr => Exp.analyseAll_normal es hn hs ht hr
  | .binary _ a b _ _, _, _, _, hn, hs, ht, hr => fun _ =>
    (b.analyse_normal none hn.2 hs.2 ht.2 hr _).bind fun _ _ hr =>
      a.analyse_normal none hn.1 hs.1 ht.1 hr _
  | .unary _ e _, _, _, _, hn, hs, ht, hr => fun a =>
    have hn : e.NormalAt none := hn
    e.analyse_normal none hn hs ht hr a
  | .cond e a b _ _, _, _, _, hn, hs, ht, hr => fun _ =>
    (a.analyse_normal none hn.2.1 hs.2.1 ht.2.1 Registry.all_empty _).bind fun _ _ hyes =>
      (b.analyse_normal none hn.2.2 hs.2.2 ht.2.2 Registry.all_empty _).bind
        fun _ _ hno => e.analyse_normal none hn.1 hs.1 ht.1
          (Registry.All.mergeRegion (fun _ x h => h.noteUpdate x) hr
            (Registry.All.unionBranches hyes hno) _) _
  | .call _ es _ _, _, _, _, hn, hs, ht, hr => Exp.analyseAll_normal es hn hs ht hr
  | .letIn p e b _, _, Γ, _, hn, hs, ht, hr => fun _ => by
    have hb := ht.2.2
    rw [← Scope.names_enter] at hb
    exact (b.analyse_normal none hn.2 hs.2 hb hr _).bind fun _ _ hr =>
      e.analyse_normal (some p) hn.1 hs.1 ht.1 hr _
  | .update x y is v b _, _, Γ, _, hn, hs, ht, hr => fun _ => by
    have hb := ht.2.2.2.2
    rw [← Scope.names_enter] at hb
    exact (b.analyse_normal none hn.2.2 hs.2.2.2 hb hr _).bind fun _ _ hr =>
      (v.analyse_normal none hn.2.1 hs.2.2.1 ht.2.2.1
        (Registry.All.forbid (Registry.All.noteUpdate (fun _ x h => h.noteUpdate x) hr _) _)
          _).bind fun _ _ hr => Exp.analyseAll_normal is hn.1 hs.2.1 ht.2.1 hr _
  | .index _ is _, _, _, _, hn, hs, ht, hr => Exp.analyseAll_normal is hn hs.2 ht.2 hr
  | .replicate n v s, site, Γ, r, hn, hs, ht, hr => fun _ => by
    rw [Exp.analyse_replicate]
    refine Ends.bind (P := fun (r : Registry) _ => r.Normal)
      (.intro (fun r' b h => ?_) fun _ _ => trivial) fun _ _ hr =>
        (v.analyse_normal none hn.2 hs.2 ht.2 hr _).bind fun _ _ hr =>
          n.analyse_normal none hn.1 hs.1 ht.1 hr _
    rcases placeReplicate_eq_ok h with ⟨rfl, -⟩ | ⟨p, g, s', -, hg, h⟩
    · exact hr
    rcases replicateStage_cases hg with ⟨hnone, -⟩ | ⟨hatom, x, row, rfl, -, -, heq⟩
    · cases hnone
    cases heq
    refine h.normal hr (normal_replicateStage hg hn.1 hn.2) rfl fun f m hf hm => ?_
    -- an atom is no nest
    cases hf
    obtain ⟨-, -, args, returned, s, hbody, -⟩ := Nest.ofLambda?_eq_some hm
    change v = _ at hbody
    rw [hbody] at hatom
    cases hatom
  | .loop p is i n b e _, _, Γ, _, hn, hs, ht, hr => fun _ => by
    obtain ⟨hni, hnn, hnb, hne⟩ := hn
    obtain ⟨hsi, hsn, hsb, hse⟩ := hs
    obtain ⟨hti, htn, -, htb, hte⟩ := ht
    rw [← Scope.names_enter] at htb hte
    exact (e.analyse_normal none hne hse hte hr _).bind fun _ _ hr =>
      (b.analyse_normal none hnb hsb htb Registry.all_empty _).bind fun _ _ hregion =>
        (n.analyse_normal none hnn hsn htn
          (Registry.All.mergeRegion (fun _ x h => h.noteUpdate x) hr hregion _) _).bind
            fun _ _ hr =>
          Exp.analyseAll_normal is hni hsi hti hr _
  | .soac op args certs s, site, Γ, r, hn, hs, ht, hr => fun a => by
    cases site with
    | none => exact .throw trivial
    | some p =>
      refine Ends.bind (P := fun g _ => Stage.ofExp? (.soac op args certs s) = .ok g)
        (.intro (fun g b h => (Analysis.lift_eq_ok.1 h).1) fun _ _ => trivial) fun g b hg => ?_
      cases g with
      | none => exact .pure hr
      | some g =>
        obtain ⟨hnormal, harity⟩ := Stage.normal_of_ofExp? hg hn
        obtain ⟨-, -, -, hnop, hnargs⟩ := hn
        refine (Combinator.analyseLambdas_normal op hnop hs.2.1 ht.2.1 hr _).bind fun r _ hr => ?_
        by_cases hp : p.length = g.arity
        · rw [if_pos hp]
          refine (Exp.analyseOperands_normal args hnargs hs.2.2 ht.2.2 hr _).bind fun r _ hr =>
            (Combinator.analyseNeutral_normal op hnop hs.2.1 ht.2.1 hr _).bind fun r _ hr =>
              .intro (fun r' _ h => ?_) fun _ _ => trivial
          refine (placed_of_place h).normal hr hnormal hp fun f m hf hm => ?_
          obtain ⟨as, -, hgeq⟩ := Except.bind_eq_ok.1 hg
          cases hgeq
          cases hf
          exact Nest.normal_of_ofLambda? hm hnop hs.2.1 ht.2.1
        · rw [if_neg hp]
          exact .throw trivial

/-- The analysis of normal expressions leaves registries normal. -/
theorem Exp.analyseAll_normal : ∀ (es : List Exp) {Γ : Scope} {r : Registry},
    Exp.NormalAll es → Exp.ScopedAll Γ es → Exp.TidyAll false B Γ.names es → r.Normal →
      LeavesNormal (Exp.analyseAll c r es)
  | [], _, _, _, _, _, hr => fun _ => .pure hr
  | e :: es, _, _, hn, hs, ht, hr => fun _ =>
    (Exp.analyseAll_normal es hn.2 hs.2 ht.2 hr _).bind fun _ _ hr =>
      e.analyse_normal none hn.1 hs.1 ht.1 hr _

/-- The analysis of normal arguments leaves registries normal. -/
theorem Exp.analyseOperands_normal : ∀ (es : List Exp) {Γ : Scope} {r : Registry},
    Exp.NormalAll es → Exp.ScopedAll Γ es → Exp.TidyAll false B Γ.names es → r.Normal →
      LeavesNormal (Exp.analyseOperands c r es)
  | [], _, _, _, _, _, hr => fun _ => .pure hr
  | .index _ is _ :: es, _, _, hn, hs, ht, hr => fun _ =>
    (Exp.analyseOperands_normal es hn.2 hs.2 ht.2 hr _).bind fun _ _ hr =>
      Exp.analyseAll_normal is hn.1 hs.1.2 ht.1.2 hr _
  | .unary .iota k _ :: es, _, _, hn, hs, ht, hr => fun _ =>
    have hk : k.NormalAt none := hn.1
    (Exp.analyseOperands_normal es hn.2 hs.2 ht.2 hr _).bind fun _ _ hr =>
      k.analyse_normal none hk hs.1 ht.1 hr _
  | .unary .not _ _ :: es, _, _, hn, hs, ht, hr | .unary .negate _ _ :: es, _, _, hn, hs, ht, hr
  | .unary .size _ _ :: es, _, _, hn, hs, ht, hr | .unary .transpose _ _ :: es, _, _, hn, hs, ht, hr
  | .lit .. :: es, _, _, hn, hs, ht, hr | .var .. :: es, _, _, hn, hs, ht, hr
  | .tuple .. :: es, _, _, hn, hs, ht, hr | .array .. :: es, _, _, hn, hs, ht, hr
  | .binary .. :: es, _, _, hn, hs, ht, hr | .cond .. :: es, _, _, hn, hs, ht, hr
  | .call .. :: es, _, _, hn, hs, ht, hr | .letIn .. :: es, _, _, hn, hs, ht, hr
  | .update .. :: es, _, _, hn, hs, ht, hr | .replicate .. :: es, _, _, hn, hs, ht, hr
  | .loop .. :: es, _, _, hn, hs, ht, hr | .soac .. :: es, _, _, hn, hs, ht, hr => fun _ =>
    (Exp.analyseOperands_normal es hn.2 hs.2 ht.2 hr _).bind fun _ _ hr => .pure hr

/-- The analysis of a normal lambda leaves registries normal. -/
theorem Lambda.analyse_normal : ∀ (f : Lambda) {Γ : Scope} {r : Registry}, f.Normal →
    f.Scoped Γ → f.Tidy false B Γ.names → r.Normal → LeavesNormal (f.analyse c r)
  | ⟨ps, b, ts⟩, Γ, _, hn, hs, ht, hr => fun _ => by
    have hb := ht.2
    rw [← Scope.names_enter] at hb
    exact (b.analyse_normal none hn hs hb Registry.all_empty _).bind fun _ _ hregion =>
      .pure (Registry.All.mergeRegion (fun _ x h => h.noteUpdate x) hr hregion _)

/-- The analysis of normal lambdas leaves registries normal. -/
theorem Combinator.analyseLambdas_normal : ∀ (op : Combinator) {Γ : Scope} {r : Registry},
    op.Normal → op.Scoped Γ → op.Tidy false B Γ.names → r.Normal →
      LeavesNormal (op.analyseLambdas c r)
  | .map f, _, _, hn, hs, ht, hr => Lambda.analyse_normal f hn hs ht hr
  | .reduce f _, _, _, hn, hs, ht, hr => Lambda.analyse_normal f hn.1 hs.1 ht.1 hr
  | .scan f _, _, _, hn, hs, ht, hr => Lambda.analyse_normal f hn.1 hs.1 ht.1 hr
  | .filter f, _, _, hn, hs, ht, hr => Lambda.analyse_normal f hn hs ht hr
  | .redomap f g _, _, _, hn, hs, ht, hr => fun _ =>
    (f.analyse_normal hn.1 hs.1 ht.1 hr _).bind fun _ _ hr =>
      g.analyse_normal hn.2.1 hs.2.1 ht.2.1 hr _

/-- The analysis of normal neutral elements leaves registries normal. -/
theorem Combinator.analyseNeutral_normal : ∀ (op : Combinator) {Γ : Scope} {r : Registry},
    op.Normal → op.Scoped Γ → op.Tidy false B Γ.names → r.Normal →
      LeavesNormal (op.analyseNeutral c r)
  | .map _, _, _, _, _, _, hr => fun _ => .pure hr
  | .reduce _ ne, _, _, hn, hs, ht, hr => Exp.analyseAll_normal ne hn.2 hs.2 ht.2 hr
  | .scan _ ne, _, _, hn, hs, ht, hr => Exp.analyseAll_normal ne hn.2 hs.2 ht.2 hr
  | .filter _, _, _, _, _, _, hr => fun _ => .pure hr
  | .redomap _ _ ne, _, _, hn, hs, ht, hr => Exp.analyseAll_normal ne hn.2.2 hs.2.2 ht.2.2 hr

end

end

/-! ## The pass -/

/-- If the pass succeeds on a function in normal form, the function that comes out is in normal form
again. -/
theorem FunDef.fuse_normal {c : Config} {f : FunDef} {r : FusedFun} (hscoped : f.WellScoped)
    (hnormal : f.Normal) (h : f.fuse c = .ok r) : r.function.Normal := by
  rcases FunDef.fuse_eq_ok h with heq | ⟨q, b, body, hanalyse, -, hbody, heq⟩
  · rw [heq]
    exact hnormal
  · have hq : q.Normal := (f.body.analyse_normal none hnormal hscoped.uses
      (hscoped.tidy false) Registry.all_empty _).of_ok hanalyse
    rw [heq]
    exact Registry.Normal.emit (Registry.All.dropUnfused hq) hnormal hbody

/-- A map that negates each number, behind another one. -/
def negatedTwice : FunDef :=
  let array (base : String) (tag : Nat) : Ident := ⟨⟨base, tag⟩, .array .int⟩
  let negate (base : String) (tag : Nat) : Lambda :=
    ⟨[⟨⟨base, tag⟩, .int⟩], .unary .negate (.ofIdent ⟨⟨base, tag⟩, .int⟩) .dummy, [.int]⟩
  ⟨"f", [array "xs" 0], .array .int,
    .bind [array "ys" 1] (.soac (.map (negate "x" 2)) [.ofIdent (array "xs" 0)] [] .dummy)
      (.bind [array "zs" 3] (.soac (.map (negate "y" 4)) [.ofIdent (array "ys" 1)] [] .dummy)
        (.ofIdent (array "zs" 3))), .dummy⟩

theorem FunDef.fuse_normal_negatedTwice : negatedTwice.WellScoped ∧ negatedTwice.Normal
    ∧ ∃ r, negatedTwice.fuse Config.default = .ok r ∧ r.changed = true ∧ r.function.Normal := by
  have hscoped : negatedTwice.WellScoped := ⟨by decide, by
    simp [negatedTwice, Exp.bind, Exp.ofIdent, Exp.Scoped, Exp.ScopedAll, Combinator.Scoped,
      Lambda.Scoped]⟩
  have hnormal : negatedTwice.Normal := by
    simp [negatedTwice, FunDef.Normal, Exp.bind, Exp.ofIdent, Exp.NormalAt, Exp.NormalAll,
      Combinator.Normal, Lambda.Normal, Exp.isOperand_iff, Ident.isArray, Ty.isArray,
      Combinator.arity, Combinator.element, Combinator.neutral]
  have hchanged : (negatedTwice.fuse Config.default).toOption.any (·.changed) = true := by
    decide +kernel
  obtain ⟨r, h, hchanged⟩ := Except.exists_of_any hchanged
  exact ⟨hscoped, hnormal, r, h, hchanged, FunDef.fuse_normal hscoped hnormal h⟩

end ArrayFusion
