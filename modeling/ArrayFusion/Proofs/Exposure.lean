import ArrayFusion.Proofs.Escaping

/-!
# Arrays that are exposed

An array can only be fused away if every use of it is seen to by a kernel.  `Exp.exposed` are the
names with any other use in an expression: as a value, as the base of an index or an update, or in
an operand that is not read as a whole; and the arrays that are free in a lambda.  Where a name is
bound makes no difference here.  The analysis forbids to fuse any of them (`Exp.exposes`).
-/

namespace ArrayFusion

/-! ## Uses that no kernel sees to -/

/-- The name of an identifier if that is an array. -/
def Ident.arrayName (x : Ident) : Set Name := {y | x.isArray = true ∧ y = x.name}

/-- The names of the arrays that are free in a lambda. -/
def Lambda.freeArraySet (f : Lambda) : Set Name := {x | x ∈ f.freeArrays}

mutual

/-- The names with a use in an expression that no kernel sees to, wherever they are bound.  Whether
the expression itself is what a `let` binds is said by `bound`. -/
def Exp.exposed (bound : Bool) : Exp → Set Name
  | .lit _ _ => ∅
  | .var x _ => x.arrayName
  | .tuple es _ => Exp.exposedAll es
  | .array es _ _ => Exp.exposedAll es
  | .binary _ a b _ _ => a.exposed false ∪ b.exposed false
  | .unary _ e _ => e.exposed false
  | .cond c a b _ _ => c.exposed false ∪ (a.exposed false ∪ b.exposed false)
  | .call _ es _ _ => Exp.exposedAll es
  | .letIn _ r b _ => r.exposed true ∪ b.exposed false
  | .update x y is v b _ =>
    {y.name, x.name} ∪ (Exp.exposedAll is ∪ (v.exposed false ∪ b.exposed false))
  | .index x is _ => {x.name} ∪ Exp.exposedAll is
  | .replicate n v _ => n.exposed false ∪ v.exposed false
  | .loop _ is _ n b r _ =>
    Exp.exposedAll is ∪ (n.exposed false ∪ (b.exposed false ∪ r.exposed false))
  | .soac op es _ _ => op.exposed ∪ if bound then Exp.exposedOperands es else Exp.exposedAll es

/-- The names with a use in a list of expressions that no kernel sees to. -/
def Exp.exposedAll : List Exp → Set Name
  | [] => ∅
  | e :: es => e.exposed false ∪ Exp.exposedAll es

/-- The names with a use in the arguments of a combinator other than as a whole argument. -/
def Exp.exposedOperands : List Exp → Set Name
  | [] => ∅
  | e :: es => (match e with
    | .var _ _ => ∅
    | _ => e.exposed false) ∪ Exp.exposedOperands es

/-- The names with a use in a lambda that no kernel sees to, and the arrays that are free in it. -/
def Lambda.exposed : Lambda → Set Name
  | ⟨ps, b, ts⟩ => b.exposed false ∪ Lambda.freeArraySet ⟨ps, b, ts⟩

/-- The names that are exposed in the lambdas and the neutral elements of a combinator. -/
def Combinator.exposed : Combinator → Set Name
  | .map f => f.exposed
  | .reduce f ne => f.exposed ∪ Exp.exposedAll ne
  | .scan f ne => f.exposed ∪ Exp.exposedAll ne
  | .filter p => p.exposed
  | .redomap f g ne => f.exposed ∪ (g.exposed ∪ Exp.exposedAll ne)

end

/-- A name is exposed by expressions if one of them exposes it. -/
theorem Exp.mem_exposedAll {es : List Exp} {x : Name} :
    x ∈ Exp.exposedAll es ↔ ∃ e ∈ es, x ∈ e.exposed false := by
  induction es with
  | nil => simp [Exp.exposedAll]
  | cons e es ih => simp [Exp.exposedAll, ih]

theorem Lambda.exposed_eq (f : Lambda) : f.exposed = f.body.exposed false ∪ f.freeArraySet := by
  cases f
  rfl

/-- A name is exposed by a combinator if one of its lambdas or a neutral element exposes it. -/
theorem Combinator.mem_exposed {op : Combinator} {x : Name} : x ∈ op.exposed ↔
    (∃ f ∈ op.lambdas, x ∈ f.exposed) ∨ x ∈ Exp.exposedAll op.neutral := by
  cases op <;> simp [Combinator.exposed, Combinator.lambdas, Combinator.neutral, Exp.exposedAll,
    or_assoc]

/-- What is exposed in the arguments of a combinator is an array that is not read as a whole, or it
is exposed in what the arguments have to compute. -/
theorem Operand.of_mem_exposed {es : List Exp} {as : List Operand} {x : Name}
    (h : List.Forall₂ (fun e a => Operand.ofExp? e = some a) es as)
    (hx : x ∈ Exp.exposedOperands es) :
    (∃ a ∈ as, a.whole? = none ∧ a.source? = some x) ∨ ∃ e ∈ es, ∃ i ∈ e.inner,
    x ∈ i.exposed false := by
  induction h with
  | nil => exact absurd hx (Set.notMem_empty x)
  | @cons e a es as ha _ ih =>
    rcases hx with hx | hx
    · -- an identifier that is read as a whole is not exposed, the other forms are
      have hhead : a.whole? = none ∧ a.source? = some x ∨ ∃ i ∈ e.inner, x ∈ i.exposed false := by
        unfold Operand.ofExp? at ha
        split at ha <;> try split at ha
        all_goals cases ha
        · exact absurd hx (Set.notMem_empty x)
        · exact hx.imp (fun hx => ⟨rfl, congrArg some (Set.mem_singleton_iff.1 hx).symm⟩)
            Exp.mem_exposedAll.1
        · exact .inl ⟨rfl, congrArg some hx.2.symm⟩
        · exact .inr ⟨_, List.mem_singleton_self _, hx⟩
      exact hhead.imp (fun h => ⟨a, List.mem_cons_self, h⟩) fun h => ⟨e, List.mem_cons_self, h⟩
    · exact (ih hx).imp (fun ⟨a, ha, h⟩ => ⟨a, List.mem_cons_of_mem _ ha, h⟩)
        fun ⟨e, he, h⟩ => ⟨e, List.mem_cons_of_mem _ he, h⟩

/-- What the arguments of a combinator have to compute exposes nothing that they do not expose. -/
theorem Exp.exposed_inner {e i : Exp} {es : List Exp} (he : e ∈ es) (hi : i ∈ e.inner) :
    i.exposed false ⊆ Exp.exposedOperands es := by
  intro x hx
  induction es with
  | nil => cases he
  | cons d es ih =>
    rcases List.mem_cons.1 he with rfl | he
    · refine .inl ?_
      unfold Exp.inner at hi
      split at hi
      · exact .inr (Exp.mem_exposedAll.2 ⟨i, hi, hx⟩)
      · rw [List.mem_singleton.1 hi] at hx
        exact hx
      · cases hi
    · exact .inr (ih he)

/-! ## The analysis forbids what is exposed -/

/-- The names of `S` are forbidden afterwards, as are all that were before. -/
def Exposes (S : Set Name) (m : Registry → Analysis Registry) : Prop :=
  ∀ (r r' : Registry) (a b : Progress), m r a = .ok (r', b) →
    ∀ x, x ∈ S ∨ x ∈ r.unfusable → x ∈ r'.unfusable

namespace Registry

/-- A fusion allows nothing that was forbidden. -/
theorem unfusable_fused (r : Registry) (o : Origin) (p : Pattern) (g : Stage) {Ks : List Kernel}
    (hne : Ks ≠ []) {x : Name} (hx : x ∈ r.unfusable) : x ∈ (r.fused o p g Ks).unfusable := by
  obtain ⟨q, -, hunfusable, hnoted⟩ := noted_fused r o p g hne
  exact hnoted.unfusable x (hunfusable ▸ hx)

end Registry

/-- No decision allows what was forbidden. -/
theorem Decided.unfusable_subset {c : Config} {o : Origin} {p : Pattern} {g : Stage}
    {r r' : Registry} {a b : Progress} {d : Decision} (h : Decided c o p g r a d r' b) :
    r.unfusable ⊆ r'.unfusable := by
  intro x hx
  cases h with
  | fused htried => exact Registry.unfusable_fused r o p g htried.ne_nil hx
  | stays => exact hx
  | @registered _ _ K => exact (Registry.noted_register r K).unfusable x hx

/-- The operands that are not read as a whole are forbidden, as far as a decision makes kernels read
them. -/
theorem Decided.exposes {c : Config} {p : Pattern} {g : Stage} {r r' : Registry} {a b : Progress}
    {d : Decision} (h : Decided c .combinator p g r a d r' b) (hc : c.transposePull = false)
    {x : Name} {s : Operand} (hs : s ∈ g.operands) (hwhole : s.whole? = none)
    (hx : s.source? = some x) : x ∈ r'.unfusable := by
  cases h with
  | fused => exact Registry.mem_unfusable_recordOperands _ hs hwhole hx
  | stays ho => cases ho
  | registered _ _ _ hK =>
    rcases hK with ⟨-, rfl, -⟩ | ⟨hc', -⟩
    · exact Registry.mem_unfusable_recordOperands _ hs hwhole hx
    · cases hc'.symm.trans hc

/-- In the course of the decisions what is forbidden stays forbidden. -/
theorem Course.unfusable_subset {c : Config} {l : Log} {r r' : Registry} {a b : Progress}
    (h : Course c l r a r' b) : r.unfusable ⊆ r'.unfusable := by
  induction h with
  | nil | noteUpdate => exact List.Subset.refl _
  | forbid xs => exact fun x hx => mem_joined.2 (.inr hx)
  | append _ _ ih ih' => exact List.Subset.trans ih ih'
  | meet xs ys _ _ _ =>
    exact fun x hx => mem_joined.2 (.inr (mem_joined.2 (.inr (mem_joined.2 (.inr hx)))))
  | place _ _ _ _ _ hdecided => exact hdecided.unfusable_subset

section

variable {c : Config} {S T U : Set Name} {ss : List Choice}
    {m m' m'' : Registry → Analysis Registry}

namespace Exposes

/-- Doing nothing exposes nothing. -/
theorem pure : Exposes ∅ fun r => return r := fun r r' a b h x hx => by
  obtain ⟨rfl, rfl⟩ := State.pure_eq_ok.1 h
  exact hx.resolve_left (Set.notMem_empty x)

/-- What an action exposes depends on what it does only. -/
theorem congr (h : Exposes S m) (hm : ∀ r, m' r = m r) : Exposes S m' := by rwa [funext hm]

/-- An action that exposes names exposes some of them. -/
theorem imp (h : Exposes S m) (hTS : T ⊆ S) : Exposes T m :=
  fun r r' a b hrun x hx => h r r' a b hrun x (hx.imp_left fun hx => hTS hx)

/-- An action that follows choices allows nothing that was forbidden. -/
theorem of_follows (h : Follows c ss m) : Exposes ∅ m := fun r r' a b hrun x hx => by
  obtain ⟨l, -, hcourse⟩ := h r r' a b hrun
  exact hcourse.unfusable_subset (hx.resolve_left (Set.notMem_empty x))

/-- Names that are forbidden are exposed. -/
theorem forbid (xs : List Name) (f : Registry → Registry)
    (hf : ∀ r, (f r).unfusable = joined xs r.unfusable) :
    Exposes {x | x ∈ xs} fun r => return f r := by
  intro r r' a b h x hx
  obtain ⟨rfl, rfl⟩ := State.pure_eq_ok.1 h
  rw [hf]
  exact mem_joined.2 hx

/-- Two actions in a row expose what either of them does. -/
theorem seq (h : Exposes S m) (h' : Exposes T m') : Exposes (S ∪ T) fun r => m r >>= m' := by
  intro r r' a b hrun x hx
  obtain ⟨r₁, a₁, h₁, h₂⟩ := State.bind_eq_ok.1 hrun
  refine h' _ _ _ _ h₂ x ?_
  rcases hx with (hx | hx) | hx
  · exact .inr (h _ _ _ _ h₁ x (.inl hx))
  · exact .inl hx
  · exact .inr (h _ _ _ _ h₁ x (.inr hx))

/-- A region exposes what its analysis forbids and what escapes from it. -/
theorem region (h : Exposes S m) (hm : Follows c ss m) (escaping : Registry → List Name)
    (hT : ∀ q, T ⊆ {x | x ∈ escaping q}) : Exposes (S ∪ T) fun r => do
      let q ← m .empty
      return r.mergeRegion q (escaping q) := by
  intro r r' a b hrun x hx
  obtain ⟨q, a₁, h₁, h₂⟩ := State.bind_eq_ok.1 hrun
  obtain ⟨rfl, rfl⟩ := State.pure_eq_ok.1 h₂
  rcases hx with (hx | hx) | hx
  · exact (Registry.keeps_mergeRegion r q _).unfusable (h _ _ _ _ h₁ x (.inl hx))
  · exact mem_joined.2 (.inr (mem_joined.2 (.inl (hT q hx))))
  · obtain ⟨l, -, hcourse⟩ := hm _ _ _ _ h₁
    exact (hcourse.mergeRegion _).unfusable_subset hx

/-- The branches of a conditional expose what the analyses of both forbid, and the code behind it.
-/
theorem branches {ss' : List Choice} (h : Exposes S m) (hm : Follows c ss m) (h' : Exposes T m')
    (hm' : Follows c ss' m') (h'' : Exposes U m'') :
    Exposes (S ∪ T ∪ U) fun r => m .empty >>= fun yes =>
      m' .empty >>= fun no => m'' (r.mergeRegion (yes.unionBranches no) []) := by
  intro r r' a b hrun x hx
  obtain ⟨yes, a₁, h₁, hrun⟩ := State.bind_eq_ok.1 hrun
  obtain ⟨no, a₂, h₂, h₃⟩ := State.bind_eq_ok.1 hrun
  refine h'' _ _ _ _ h₃ x ?_
  -- what is forbidden in an arm stays so when the arms are joined
  have hkeeps := Registry.keeps_mergeRegion (x := x) r (yes.unionBranches no) []
  rcases hx with ((hx | hx) | hx) | hx
  · exact .inr (hkeeps.unfusable ((Registry.keeps_unionBranches_left yes no).unfusable
      (h _ _ _ _ h₁ x (.inl hx))))
  · exact .inr (hkeeps.unfusable ((Registry.keeps_unionBranches_right yes no).unfusable
      (h' _ _ _ _ h₂ x (.inl hx))))
  · exact .inl hx
  · obtain ⟨l, -, hcourse⟩ := hm _ _ _ _ h₁
    obtain ⟨l', -, hcourse'⟩ := hm' _ _ _ _ h₂
    exact .inr (((hcourse.unionBranches hcourse').mergeRegion []).unfusable_subset hx)

/-- A combinator that is placed exposes the arrays of which its operands do not read the whole. -/
theorem place (hc : c.transposePull = false) (p : Pattern) (g : Stage) :
    Exposes {x | ∃ a ∈ g.operands, a.whole? = none ∧ a.source? = some x}
      (ArrayFusion.place c .combinator p g) := by
  intro r r' a b h x hx
  obtain ⟨d, -, hdecided⟩ := decided_of_place h
  rcases hx with ⟨o, ho, hwhole, hsource⟩ | hx
  · exact hdecided.exposes hc ho hwhole hsource
  · exact hdecided.unfusable_subset hx

end Exposes

mutual

/-- The analysis forbids to fuse what an expression exposes. -/
theorem Exp.exposes (hc : c.transposePull = false) : ∀ (e : Exp) (site : Option Pattern),
    Exposes (e.exposed site.isSome) fun r => e.analyse c site r
  | .lit _ _, _ => .pure
  | .var x _, _ => by
    by_cases hx : x.isArray
    · exact ((Exposes.forbid [x.name] (Registry.forbid · _) fun _ => rfl).congr fun r => by
        rw [Exp.analyse, if_pos hx]).imp fun y hy => List.mem_singleton.2 hy.2
    · exact (Exposes.pure.congr fun r => by rw [Exp.analyse, if_neg hx]).imp fun y hy =>
        absurd hy.1 hx
  | .tuple es _, _ => (Exp.exposesAll hc es).congr fun r => by rw [Exp.analyse]
  | .array es _ _, _ => (Exp.exposesAll hc es).congr fun r => by rw [Exp.analyse]
  | .call _ es _ _, _ => (Exp.exposesAll hc es).congr fun r => by rw [Exp.analyse]
  | .unary _ e _, _ => (e.exposes hc none).congr fun r => by rw [Exp.analyse]
  | .binary _ a b _ _, _ =>
    (((b.exposes hc none).seq (a.exposes hc none)).congr fun r => by rw [Exp.analyse]).imp
      (Set.union_comm _ _).subset
  | .cond e a b _ _, _ =>
    (((a.exposes hc none).branches (a.follows none) (b.exposes hc none) (b.follows none)
      (e.exposes hc none)).congr fun r => by rw [Exp.analyse]).imp (Set.union_comm _ _).subset
  | .letIn p e b _, _ =>
    (((b.exposes hc none).seq (e.exposes hc (some p))).congr fun r => by rw [Exp.analyse]).imp
      (Set.union_comm _ _).subset
  | .update x y is v b _, _ =>
    (((b.exposes hc none).seq ((Exposes.forbid [y.name, x.name]
      (fun r => (r.noteUpdate y.name).forbid [y.name, x.name]) fun _ => rfl).seq
        ((v.exposes hc none).seq (Exp.exposesAll hc is)))).congr fun r => by
          simp only [Exp.analyse, pure_bind]).imp (by
            rintro z (hz | his | hv | hb)
            · exact .inr (.inl (by simpa using hz))
            · exact .inr (.inr (.inr his))
            · exact .inr (.inr (.inl hv))
            · exact .inl hb)
  | .index x is _, _ =>
    (((Exposes.forbid [x.name] (Registry.forbid · [x.name]) fun _ => rfl).seq
      (Exp.exposesAll hc is)).congr fun r => by simp only [Exp.analyse, pure_bind]).imp
        (Set.union_subset_union_left _ fun z hz => List.mem_singleton.2 hz)
  | .replicate n v s, site =>
    (((Exposes.of_follows (Follows.placeReplicate (c := c) site n v s)).seq
      ((v.exposes hc none).seq (n.exposes hc none))).congr fun r =>
        Exp.analyse_replicate c site r n v s).imp fun z hz => .inr hz.symm
  | .loop p is i n b e _, _ =>
    (((e.exposes hc none).seq (((b.exposes hc none).region (b.follows none) (T := ∅)
      (fun q => q.consumers.keys) fun _ => Set.empty_subset _).seq
        ((n.exposes hc none).seq (Exp.exposesAll hc is)))).congr fun r => by
          simp only [Exp.analyse, bind_assoc, pure_bind]).imp (by
            rintro z (his | hn | hb | he)
            · exact .inr (.inr (.inr his))
            · exact .inr (.inr (.inl hn))
            · exact .inr (.inl (.inl hb))
            · exact .inl he)
  | .soac op args certs s, none => fun _ _ _ _ h => nomatch h
  | .soac op args certs s, some p => by
    intro r r' a b h
    obtain ⟨g, hg, -, h⟩ := Exp.analyse_soac_eq_ok h
    obtain ⟨as, has, rfl⟩ := Stage.ofExp?_eq_ok hg
    refine (((Combinator.exposesLambdas hc op).seq ((Exp.exposesOperands hc args).seq
      ((Combinator.exposesNeutral hc op).seq (.place hc p ⟨op, as, certs, s⟩)))).imp ?_) r r' a b h
    rintro x (hx | hx)
    · exact (Combinator.mem_exposed.1 hx).imp_right fun hx => .inr (.inl hx)
    · exact .inr ((Operand.of_mem_exposed has hx).symm.imp_right .inr)

/-- The analysis forbids to fuse what a list of expressions exposes. -/
theorem Exp.exposesAll (hc : c.transposePull = false) : ∀ es : List Exp,
    Exposes (Exp.exposedAll es) fun r => Exp.analyseAll c r es
  | [] => .pure
  | e :: es => (((Exp.exposesAll hc es).seq (e.exposes hc none)).congr fun r => by
      rw [Exp.analyseAll]).imp (Set.union_comm _ _).subset

/-- The analysis forbids to fuse what the arguments of a combinator expose in what they compute. -/
theorem Exp.exposesOperands (hc : c.transposePull = false) : ∀ es : List Exp,
    Exposes {x | ∃ e ∈ es, ∃ i ∈ e.inner, x ∈ i.exposed false} fun r => Exp.analyseOperands c r es
  | [] => Exposes.pure.imp fun x ⟨_, he, _⟩ => nomatch he
  | .index y is s :: es => (((Exp.exposesOperands hc es).seq (Exp.exposesAll hc is)).congr
    fun r => by
      rw [Exp.analyseOperands]).imp fun x hx => by
        simpa [Exp.inner, Exp.mem_exposedAll, or_comm] using hx
  | .unary .iota n s :: es => (((Exp.exposesOperands hc es).seq (n.exposes hc none)).congr
        fun r => by
      rw [Exp.analyseOperands]).imp fun x hx => by simpa [Exp.inner, or_comm] using hx
  | .unary .not _ _ :: es | .unary .negate _ _ :: es | .unary .size _ _ :: es
  | .unary .transpose _ _ :: es | .lit .. :: es | .var .. :: es | .tuple .. :: es | .array .. :: es
  | .binary .. :: es | .cond .. :: es | .call .. :: es | .letIn .. :: es | .update .. :: es
  | .replicate .. :: es | .loop .. :: es | .soac .. :: es =>
    (((Exp.exposesOperands hc es).seq .pure).congr fun r => by rw [Exp.analyseOperands]).imp
      fun x hx => by simpa [Exp.inner] using hx

/-- The analysis forbids to fuse what a lambda exposes. -/
theorem Lambda.exposes (hc : c.transposePull = false) : ∀ f : Lambda,
    Exposes f.exposed fun r => f.analyse c r
  | ⟨ps, b, ts⟩ => ((b.exposes hc none).region (b.follows none)
      (fun q => q.consumers.keys ++ Lambda.freeArrays ⟨ps, b, ts⟩)
      fun _ _ hx => List.mem_append_right _ hx).congr fun r => by rw [Lambda.analyse]

/-- The analysis of the lambdas forbids what they expose. -/
theorem Combinator.exposesLambdas (hc : c.transposePull = false) : ∀ op : Combinator,
    Exposes {x | ∃ f ∈ op.lambdas, x ∈ f.exposed} fun r => op.analyseLambdas c r
  | .map f | .reduce f _ | .scan f _ | .filter f =>
    ((f.exposes hc).congr fun r => by rw [Combinator.analyseLambdas]).imp fun x hx => by
      simpa [Combinator.lambdas] using hx
  | .redomap f g _ => (((f.exposes hc).seq (g.exposes hc)).congr fun r => by
      rw [Combinator.analyseLambdas]).imp fun x hx => by simpa [Combinator.lambdas] using hx

/-- The analysis of the neutral elements forbids what they expose. -/
theorem Combinator.exposesNeutral (hc : c.transposePull = false) : ∀ op : Combinator,
    Exposes (Exp.exposedAll op.neutral) fun r => op.analyseNeutral c r
  | .map _ | .filter _ => Exposes.pure.congr fun r => by rw [Combinator.analyseNeutral]
  | .reduce _ ne | .scan _ ne | .redomap _ _ ne => (Exp.exposesAll hc ne).congr fun r => by
    rw [Combinator.analyseNeutral]

end

end

end ArrayFusion
