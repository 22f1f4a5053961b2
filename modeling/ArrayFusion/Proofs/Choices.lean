import ArrayFusion.Proofs.Certificates
import ArrayFusion.Proofs.Course

/-!
# The `let`s that are decided about

If the analysis of some code succeeds, then something is decided about each combinator that a `let`
of the code binds, and about each replicated atom that is bound to a single array if such are fused:
once for each time that the `let` stands there, and about nothing else (`Exp.choices_perm`).  All
certificates in the code are those of combinators that `let`s bind
(`Exp.exists_let_of_certificate`).

Both take the success of the analysis.  It fails at a combinator that no `let` binds, and it passes
over the arguments of combinators, but fails if one of them is no operand: there are no combinators
and no `let`s in operands but in their indices and lengths.
-/

namespace ArrayFusion

/-- The `let` that is decided about. -/
def Choice.binding (s : Choice) : Pattern × Exp := (s.pattern, s.rhs)

/-- A `let` as something to decide about. -/
def Choice.ofLet (q : Pattern × Exp) : Choice :=
  ⟨if q.2.isSoac then .combinator else .replicate, q.1, q.2⟩

/-- Is something to be decided about the `let`?  It must bind a combinator, or else a single array
to a replicated atom, if those are fused. -/
def Config.considers (c : Config) (q : Pattern × Exp) : Bool :=
  match q with
  | (_, .soac _ _ _ _) => true
  | ([x], .replicate _ v _) => c.replicateFusion && v.isAtom && x.isArray
  | _ => false

/-- The `let` of which an expression is the right-hand side, if it is. -/
def Exp.siteLet (site : Option Pattern) (e : Exp) : List (Pattern × Exp) := site.toList.map (·, e)

theorem Exp.siteLet_some (p : Pattern) (e : Exp) : e.siteLet (some p) = [(p, e)] := rfl

/-- The `let`s of a combinator are those of its lambdas and of its neutral elements. -/
theorem Combinator.lets_eq (op : Combinator) :
    op.lets = op.lambdas.flatMap Lambda.lets ++ Exp.letsAll op.neutral := by
  cases op <;> simp [Combinator.lets, Combinator.lambdas, Combinator.neutral, Exp.letsAll]

/-- Combinators are considered by every configuration. -/
theorem Config.considers_soac (c : Config) {q : Pattern × Exp} (h : q.2.isSoac = true) :
    c.considers q = true := by
  obtain ⟨p, e⟩ := q
  cases e with
  | soac => cases p <;> rfl
  | _ => cases h

/-- An array is what has rows. -/
theorem Ident.isArray_eq_row? (x : Ident) : x.isArray = x.ty.row?.isSome := by
  unfold isArray
  cases x.ty <;> rfl

/-- The replicated values that are decided about. -/
theorem replicateChoices_eq (c : Config) (site : Option Pattern) (n v : Exp) (s : Span) :
    replicateChoices c site n v s
      = (((Exp.replicate n v s).siteLet site).filter c.considers).map Choice.ofLet := by
  rcases site with _ | _ | ⟨x, _ | ⟨y, p⟩⟩
  · rfl
  · rfl
  · have hx : c.considers ([x], .replicate n v s)
        = (c.replicateFusion && v.isAtom && x.ty.row?.isSome) := by
      rw [← x.isArray_eq_row?]
      rfl
    rw [Exp.siteLet_some, List.filter_singleton, hx]
    unfold replicateChoices
    dsimp only
    cases c.replicateFusion && v.isAtom && x.ty.row?.isSome <;> rfl
  · rfl

/-- The choices are the `let`s that are to be decided about, and each certificate is that of a
combinator that a `let` binds. -/
structure Considered (c : Config) (ss : List Choice) (cs : Certificates)
    (ls : List (Pattern × Exp)) : Prop where
  choices : ss.Perm ((ls.filter c.considers).map Choice.ofLet)
  certificates : ∀ x ∈ cs, ∃ l ∈ ls, x ∈ l.2.certs

namespace Considered

variable {c : Config} {ss ss' : List Choice} {cs cs' : Certificates} {ls ls' : List (Pattern × Exp)}

/-- What is considered in two pieces of code is considered in both together. -/
theorem append (h : Considered c ss cs ls) (h' : Considered c ss' cs' ls') :
    Considered c (ss ++ ss') (cs ++ cs') (ls ++ ls') where
  choices := by
    rw [List.filter_append, List.map_append]
    exact h.choices.append h'.choices
  certificates := fun x hx => (List.mem_append.1 hx).elim
    (fun hx => have ⟨l, hl, hxl⟩ := h.certificates x hx
      ⟨l, List.mem_append_left _ hl, hxl⟩)
    (fun hx => have ⟨l, hl, hxl⟩ := h'.certificates x hx
      ⟨l, List.mem_append_right _ hl, hxl⟩)

/-- The order of the `let`s does not matter. -/
theorem perm (h : Considered c ss cs ls) (hcs : cs' ⊆ cs) (hls : ls.Perm ls') :
    Considered c ss cs' ls' where
  choices := h.choices.trans ((hls.filter _).map _)
  certificates := fun x hx => have ⟨l, hl, hxl⟩ := h.certificates x (hcs hx)
    ⟨l, hls.mem_iff.1 hl, hxl⟩

/-- Nothing is decided about the `let` of other right-hand sides. -/
theorem plain (h : Considered c ss cs ls) (site : Option Pattern) {e : Exp}
    (he : ∀ p, c.considers (p, e) = false) : Considered c ss cs (e.siteLet site ++ ls) where
  choices := by
    rw [List.filter_append, List.filter_eq_nil_iff.2 fun q hq => ?_, List.nil_append]
    · exact h.choices
    · obtain ⟨p, -, rfl⟩ := List.mem_map.1 hq
      simp [he p]
  certificates := fun x hx => have ⟨l, hl, hxl⟩ := h.certificates x hx
    ⟨l, List.mem_append_right _ hl, hxl⟩

end Considered

/-- Whenever the analysis succeeds, the choices are the `let`s that are to be decided about, and the
certificates are those of combinators that `let`s bind. -/
def Decides (c : Config) (ss : List Choice) (cs : Certificates) (ls : List (Pattern × Exp))
    (m : Registry → Analysis Registry) : Prop :=
  ∀ r r' a b, m r a = .ok (r', b) → Considered c ss cs ls

namespace Decides

variable {c : Config} {ss ss' ss'' : List Choice} {cs cs' cs'' : Certificates}
  {ls ls' ls'' : List (Pattern × Exp)} {m m' m'' : Registry → Analysis Registry}

/-- A step that decides nothing considers nothing. -/
theorem nil : Decides c [] [] [] m := fun _ _ _ _ _ => ⟨.nil, nofun⟩

/-- Nor does one that changes the registry only. -/
theorem step (f : Registry → Registry) : Decides c [] [] [] fun r => return f r := nil

/-- Equal steps decide the same, in whatever order the `let`s are listed. -/
theorem congr (h : Decides c ss cs ls m) (hm : ∀ r, m' r = m r) (hcs : cs' ⊆ cs)
    (hls : ls.Perm ls') : Decides c ss cs' ls' m' := by
  rw [show m' = m from funext hm]
  exact fun r r' a b hrun => (h r r' a b hrun).perm hcs hls

/-- A `let` that is not considered can stand in front. -/
theorem plain (h : Decides c ss cs ls m) (site : Option Pattern) {e : Exp}
    (he : ∀ p, c.considers (p, e) = false) : Decides c ss cs (e.siteLet site ++ ls) m :=
  fun r r' a b hrun => (h r r' a b hrun).plain site he

/-- Two steps decide what each of them does. -/
theorem seq (h : Decides c ss cs ls m) (h' : Decides c ss' cs' ls' m') :
    Decides c (ss ++ ss') (cs ++ cs') (ls ++ ls') fun r => m r >>= m' := by
  intro r r' a b hrun
  obtain ⟨r₁, a₁, h₁, h₂⟩ := State.bind_eq_ok.1 hrun
  exact (h _ _ _ _ h₁).append (h' _ _ _ _ h₂)

/-- Wherever the analysis of a region starts and whatever becomes of its registry. -/
theorem region (h : Decides c ss cs ls m) (f : Registry → Registry → Registry) :
    Decides c ss cs ls fun r => do
      let q ← m .empty
      return f r q := by
  intro r r' a b hrun
  obtain ⟨q, a₁, h₁, -⟩ := State.bind_eq_ok.1 hrun
  exact h _ _ _ _ h₁

/-- Two regions and what is in front of them decide what each of them does. -/
theorem branches (h : Decides c ss cs ls m) (h' : Decides c ss' cs' ls' m')
    (h'' : Decides c ss'' cs'' ls'' m'') (f : Registry → Registry → Registry → Registry) :
    Decides c (ss ++ (ss' ++ ss'')) (cs ++ (cs' ++ cs'')) (ls ++ (ls' ++ ls'')) fun r =>
      m .empty >>= fun yes => m' .empty >>= fun no => m'' (f r yes no) := by
  intro r r' a b hrun
  obtain ⟨yes, a₁, h₁, h₂⟩ := State.bind_eq_ok.1 hrun
  obtain ⟨no, a₂, h₃, h₄⟩ := State.bind_eq_ok.1 h₂
  exact (h _ _ _ _ h₁).append ((h' _ _ _ _ h₃).append (h'' _ _ _ _ h₄))

/-- The value that a `let` replicates. -/
theorem replicate (site : Option Pattern) (n v : Exp) (s : Span) :
    Decides c (replicateChoices c site n v s) [] ((Exp.replicate n v s).siteLet site) m :=
  fun _ _ _ _ _ => ⟨replicateChoices_eq c site n v s ▸ .rfl, nofun⟩

/-- The combinator that a `let` binds. -/
theorem combinator (p : Pattern) (op : Combinator) (args : List Exp) (certs : Certificates)
    (s : Span) :
    Decides c [⟨.combinator, p, .soac op args certs s⟩] certs [(p, .soac op args certs s)] m := by
  refine fun _ _ _ _ _ => ⟨?_, fun x hx => ⟨_, List.mem_cons_self, hx⟩⟩
  rw [List.filter_singleton, c.considers_soac rfl]
  exact .rfl

end Decides

section

variable {c : Config}

mutual

/-- An expression together with the `let` of which it is the right-hand side. -/
theorem Exp.decides : ∀ (e : Exp) (site : Option Pattern),
    Decides c (e.choices c site) e.certificates (e.siteLet site ++ e.lets) fun r =>
      e.analyse c site r
  | .lit _ _, site => Decides.nil.plain site fun _ => rfl
  | .var _ _, site => Decides.nil.plain site fun _ => rfl
  | .tuple es _, site | .array es _ _, site | .call _ es _ _, site =>
    ((Exp.decidesAll es).congr (fun r => by rw [Exp.analyse]) (fun _ => id) .rfl).plain site
      fun _ => rfl
  | .index x is _, site => (((Decides.step (·.forbid [x.name])).seq (Exp.decidesAll is)).congr
    (fun r => by simp only [Exp.analyse, pure_bind]) (fun _ => id) .rfl).plain site fun _ => rfl
  | .unary _ e _, site =>
    ((e.decides none).congr (fun r => by rw [Exp.analyse]) (fun _ => id) .rfl).plain site
      fun _ => rfl
  | .binary _ a b _ _, site => (((b.decides none).seq (a.decides none)).congr
    (fun r => by rw [Exp.analyse]) (by simp [Exp.certificates])
      List.perm_append_comm).plain site fun _ => rfl
  | .cond e a b _ _, site => (((a.decides none).branches (b.decides none) (e.decides none)
    fun r yes no => r.mergeRegion (yes.unionBranches no) []).congr (fun r => by rw [Exp.analyse])
      (by simp [Exp.certificates]) (by
        rw [Exp.lets, ← List.append_assoc]
        exact List.perm_append_comm.trans (.of_eq (List.append_assoc ..).symm))).plain site
          fun _ => rfl
  | .letIn p e b _, site => (((b.decides none).seq (e.decides (some p))).congr
    (fun r => by rw [Exp.analyse]) (by simp [Exp.certificates])
      List.perm_append_comm).plain site fun _ => rfl
  | .update x y is v b _, site =>
    (((b.decides none).seq ((Decides.step fun r =>
      (r.noteUpdate y.name).forbid [y.name, x.name]).seq
      ((v.decides none).seq (Exp.decidesAll is)))).congr
        (fun r => by simp only [Exp.analyse, pure_bind]) (by simp [Exp.certificates])
          (show (b.lets ++ (v.lets ++ Exp.letsAll is)).Perm _ from
            List.perm_append_comm.trans (List.perm_append_comm.append_right _))).plain site
              fun _ => rfl
  | .replicate n v s, site => ((Decides.replicate (m := placeReplicate c site n v s) site n v s).seq
    ((v.decides none).seq (n.decides none))).congr (fun r => Exp.analyse_replicate c site r n v s)
      (by simp [Exp.certificates]) (List.perm_append_comm.append_left _)
  | .loop p is i n b e _, site =>
    (((e.decides none).seq (((b.decides none).region fun r q =>
      r.mergeRegion q q.consumers.keys).seq ((n.decides none).seq (Exp.decidesAll is)))).congr
        (fun r => by simp only [Exp.analyse, bind_assoc, pure_bind])
          (fun x hx => by
            simp only [Exp.certificates, List.mem_append] at hx ⊢
            tauto)
          (List.perm_append_comm.trans ((List.perm_append_comm.trans
            (List.perm_append_comm.append_right _)).append_right _))).plain site fun _ => rfl
  | .soac op args certs s, none => fun _ _ _ _ h => nomatch h
  | .soac op args certs s, some p => by
    intro r r' a b h
    obtain ⟨g, hg, -, h⟩ := Exp.analyse_soac_eq_ok h
    obtain ⟨as, has, rfl⟩ := Stage.ofExp?_eq_ok hg
    refine (((Combinator.decidesLambdas op).seq ((Exp.decidesOperands args has).seq
      ((Combinator.decidesNeutral op).seq (.combinator p op args certs s
        (m := place c .combinator p ⟨op, as, certs, s⟩))))).congr (fun _ => rfl)
          (fun x hx => ?_) ?_) _ _ _ _ h
    · simp only [Exp.certificates, Combinator.certificates_eq, List.mem_append] at hx ⊢
      tauto
    rw [Exp.lets, Combinator.lets_eq, Exp.siteLet_some, ← List.append_assoc, ← List.append_assoc]
    refine List.perm_append_comm.trans (List.Perm.append_left _ ?_)
    rw [List.append_assoc, List.append_assoc]
    exact List.perm_append_comm.append_left _

/-- The analysis of a list of expressions decides about the choices in it. -/
theorem Exp.decidesAll : ∀ es : List Exp,
    Decides c (Exp.choicesAll c es) (Exp.certificatesAll es) (Exp.letsAll es) fun r =>
      Exp.analyseAll c r es
  | [] => .nil
  | e :: es => ((Exp.decidesAll es).seq (e.decides none)).congr (fun r => by rw [Exp.analyseAll])
    (by simp [Exp.certificatesAll]) List.perm_append_comm

/-- So does the analysis of what the operands compute. -/
theorem Exp.decidesOperands : ∀ (es : List Exp) {as : List Operand},
    List.Forall₂ (fun e a => Operand.ofExp? e = some a) es as →
      Decides c (Exp.choicesOperands c es) (Exp.certificatesAll es) (Exp.letsAll es) fun r =>
        Exp.analyseOperands c r es
  | [], _, _ => .nil
  | .index _ is _ :: es, _, .cons _ has =>
    ((Exp.decidesOperands es has).seq (Exp.decidesAll is)).congr
      (fun r => by rw [Exp.analyseOperands])
        (by simp [Exp.certificatesAll, Exp.certificates]) List.perm_append_comm
  | .unary .iota n _ :: es, _, .cons _ has =>
    ((Exp.decidesOperands es has).seq (n.decides none)).congr
      (fun r => by rw [Exp.analyseOperands])
        (by simp [Exp.certificatesAll, Exp.certificates]) List.perm_append_comm
  | .var .. :: es, _, .cons _ has => ((Exp.decidesOperands es has).seq (.step id)).congr
      (fun r => by rw [Exp.analyseOperands]; rfl)
        (by simp [Exp.certificatesAll, Exp.certificates]) List.perm_append_comm
  | .unary .transpose (.var ..) _ :: es, _, .cons _ has =>
    ((Exp.decidesOperands es has).seq (.step id)).congr
      (fun r => by rw [Exp.analyseOperands]; rfl)
        (by simp [Exp.certificatesAll, Exp.certificates]) List.perm_append_comm

/-- So does the analysis of a lambda. -/
theorem Lambda.decides : ∀ f : Lambda,
    Decides c (f.choices c) f.certificates f.lets fun r => f.analyse c r
  | ⟨ps, b, ts⟩ => ((b.decides none).region fun r q =>
      r.mergeRegion q (q.consumers.keys ++ Lambda.freeArrays ⟨ps, b, ts⟩)).congr
        (fun r => by rw [Lambda.analyse]) (fun _ => id) .rfl

/-- So does the analysis of the lambdas of a combinator. -/
theorem Combinator.decidesLambdas : ∀ op : Combinator,
    Decides c (op.lambdaChoices c) (op.lambdas.flatMap Lambda.certificates)
      (op.lambdas.flatMap Lambda.lets) fun r => op.analyseLambdas c r
  | .map f => f.decides.congr (fun r => by rw [Combinator.analyseLambdas])
    (by simp [Combinator.lambdas]) (by simp [Combinator.lambdas])
  | .reduce f _ => f.decides.congr (fun r => by rw [Combinator.analyseLambdas])
    (by simp [Combinator.lambdas]) (by simp [Combinator.lambdas])
  | .scan f _ => f.decides.congr (fun r => by rw [Combinator.analyseLambdas])
    (by simp [Combinator.lambdas]) (by simp [Combinator.lambdas])
  | .filter p => p.decides.congr (fun r => by rw [Combinator.analyseLambdas])
    (by simp [Combinator.lambdas]) (by simp [Combinator.lambdas])
  | .redomap f g _ => (f.decides.seq g.decides).congr (fun r => by rw [Combinator.analyseLambdas])
    (by simp [Combinator.lambdas]) (by simp [Combinator.lambdas])

/-- So does the analysis of its neutral elements. -/
theorem Combinator.decidesNeutral : ∀ op : Combinator,
    Decides c (op.neutralChoices c) (Exp.certificatesAll op.neutral)
      (Exp.letsAll op.neutral) fun r =>
      op.analyseNeutral c r
  | .map _ => .nil
  | .filter _ => .nil
  | .reduce _ ne =>
    (Exp.decidesAll ne).congr (fun r => by rw [Combinator.analyseNeutral]) (fun _ => id) .rfl
  | .scan _ ne =>
    (Exp.decidesAll ne).congr (fun r => by rw [Combinator.analyseNeutral]) (fun _ => id) .rfl
  | .redomap _ _ ne =>
    (Exp.decidesAll ne).congr (fun r => by rw [Combinator.analyseNeutral]) (fun _ => id) .rfl

end

namespace Exp

variable {e : Exp} {r r' : Registry} {a b : Progress}

/-- If the analysis of an expression succeeds, its choices are the `let`s of the expression that are
to be decided about. -/
theorem choices_perm (h : e.analyse c none r a = .ok (r', b)) :
    (e.choices c none).Perm ((e.lets.filter c.considers).map Choice.ofLet) :=
  (e.decides none _ _ _ _ h).choices

/-- If the analysis of an expression succeeds, each certificate in it is that of a combinator that a
`let` of the expression binds. -/
theorem exists_let_of_certificate (h : e.analyse c none r a = .ok (r', b)) :
    ∀ x ∈ e.certificates, ∃ l ∈ e.lets, x ∈ l.2.certs :=
  (e.decides none _ _ _ _ h).certificates

/-- If the analysis of an expression succeeds, each combinator that a `let` of the expression binds
is decided about. -/
theorem mem_choices (h : e.analyse c none r a = .ok (r', b)) {p : Pattern} {d : Exp}
    (hd : (p, d) ∈ e.lets) (hsoac : d.isSoac = true) : ⟨.combinator, p, d⟩ ∈ e.choices c none := by
  refine (choices_perm h).mem_iff.2 (List.mem_map.2 ⟨(p, d), List.mem_filter.2 ⟨hd, ?_⟩, ?_⟩)
  · exact c.considers_soac hsoac
  · rw [Choice.ofLet, if_pos hsoac]

/-- No `let` is decided about more often than it stands in the expression. -/
theorem subperm_choices (h : e.analyse c none r a = .ok (r', b)) :
    ((e.choices c none).map Choice.binding).Subperm e.lets := by
  refine ((choices_perm h).map _).subperm.trans ?_
  rw [List.map_map]
  exact List.map_id _ ▸ List.filter_sublist.subperm

end Exp

end

end ArrayFusion
