import Mathlib.Logic.Relation
import ArrayFusion.Proofs.Indexing
import ArrayFusion.Proofs.NormalPass

/-!
# The calls of an analysis

The analysis of an expression analyses the parts of the expression, one after another, and each call
starts with what the calls before it returned or, where a region begins, with nothing.
`FunDef.Calls` are all the calls that are made while a function is analysed, those before an error
included.  Whatever holds of the empty registry and is kept by every course holds of the registry of
each call (`FunDef.Calls.invariant`), so the registry that a call returns is indexed, and so is the
one that the whole analysis returns (`FunDef.indexed_of_calls`).
-/

namespace ArrayFusion

/-- A call of the analysis. -/
structure Call where
  site : Option Pattern
  code : Exp
  registry : Registry
  progress : Progress

namespace Call

/-- What the call returns. -/
def run (c : Config) (k : Call) : Except (Failure Progress) (Registry × Progress) :=
  k.code.analyse c k.site k.registry k.progress

/-- A call for one of a list of expressions, which comes after those for the expressions behind
it. -/
def Among (c : Config) (es : List Exp) (r : Registry) (a : Progress) (k : Call) : Prop :=
  k.site = none ∧ ∃ es₁ es₂, es = es₁ ++ k.code :: es₂
    ∧ Exp.analyseAll c r es₂ a = .ok (k.registry, k.progress)

/-- One call of the analysis makes another one. -/
inductive Makes (c : Config) : Call → Call → Prop
  | tuple {site es s r a k} : Among c es r a k → Makes c ⟨site, .tuple es s, r, a⟩ k
  | array {site es t s r a k} : Among c es r a k → Makes c ⟨site, .array es t s, r, a⟩ k
  | arguments {site f es t s r a k} : Among c es r a k → Makes c ⟨site, .call f es t s, r, a⟩ k
  | right {site op x y t s r a} : Makes c ⟨site, .binary op x y t s, r, a⟩ ⟨none, y, r, a⟩
  | left {site op x y t s r a r' b} : y.analyse c none r a = .ok (r', b) →
      Makes c ⟨site, .binary op x y t s, r, a⟩ ⟨none, x, r', b⟩
  | operand {site op e s r a} : Makes c ⟨site, .unary op e s, r, a⟩ ⟨none, e, r, a⟩
  | yes {site e x y t s r a} : Makes c ⟨site, .cond e x y t s, r, a⟩ ⟨none, x, .empty, a⟩
  | no {site e x y t s r a q b} : x.analyse c none .empty a = .ok (q, b) →
      Makes c ⟨site, .cond e x y t s, r, a⟩ ⟨none, y, .empty, b⟩
  | test {site e x y t s r a q b q' d} : x.analyse c none .empty a = .ok (q, b) →
      y.analyse c none .empty b = .ok (q', d) → Makes c ⟨site, .cond e x y t s, r, a⟩
        ⟨none, e, r.mergeRegion (q.unionBranches q') [], d⟩
  | body {site p e x s r a} : Makes c ⟨site, .letIn p e x s, r, a⟩ ⟨none, x, r, a⟩
  | bound {site p e x s r a r' b} : x.analyse c none r a = .ok (r', b) →
      Makes c ⟨site, .letIn p e x s, r, a⟩ ⟨some p, e, r', b⟩
  | updated {site x y is v e s r a} : Makes c ⟨site, .update x y is v e s, r, a⟩ ⟨none, e, r, a⟩
  | value {site x y is v e s r a r' b} : e.analyse c none r a = .ok (r', b) →
      Makes c ⟨site, .update x y is v e s, r, a⟩
        ⟨none, v, (r'.noteUpdate y.name).forbid [y.name, x.name], b⟩
  | place {site x y is v e s r a r' b r'' d k} : e.analyse c none r a = .ok (r', b) →
      v.analyse c none ((r'.noteUpdate y.name).forbid [y.name, x.name]) b = .ok (r'', d) →
      Among c is r'' d k → Makes c ⟨site, .update x y is v e s, r, a⟩ k
  | index {site x is s r a k} : Among c is (r.forbid [x.name]) a k →
      Makes c ⟨site, .index x is s, r, a⟩ k
  | replicated {site n v s r a r' b} : placeReplicate c site n v s r a = .ok (r', b) →
      Makes c ⟨site, .replicate n v s, r, a⟩ ⟨none, v, r', b⟩
  | count {site n v s r a r' b r'' d} : placeReplicate c site n v s r a = .ok (r', b) →
      v.analyse c none r' b = .ok (r'', d) → Makes c ⟨site, .replicate n v s, r, a⟩
        ⟨none, n, r'', d⟩
  | rest {site p is i n x e s r a} : Makes c ⟨site, .loop p is i n x e s, r, a⟩ ⟨none, e, r, a⟩
  | round {site p is i n x e s r a r' b} : e.analyse c none r a = .ok (r', b) →
      Makes c ⟨site, .loop p is i n x e s, r, a⟩ ⟨none, x, .empty, b⟩
  | limit {site p is i n x e s r a r' b q d} : e.analyse c none r a = .ok (r', b) →
      x.analyse c none .empty b = .ok (q, d) → Makes c ⟨site, .loop p is i n x e s, r, a⟩
        ⟨none, n, r'.mergeRegion q q.consumers.keys, d⟩
  | initial {site p is i n x e s r a r' b q d r'' d' k} : e.analyse c none r a = .ok (r', b) →
      x.analyse c none .empty b = .ok (q, d) →
      n.analyse c none (r'.mergeRegion q q.consumers.keys) d = .ok (r'', d') →
      Among c is r'' d' k → Makes c ⟨site, .loop p is i n x e s, r, a⟩ k
  | lambda {p op args cs s r a g f fs} : Stage.ofExp? (.soac op args cs s) = .ok (some g) →
      op.lambdas = f :: fs → Makes c ⟨some p, .soac op args cs s, r, a⟩ ⟨none, f.body, .empty, a⟩
  | inner {p outer f ne args cs s r a g r' b} :
      Stage.ofExp? (.soac (.redomap outer f ne) args cs s) = .ok (some g) →
      outer.analyse c r a = .ok (r', b) →
      Makes c ⟨some p, .soac (.redomap outer f ne) args cs s, r, a⟩ ⟨none, f.body, .empty, b⟩
  | row {p op args cs s r a g r' b es₁ x is t es₂ r'' d k} :
      Stage.ofExp? (.soac op args cs s) = .ok (some g) → op.analyseLambdas c r a = .ok (r', b) →
      p.length = g.arity → args = es₁ ++ .index x is t :: es₂ →
      Exp.analyseOperands c r' es₂ b = .ok (r'', d) → Among c is r'' d k →
      Makes c ⟨some p, .soac op args cs s, r, a⟩ k
  | range {p op args cs s r a g r' b es₁ n t es₂ r'' d} :
      Stage.ofExp? (.soac op args cs s) = .ok (some g) → op.analyseLambdas c r a = .ok (r', b) →
      p.length = g.arity → args = es₁ ++ .unary .iota n t :: es₂ →
      Exp.analyseOperands c r' es₂ b = .ok (r'', d) →
      Makes c ⟨some p, .soac op args cs s, r, a⟩ ⟨none, n, r'', d⟩
  | neutral {p op args cs s r a g r' b r'' d k} :
      Stage.ofExp? (.soac op args cs s) = .ok (some g) → op.analyseLambdas c r a = .ok (r', b) →
      p.length = g.arity → Exp.analyseOperands c r' args b = .ok (r'', d) →
      Among c op.neutral r'' d k → Makes c ⟨some p, .soac op args cs s, r, a⟩ k

/-- The registry that the call starts with comes from that of the call `j` by a course. -/
def After (c : Config) (j k : Call) : Prop :=
  ∃ l, Course c l j.registry j.progress k.registry k.progress

variable {c : Config} {j k : Call}

theorem After.of_among {es : List Exp} {l : Log} {r : Registry} {a : Progress}
    (hj : Course c l j.registry j.progress r a) (h : Among c es r a k) : After c j k := by
  obtain ⟨-, es₁, es₂, -, hrun⟩ := h
  obtain ⟨l', -, hcourse⟩ := Exp.followsAll es₂ _ _ _ _ hrun
  exact ⟨_, hj.append hcourse⟩

/-- A call starts with nothing or with what has become of the registry of the call that makes it. -/
theorem Makes.after (h : Makes c j k) : k.registry = .empty ∨ After c j k := by
  -- regions start with nothing; other code starts where the code behind it has come to
  cases h with
  | tuple hk | array hk | arguments hk => exact .inr (.of_among .nil hk)
  | right | operand | body | updated | rest => exact .inr ⟨_, .nil⟩
  | yes | no | round | lambda | inner => exact .inl rfl
  | left h | bound h =>
    obtain ⟨l, -, hl⟩ := Exp.analyse_course h
    exact .inr ⟨l, hl⟩
  | test hx hy =>
    obtain ⟨l, -, hl⟩ := Exp.analyse_course hx
    obtain ⟨l', -, hl'⟩ := Exp.analyse_course hy
    exact .inr ⟨_, (hl.unionBranches hl').mergeRegion _⟩
  | value h =>
    obtain ⟨l, -, hl⟩ := Exp.analyse_course h
    exact .inr ⟨_, hl.append ((Course.noteUpdate _).append (.forbid _))⟩
  | place h h' hk =>
    obtain ⟨l, -, hl⟩ := Exp.analyse_course h
    obtain ⟨l', -, hl'⟩ := Exp.analyse_course h'
    exact .inr (.of_among (hl.append (((Course.noteUpdate _).append (.forbid _)).append hl')) hk)
  | index hk => exact .inr (.of_among (.forbid _) hk)
  | @replicated site n v s _ _ _ _ h =>
    obtain ⟨l, -, hl⟩ := Follows.placeReplicate site n v s _ _ _ _ h
    exact .inr ⟨l, hl⟩
  | @count site n v s _ _ _ _ _ _ h h' =>
    obtain ⟨l, -, hl⟩ := Follows.placeReplicate site n v s _ _ _ _ h
    obtain ⟨l', -, hl'⟩ := Exp.analyse_course h'
    exact .inr ⟨_, hl.append hl'⟩
  | limit h h' =>
    obtain ⟨l, -, hl⟩ := Exp.analyse_course h
    obtain ⟨l', -, hl'⟩ := Exp.analyse_course h'
    exact .inr ⟨_, hl.append (hl'.mergeRegion _)⟩
  | initial h h' h'' hk =>
    obtain ⟨l, -, hl⟩ := Exp.analyse_course h
    obtain ⟨l', -, hl'⟩ := Exp.analyse_course h'
    obtain ⟨l'', -, hl''⟩ := Exp.analyse_course h''
    exact .inr (.of_among (hl.append ((hl'.mergeRegion _).append hl'')) hk)
  | @row p op _ _ _ _ _ _ _ _ _ _ _ _ es₂ _ _ _ _ hop _ _ h hk =>
    obtain ⟨l, -, hl⟩ := Combinator.followsLambdas op _ _ _ _ hop
    obtain ⟨l', -, hl'⟩ := Exp.followsOperands es₂ _ _ _ _ h
    exact .inr (.of_among (hl.append hl') hk)
  | @range p op _ _ _ _ _ _ _ _ _ _ _ es₂ _ _ _ hop _ _ h =>
    obtain ⟨l, -, hl⟩ := Combinator.followsLambdas op _ _ _ _ hop
    obtain ⟨l', -, hl'⟩ := Exp.followsOperands es₂ _ _ _ _ h
    exact .inr ⟨_, hl.append hl'⟩
  | @neutral p op args _ _ _ _ _ _ _ _ _ _ _ hop _ h hk =>
    obtain ⟨l, -, hl⟩ := Combinator.followsLambdas op _ _ _ _ hop
    obtain ⟨l', -, hl'⟩ := Exp.followsOperands args _ _ _ _ h
    exact .inr (.of_among (hl.append hl') hk)

end Call

/-- The call that analyses the body of a function. -/
def FunDef.call (f : FunDef) : Call := ⟨none, f.body, .empty, ⟨.forFun f, 0, []⟩⟩

/-- The calls that are made while a function is analysed. -/
def FunDef.Calls (c : Config) (f : FunDef) (k : Call) : Prop :=
  Relation.ReflTransGen (Call.Makes c) f.call k

/-- What holds of nothing, and is kept by every course, holds wherever a call starts. -/
theorem FunDef.Calls.invariant {c : Config} {f : FunDef} {k : Call} {P : Registry → Progress → Prop}
    (hk : f.Calls c k) (hempty : ∀ a, P .empty a)
    (hcourse : ∀ {l r a r' b}, Course c l r a r' b → P r a → P r' b) : P k.registry k.progress := by
  induction hk with
  | refl => exact hempty _
  | tail _ hmakes ih =>
    rcases hmakes.after with hnew | ⟨l, hl⟩
    · rw [hnew]
      exact hempty _
    · exact hcourse hl ih

/-! ## The index at each call -/

/-- The registry is indexed, and its kernels have other numbers than those to come. -/
def Registry.Ordered (r : Registry) (a : Progress) : Prop := r.Indexed ∧ r.Numbered 0 a.nextKernel

theorem Registry.ordered_empty (a : Progress) : Registry.empty.Ordered a :=
  ⟨indexed_empty, numbered_empty _ _⟩

theorem Course.ordered {c : Config} {l : Log} {r r' : Registry} {a b : Progress}
    (h : Course c l r a r' b) (hr : r.Ordered a) : r'.Ordered b :=
  ⟨h.indexed hr.1 hr.2 (Nat.zero_le _), (h.numbered hr.2 (Nat.zero_le _)).2⟩

theorem FunDef.Calls.ordered {c : Config} {f : FunDef} {k : Call} (hk : f.Calls c k) :
    k.registry.Ordered k.progress :=
  hk.invariant Registry.ordered_empty Course.ordered

theorem Registry.clean_eq_ok {r q : Registry} {s : Span} (h : r.clean s = .ok q) :
    q = r.dropUnfused := by
  obtain ⟨_, -, hq⟩ := Except.bind_eq_ok.1 h
  exact Except.pure_eq_ok.1 hq

/-- Every registry that the analysis of a function returns on the way is indexed, and so is the one
that is left when the kernels are dropped that nothing was fused into. -/
theorem FunDef.indexed_of_calls (c : Config) (f : FunDef) :
    (∀ k r b, f.Calls c k → k.run c = .ok (r, b) → r.Indexed)
      ∧ ∀ r b, f.analyse c ⟨.forFun f, 0, []⟩ = .ok (r, b) → r.Indexed := by
  refine ⟨fun k r b hk hrun => ?_, fun r b h => ?_⟩
  · obtain ⟨l, -, hl⟩ := Exp.analyse_course hrun
    exact (hl.ordered hk.ordered).1
  · obtain ⟨q, d, hbody, hclean⟩ := State.bind_eq_ok.1 h
    obtain ⟨l, -, hl⟩ := Exp.analyse_course hbody
    rw [Registry.clean_eq_ok (Analysis.lift_eq_ok.1 hclean).1]
    exact (hl.ordered (Registry.ordered_empty _)).1.dropUnfused

theorem FunDef.indexed_of_calls_negatedTwice :
    (∃ r b, negatedTwice.call.run Config.default = .ok (r, b) ∧ r.Indexed)
      ∧ ∃ r b, negatedTwice.analyse Config.default ⟨.forFun negatedTwice, 0, []⟩ = .ok (r, b)
        ∧ r.producerOf ⟨"ys", 1⟩ = some ⟨0⟩ ∧ r.Indexed := by
  obtain ⟨hcalls, hclean⟩ := FunDef.indexed_of_calls Config.default negatedTwice
  have hcall : (negatedTwice.call.run Config.default).toOption.any (fun _ => true) = true :=
    by decide +kernel
  have hproducer : (negatedTwice.analyse Config.default ⟨.forFun negatedTwice, 0, []⟩).toOption.any
      (fun p => p.1.producerOf ⟨"ys", 1⟩ == some ⟨0⟩) = true := by decide +kernel
  obtain ⟨p, h, -⟩ := Except.exists_of_any hcall
  obtain ⟨q, h', hproducer⟩ := Except.exists_of_any hproducer
  exact ⟨⟨p.1, p.2, h, hcalls _ _ _ .refl h⟩, q.1, q.2, h', beq_iff_eq.1 hproducer, hclean _ _ h'⟩

end ArrayFusion
