import ArrayFusion.Proofs.Deciding
import ArrayFusion.Proofs.Scope

/-!
# The course of an analysis

The analysis of a piece of code forbids names, notes updates, decides about the `let`s of the code
one after another, and takes what is known about a region into what is known about the code behind
it. `Course` lists these steps with the decisions, and leaves the code out.  What every step keeps
can so be proved without another walk over the syntax.

`Exp.choices` are the `let`s of an expression that something is decided about, in the order in which
it is decided.  Every analysis that succeeds takes a course with one decision for each choice
(`Exp.analyse_course`).
-/

namespace ArrayFusion

/-! ## What is decided about -/

/-- A `let` that something is decided about. -/
structure Choice where
  origin : Origin
  pattern : Pattern
  rhs : Exp

namespace Choice

/-- The names that the `let` binds. -/
def names (s : Choice) : List Name := s.pattern.names

/-- The names of the variables that the combinator of the `let` reads as a whole. -/
def reads (s : Choice) : List Name :=
  match s.rhs with
  | .soac _ args _ _ => args.filterMap fun e => match e with
    | .var x _ => some x.name
    | _ => none
  | _ => []

/-- The stage that the right-hand side of the `let` stands for. -/
inductive Stands : Choice → Stage → Prop
  | combinator {p : Pattern} {e : Exp} {g : Stage} : Stage.ofExp? e = .ok (some g) →
      Stands ⟨.combinator, p, e⟩ g
  | replicate {x i : Ident} {n v : Exp} {row : Ty} {span : Span} : v.isAtom = true →
      Stands ⟨.replicate, [x], .replicate n v span⟩ ⟨.map ⟨[i], v, [row]⟩, [.range n], [], span⟩

theorem Stands.isSoac {s : Choice} {g : Stage} (h : s.Stands g) (ho : s.origin = .combinator) :
    s.rhs.isSoac = true := by
  cases h with
  | @combinator p e g hg =>
    cases e with
    | soac => rfl
    | _ => cases hg
  | replicate => cases ho

/-- The arguments that are read as a whole are whole operands of the stage. -/
theorem Stands.wholeNames {s : Choice} {g : Stage} (h : s.Stands g) : g.wholeNames = s.reads := by
  cases h with
  | replicate => rfl
  | @combinator p e g h =>
    cases e with
    | soac op args certs span =>
      obtain ⟨as, has, rfl⟩ := Stage.ofExp?_eq_ok h
      clear h
      unfold Stage.wholeNames reads
      dsimp only
      -- argument by argument: only a plain identifier is read as a whole
      induction has with
      | nil => rfl
      | @cons arg a args as ha _ ih =>
        rw [List.filterMap_cons, List.filterMap_cons, ih]
        unfold Operand.ofExp? at ha
        split at ha
        · split at ha <;> cases ha
          rfl
        · cases ha
          rfl
        · split at ha <;> cases ha
          rfl
        · cases ha
          rfl
        · cases ha
    | _ => cases h

end Choice

/-- The parameters for the elements are slots of the combinator that the stage was made of. -/
theorem Stage.slots_of_ofExp? {e : Exp} {g : Stage} (h : Stage.ofExp? e = .ok (some g)) {x : Name}
    (hx : x ∈ Pattern.names g.op.element.params) : x ∈ e.slots := by
  cases e with
  | soac op args certs s =>
    obtain ⟨as, -, rfl⟩ := Stage.ofExp?_eq_ok h
    exact List.mem_append_left _ (op.slots_element hx)
  | _ => cases h

/-- The names that a `let` around an expression binds. -/
def boundNames : Option Pattern → List Name
  | none => []
  | some p => p.names

/-- The `let` of a replicated value, if it is one that something is decided about. -/
def replicateChoices (c : Config) (site : Option Pattern) (n v : Exp) (s : Span) : List Choice :=
  match site with
  | some [x] =>
    if c.replicateFusion && v.isAtom && x.ty.row?.isSome then [⟨.replicate, [x], .replicate n v s⟩]
    else []
  | _ => []

mutual

/-- The `let`s of an expression that something is decided about, the last one first.  If the
expression is what a `let` binds, `site` is the pattern. -/
def Exp.choices (c : Config) (site : Option Pattern) : Exp → List Choice
  | .lit _ _ => []
  | .var _ _ => []
  | .tuple es _ => Exp.choicesAll c es
  | .array es _ _ => Exp.choicesAll c es
  | .binary _ a b _ _ => b.choices c none ++ a.choices c none
  | .unary _ e _ => e.choices c none
  | .cond e a b _ _ => a.choices c none ++ (b.choices c none ++ e.choices c none)
  | .call _ es _ _ => Exp.choicesAll c es
  | .letIn p e b _ => b.choices c none ++ e.choices c (some p)
  | .update _ _ is e b _ => b.choices c none ++ (e.choices c none ++ Exp.choicesAll c is)
  | .index _ is _ => Exp.choicesAll c is
  | .replicate n e s => replicateChoices c site n e s ++ (e.choices c none ++ n.choices c none)
  | .loop _ is _ n b e _ =>
    e.choices c none ++ (b.choices c none ++ (n.choices c none ++ Exp.choicesAll c is))
  | .soac op args certs s =>
    match site with
    | none => []
    | some p => op.lambdaChoices c ++ (Exp.choicesOperands c args
        ++ (op.neutralChoices c ++ [⟨.combinator, p, .soac op args certs s⟩]))

/-- The `let`s in a list of expressions that something is decided about. -/
def Exp.choicesAll (c : Config) : List Exp → List Choice
  | [] => []
  | e :: es => Exp.choicesAll c es ++ e.choices c none

/-- The `let`s in the arguments of a combinator that something is decided about. -/
def Exp.choicesOperands (c : Config) : List Exp → List Choice
  | [] => []
  | e :: es => Exp.choicesOperands c es ++ match e with
    | .index _ is _ => Exp.choicesAll c is
    | .unary .iota n _ => n.choices c none
    | _ => []

/-- The `let`s in a lambda that something is decided about. -/
def Lambda.choices (c : Config) : Lambda → List Choice
  | ⟨_, b, _⟩ => b.choices c none

/-- The `let`s in the lambdas of a combinator that something is decided about. -/
def Combinator.lambdaChoices (c : Config) : Combinator → List Choice
  | .map f => f.choices c
  | .reduce f _ => f.choices c
  | .scan f _ => f.choices c
  | .filter p => p.choices c
  | .redomap f g _ => f.choices c ++ g.choices c

/-- The `let`s in the neutral elements of a combinator that something is decided about. -/
def Combinator.neutralChoices (c : Config) : Combinator → List Choice
  | .map _ => []
  | .reduce _ ne => Exp.choicesAll c ne
  | .scan _ ne => Exp.choicesAll c ne
  | .filter _ => []
  | .redomap _ _ ne => Exp.choicesAll c ne

end

/-! ## Courses -/

/-- A choice with what was decided about it. -/
abbrev Log := List (Choice × Decision)

/-- The steps that lead from one registry to another, with the decisions among them.  What is known
about a region is added with `meet`: the names that are read as a whole on both sides, but not by
the same kernels, must not be fused. -/
inductive Course (c : Config) : Log → Registry → Progress → Registry → Progress → Prop
  | nil {r a} : Course c [] r a r a
  | forbid {r a} (xs : List Name) : Course c [] r a (r.forbid xs) a
  | noteUpdate {r a} (x : Name) : Course c [] r a (r.noteUpdate x) a
  | append {l l' r a r' b r'' d} : Course c l r a r' b → Course c l' r' b r'' d →
      Course c (l ++ l') r a r'' d
  | meet {l r a q b} (xs ys : List Name) : Course c l .empty a q b →
      (∀ x ks ls, r.consumers.find? x = some ks → q.consumers.find? x = some ls → ks ≠ [] →
        sameMembers ks ls = false → x ∈ ys) →
      Course c l r a (((r.union q).forbid xs).forbid ys) b
  | place {r a t r' b} {s : Choice} {g : Stage} {d : Decision} : s.Stands g →
      s.pattern.length = g.arity → a.names.count ≤ t.count →
      (∀ x ∈ Pattern.names g.op.element.params, x ∈ s.rhs.slots ∨ x ∈ a.names.until t) →
      b.decisions = a.decisions ++ [d] →
      Decided c s.origin s.pattern g r { a with names := t } d r' b → Course c [(s, d)] r a r' b

namespace Course

variable {c : Config} {l l' : Log} {r r' q : Registry} {a b d : Progress}

theorem noteUpdates (ys : List Name) : Course c [] r a (ys.foldl Registry.noteUpdate r) a := by
  induction ys using List.reverseRecOn with
  | nil => exact .nil
  | append_singleton ys y ih =>
    rw [List.foldl_append]
    exact ih.append (.noteUpdate y)

theorem mergeRegion (h : Course c l .empty a q b) (xs : List Name) :
    Course c l r a (r.mergeRegion q xs) b := by
  refine (noteUpdates q.updated).append (.meet xs _ h fun x ks ls hks hls hne hsame => ?_)
  refine List.mem_filter.2 ⟨Table.mem_keys_iff.2 ⟨ls, hls⟩, ?_⟩
  rw [hls, show (q.updated.foldl Registry.noteUpdate r).consumers.find? x = some ks from hks]
  simp only [hsame, Bool.not_false, Bool.and_true, Bool.not_eq_true']
  exact List.isEmpty_eq_false_iff.2 hne

theorem unionBranches {yes no : Registry} (h : Course c l .empty a yes b)
    (h' : Course c l' .empty b no d) : Course c (l ++ l') .empty a (yes.unionBranches no) d := by
  refine h.append (.meet [] (yes.conflicts no) h' fun x ks ls hks hls hne hsame => ?_)
  refine List.mem_append_left _ (List.mem_filter.2 ⟨Table.mem_keys_iff.2 ⟨ks, hks⟩, ?_⟩)
  rw [hks, hls]
  simp only [hsame, Bool.not_false]

end Course

/-! ## Analyses -/

/-- Whenever the analysis succeeds it takes a course with one decision for each of the choices. -/
def Follows (c : Config) (ss : List Choice) (x : Registry → Analysis Registry) : Prop :=
  ∀ (r r' : Registry) (a b : Progress), x r a = .ok (r', b) →
    ∃ l : Log, l.map Prod.fst = ss ∧ Course c l r a r' b

section

variable {c : Config} {ss ss' ss'' : List Choice} {x y z : Registry → Analysis Registry}

namespace Follows

/-- Nothing is decided. -/
theorem step {f : Registry → Registry} (hf : ∀ r a, Course c [] r a (f r) a) :
    Follows c [] fun r => return f r := by
  intro r r' a b h
  obtain ⟨rfl, rfl⟩ := State.pure_eq_ok.1 h
  exact ⟨[], rfl, hf r b⟩

theorem pure : Follows c [] fun r => return r := step fun _ _ => .nil

theorem congr (h : Follows c ss x) (hss : ss' = ss) (hx : ∀ r, y r = x r) : Follows c ss' y := by
  rwa [hss, funext hx]

/-- Code in front of other code. -/
theorem seq (hx : Follows c ss x) (hy : Follows c ss' y) :
    Follows c (ss ++ ss') fun r => x r >>= y := by
  intro r r' a b h
  obtain ⟨r₁, a₁, h₁, h₂⟩ := State.bind_eq_ok.1 h
  obtain ⟨l, rfl, hl⟩ := hx _ _ _ _ h₁
  obtain ⟨l', rfl, hl'⟩ := hy _ _ _ _ h₂
  exact ⟨l ++ l', List.map_append, hl.append hl'⟩

/-- A region with a scope of its own. -/
theorem region (hx : Follows c ss x) (escaping : Registry → List Name) :
    Follows c ss fun r => do
      let q ← x .empty
      return r.mergeRegion q (escaping q) := by
  intro r r' a b h
  obtain ⟨q, a₁, h₁, h₂⟩ := State.bind_eq_ok.1 h
  obtain ⟨rfl, rfl⟩ := State.pure_eq_ok.1 h₂
  obtain ⟨l, hss, hl⟩ := hx _ _ _ _ h₁
  exact ⟨l, hss, hl.mergeRegion _⟩

/-- The arms of a conditional, and its condition in front of them. -/
theorem branches (hx : Follows c ss x) (hy : Follows c ss' y) (hz : Follows c ss'' z) :
    Follows c (ss ++ (ss' ++ ss'')) fun r => x .empty >>= fun yes => y .empty >>= fun no =>
      z (r.mergeRegion (yes.unionBranches no) []) := by
  intro r r' a b h
  obtain ⟨yes, a₁, h₁, h₂⟩ := State.bind_eq_ok.1 h
  obtain ⟨no, a₂, h₃, h₄⟩ := State.bind_eq_ok.1 h₂
  obtain ⟨l, rfl, hl⟩ := hx _ _ _ _ h₁
  obtain ⟨l', rfl, hl'⟩ := hy _ _ _ _ h₃
  obtain ⟨l'', rfl, hl''⟩ := hz _ _ _ _ h₄
  refine ⟨l ++ l' ++ l'', by simp, ((hl.unionBranches hl').mergeRegion []).append hl''⟩

/-- A stage is placed whose parameters are slots of the right-hand side. -/
theorem place {s : Choice} {g : Stage} (hg : s.Stands g) (harity : s.pattern.length = g.arity)
    (hparams : ∀ x ∈ Pattern.names g.op.element.params, x ∈ s.rhs.slots) :
    Follows c [s] (ArrayFusion.place c s.origin s.pattern g) := by
  intro r r' a b h
  obtain ⟨d, hdecisions, hdecided⟩ := decided_of_place h
  exact ⟨[(s, d)], rfl, .place hg harity (Nat.le_refl _) (fun x hx =>
    .inl (hparams x hx)) hdecisions hdecided⟩

/-- Something is decided about a replicated value if it is an atom and what one array is bound
to. -/
theorem placeReplicate (site : Option Pattern) (n v : Exp) (s : Span) :
    Follows c (replicateChoices c site n v s) (ArrayFusion.placeReplicate c site n v s) := by
  -- if no map stands for the replicate, then nothing is decided
  have hnone : ∀ {p : Pattern}, (∀ t, replicateStage c p n v s t = .ok (none, t)) →
      Follows c [] (ArrayFusion.placeReplicate c (some p) n v s) := by
    intro p hp r r' a b h
    obtain ⟨g, a₁, hfresh, h⟩ := State.bind_eq_ok.1 h
    obtain ⟨t, hg, rfl⟩ := Analysis.fresh_eq_ok.1 hfresh
    cases (hp a.names).symm.trans hg
    obtain ⟨rfl, rfl⟩ := State.pure_eq_ok.1 h
    exact ⟨[], rfl, .nil⟩
  rcases site with _ | _ | ⟨x, _ | ⟨y, p⟩⟩
  · exact pure
  · exact hnone fun _ => rfl
  · unfold replicateChoices
    dsimp only
    -- a map stands for a replicated atom that is bound to an array
    cases hatom : c.replicateFusion && v.isAtom with
    | false =>
      refine hnone fun t => ?_
      unfold replicateStage
      dsimp only
      rw [hatom]
      rfl
    | true =>
      cases hrow : x.ty.row? with
      | none =>
        refine hnone fun t => ?_
        unfold replicateStage
        dsimp only
        rw [hatom, hrow]
        rfl
      | some row =>
        intro r r' a b h
        obtain ⟨g, a₁, hfresh, h⟩ := State.bind_eq_ok.1 h
        obtain ⟨t, hg, rfl⟩ := Analysis.fresh_eq_ok.1 hfresh
        -- the index of the map is the only fresh name
        have hstage : replicateStage c [x] n v s a.names = .ok
            (some ⟨.map ⟨[⟨⟨"i", a.names.next⟩, .int⟩], v, [row]⟩, [.range n], [], s⟩,
              ⟨a.names.count + 1⟩) := by
          unfold replicateStage
          dsimp only
          rw [hatom, hrow]
          rfl
        cases hstage.symm.trans hg
        obtain ⟨d, hdecisions, hdecided⟩ := decided_of_place h
        refine ⟨[(⟨.replicate, [x], .replicate n v s⟩, d)], rfl, .place
          (.replicate (Bool.and_eq_true_iff.1 hatom).2) rfl (Nat.le_succ _) ?_ hdecisions hdecided⟩
        exact List.forall_mem_singleton.2 (.inr
          (NameSupply.mem_until_of_tag_eq rfl (Nat.lt_succ_self _)))
  · exact hnone fun _ => rfl

end Follows

mutual

/-- The analysis of an expression decides about each of its choices, in order. -/
theorem Exp.follows : ∀ (e : Exp) (site : Option Pattern),
    Follows c (e.choices c site) fun r => e.analyse c site r
  | .lit _ _, _ => .pure
  | .var x _, _ => (Follows.step fun (r : Registry) a => show Course c [] r a
        (if x.isArray then r.forbid [x.name] else r) a from by
      split
      · exact .forbid _
      · exact .nil).congr rfl fun r => by
    rw [Exp.analyse]
  | .tuple es _, _ => (Exp.followsAll es).congr rfl fun r => by rw [Exp.analyse]
  | .array es _ _, _ => (Exp.followsAll es).congr rfl fun r => by rw [Exp.analyse]
  | .call _ es _ _, _ => (Exp.followsAll es).congr rfl fun r => by rw [Exp.analyse]
  | .unary _ e _, _ => (e.follows none).congr rfl fun r => by rw [Exp.analyse]
  | .binary _ a b _ _, _ => ((b.follows none).seq (a.follows none)).congr rfl fun r => by
    rw [Exp.analyse]
  | .cond e a b _ _, _ =>
    ((a.follows none).branches (b.follows none) (e.follows none)).congr rfl fun r => by
      rw [Exp.analyse]
  | .letIn p e b _, _ => ((b.follows none).seq (e.follows (some p))).congr rfl fun r => by
    rw [Exp.analyse]
  | .update x y is v b _, _ =>
    ((b.follows none).seq ((Follows.step fun r a =>
      (Course.noteUpdate y.name).append (.forbid [y.name, x.name])).seq
        ((v.follows none).seq (Exp.followsAll is)))).congr rfl fun r => by
      simp only [Exp.analyse, pure_bind]
  | .index x is _, _ =>
    ((Follows.step fun r a => .forbid [x.name]).seq (Exp.followsAll is)).congr rfl fun r => by
      simp only [Exp.analyse, pure_bind]
  | .replicate n v s, site =>
    ((Follows.placeReplicate site n v s).seq ((v.follows none).seq (n.follows none))).congr rfl
      fun r => Exp.analyse_replicate c site r n v s
  | .loop p is i n b e _, _ =>
    ((e.follows none).seq (((b.follows none).region fun q => q.consumers.keys).seq
      ((n.follows none).seq (Exp.followsAll is)))).congr rfl fun r => by
        simp only [Exp.analyse, bind_assoc, pure_bind]
  | .soac op args certs s, none => fun _ _ _ _ h => nomatch h
  | .soac op args certs s, some p => by
    intro r r' a b h
    obtain ⟨g, hg, hp, h⟩ := Exp.analyse_soac_eq_ok h
    exact ((Combinator.followsLambdas op).seq
      ((Exp.followsOperands args).seq ((Combinator.followsNeutral op).seq
      (Follows.place (s := ⟨.combinator, p, .soac op args certs s⟩) (.combinator hg) hp
        fun x => Stage.slots_of_ofExp? hg)))) _ _ _ _ h

theorem Exp.followsAll : ∀ es : List Exp, Follows c (Exp.choicesAll c es) fun r =>
    Exp.analyseAll c r es
  | [] => .pure
  | e :: es => ((Exp.followsAll es).seq (e.follows none)).congr rfl fun r => by rw [Exp.analyseAll]

theorem Exp.followsOperands : ∀ es : List Exp,
    Follows c (Exp.choicesOperands c es) fun r => Exp.analyseOperands c r es
  | [] => .pure
  | .index _ is _ :: es => ((Exp.followsOperands es).seq (Exp.followsAll is)).congr rfl fun r => by
    rw [Exp.analyseOperands]
  | .unary .iota n _ :: es => ((Exp.followsOperands es).seq (n.follows none)).congr rfl fun r => by
    rw [Exp.analyseOperands]
  | .unary .not _ _ :: es | .unary .negate _ _ :: es | .unary .size _ _ :: es
  | .unary .transpose _ _ :: es | .lit .. :: es | .var .. :: es | .tuple .. :: es | .array .. :: es
  | .binary .. :: es | .cond .. :: es | .call .. :: es | .letIn .. :: es | .update .. :: es
  | .replicate .. :: es | .loop .. :: es | .soac .. :: es =>
    ((Exp.followsOperands es).seq .pure).congr rfl fun r => by rw [Exp.analyseOperands]

theorem Lambda.follows : ∀ f : Lambda, Follows c (f.choices c) fun r => f.analyse c r
  | ⟨ps, b, ts⟩ => ((b.follows none).region
      fun q => q.consumers.keys ++ Lambda.freeArrays ⟨ps, b, ts⟩).congr rfl fun r => by
    rw [Lambda.analyse]

theorem Combinator.followsLambdas : ∀ op : Combinator,
    Follows c (op.lambdaChoices c) fun r => op.analyseLambdas c r
  | .map f => f.follows.congr rfl fun r => by rw [Combinator.analyseLambdas]
  | .reduce f _ => f.follows.congr rfl fun r => by rw [Combinator.analyseLambdas]
  | .scan f _ => f.follows.congr rfl fun r => by rw [Combinator.analyseLambdas]
  | .filter p => p.follows.congr rfl fun r => by rw [Combinator.analyseLambdas]
  | .redomap f g _ => (f.follows.seq g.follows).congr rfl fun r => by rw [Combinator.analyseLambdas]

theorem Combinator.followsNeutral : ∀ op : Combinator,
    Follows c (op.neutralChoices c) fun r => op.analyseNeutral c r
  | .map _ => .pure
  | .filter _ => .pure
  | .reduce _ ne => (Exp.followsAll ne).congr rfl fun r => by rw [Combinator.analyseNeutral]
  | .scan _ ne => (Exp.followsAll ne).congr rfl fun r => by rw [Combinator.analyseNeutral]
  | .redomap _ _ ne => (Exp.followsAll ne).congr rfl fun r => by rw [Combinator.analyseNeutral]

end

end

/-- Every analysis that succeeds takes a course, with one decision for each choice of the
expression. -/
theorem Exp.analyse_course {c : Config} {e : Exp} {site : Option Pattern} {r r' : Registry}
    {a b : Progress} (h : e.analyse c site r a = .ok (r', b)) :
    ∃ l : Log, l.map Prod.fst = e.choices c site ∧ Course c l r a r' b := e.follows site _ _ _ _ h

/-! ## The log -/

namespace Course

variable {c : Config} {l : Log} {r r' : Registry} {a b : Progress}

/-- The decisions of a course are noted in order. -/
theorem decisions (h : Course c l r a r' b) : b.decisions = a.decisions ++ l.map Prod.snd := by
  induction h with
  | nil | forbid | noteUpdate => exact (List.append_nil _).symm
  | append _ _ ih ih' => rw [ih', ih, List.map_append, List.append_assoc]
  | meet _ _ _ _ ih => exact ih
  | place _ _ _ _ hdecisions => exact hdecisions

/-- Every decision is about the names of its choice. -/
theorem names (h : Course c l r a r' b) : ∀ e ∈ l, e.2.names = e.1.names := by
  induction h with
  | nil | forbid | noteUpdate => exact nofun
  | append _ _ ih ih' => exact List.forall_mem_append.2 ⟨ih, ih'⟩
  | meet _ _ _ _ ih => exact ih
  | place _ _ _ _ _ hdecided =>
    rw [List.forall_mem_singleton]
    cases hdecided <;> rfl

end Course

end ArrayFusion
