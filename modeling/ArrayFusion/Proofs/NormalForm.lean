import ArrayFusion.Proofs.Emission
import ArrayFusion.Proofs.Freshening

/-!
# Normal form

The pass expects that every combinator is what a `let` binds, with a name for each result, that its
arguments are operands, and that the lambda for the elements has a parameter for each argument and
each accumulator.  `Exp.NormalAt` says so of an expression.  A fresh copy of normal code is normal
(`Lambda.Normal.freshen`), because it differs from the code in names only.
-/

namespace ArrayFusion

/-- Is it an array that a combinator can read? -/
def Exp.IsOperand (e : Exp) : Prop := (Operand.ofExp? e).isSome

mutual

/-- Every combinator in the expression is what a `let` binds, and fits its names, its arguments and
its lambda.  If the expression is itself what a `let` binds, `site` is the number of names. -/
def Exp.NormalAt (site : Option Nat) : Exp → Prop
  | .lit _ _ => True
  | .var _ _ => True
  | .tuple es _ => Exp.NormalAll es
  | .array es _ _ => Exp.NormalAll es
  | .binary _ a b _ _ => a.NormalAt none ∧ b.NormalAt none
  | .unary _ e _ => e.NormalAt none
  | .cond c a b _ _ => c.NormalAt none ∧ a.NormalAt none ∧ b.NormalAt none
  | .call _ es _ _ => Exp.NormalAll es
  | .letIn p r b _ => r.NormalAt (some p.length) ∧ b.NormalAt none
  | .update _ _ is v b _ => Exp.NormalAll is ∧ v.NormalAt none ∧ b.NormalAt none
  | .index _ is _ => Exp.NormalAll is
  | .replicate n v _ => n.NormalAt none ∧ v.NormalAt none
  | .loop _ is _ n b r _ =>
    Exp.NormalAll is ∧ n.NormalAt none ∧ b.NormalAt none ∧ r.NormalAt none
  | .soac op es _ _ =>
    site = some (op.arity es.length) ∧ (∀ e ∈ es, e.IsOperand)
      ∧ op.element.params.length = op.neutral.length + es.length ∧ op.Normal ∧ Exp.NormalAll es

/-- Each expression of the list is normal, and none of them is a combinator. -/
def Exp.NormalAll : List Exp → Prop
  | [] => True
  | e :: es => e.NormalAt none ∧ Exp.NormalAll es

/-- The body of the lambda is normal. -/
def Lambda.Normal : Lambda → Prop
  | ⟨_, b, _⟩ => b.NormalAt none

/-- The lambdas and the neutral elements of the combinator are normal. -/
def Combinator.Normal : Combinator → Prop
  | .map f => f.Normal
  | .reduce f ne => f.Normal ∧ Exp.NormalAll ne
  | .scan f ne => f.Normal ∧ Exp.NormalAll ne
  | .filter p => p.Normal
  | .redomap f g ne => f.Normal ∧ g.Normal ∧ Exp.NormalAll ne

end

/-- An expression that is normal anywhere is normal as the right-hand side of a `let`. -/
theorem Exp.NormalAt.rhs {e : Exp} (h : e.NormalAt none) (site : Option Nat) : e.NormalAt site := by
  cases e with
  | soac => cases h.1
  | _ => exact h

/-- Expressions are normal if each of them is. -/
theorem Exp.normalAll_iff {es : List Exp} : Exp.NormalAll es ↔ ∀ e ∈ es, e.NormalAt none := by
  induction es with
  | nil => exact ⟨fun _ _ he => (nomatch he), fun _ => trivial⟩
  | cons e es ih => rw [Exp.NormalAll, ih, List.forall_mem_cons]

/-- An operand is a variable, a row, a transposition or a range. -/
theorem Exp.isOperand_iff {e : Exp} : e.IsOperand ↔
    (∃ x s, e = .var x s ∧ x.isArray) ∨ (∃ x is s, e = .index x is s)
      ∨ (∃ x s s', e = .unary .transpose (.var x s) s' ∧ 2 ≤ x.ty.rank)
      ∨ ∃ n s, e = .unary .iota n s := by
  constructor
  · intro h
    unfold IsOperand Operand.ofExp? at h
    split at h
    · -- the four forms of an operand
      rename_i x s
      exact .inl ⟨x, s, rfl, by simpa using h⟩
    · exact .inr (.inl ⟨_, _, _, rfl⟩)
    · rename_i x s s'
      exact .inr (.inr (.inl ⟨x, s, s', rfl, by simpa using h⟩))
    · exact .inr (.inr (.inr ⟨_, _, rfl⟩))
    · cases h
  · rintro (⟨x, s, rfl, h⟩ | ⟨x, is, s, rfl⟩ | ⟨x, s, s', rfl, h⟩ | ⟨n, s, rfl⟩)
    · simp [IsOperand, Operand.ofExp?, h]
    · rfl
    · simp [IsOperand, Operand.ofExp?, h]
    · rfl

/-! ## Combinators that are used in the same way -/

/-- The combinators have as many results for as many arguments. -/
structure Combinator.Alike (o o' : Combinator) : Prop where
  arity : ∀ n, o'.arity n = o.arity n
  neutral : o'.neutral.length = o.neutral.length
  params : o'.element.params.length = o.element.params.length

/-- A combinator is normal if it is used like one that is normal, and if its parts are normal. -/
theorem Combinator.Alike.normalAt {o o' : Combinator} {es es' : List Exp} {site : Option Nat}
    {cs cs' : Certificates} {s s' : Span} (ha : o.Alike o') (hlen : es'.length = es.length)
    (h : (Exp.soac o es cs s).NormalAt site) (hes : ∀ e ∈ es', e.IsOperand) (ho : o'.Normal)
    (hall : Exp.NormalAll es') : (Exp.soac o' es' cs' s').NormalAt site := by
  refine ⟨?_, hes, ?_, ho, hall⟩
  · rw [ha.arity, hlen]
    exact h.1
  · rw [ha.params, ha.neutral, hlen]
    exact h.2.2.1

/-! ## Fresh copies -/

namespace Renaming

variable {q q' : Renaming}

/-- As many things are visited as there are. -/
theorem length_each {α : Type} {f : α → StateM Renaming α} {xs ys : List α}
    (h : Visitor.each f xs q = (ys, q')) : ys.length = xs.length := by
  induction xs generalizing ys q with
  | nil =>
    cases h
    rfl
  | cons x xs ih =>
    obtain ⟨y, q₁, -, h⟩ := State.bind_eq.1 h
    obtain ⟨ys', q₂, hys, h⟩ := State.bind_eq.1 h
    obtain ⟨rfl, rfl⟩ := State.pure_eq.1 h
    rw [List.length_cons, List.length_cons, ih hys]

/-- The copies are as many as the expressions. -/
theorem length_traverseAll {es es' : List Exp} (h : Exp.traverseAll visitor es q = (es', q')) :
    es'.length = es.length := by
  induction es generalizing es' q with
  | nil =>
    cases h
    rfl
  | cons e es ih =>
    obtain ⟨e', q₁, -, h⟩ := State.bind_eq.1 h
    obtain ⟨es₁, q₂, hes, h⟩ := State.bind_eq.1 h
    obtain ⟨rfl, rfl⟩ := State.pure_eq.1 h
    rw [List.length_cons, List.length_cons, ih hes]

/-- A use keeps its type. -/
theorem ty_use {x y : Ident} (h : use x q = (y, q')) : y.ty = x.ty := by
  cases h
  cases q.renamed.lookup x.name <;> rfl

/-- A copy of an operand is an operand. -/
theorem isOperand_copy {e e' : Exp} (h : e.traverse visitor q = (e', q')) (he : e.IsOperand) :
    e'.IsOperand := by
  rw [Exp.isOperand_iff] at he ⊢
  obtain ⟨x, s, rfl, hx⟩ | ⟨x, is, s, rfl⟩ | ⟨x, s, s', rfl, hx⟩ | ⟨n, s, rfl⟩ := he
  · -- renaming leaves the type of an identifier as it is
    obtain ⟨y, q₁, hy, h⟩ := State.bind_eq.1 h
    obtain ⟨rfl, rfl⟩ := State.pure_eq.1 h
    exact .inl ⟨y, s, rfl, by rwa [Ident.isArray, ty_use hy]⟩
  · obtain ⟨y, q₁, -, h⟩ := State.bind_eq.1 h
    obtain ⟨is', q₂, -, h⟩ := State.bind_eq.1 h
    obtain ⟨rfl, rfl⟩ := State.pure_eq.1 h
    exact .inr (.inl ⟨y, is', s, rfl⟩)
  · obtain ⟨e₁, q₁, he, h⟩ := State.bind_eq.1 h
    obtain ⟨rfl, rfl⟩ := State.pure_eq.1 h
    obtain ⟨y, q₂, hy, h⟩ := State.bind_eq.1 he
    obtain ⟨rfl, rfl⟩ := State.pure_eq.1 h
    exact .inr (.inr (.inl ⟨y, s, s', rfl, by rwa [ty_use hy]⟩))
  · obtain ⟨n', q₁, -, h⟩ := State.bind_eq.1 h
    obtain ⟨rfl, rfl⟩ := State.pure_eq.1 h
    exact .inr (.inr (.inr ⟨n', s, rfl⟩))

/-- Copies of operands are operands. -/
theorem isOperand_copyAll {es es' : List Exp} (h : Exp.traverseAll visitor es q = (es', q'))
    (hes : ∀ e ∈ es, e.IsOperand) : ∀ e ∈ es', e.IsOperand := by
  induction es generalizing es' q with
  | nil =>
    cases h
    exact nofun
  | cons e es ih =>
    obtain ⟨e', q₁, he, h⟩ := State.bind_eq.1 h
    obtain ⟨es₁, q₂, hes₁, h⟩ := State.bind_eq.1 h
    obtain ⟨rfl, rfl⟩ := State.pure_eq.1 h
    exact List.forall_mem_cons.2 ⟨isOperand_copy he (hes e List.mem_cons_self),
      ih hes₁ fun e he => hes e (List.mem_cons_of_mem _ he)⟩

/-- A copy of a lambda has as many parameters and results. -/
theorem length_copy {f f' : Lambda} (h : f.traverse visitor q = (f', q')) :
    f'.params.length = f.params.length ∧ f'.rets = f.rets := by
  obtain ⟨ps, b, ts⟩ := f
  obtain ⟨ps', q₁, hps, h⟩ := State.bind_eq.1 h
  obtain ⟨b', q₂, -, h⟩ := State.bind_eq.1 h
  obtain ⟨ts', q₃, hts, h⟩ := State.bind_eq.1 h
  obtain ⟨rfl, rfl⟩ := State.pure_eq.1 h
  rw [each_type] at hts
  cases hts
  exact ⟨length_each hps, rfl⟩

/-- A copy of a combinator is of its kind, with as many lambdas. -/
theorem alike_copy {o o' : Combinator} (h : o.traverse visitor q = (o', q')) : o.Alike o' := by
  cases o with
  | map f =>
    obtain ⟨f', q₁, hf, h⟩ := State.bind_eq.1 h
    obtain ⟨rfl, rfl⟩ := State.pure_eq.1 h
    -- the number of results of a map is that of the result types
    obtain ⟨hps, hrets⟩ := length_copy hf
    exact ⟨fun n => by rw [Combinator.arity, Combinator.arity, hrets], rfl, hps⟩
  | filter f =>
    obtain ⟨f', q₁, hf, h⟩ := State.bind_eq.1 h
    obtain ⟨rfl, rfl⟩ := State.pure_eq.1 h
    exact ⟨fun n => rfl, rfl, (length_copy hf).1⟩
  | reduce f ne =>
    obtain ⟨f', q₁, hf, h⟩ := State.bind_eq.1 h
    obtain ⟨ne', q₂, hne, h⟩ := State.bind_eq.1 h
    obtain ⟨rfl, rfl⟩ := State.pure_eq.1 h
    exact ⟨fun _ => length_traverseAll hne, length_traverseAll hne, (length_copy hf).1⟩
  | scan f ne =>
    obtain ⟨f', q₁, hf, h⟩ := State.bind_eq.1 h
    obtain ⟨ne', q₂, hne, h⟩ := State.bind_eq.1 h
    obtain ⟨rfl, rfl⟩ := State.pure_eq.1 h
    exact ⟨fun _ => length_traverseAll hne, length_traverseAll hne, (length_copy hf).1⟩
  | redomap f g ne =>
    obtain ⟨f', q₁, -, h⟩ := State.bind_eq.1 h
    obtain ⟨g', q₂, hg, h⟩ := State.bind_eq.1 h
    obtain ⟨ne', q₃, hne, h⟩ := State.bind_eq.1 h
    obtain ⟨rfl, rfl⟩ := State.pure_eq.1 h
    exact ⟨fun _ => length_traverseAll hne, length_traverseAll hne, (length_copy hg).1⟩

end Renaming

mutual

/-- A copy of a normal expression is normal. -/
theorem Exp.NormalAt.copy : ∀ {e e' : Exp} {site : Option Nat} {q q' : Renaming},
    e.NormalAt site → e.traverse Renaming.visitor q = (e', q') → e'.NormalAt site
  | .lit _ _, _, _, _, _, hn, h => by
    cases h
    exact hn
  | .var _ _, _, _, _, _, _, h => by
    obtain ⟨y, q₁, -, h⟩ := State.bind_eq.1 h
    obtain ⟨rfl, rfl⟩ := State.pure_eq.1 h
    exact trivial
  | .tuple es _, _, _, _, _, hn, h => by
    obtain ⟨es', q₁, hes, h⟩ := State.bind_eq.1 h
    obtain ⟨rfl, rfl⟩ := State.pure_eq.1 h
    have hn : Exp.NormalAll es := hn
    exact hn.copy hes
  | .array es _ _, _, _, _, _, hn, h => by
    obtain ⟨es', q₁, hes, h⟩ := State.bind_eq.1 h
    obtain ⟨t', q₂, -, h⟩ := State.bind_eq.1 h
    obtain ⟨rfl, rfl⟩ := State.pure_eq.1 h
    have hn : Exp.NormalAll es := hn
    exact hn.copy hes
  | .binary _ a b _ _, _, _, _, _, hn, h => by
    obtain ⟨a', q₁, ha, h⟩ := State.bind_eq.1 h
    obtain ⟨b', q₂, hb, h⟩ := State.bind_eq.1 h
    obtain ⟨t', q₃, -, h⟩ := State.bind_eq.1 h
    obtain ⟨rfl, rfl⟩ := State.pure_eq.1 h
    exact ⟨hn.1.copy ha, hn.2.copy hb⟩
  | .unary _ e _, _, _, _, _, hn, h => by
    obtain ⟨e₁, q₁, he, h⟩ := State.bind_eq.1 h
    obtain ⟨rfl, rfl⟩ := State.pure_eq.1 h
    have hn : e.NormalAt none := hn
    exact hn.copy he
  | .cond c a b _ _, _, _, _, _, hn, h => by
    obtain ⟨c', q₁, hc, h⟩ := State.bind_eq.1 h
    obtain ⟨a', q₂, ha, h⟩ := State.bind_eq.1 h
    obtain ⟨b', q₃, hb, h⟩ := State.bind_eq.1 h
    obtain ⟨t', q₄, -, h⟩ := State.bind_eq.1 h
    obtain ⟨rfl, rfl⟩ := State.pure_eq.1 h
    exact ⟨hn.1.copy hc, hn.2.1.copy ha, hn.2.2.copy hb⟩
  | .call _ es _ _, _, _, _, _, hn, h => by
    obtain ⟨es', q₁, hes, h⟩ := State.bind_eq.1 h
    obtain ⟨t', q₂, -, h⟩ := State.bind_eq.1 h
    obtain ⟨rfl, rfl⟩ := State.pure_eq.1 h
    have hn : Exp.NormalAll es := hn
    exact hn.copy hes
  | .letIn p r b _, _, _, _, _, hn, h => by
    obtain ⟨r', q₁, hr, h⟩ := State.bind_eq.1 h
    obtain ⟨p', q₂, hp, h⟩ := State.bind_eq.1 h
    obtain ⟨b', q₃, hb, h⟩ := State.bind_eq.1 h
    obtain ⟨rfl, rfl⟩ := State.pure_eq.1 h
    refine ⟨?_, hn.2.copy hb⟩
    rw [Renaming.length_each hp]
    exact hn.1.copy hr
  | .update _ _ is v b _, _, _, _, _, hn, h => by
    obtain ⟨y', q₁, -, h⟩ := State.bind_eq.1 h
    obtain ⟨is', q₂, his, h⟩ := State.bind_eq.1 h
    obtain ⟨v', q₃, hv, h⟩ := State.bind_eq.1 h
    obtain ⟨x', q₄, -, h⟩ := State.bind_eq.1 h
    obtain ⟨b', q₅, hb, h⟩ := State.bind_eq.1 h
    obtain ⟨rfl, rfl⟩ := State.pure_eq.1 h
    exact ⟨hn.1.copy his, hn.2.1.copy hv, hn.2.2.copy hb⟩
  | .index _ is _, _, _, _, _, hn, h => by
    obtain ⟨x', q₁, -, h⟩ := State.bind_eq.1 h
    obtain ⟨is', q₂, his, h⟩ := State.bind_eq.1 h
    obtain ⟨rfl, rfl⟩ := State.pure_eq.1 h
    have hn : Exp.NormalAll is := hn
    exact hn.copy his
  | .replicate n v _, _, _, _, _, hn, h => by
    obtain ⟨n', q₁, hn', h⟩ := State.bind_eq.1 h
    obtain ⟨v', q₂, hv, h⟩ := State.bind_eq.1 h
    obtain ⟨rfl, rfl⟩ := State.pure_eq.1 h
    exact ⟨hn.1.copy hn', hn.2.copy hv⟩
  | .loop _ is _ n b r _, _, _, _, _, hn, h => by
    obtain ⟨is', q₁, his, h⟩ := State.bind_eq.1 h
    obtain ⟨n', q₂, hn', h⟩ := State.bind_eq.1 h
    obtain ⟨p', q₃, -, h⟩ := State.bind_eq.1 h
    obtain ⟨i', q₄, -, h⟩ := State.bind_eq.1 h
    obtain ⟨b', q₅, hb, h⟩ := State.bind_eq.1 h
    obtain ⟨r', q₆, hr, h⟩ := State.bind_eq.1 h
    obtain ⟨rfl, rfl⟩ := State.pure_eq.1 h
    exact ⟨hn.1.copy his, hn.2.1.copy hn', hn.2.2.1.copy hb, hn.2.2.2.copy hr⟩
  | .soac _ _ _ _, _, _, _, _, hn, h => by
    obtain ⟨cs', q₁, -, h⟩ := State.bind_eq.1 h
    obtain ⟨op', q₂, hop, h⟩ := State.bind_eq.1 h
    obtain ⟨es', q₃, hes, h⟩ := State.bind_eq.1 h
    obtain ⟨rfl, rfl⟩ := State.pure_eq.1 h
    exact (Renaming.alike_copy hop).normalAt (Renaming.length_traverseAll hes) hn
      (Renaming.isOperand_copyAll hes hn.2.1) (hn.2.2.2.1.copy hop) (hn.2.2.2.2.copy hes)
termination_by structural e => e

/-- Copies of normal expressions are normal. -/
theorem Exp.NormalAll.copy : ∀ {es es' : List Exp} {q q' : Renaming},
    Exp.NormalAll es → Exp.traverseAll Renaming.visitor es q = (es', q') → Exp.NormalAll es'
  | [], _, _, _, _, h => by
    cases h
    exact trivial
  | _ :: _, _, _, _, hn, h => by
    obtain ⟨e', q₁, he, h⟩ := State.bind_eq.1 h
    obtain ⟨es', q₂, hes, h⟩ := State.bind_eq.1 h
    obtain ⟨rfl, rfl⟩ := State.pure_eq.1 h
    exact ⟨hn.1.copy he, hn.2.copy hes⟩
termination_by structural e => e

/-- A copy of a normal lambda is normal. -/
theorem Lambda.Normal.copy : ∀ {f f' : Lambda} {q q' : Renaming},
    f.Normal → f.traverse Renaming.visitor q = (f', q') → f'.Normal
  | ⟨_, b, _⟩, _, _, _, hn, h => by
    obtain ⟨ps', q₁, -, h⟩ := State.bind_eq.1 h
    obtain ⟨b', q₂, hb, h⟩ := State.bind_eq.1 h
    obtain ⟨ts', q₃, -, h⟩ := State.bind_eq.1 h
    obtain ⟨rfl, rfl⟩ := State.pure_eq.1 h
    exact Exp.NormalAt.copy (e := b) hn hb
termination_by structural e => e

/-- A copy of a normal combinator is normal. -/
theorem Combinator.Normal.copy : ∀ {o o' : Combinator} {q q' : Renaming},
    o.Normal → o.traverse Renaming.visitor q = (o', q') → o'.Normal
  | .map f, _, _, _, hn, h => by
    obtain ⟨f', q₁, hf, h⟩ := State.bind_eq.1 h
    obtain ⟨rfl, rfl⟩ := State.pure_eq.1 h
    exact Lambda.Normal.copy (f := f) hn hf
  | .reduce _ _, _, _, _, hn, h => by
    obtain ⟨f', q₁, hf, h⟩ := State.bind_eq.1 h
    obtain ⟨ne', q₂, hne, h⟩ := State.bind_eq.1 h
    obtain ⟨rfl, rfl⟩ := State.pure_eq.1 h
    exact ⟨hn.1.copy hf, hn.2.copy hne⟩
  | .scan _ _, _, _, _, hn, h => by
    obtain ⟨f', q₁, hf, h⟩ := State.bind_eq.1 h
    obtain ⟨ne', q₂, hne, h⟩ := State.bind_eq.1 h
    obtain ⟨rfl, rfl⟩ := State.pure_eq.1 h
    exact ⟨hn.1.copy hf, hn.2.copy hne⟩
  | .filter f, _, _, _, hn, h => by
    obtain ⟨f', q₁, hf, h⟩ := State.bind_eq.1 h
    obtain ⟨rfl, rfl⟩ := State.pure_eq.1 h
    exact Lambda.Normal.copy (f := f) hn hf
  | .redomap _ _ _, _, _, _, hn, h => by
    obtain ⟨f', q₁, hf, h⟩ := State.bind_eq.1 h
    obtain ⟨g', q₂, hg, h⟩ := State.bind_eq.1 h
    obtain ⟨ne', q₃, hne, h⟩ := State.bind_eq.1 h
    obtain ⟨rfl, rfl⟩ := State.pure_eq.1 h
    exact ⟨hn.1.copy hf, hn.2.1.copy hg, hn.2.2.copy hne⟩
termination_by structural e => e

end

/-- A fresh copy has as many parameters and results, and is normal if the lambda is. -/
theorem Lambda.freshen_eq {f f' : Lambda} {s s' : NameSupply} (h : f.freshen s = (f', s')) :
    f'.params.length = f.params.length ∧ f'.rets = f.rets ∧ (f.Normal → f'.Normal) := by
  obtain ⟨rfl, -⟩ := Prod.mk.inj h
  have hf : f.traverse Renaming.visitor ⟨s, []⟩
      = (((f.traverse Renaming.visitor).run ⟨s, []⟩).1,
        ((f.traverse Renaming.visitor).run ⟨s, []⟩).2) := rfl
  obtain ⟨hlen, hrets⟩ := Renaming.length_copy hf
  exact ⟨hlen, hrets, fun hn => hn.copy hf⟩

end ArrayFusion
