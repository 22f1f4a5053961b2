import ArrayFusion.Proofs.Analyses

/-!
# What is updated in front of a `let`

The evaluator evaluates the parts of an expression in a fixed order, and goes through an expression
from `let` to `let`.  `Exp.updatedBefore` goes the same way and lists the `let`s, each with the
names of the arrays that have been updated by then: what a part updates is added to each `let` of
the parts behind it (`updatedFirst`).  So one arm of a conditional adds nothing to the other one,
and the lambdas of a combinator add nothing to its arguments. The body of a loop is gone through
once, as it is by the analysis.

The list has the `let`s of `Exp.lets` in their order (`Exp.map_fst_updatedBefore`), hence a `let`
has one entry if all binders are different (`Exp.updatedBefore_unique`).
-/

namespace ArrayFusion

mutual

/-- The names of the arrays that are updated in an expression, wherever that is. -/
def Exp.updated : Exp → Set Name
  | .lit _ _ => ∅
  | .var _ _ => ∅
  | .tuple es _ => Exp.updatedAll es
  | .array es _ _ => Exp.updatedAll es
  | .binary _ a b _ _ => a.updated ∪ b.updated
  | .unary _ e _ => e.updated
  | .cond c a b _ _ => c.updated ∪ (a.updated ∪ b.updated)
  | .call _ es _ _ => Exp.updatedAll es
  | .letIn _ r b _ => r.updated ∪ b.updated
  | .update _ y is v b _ => Exp.updatedAll is ∪ (v.updated ∪ ({y.name} ∪ b.updated))
  | .index _ is _ => Exp.updatedAll is
  | .replicate n v _ => n.updated ∪ v.updated
  | .loop _ is _ n b r _ => Exp.updatedAll is ∪ (n.updated ∪ (b.updated ∪ r.updated))
  | .soac op es _ _ => op.updated ∪ Exp.updatedAll es

/-- The names of the arrays that are updated in a list of expressions. -/
def Exp.updatedAll : List Exp → Set Name
  | [] => ∅
  | e :: es => e.updated ∪ Exp.updatedAll es

/-- The names of the arrays that are updated in a lambda. -/
def Lambda.updated : Lambda → Set Name
  | ⟨_, b, _⟩ => b.updated

/-- The names of the arrays that are updated in the neutral elements and the lambdas of a
combinator. -/
def Combinator.updated : Combinator → Set Name
  | .map f => f.updated
  | .reduce f ne => Exp.updatedAll ne ∪ f.updated
  | .scan f ne => Exp.updatedAll ne ∪ f.updated
  | .filter p => p.updated
  | .redomap f g ne => Exp.updatedAll ne ∪ (f.updated ∪ g.updated)

end

/-- The `let`s of some code, each with what is updated before it, if the names of `X` are updated in
front of the code. -/
def updatedFirst (X : Set Name) (ls : List (Pattern × Set Name)) : List (Pattern × Set Name) :=
  ls.map fun l => (l.1, X ∪ l.2)

@[simp] theorem updatedFirst_nil (X : Set Name) : updatedFirst X [] = [] := rfl

/-- What is updated first is so in front of two lists of `let`s. -/
@[simp] theorem updatedFirst_append (X : Set Name) (ls ms : List (Pattern × Set Name)) :
    updatedFirst X (ls ++ ms) = updatedFirst X ls ++ updatedFirst X ms := List.map_append

@[simp] theorem updatedFirst_empty (ls : List (Pattern × Set Name)) : updatedFirst ∅ ls = ls := by
  simp [updatedFirst]

/-- Two sets of arrays are updated first if both are. -/
@[simp] theorem updatedFirst_updatedFirst (X Y : Set Name) (ls : List (Pattern × Set Name)) :
    updatedFirst X (updatedFirst Y ls) = updatedFirst (X ∪ Y) ls := by
  simp [updatedFirst, Set.union_assoc]

@[simp] theorem map_fst_updatedFirst (X : Set Name) (ls : List (Pattern × Set Name)) :
    (updatedFirst X ls).map Prod.fst = ls.map Prod.fst := List.map_map

mutual

/-- The `let`s of an expression, each with the names of the arrays that are updated in the
expression before the right-hand side of the `let` is evaluated.  The arms of a conditional are on
different paths. -/
def Exp.updatedBefore : Exp → List (Pattern × Set Name)
  | .lit _ _ => []
  | .var _ _ => []
  | .tuple es _ => Exp.updatedBeforeAll es
  | .array es _ _ => Exp.updatedBeforeAll es
  | .binary _ a b _ _ => a.updatedBefore ++ updatedFirst a.updated b.updatedBefore
  | .unary _ e _ => e.updatedBefore
  | .cond c a b _ _ => c.updatedBefore ++
    updatedFirst c.updated (a.updatedBefore ++ b.updatedBefore)
  | .call _ es _ _ => Exp.updatedBeforeAll es
  | .letIn p r b _ => (p, ∅) :: (r.updatedBefore ++ updatedFirst r.updated b.updatedBefore)
  | .update _ y is v b _ => Exp.updatedBeforeAll is ++ updatedFirst (Exp.updatedAll is)
      (v.updatedBefore ++ updatedFirst v.updated (updatedFirst {y.name} b.updatedBefore))
  | .index _ is _ => Exp.updatedBeforeAll is
  | .replicate n v _ => n.updatedBefore ++ updatedFirst n.updated v.updatedBefore
  | .loop _ is _ n b r _ => Exp.updatedBeforeAll is ++ updatedFirst (Exp.updatedAll is)
      (n.updatedBefore ++ updatedFirst n.updated
    (b.updatedBefore ++ updatedFirst b.updated r.updatedBefore))
  | .soac op es _ _ =>
    op.updatedBefore (Exp.updatedAll es) ++ updatedFirst (Exp.updatedAll op.neutral)
      (Exp.updatedBeforeAll es)

/-- The `let`s of a list of expressions that are evaluated from left to right. -/
def Exp.updatedBeforeAll : List Exp → List (Pattern × Set Name)
  | [] => []
  | e :: es => e.updatedBefore ++ updatedFirst e.updated (Exp.updatedBeforeAll es)

/-- The `let`s of a lambda. -/
def Lambda.updatedBefore : Lambda → List (Pattern × Set Name)
  | ⟨_, b, _⟩ => b.updatedBefore

/-- The `let`s of a combinator.  Its neutral elements come first, then its arguments, in which the
names of `X` are updated, and then its lambdas. -/
def Combinator.updatedBefore (X : Set Name) : Combinator → List (Pattern × Set Name)
  | .map f => updatedFirst X f.updatedBefore
  | .reduce f ne => updatedFirst (Exp.updatedAll ne) (updatedFirst X f.updatedBefore) ++
    Exp.updatedBeforeAll ne
  | .scan f ne => updatedFirst (Exp.updatedAll ne) (updatedFirst X f.updatedBefore) ++
    Exp.updatedBeforeAll ne
  | .filter p => updatedFirst X p.updatedBefore
  | .redomap f g ne => updatedFirst (Exp.updatedAll ne)
    (updatedFirst X (f.updatedBefore ++ g.updatedBefore))
      ++ Exp.updatedBeforeAll ne

end

mutual

/-- The `let`s of an expression are listed in their order. -/
theorem Exp.map_fst_updatedBefore : ∀ e : Exp, e.updatedBefore.map Prod.fst = e.lets.map Prod.fst
  | .lit _ _ | .var _ _ => rfl
  | .tuple es _ | .array es _ _ | .call _ es _ _ | .index _ es _ => Exp.map_fst_updatedBeforeAll es
  | .unary _ e _ => e.map_fst_updatedBefore
  | .binary _ a b _ _ | .replicate a b _ | .letIn _ a b _ => by
    simp [Exp.updatedBefore, Exp.lets, a.map_fst_updatedBefore, b.map_fst_updatedBefore]
  | .cond c a b _ _ => by
    simp [Exp.updatedBefore, Exp.lets, c.map_fst_updatedBefore, a.map_fst_updatedBefore,
      b.map_fst_updatedBefore]
  | .update _ _ is v b _ => by
    simp [Exp.updatedBefore, Exp.lets, Exp.map_fst_updatedBeforeAll is, v.map_fst_updatedBefore,
      b.map_fst_updatedBefore]
  | .loop _ is _ n b r _ => by
    simp [Exp.updatedBefore, Exp.lets, Exp.map_fst_updatedBeforeAll is, n.map_fst_updatedBefore,
      b.map_fst_updatedBefore, r.map_fst_updatedBefore]
  | .soac op es _ _ => by
    simp [Exp.updatedBefore, Exp.lets, op.map_fst_updatedBefore, Exp.map_fst_updatedBeforeAll es]

/-- So are those of a list of expressions. -/
theorem Exp.map_fst_updatedBeforeAll : ∀ es : List Exp,
    (Exp.updatedBeforeAll es).map Prod.fst = (Exp.letsAll es).map Prod.fst
  | [] => rfl
  | e :: es => by
    simp [Exp.updatedBeforeAll, Exp.letsAll, e.map_fst_updatedBefore,
      Exp.map_fst_updatedBeforeAll es]

/-- So are those of a lambda. -/
theorem Lambda.map_fst_updatedBefore :
    ∀ f : Lambda, f.updatedBefore.map Prod.fst = f.lets.map Prod.fst
  | ⟨_, b, _⟩ => b.map_fst_updatedBefore

/-- So are those of a combinator. -/
theorem Combinator.map_fst_updatedBefore (X : Set Name) : ∀ op : Combinator,
    (op.updatedBefore X).map Prod.fst = op.lets.map Prod.fst
  | .map f | .filter f => by simp [Combinator.updatedBefore, Combinator.lets, f.map_fst_updatedBefore]
  | .reduce f ne | .scan f ne => by
    simp [Combinator.updatedBefore, Combinator.lets, f.map_fst_updatedBefore,
      Exp.map_fst_updatedBeforeAll ne]
  | .redomap f g ne => by
    simp [Combinator.updatedBefore, Combinator.lets, f.map_fst_updatedBefore,
      g.map_fst_updatedBefore, Exp.map_fst_updatedBeforeAll ne]

end

/-- The `let`s that are listed bind names of the expression. -/
theorem Exp.binders_of_updatedBefore {e : Exp} {l : Pattern × Set Name} (h : l ∈ e.updatedBefore) :
    ∀ x ∈ l.1.names, x ∈ e.binders := by
  have hmem : l.1 ∈ e.lets.map Prod.fst := e.map_fst_updatedBefore ▸ List.mem_map_of_mem h
  obtain ⟨m, hm, heq⟩ := List.mem_map.1 hmem
  exact fun x hx => Exp.mem_binders_of_lets (mem_letNames.2 ⟨m, hm, heq ▸ hx⟩)

/-- Where all binders are different, a `let` that binds anything stands in one place. -/
theorem Exp.updatedBefore_unique {e : Exp} (h : e.binders.Nodup) {l l' : Pattern × Set Name}
    (hl : l ∈ e.updatedBefore) (hl' : l' ∈ e.updatedBefore) (heq : l.1 = l'.1) (hne : l.1 ≠ []) :
    l = l' := by
  have hnames : (e.updatedBefore.flatMap fun l => l.1.names).Nodup := by
    have hlets : (letNames e.lets).Nodup := Exp.nodup_letNames h
    have hmap := congrArg (List.flatMap Pattern.names) e.map_fst_updatedBefore
    rw [List.flatMap_map, List.flatMap_map] at hmap
    rwa [hmap]
  obtain ⟨x, hx⟩ := List.exists_mem_of_ne_nil _ (mt List.map_eq_nil_iff.1 hne)
  exact eq_of_mem_flatMap hnames hl hl' hx (heq ▸ hx)

/-- If a bound holds for all `let`s, it holds with what is updated first added to it. -/
theorem forall_updatedFirst {X Y : Set Name} {ls : List (Pattern × Set Name)}
    (h : ∀ l ∈ ls, l.2 ⊆ Y) : ∀ l ∈ updatedFirst X ls, l.2 ⊆ X ∪ Y :=
  List.forall_mem_map.2 fun l hl => Set.union_subset_union_right X (h l hl)

/-- The first of two expressions is evaluated before the `let`s of the second one. -/
theorem forall_append_updatedFirst {X Y : Set Name} {ls ms : List (Pattern × Set Name)}
    (h : ∀ l ∈ ls, l.2 ⊆ X) (h' : ∀ l ∈ ms, l.2 ⊆ Y) : ∀ l ∈ ls ++ updatedFirst X ms, l.2 ⊆ X ∪ Y :=
  List.forall_mem_append.2 ⟨fun l hl => (h l hl).trans Set.subset_union_left,
    forall_updatedFirst h'⟩

/-- What the neutral elements update, the combinator does. -/
theorem Combinator.updatedAll_neutral : ∀ op : Combinator, Exp.updatedAll op.neutral ⊆ op.updated
  | .map _ | .filter _ => Set.empty_subset _
  | .reduce _ _ | .scan _ _ | .redomap _ _ _ => Set.subset_union_left

mutual

/-- What is updated before some `let` of an expression is updated in the expression. -/
theorem Exp.subset_updated : ∀ e : Exp, ∀ l ∈ e.updatedBefore, l.2 ⊆ e.updated
  | .lit _ _ | .var _ _ => nofun
  | .tuple es _ | .array es _ _ | .call _ es _ _ | .index _ es _ => Exp.subset_updatedAll es
  | .unary _ e _ => e.subset_updated
  | .binary _ a b _ _ | .replicate a b _ =>
    forall_append_updatedFirst a.subset_updated b.subset_updated
  | .letIn _ a b _ => List.forall_mem_cons.2
    ⟨Set.empty_subset _, forall_append_updatedFirst a.subset_updated b.subset_updated⟩
  | .cond c a b _ _ => forall_append_updatedFirst c.subset_updated (List.forall_mem_append.2
    ⟨fun l hl => (a.subset_updated l hl).trans Set.subset_union_left,
      fun l hl => (b.subset_updated l hl).trans Set.subset_union_right⟩)
  | .update _ _ is v b _ => forall_append_updatedFirst (Exp.subset_updatedAll is)
    (forall_append_updatedFirst v.subset_updated (forall_updatedFirst b.subset_updated))
  | .loop _ is _ n b r _ => forall_append_updatedFirst (Exp.subset_updatedAll is)
    (forall_append_updatedFirst n.subset_updated
    (forall_append_updatedFirst b.subset_updated r.subset_updated))
  | .soac op es _ _ => List.forall_mem_append.2 ⟨op.subset_updated (Exp.updatedAll es), fun l hl =>
    (forall_updatedFirst (Exp.subset_updatedAll es) l hl).trans
      (Set.union_subset_union_left _ op.updatedAll_neutral)⟩

/-- What is updated in front of a `let` of a list is updated in the list. -/
theorem Exp.subset_updatedAll : ∀ es : List Exp, ∀ l ∈ Exp.updatedBeforeAll es,
    l.2 ⊆ Exp.updatedAll es
  | [] => nofun
  | e :: es => forall_append_updatedFirst e.subset_updated (Exp.subset_updatedAll es)

/-- What is updated in front of a `let` of a lambda is updated in the lambda. -/
theorem Lambda.subset_updated : ∀ f : Lambda, ∀ l ∈ f.updatedBefore, l.2 ⊆ f.updated
  | ⟨_, b, _⟩ => b.subset_updated

/-- What is updated in front of a `let` of a combinator is updated there, or before. -/
theorem Combinator.subset_updated (X : Set Name) :
    ∀ op : Combinator, ∀ l ∈ op.updatedBefore X, l.2 ⊆ op.updated ∪ X
  | .map f | .filter f => fun l hl =>
    (forall_updatedFirst f.subset_updated l hl).trans (Set.union_comm _ _).subset
  | .reduce f ne | .scan f ne => List.forall_mem_append.2
    ⟨fun l hl => (forall_updatedFirst (forall_updatedFirst f.subset_updated) l hl).trans (by
      rw [Combinator.updated, Set.union_assoc, Set.union_comm X]),
    fun l hl => (Exp.subset_updatedAll ne l hl).trans
      (Set.subset_union_left.trans Set.subset_union_left)⟩
  | .redomap f g ne => List.forall_mem_append.2
    ⟨fun l hl => (forall_updatedFirst (forall_updatedFirst (Y := f.updated ∪ g.updated)
      (List.forall_mem_append.2 ⟨fun l hl => (f.subset_updated l hl).trans Set.subset_union_left,
        fun l hl => (g.subset_updated l hl).trans Set.subset_union_right⟩)) l hl).trans (by
      rw [Combinator.updated, Set.union_assoc, Set.union_comm X]),
    fun l hl => (Exp.subset_updatedAll ne l hl).trans
      (Set.subset_union_left.trans Set.subset_union_left)⟩

end

/-- A combinator updates what its neutral elements and its lambdas do. -/
theorem Combinator.updated_eq (op : Combinator) :
    op.updated = Exp.updatedAll op.neutral ∪ {x | ∃ f ∈ op.lambdas, x ∈ f.updated} := by
  cases op <;> ext x <;> simp [Combinator.updated, Combinator.neutral, Combinator.lambdas,
    Exp.updatedAll]

/-- In front of the `let`s in a lambda, the neutral elements and the operands were evaluated. -/
theorem Combinator.updatedBefore_eq (X : Set Name) (op : Combinator) : op.updatedBefore X =
    updatedFirst (Exp.updatedAll op.neutral)
      (updatedFirst X (op.lambdas.flatMap Lambda.updatedBefore))
      ++ Exp.updatedBeforeAll op.neutral := by
  cases op <;>
    simp [Combinator.updatedBefore, Combinator.neutral, Combinator.lambdas, Exp.updatedAll,
      Exp.updatedBeforeAll]

end ArrayFusion
