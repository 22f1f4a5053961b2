import Mathlib.Data.List.Nodup
import ArrayFusion.Fusion.Kernel
import ArrayFusion.Proofs.Freshening
import ArrayFusion.Proofs.Scope

/-!
# What a fresh copy binds

A copy binds just what the supply hands out for the binders of the original, one after another in
the order of the walk (`Lambda.freshIdents_freshen`).  This asks nothing of the code that is copied:
neither that it keeps to a scope nor that its binders are distinct.  So the binders of a copy are as
many as those of the original, like them in base and type; and as long as the tags suffice they are
numbered without a gap, and no two of them are the same, in one copy or in two copies from one
supply (`Lambda.boundIdents_freshen`).
-/

namespace ArrayFusion

/-! ## Supplies -/

namespace NameSupply

variable {s s₁ s₂ : NameSupply}

theorem freshIdents_cons (s : NameSupply) (x : Ident) (xs : List Ident) :
    s.freshIdents (x :: xs) = ((s.freshIdent x).1 :: ((s.freshIdent x).2.freshIdents xs).1,
      ((s.freshIdent x).2.freshIdents xs).2) := rfl

/-- Two lists get fresh names one after the other. -/
theorem freshIdents_append {xs xs' ys ys' : List Ident} (hx : s.freshIdents xs = (xs', s₁))
    (hy : s₁.freshIdents ys = (ys', s₂)) : s.freshIdents (xs ++ ys) = (xs' ++ ys', s₂) := by
  induction xs generalizing s xs' with
  | nil =>
    obtain ⟨rfl, rfl⟩ := Prod.mk.inj hx
    exact hy
  | cons x xs ih =>
    obtain ⟨rfl, rfl⟩ := Prod.mk.inj hx
    have hrest : (s.freshIdent x).2.freshIdents (xs ++ ys) = _ := ih rfl
    rw [List.cons_append, freshIdents_cons, hrest]
    rfl

/-- Fresh identifiers have the bases and the types of those that they stand for. -/
theorem freshIdents_alike (s : NameSupply) (xs : List Ident) :
    (s.freshIdents xs).1.map (fun x => (x.name.base, x.ty)) = xs.map fun x =>
    (x.name.base, x.ty) := by
  induction xs generalizing s with
  | nil => rfl
  | cons x xs ih =>
    rw [freshIdents_cons, List.map_cons, List.map_cons]
    exact congrArg _ (ih _)

/-- Each identifier takes one tag. -/
theorem count_freshIdents (s : NameSupply) (xs : List Ident) :
    (s.freshIdents xs).2.count = s.count + xs.length := by
  induction xs generalizing s with
  | nil => rfl
  | cons x xs ih =>
    have hstep : (s.freshIdent x).2.count = s.count + 1 := rfl
    rw [freshIdents_cons, List.length_cons, ih, hstep]
    omega

/-- Fresh identifiers are taken from the supply, and none is given back. -/
theorem count_le_freshIdents (s : NameSupply) (xs : List Ident) :
    s.count ≤ (s.freshIdents xs).2.count := by
  rw [count_freshIdents]
  exact Nat.le_add_right _ _

/-- Fresh identifiers have the next tags of the supply, in order. -/
theorem freshIdents_tags {s : NameSupply} {xs : List Ident} (hroom : (s.freshIdents xs).2.InRange) :
    (s.freshIdents xs).1.map (·.name.tag) = List.range' s.count xs.length := by
  induction xs generalizing s with
  | nil => rfl
  | cons x xs ih =>
    have htag : (s.freshIdent x).1.name.tag = s.count := hroom.next_eq (by
      rw [count_freshIdents, List.length_cons]
      omega)
    rw [freshIdents_cons, List.map_cons, List.length_cons, List.range'_succ, htag]
    exact congrArg _ (ih hroom)

/-- Fresh identifiers keep their types. -/
theorem freshIdents_types (s : NameSupply) (xs : List Ident) :
    (s.freshIdents xs).1.map (·.ty) = xs.map (·.ty) := by
  have h := congrArg (List.map Prod.snd) (s.freshIdents_alike xs)
  rwa [List.map_map, List.map_map] at h

/-- There is a fresh identifier for each. -/
theorem length_freshIdents (s : NameSupply) (xs : List Ident) :
    (s.freshIdents xs).1.length = xs.length := by
  have h := congrArg List.length (s.freshIdents_types xs)
  rwa [List.length_map, List.length_map] at h

/-- The fresh names are handed out by the supply. -/
theorem mem_until_of_freshIdents {xs : List Ident} {x : Name}
    (hx : x ∈ Pattern.names (s.freshIdents xs).1) : x ∈ s.until (s.freshIdents xs).2 := by
  induction xs generalizing s with
  | nil => cases hx
  | cons y ys ih =>
    have hle := (s.freshIdent y).2.count_le_freshIdents ys
    rcases List.mem_cons.1 hx with rfl | hx
    · exact mem_until_of_tag_eq rfl hle
    · exact until_subset (Nat.le_succ _) (Nat.le_refl _) (ih hx)

/-- The fresh names are different as long as the tags suffice. -/
theorem nodup_freshIdents {xs : List Ident} (hroom : (s.freshIdents xs).2.InRange) :
    (Pattern.names (s.freshIdents xs).1).Nodup := by
  refine List.Nodup.of_map Name.tag ?_
  rw [Pattern.names, List.map_map]
  change ((s.freshIdents xs).1.map (·.name.tag)).Nodup
  rw [freshIdents_tags hroom]
  exact List.nodup_range'

end NameSupply

/-! ## Binders in the order of the walk -/

mutual

/-- What an expression binds, in the order of a walk: what a scope binds stands behind the parts
that are outside of the scope, and before the scope. -/
def Exp.boundIdents : Exp → List Ident
  | .lit _ _ => []
  | .var _ _ => []
  | .tuple es _ => Exp.boundIdentsAll es
  | .array es _ _ => Exp.boundIdentsAll es
  | .binary _ a b _ _ => a.boundIdents ++ b.boundIdents
  | .unary _ e _ => e.boundIdents
  | .cond c a b _ _ => c.boundIdents ++ (a.boundIdents ++ b.boundIdents)
  | .call _ es _ _ => Exp.boundIdentsAll es
  | .letIn p r b _ => r.boundIdents ++ (p ++ b.boundIdents)
  | .update x _ is v b _ => Exp.boundIdentsAll is ++ (v.boundIdents ++ ([x] ++ b.boundIdents))
  | .index _ is _ => Exp.boundIdentsAll is
  | .replicate n v _ => n.boundIdents ++ v.boundIdents
  | .loop p is i n b r _ =>
    Exp.boundIdentsAll is ++ (n.boundIdents ++ (p ++ ([i] ++ (b.boundIdents ++ r.boundIdents))))
  | .soac op es _ _ => op.boundIdents ++ Exp.boundIdentsAll es

/-- What a list of expressions binds. -/
def Exp.boundIdentsAll : List Exp → List Ident
  | [] => []
  | e :: es => e.boundIdents ++ Exp.boundIdentsAll es

/-- What a lambda binds: its parameters, then what is bound in its body. -/
def Lambda.boundIdents : Lambda → List Ident
  | ⟨ps, b, _⟩ => ps ++ b.boundIdents

/-- What the lambdas and the neutral elements of a combinator bind. -/
def Combinator.boundIdents : Combinator → List Ident
  | .map f => f.boundIdents
  | .reduce f ne => f.boundIdents ++ Exp.boundIdentsAll ne
  | .scan f ne => f.boundIdents ++ Exp.boundIdentsAll ne
  | .filter p => p.boundIdents
  | .redomap f g ne => f.boundIdents ++ (g.boundIdents ++ Exp.boundIdentsAll ne)

end

mutual

/-- The identifiers that an expression binds have the names of its binders. -/
theorem Exp.count_boundIdents (x : Name) :
    ∀ e : Exp, (Pattern.names e.boundIdents).count x = e.binders.count x
  | .lit _ _ => rfl
  | .var _ _ => rfl
  | .tuple es _ => Exp.count_boundIdentsAll x es
  | .array es _ _ => Exp.count_boundIdentsAll x es
  | .binary _ a b _ _ => by
    rw [Exp.boundIdents, Exp.binders, Pattern.names_append, List.count_append, List.count_append,
      a.count_boundIdents x, b.count_boundIdents x]
  | .unary _ e _ => e.count_boundIdents x
  | .cond c a b _ _ => by
    have hc := c.count_boundIdents x
    have ha := a.count_boundIdents x
    have hb := b.count_boundIdents x
    simp only [Exp.boundIdents, Exp.binders, Pattern.names_append, List.count_append]
    omega
  | .call _ es _ _ => Exp.count_boundIdentsAll x es
  | .letIn p r b _ => by
    have hr := r.count_boundIdents x
    have hb := b.count_boundIdents x
    simp only [Exp.boundIdents, Exp.binders, Pattern.names_append, List.count_append]
    omega
  | .update y _ is v b _ => by
    have his := Exp.count_boundIdentsAll x is
    have hv := v.count_boundIdents x
    have hb := b.count_boundIdents x
    -- the new name of the array is bound in front of what follows
    have hy : Pattern.names [y] = [y.name] := rfl
    simp only [Exp.boundIdents, Exp.binders, Pattern.names_append, hy, List.count_append,
      List.count_cons, List.count_nil]
    omega
  | .index _ is _ => Exp.count_boundIdentsAll x is
  | .replicate n v _ => by
    rw [Exp.boundIdents, Exp.binders, Pattern.names_append, List.count_append, List.count_append,
      n.count_boundIdents x, v.count_boundIdents x]
  | .loop p is i n b r _ => by
    have his := Exp.count_boundIdentsAll x is
    have hn := n.count_boundIdents x
    have hb := b.count_boundIdents x
    have hr := r.count_boundIdents x
    -- the counter is counted like the accumulators
    have hi : Pattern.names [i] = [i.name] := rfl
    simp only [Exp.boundIdents, Exp.binders, Pattern.names_append, hi, List.count_append,
      List.count_cons, List.count_nil]
    omega
  | .soac op es _ _ => by
    rw [Exp.boundIdents, Exp.binders, Pattern.names_append, List.count_append, List.count_append,
      op.count_boundIdents x, Exp.count_boundIdentsAll x es]

/-- So have those of a list of expressions. -/
theorem Exp.count_boundIdentsAll (x : Name) : ∀ es : List Exp,
    (Pattern.names (Exp.boundIdentsAll es)).count x = (Exp.bindersAll es).count x
  | [] => rfl
  | e :: es => by
    rw [Exp.boundIdentsAll, Exp.bindersAll, Pattern.names_append, List.count_append,
      List.count_append, e.count_boundIdents x, Exp.count_boundIdentsAll x es]

/-- So have those of a lambda. -/
theorem Lambda.count_boundIdents (x : Name) :
    ∀ f : Lambda, (Pattern.names f.boundIdents).count x = f.binders.count x
  | ⟨ps, b, _⟩ => by
    rw [Lambda.boundIdents, Lambda.binders, Pattern.names_append, List.count_append,
      List.count_append, b.count_boundIdents x]

/-- So have those of a combinator. -/
theorem Combinator.count_boundIdents (x : Name) :
    ∀ op : Combinator, (Pattern.names op.boundIdents).count x = op.binders.count x
  | .map f => f.count_boundIdents x
  | .reduce f ne => by
    rw [Combinator.boundIdents, Combinator.binders, Pattern.names_append, List.count_append,
      List.count_append, f.count_boundIdents x, Exp.count_boundIdentsAll x ne]
  | .scan f ne => by
    rw [Combinator.boundIdents, Combinator.binders, Pattern.names_append, List.count_append,
      List.count_append, f.count_boundIdents x, Exp.count_boundIdentsAll x ne]
  | .filter p => p.count_boundIdents x
  | .redomap f g ne => by
    have hf := f.count_boundIdents x
    have hg := g.count_boundIdents x
    have hne := Exp.count_boundIdentsAll x ne
    simp only [Combinator.boundIdents, Combinator.binders, Pattern.names_append, List.count_append]
    omega

end

/-- The walk comes to every binder just once. -/
theorem Lambda.perm_boundIdents (f : Lambda) : (Pattern.names f.boundIdents).Perm f.binders :=
  List.perm_iff_count.2 fun x => f.count_boundIdents x

/-! ## Walks that hand out names -/

namespace Renaming

/-- The first identifiers have become the second ones, which the supply handed out for them
meanwhile. -/
def Rebinds (q q' : Renaming) (xs ys : List Ident) : Prop :=
  q.supply.freshIdents xs = (ys, q'.supply)

variable {q q' q₁ q₂ : Renaming}

theorem Rebinds.refl (q : Renaming) : q.Rebinds q [] [] := rfl

/-- Two lists of binders are renamed one after the other. -/
theorem Rebinds.append {xs xs' ys ys' : List Ident} (h : q.Rebinds q₁ xs xs')
    (h' : q₁.Rebinds q₂ ys ys') :
    q.Rebinds q₂ (xs ++ ys) (xs' ++ ys') := NameSupply.freshIdents_append h h'

theorem rebinds_use {x y : Ident} (h : use x q = (y, q')) : q.Rebinds q' [] [] := by
  cases h
  exact .refl q

/-- Uses are renamed without taking names. -/
theorem rebinds_uses {xs ys : List Ident} (h : Visitor.each use xs q = (ys, q')) :
    q.Rebinds q' [] [] := by
  induction xs generalizing q ys with
  | nil =>
    cases h
    exact .refl _
  | cons x xs ih =>
    obtain ⟨y, q₁, hy, h⟩ := State.bind_eq.1 h
    obtain ⟨ys', q₂, hys, h⟩ := State.bind_eq.1 h
    obtain ⟨rfl, rfl⟩ := State.pure_eq.1 h
    exact (rebinds_use hy).append (ih hys)

/-- A binder takes the next name. -/
theorem rebinds_bind {x y : Ident} (h : bind x q = (y, q')) : q.Rebinds q' [x] [y] := by
  cases h
  rfl

/-- The binders of a pattern take the next names, in order. -/
theorem rebinds_pattern {p p' : Pattern} (h : Visitor.each bind p q = (p', q')) :
    q.Rebinds q' p p' := by
  induction p generalizing q p' with
  | nil =>
    cases h
    exact .refl _
  | cons x p ih =>
    obtain ⟨y, q₁, hy, h⟩ := State.bind_eq.1 h
    obtain ⟨p₁, q₂, hp, h⟩ := State.bind_eq.1 h
    obtain ⟨rfl, rfl⟩ := State.pure_eq.1 h
    exact (rebinds_bind hy).append (ih hp)

end Renaming

open Renaming (rebinds_use rebinds_uses rebinds_bind rebinds_pattern)

-- The walks of the parts of a node follow one another, so what they hand out is appended in the order of the
-- walk; the only nodes that hand out names themselves are those with binders.
mutual

/-- The binders of an expression take the next names, in the order of the walk. -/
theorem Exp.rebinds : ∀ {e e' : Exp} {q q' : Renaming},
    e.traverse Renaming.visitor q = (e', q') → q.Rebinds q' e.boundIdents e'.boundIdents
  | .lit _ _, _, _, _, h => by
    cases h
    exact .refl _
  | .var _ _, _, _, _, h => by
    -- a use takes no name
    obtain ⟨y, q₁, hy, h⟩ := State.bind_eq.1 h
    obtain ⟨rfl, rfl⟩ := State.pure_eq.1 h
    exact rebinds_use hy
  | .tuple _ _, _, _, _, h => by
    obtain ⟨es', q₁, hes, h⟩ := State.bind_eq.1 h
    obtain ⟨rfl, rfl⟩ := State.pure_eq.1 h
    exact Exp.rebindsAll hes
  | .array _ _ _, _, _, _, h => by
    obtain ⟨es', q₁, hes, h⟩ := State.bind_eq.1 h
    obtain ⟨t', q₂, ht, h⟩ := State.bind_eq.1 h
    obtain ⟨rfl, rfl⟩ := State.pure_eq.1 h
    cases ht
    exact Exp.rebindsAll hes
  | .binary _ _ _ _ _, _, _, _, h => by
    obtain ⟨a', q₁, ha, h⟩ := State.bind_eq.1 h
    obtain ⟨b', q₂, hb, h⟩ := State.bind_eq.1 h
    obtain ⟨t', q₃, ht, h⟩ := State.bind_eq.1 h
    obtain ⟨rfl, rfl⟩ := State.pure_eq.1 h
    cases ht
    exact (Exp.rebinds ha).append (Exp.rebinds hb)
  | .unary _ _ _, _, _, _, h => by
    obtain ⟨e₁, q₁, he, h⟩ := State.bind_eq.1 h
    obtain ⟨rfl, rfl⟩ := State.pure_eq.1 h
    have hwalk := Exp.rebinds he
    exact hwalk
  | .cond _ _ _ _ _, _, _, _, h => by
    obtain ⟨c', q₁, hc, h⟩ := State.bind_eq.1 h
    obtain ⟨a', q₂, ha, h⟩ := State.bind_eq.1 h
    obtain ⟨b', q₃, hb, h⟩ := State.bind_eq.1 h
    obtain ⟨t', q₄, ht, h⟩ := State.bind_eq.1 h
    obtain ⟨rfl, rfl⟩ := State.pure_eq.1 h
    cases ht
    exact (Exp.rebinds hc).append ((Exp.rebinds ha).append (Exp.rebinds hb))
  | .call _ _ _ _, _, _, _, h => by
    obtain ⟨es', q₁, hes, h⟩ := State.bind_eq.1 h
    obtain ⟨t', q₂, ht, h⟩ := State.bind_eq.1 h
    obtain ⟨rfl, rfl⟩ := State.pure_eq.1 h
    cases ht
    exact Exp.rebindsAll hes
  | .letIn _ _ _ _, _, _, _, h => by
    obtain ⟨r', q₁, hr, h⟩ := State.bind_eq.1 h
    obtain ⟨p', q₂, hp, h⟩ := State.bind_eq.1 h
    obtain ⟨b', q₃, hb, h⟩ := State.bind_eq.1 h
    obtain ⟨rfl, rfl⟩ := State.pure_eq.1 h
    -- the right-hand side is visited before the pattern, and the body last
    exact (Exp.rebinds hr).append ((rebinds_pattern hp).append (Exp.rebinds hb))
  | .update _ _ _ _ _ _, _, _, _, h => by
    obtain ⟨y', q₁, hy, h⟩ := State.bind_eq.1 h
    obtain ⟨is', q₂, his, h⟩ := State.bind_eq.1 h
    obtain ⟨v', q₃, hv, h⟩ := State.bind_eq.1 h
    obtain ⟨x', q₄, hx', h⟩ := State.bind_eq.1 h
    obtain ⟨b', q₅, hb, h⟩ := State.bind_eq.1 h
    obtain ⟨rfl, rfl⟩ := State.pure_eq.1 h
    exact (rebinds_use hy).append ((Exp.rebindsAll his).append ((Exp.rebinds hv).append
      ((rebinds_bind hx').append (Exp.rebinds hb))))
  | .index _ _ _, _, _, _, h => by
    obtain ⟨x', q₁, hx, h⟩ := State.bind_eq.1 h
    obtain ⟨is', q₂, his, h⟩ := State.bind_eq.1 h
    obtain ⟨rfl, rfl⟩ := State.pure_eq.1 h
    exact (rebinds_use hx).append (Exp.rebindsAll his)
  | .replicate _ _ _, _, _, _, h => by
    obtain ⟨n', q₁, hn, h⟩ := State.bind_eq.1 h
    obtain ⟨v', q₂, hv, h⟩ := State.bind_eq.1 h
    obtain ⟨rfl, rfl⟩ := State.pure_eq.1 h
    exact (Exp.rebinds hn).append (Exp.rebinds hv)
  | .loop _ _ _ _ _ _ _, _, _, _, h => by
    obtain ⟨is', q₁, his, h⟩ := State.bind_eq.1 h
    obtain ⟨n', q₂, hn, h⟩ := State.bind_eq.1 h
    obtain ⟨p', q₃, hp, h⟩ := State.bind_eq.1 h
    obtain ⟨i', q₄, hi, h⟩ := State.bind_eq.1 h
    obtain ⟨b', q₅, hb, h⟩ := State.bind_eq.1 h
    obtain ⟨r', q₆, hr, h⟩ := State.bind_eq.1 h
    obtain ⟨rfl, rfl⟩ := State.pure_eq.1 h
    -- the accumulators are renamed before the counter
    exact (Exp.rebindsAll his).append ((Exp.rebinds hn).append ((rebinds_pattern hp).append
      ((rebinds_bind hi).append ((Exp.rebinds hb).append (Exp.rebinds hr)))))
  | .soac _ _ _ _, _, _, _, h => by
    obtain ⟨cs', q₁, hcs, h⟩ := State.bind_eq.1 h
    obtain ⟨op', q₂, hop, h⟩ := State.bind_eq.1 h
    obtain ⟨es', q₃, hes, h⟩ := State.bind_eq.1 h
    obtain ⟨rfl, rfl⟩ := State.pure_eq.1 h
    exact (rebinds_uses hcs).append ((Combinator.rebinds hop).append (Exp.rebindsAll hes))
termination_by structural e => e

/-- So do the binders of a list of expressions. -/
theorem Exp.rebindsAll : ∀ {es es' : List Exp} {q q' : Renaming},
    Exp.traverseAll Renaming.visitor es q = (es', q') → q.Rebinds q' (Exp.boundIdentsAll es)
      (Exp.boundIdentsAll es')
  | [], _, _, _, h => by
    cases h
    exact .refl _
  | _ :: _, _, _, _, h => by
    obtain ⟨e', q₁, he, h⟩ := State.bind_eq.1 h
    obtain ⟨es', q₂, hes, h⟩ := State.bind_eq.1 h
    obtain ⟨rfl, rfl⟩ := State.pure_eq.1 h
    exact (Exp.rebinds he).append (Exp.rebindsAll hes)
termination_by structural e => e

/-- So do the binders of a lambda. -/
theorem Lambda.rebinds : ∀ {f f' : Lambda} {q q' : Renaming},
    f.traverse Renaming.visitor q = (f', q') → q.Rebinds q' f.boundIdents f'.boundIdents
  | ⟨_, _, _⟩, _, _, _, h => by
    obtain ⟨ps', q₁, hps, h⟩ := State.bind_eq.1 h
    obtain ⟨b', q₂, hb, h⟩ := State.bind_eq.1 h
    obtain ⟨ts', q₃, hts, h⟩ := State.bind_eq.1 h
    obtain ⟨rfl, rfl⟩ := State.pure_eq.1 h
    rw [Renaming.each_type] at hts
    cases hts
    exact (rebinds_pattern hps).append (Exp.rebinds hb)
termination_by structural e => e

/-- So do the binders of a combinator. -/
theorem Combinator.rebinds : ∀ {o o' : Combinator} {q q' : Renaming},
    o.traverse Renaming.visitor q = (o', q') → q.Rebinds q' o.boundIdents o'.boundIdents
  | .map _, _, _, _, h => by
    obtain ⟨f', q₁, hf, h⟩ := State.bind_eq.1 h
    obtain ⟨rfl, rfl⟩ := State.pure_eq.1 h
    exact Lambda.rebinds hf
  | .reduce _ _, _, _, _, h => by
    obtain ⟨f', q₁, hf, h⟩ := State.bind_eq.1 h
    obtain ⟨ne', q₂, hne, h⟩ := State.bind_eq.1 h
    obtain ⟨rfl, rfl⟩ := State.pure_eq.1 h
    exact (Lambda.rebinds hf).append (Exp.rebindsAll hne)
  | .scan _ _, _, _, _, h => by
    obtain ⟨f', q₁, hf, h⟩ := State.bind_eq.1 h
    obtain ⟨ne', q₂, hne, h⟩ := State.bind_eq.1 h
    obtain ⟨rfl, rfl⟩ := State.pure_eq.1 h
    exact (Lambda.rebinds hf).append (Exp.rebindsAll hne)
  | .filter _, _, _, _, h => by
    obtain ⟨f', q₁, hf, h⟩ := State.bind_eq.1 h
    obtain ⟨rfl, rfl⟩ := State.pure_eq.1 h
    exact Lambda.rebinds hf
  | .redomap _ _ _, _, _, _, h => by
    obtain ⟨f', q₁, hf, h⟩ := State.bind_eq.1 h
    obtain ⟨g', q₂, hg, h⟩ := State.bind_eq.1 h
    obtain ⟨ne', q₃, hne, h⟩ := State.bind_eq.1 h
    obtain ⟨rfl, rfl⟩ := State.pure_eq.1 h
    exact (Lambda.rebinds hf).append ((Lambda.rebinds hg).append (Exp.rebindsAll hne))
termination_by structural e => e

end

namespace Lambda

/-- What a fresh copy binds is what the supply hands out for what the lambda binds. -/
theorem freshIdents_freshen (f : Lambda) (s : NameSupply) :
    s.freshIdents f.boundIdents = ((f.freshen s).1.boundIdents, (f.freshen s).2) :=
  rebinds (f := f) (q := ⟨s, []⟩) rfl

/-- Each binder takes one tag. -/
theorem count_freshen (f : Lambda) (s : NameSupply) :
    (f.freshen s).2.count = s.count + f.boundIdents.length := by
  have hcount := s.count_freshIdents f.boundIdents
  rwa [f.freshIdents_freshen s] at hcount

/-- A copy of a lambda takes names from the supply, and gives none back. -/
theorem count_le_freshen (f : Lambda) (s : NameSupply) : s.count ≤ (f.freshen s).2.count := by
  rw [count_freshen]
  exact Nat.le_add_right _ _

/-- What a copy of a lambda binds is handed out by the supply. -/
theorem mem_until_of_freshen {f : Lambda} {s : NameSupply} {x : Name}
    (hx : x ∈ (f.freshen s).1.binders) : x ∈ s.until (f.freshen s).2 := by
  have hall := f.freshIdents_freshen s
  have hmem : x ∈ Pattern.names (s.freshIdents f.boundIdents).1 →
      x ∈ s.until (s.freshIdents f.boundIdents).2 :=
    NameSupply.mem_until_of_freshIdents
  rw [hall] at hmem
  exact hmem ((f.freshen s).1.perm_boundIdents.mem_iff.2 hx)

/-- Every binder of a lambda is renamed once.  The binders of a copy have the bases and the types of
those that they replace, and the tags that the supply hands out meanwhile, each of them once and in
order.  So no two of them are the same, and neither are two of one copy and of a later one.  Nothing
is asked of the names of the lambda. -/
theorem boundIdents_freshen (f g : Lambda) (s : NameSupply) (hroom : (f.freshen s).2.InRange) :
    let f' := (f.freshen s).1
    let s' := (f.freshen s).2
    let g' := (g.freshen s').1
    f'.boundIdents.map (fun x => (x.name.base, x.ty))
        = f.boundIdents.map (fun x => (x.name.base, x.ty))
      ∧ f'.boundIdents.map (·.name.tag) = List.range' s.count (s'.count - s.count)
      ∧ s.count ≤ s'.count
      ∧ f'.binders.Nodup ∧ ((g.freshen s').2.InRange → ∀ x ∈ f'.binders, x ∉ g'.binders) := by
  intro f' s' g'
  -- the copy asks for its names one after another, in the order of the binders
  have hall : s.freshIdents f.boundIdents = (f'.boundIdents, s') := f.freshIdents_freshen s
  have hcount : s'.count = s.count + f.boundIdents.length := f.count_freshen s
  have hroom' : (s.freshIdents f.boundIdents).2.InRange := by rwa [hall]
  refine ⟨?_, ?_, by omega, ?_, fun hlater x hx hxg => ?_⟩
  · have halike := s.freshIdents_alike f.boundIdents
    rwa [hall] at halike
  · have htags := NameSupply.freshIdents_tags hroom'
    rwa [hall, ← Nat.add_sub_cancel_left (n := s.count) (m := f.boundIdents.length), ← hcount]
      at htags
  · have hnodup := NameSupply.nodup_freshIdents hroom'
    rw [hall] at hnodup
    exact f'.perm_boundIdents.nodup_iff.1 hnodup
  · -- the later copy starts where the first one ended
    have hlt : x.tag < s'.count := NameSupply.lt_of_mem_until (mem_until_of_freshen hx)
    have hle : s'.count ≤ x.tag := hlater.le_of_mem_until (mem_until_of_freshen hxg)
    omega

/-- Two copies of a lambda that binds one name twice; the tags are used up to the last one. -/
theorem boundIdents_freshen_lastTags :
    let a := Ident.mk ⟨"a", 0⟩ .int
    let f : Lambda := ⟨[a], .bind [a] (.ofIdent a) (.ofIdent a), [.int]⟩
    let s : NameSupply := ⟨4294967292⟩
    let f' := (f.freshen s).1
    let g' := (f.freshen (f.freshen s).2).1
    (f.freshen s).2.InRange ∧ (f.freshen (f.freshen s).2).2.InRange
      ∧ f'.boundIdents.map (·.name.tag) = [4294967292, 4294967293]
      ∧ f'.binders.Nodup ∧ ∀ x ∈ f'.binders, x ∉ g'.binders := by
  intro a f s f' g'
  have hroom : (f.freshen s).2.InRange := by decide
  have hlater : (f.freshen (f.freshen s).2).2.InRange := by decide
  obtain ⟨-, htags, -, hnodup, hdisjoint⟩ := boundIdents_freshen f f s hroom
  exact ⟨hroom, hlater, htags.trans (by decide), hnodup, hdisjoint hlater⟩

end Lambda

end ArrayFusion
