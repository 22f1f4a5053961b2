import Mathlib.Data.List.Induction
import ArrayFusion.Proofs.Scope

/-!
# Names that stand in a function

What a function binds stands somewhere in it, so a supply that starts above its tags hands out none
of it (`NameSupply.lt_forFun`).
-/

namespace ArrayFusion

mutual

/-- What an expression binds stands in it. -/
theorem Exp.mem_idents (z : Name) : ∀ e : Exp, z ∈ e.binders → z ∈ e.idents.map (·.name)
  | .lit _ _ => nofun
  | .var _ _ => nofun
  | .tuple es _ => Exp.mem_identsAll z es
  | .array es _ _ => Exp.mem_identsAll z es
  | .binary _ a b _ _ => by
    have ha := a.mem_idents z
    have hb := b.mem_idents z
    simp only [Exp.binders, Exp.idents, List.map_append, List.mem_append]
    tauto
  | .unary _ e _ => e.mem_idents z
  | .cond c a b _ _ => by
    have hc := c.mem_idents z
    have ha := a.mem_idents z
    have hb := b.mem_idents z
    simp only [Exp.binders, Exp.idents, List.map_append, List.mem_append]
    tauto
  | .call _ es _ _ => Exp.mem_identsAll z es
  | .letIn p e b _ => by
    have he := e.mem_idents z
    have hb := b.mem_idents z
    simp only [Exp.binders, Exp.idents, Pattern.names, List.map_append, List.mem_append]
    tauto
  | .update x _ is v b _ => by
    have his := Exp.mem_identsAll z is
    have hv := v.mem_idents z
    have hb := b.mem_idents z
    simp only [Exp.binders, Exp.idents, List.map_append, List.mem_append, List.map_cons,
      List.mem_cons]
    tauto
  | .index _ is _ => fun h => List.mem_cons_of_mem _ (Exp.mem_identsAll z is h)
  | .replicate n v _ => by
    have hn := n.mem_idents z
    have hv := v.mem_idents z
    simp only [Exp.binders, Exp.idents, List.map_append, List.mem_append]
    tauto
  | .loop p is i n b e _ => by
    have his := Exp.mem_identsAll z is
    have hn := n.mem_idents z
    have hb := b.mem_idents z
    have he := e.mem_idents z
    simp only [Exp.binders, Exp.idents, Pattern.names, List.map_append, List.mem_append,
      List.map_cons, List.mem_cons]
    tauto
  | .soac op es cs _ => by
    have hop := op.mem_idents z
    have hes := Exp.mem_identsAll z es
    simp only [Exp.binders, Exp.idents, List.map_append, List.mem_append]
    tauto

/-- What a list of expressions binds occurs in it. -/
theorem Exp.mem_identsAll (z : Name) : ∀ es : List Exp,
    z ∈ Exp.bindersAll es → z ∈ (Exp.identsAll es).map (·.name)
  | [] => nofun
  | e :: es => by
    have he := e.mem_idents z
    have hes := Exp.mem_identsAll z es
    simp only [Exp.bindersAll, Exp.identsAll, List.map_append, List.mem_append]
    tauto

/-- What a lambda binds occurs in it. -/
theorem Lambda.mem_idents (z : Name) : ∀ f : Lambda, z ∈ f.binders → z ∈ f.idents.map (·.name)
  | ⟨ps, b, _⟩ => by
    have hb := b.mem_idents z
    simp only [Lambda.binders, Lambda.idents, Pattern.names, List.map_append, List.mem_append]
    tauto

/-- What a combinator binds occurs in it. -/
theorem Combinator.mem_idents (z : Name) : ∀ op : Combinator,
    z ∈ op.binders → z ∈ op.idents.map (·.name)
  | .map f => f.mem_idents z
  | .reduce f ne => by
    have hf := f.mem_idents z
    have hne := Exp.mem_identsAll z ne
    simp only [Combinator.binders, Combinator.idents, List.map_append, List.mem_append]
    tauto
  | .scan f ne => by
    have hf := f.mem_idents z
    have hne := Exp.mem_identsAll z ne
    simp only [Combinator.binders, Combinator.idents, List.map_append, List.mem_append]
    tauto
  | .filter f => f.mem_idents z
  | .redomap f g ne => by
    have hf := f.mem_idents z
    have hg := g.mem_idents z
    have hne := Exp.mem_identsAll z ne
    simp only [Combinator.binders, Combinator.idents, List.map_append, List.mem_append]
    tauto

end

/-- No tag in a list is larger than the largest one. -/
theorem le_maxTag {x : Ident} {xs : List Ident} (hx : x ∈ xs) : x.name.tag ≤ maxTag xs := by
  unfold maxTag
  induction xs using List.reverseRecOn with
  | nil => cases hx
  | append_singleton xs y ih =>
    rw [List.foldl_append, List.foldl_cons, List.foldl_nil]
    rcases List.mem_append.1 hx with hx | hx
    · exact Nat.le_trans (ih hx) (Nat.le_max_left _ _)
    · rw [List.mem_singleton.1 hx]
      exact Nat.le_max_right _ _

/-- The largest tag is that of one of the identifiers, if there are any. -/
theorem maxTag_cases (xs : List Ident) : maxTag xs = 0 ∨ ∃ x ∈ xs, maxTag xs = x.name.tag := by
  unfold maxTag
  induction xs using List.reverseRecOn with
  | nil => exact .inl rfl
  | append_singleton xs y ih =>
    rw [List.foldl_append, List.foldl_cons, List.foldl_nil]
    by_cases hle : xs.foldl (fun n x => max n x.name.tag) 0 ≤ y.name.tag
    · exact .inr ⟨y, by simp, Nat.max_eq_right hle⟩
    · rw [Nat.max_eq_left (Nat.le_of_not_le hle)]
      exact ih.imp_right fun ⟨x, hx, hmax⟩ => ⟨x, List.mem_append_left _ hx, hmax⟩

/-- The names that a function binds, and all others that stand in it, are below the supply for it,
if none of them has the largest tag there is. -/
theorem NameSupply.lt_forFun {f : FunDef}
    (htags : ∀ x ∈ f.params ++ f.body.idents, x.name.tag < Name.maxTag) {x : Ident}
    (hx : x ∈ f.params ++ f.body.idents) : x.name.tag < (NameSupply.forFun f).count := by
  have hle := le_maxTag hx
  have hlt := htags x hx
  change x.name.tag < min (maxTag (f.params ++ f.body.idents) + 1) Name.maxTag
  omega

end ArrayFusion
