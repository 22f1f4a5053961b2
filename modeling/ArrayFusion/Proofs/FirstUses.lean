import Mathlib.Data.List.Nodup
import ArrayFusion.Syntax.FreeVars

/-!
# Free variables, scope by scope

`Exp.freeNames` lists the free names of an expression from those of its parts: what a scope binds is
taken out of the list of that scope and out of no other, and of a name that occurs again only the
first occurrence stays.  The one walk that collects free variables, with the binders around a use
and what was found before at hand, comes to the same list (`names_freeVars`).

A walk over a piece of code adds the free names of the piece, less what is bound around it
(`Collects`). Walks one after another add the names of one piece and then those of the next one,
which is all that the induction over the syntax has to know.
-/

namespace ArrayFusion

/-! ## First occurrences -/

section

variable {α : Type} [BEq α]

theorem removeAll_append (xs ys zs : List α) :
    (xs ++ ys).removeAll zs = xs.removeAll zs ++ ys.removeAll zs := List.filter_append ..

variable [LawfulBEq α]

/-- Taking two lists away one after the other is taking both away. -/
theorem removeAll_removeAll (xs ys zs : List α) :
    (xs.removeAll ys).removeAll zs = xs.removeAll (ys ++ zs) := by
  simp only [List.removeAll, List.filter_filter]
  congr 1
  funext x
  simp [Bool.and_comm]

/-- Without repetitions nothing stands twice. -/
theorem nodup_eraseDups : ∀ xs : List α, xs.eraseDups.Nodup
  | [] => List.nodup_nil
  | x :: xs => by
    rw [List.eraseDups_cons]
    refine List.nodup_cons.2 ⟨fun hx => ?_, nodup_eraseDups _⟩
    have hne := (List.mem_filter.1 (List.mem_eraseDups.1 hx)).2
    simp at hne
termination_by xs => xs.length
decreasing_by exact Nat.lt_succ_of_le (List.length_filter_le _ _)

/-- A list in which nothing stands twice has no repetitions to lose. -/
theorem eraseDups_of_nodup {xs : List α} (h : xs.Nodup) : xs.eraseDups = xs := by
  induction xs with
  | nil => rfl
  | cons x xs ih =>
    obtain ⟨hx, hxs⟩ := List.nodup_cons.1 h
    have hfilter : xs.filter (fun y => !y == x) = xs :=
      List.filter_eq_self.2 fun y hy => by
        simp only [Bool.not_eq_true', beq_eq_false_iff_ne]
        exact fun hyx => hx (hyx ▸ hy)
    rw [List.eraseDups_cons, hfilter, ih hxs]

/-- Which occurrences are first ones does not change when members are taken out altogether. -/
theorem filter_eraseDups (p : α → Bool) :
    ∀ xs : List α, xs.eraseDups.filter p = (xs.filter p).eraseDups
  | [] => rfl
  | x :: xs => by
    rw [List.eraseDups_cons, List.filter_cons, List.filter_cons, filter_eraseDups p (xs.filter _)]
    cases hx : p x with
    | true =>
      rw [if_pos rfl, if_pos rfl, List.eraseDups_cons, List.filter_filter, List.filter_filter]
      simp only [Bool.and_comm]
    | false =>
      rw [if_neg (by decide), if_neg (by decide), List.filter_filter]
      congr 1
      refine List.filter_congr fun y _ => ?_
      by_cases hy : y = x
      · rw [hy, hx, Bool.false_and]
      · simp [hy]
termination_by xs => xs.length
decreasing_by exact Nat.lt_succ_of_le (List.length_filter_le _ _)

/-- It does not matter whether repetitions go before other members do. -/
theorem removeAll_eraseDups (xs ys : List α) :
    xs.eraseDups.removeAll ys = (xs.removeAll ys).eraseDups :=
  filter_eraseDups _ xs

/-- Repetitions in the first list may go before the lists are put together. -/
theorem eraseDups_append_of_left (xs ys : List α) :
    (xs.eraseDups ++ ys).eraseDups = (xs ++ ys).eraseDups := by
  have hsame : ys.removeAll xs.eraseDups = ys.removeAll xs :=
    List.filter_congr fun y _ => by simp
  rw [List.eraseDups_append, List.eraseDups_append, eraseDups_of_nodup (nodup_eraseDups xs), hsame]

/-- Repetitions in the second list may go before the lists are put together. -/
theorem eraseDups_append_of_right (xs ys : List α) :
    (xs ++ ys.eraseDups).eraseDups = (xs ++ ys).eraseDups := by
  rw [List.eraseDups_append, List.eraseDups_append, removeAll_eraseDups,
    eraseDups_of_nodup (nodup_eraseDups _)]

end

/-! ## The free names of a piece of code -/

mutual

/-- The free names of an expression in the order of their first uses. -/
def Exp.freeNames : Exp → List Name
  | .lit _ _ => []
  | .var x _ => [x.name]
  | .tuple es _ => Exp.freeNamesAll es
  | .array es _ _ => Exp.freeNamesAll es
  | .binary _ a b _ _ => (a.freeNames ++ b.freeNames).eraseDups
  | .unary _ e _ => e.freeNames
  | .cond c t e _ _ => (c.freeNames ++ t.freeNames ++ e.freeNames).eraseDups
  | .call _ es _ _ => Exp.freeNamesAll es
  | .letIn p r b _ => (r.freeNames ++ b.freeNames.removeAll p.names).eraseDups
  | .update x y is v b _ =>
    ([y.name] ++ Exp.freeNamesAll is ++ v.freeNames ++ b.freeNames.removeAll [x.name]).eraseDups
  | .index x is _ => ([x.name] ++ Exp.freeNamesAll is).eraseDups
  | .replicate n v _ => (n.freeNames ++ v.freeNames).eraseDups
  | .loop p is i n b r _ =>
    (Exp.freeNamesAll is ++ n.freeNames ++ b.freeNames.removeAll (i.name :: p.names)
      ++ r.freeNames.removeAll p.names).eraseDups
  | .soac op es cs _ => (cs.map (·.name) ++ op.freeNames ++ Exp.freeNamesAll es).eraseDups

/-- The free names of a list of expressions. -/
def Exp.freeNamesAll : List Exp → List Name
  | [] => []
  | e :: es => (e.freeNames ++ Exp.freeNamesAll es).eraseDups

/-- The free names of a lambda: those of its body without its parameters. -/
def Lambda.freeNames : Lambda → List Name
  | ⟨ps, b, _⟩ => b.freeNames.removeAll (Pattern.names ps)

/-- The free names of the lambdas of a combinator, then those of its neutral elements. -/
def Combinator.freeNames : Combinator → List Name
  | .map f => f.freeNames
  | .reduce f ne => (f.freeNames ++ Exp.freeNamesAll ne).eraseDups
  | .scan f ne => (f.freeNames ++ Exp.freeNamesAll ne).eraseDups
  | .filter p => p.freeNames
  | .redomap f g ne => (f.freeNames ++ g.freeNames ++ Exp.freeNamesAll ne).eraseDups

end

mutual

/-- No name is listed twice. -/
theorem Exp.nodup_freeNames : ∀ e : Exp, e.freeNames.Nodup
  | .lit _ _ => List.nodup_nil
  | .var _ _ => List.nodup_singleton _
  | .tuple es _ => Exp.nodup_freeNamesAll es
  | .array es _ _ => Exp.nodup_freeNamesAll es
  | .binary _ _ _ _ _ => nodup_eraseDups _
  | .unary _ e _ => e.nodup_freeNames
  | .cond _ _ _ _ _ => nodup_eraseDups _
  | .call _ es _ _ => Exp.nodup_freeNamesAll es
  | .letIn _ _ _ _ => nodup_eraseDups _
  | .update _ _ _ _ _ _ => nodup_eraseDups _
  | .index _ _ _ => nodup_eraseDups _
  | .replicate _ _ _ => nodup_eraseDups _
  | .loop _ _ _ _ _ _ _ => nodup_eraseDups _
  | .soac _ _ _ _ => nodup_eraseDups _

/-- Nothing stands twice among the free names of a list of expressions. -/
theorem Exp.nodup_freeNamesAll : ∀ es : List Exp, (Exp.freeNamesAll es).Nodup
  | [] => List.nodup_nil
  | _ :: _ => nodup_eraseDups _

end

/-- Nothing stands twice among the free names of a lambda. -/
theorem Lambda.nodup_freeNames (f : Lambda) : f.freeNames.Nodup := by
  obtain ⟨ps, b, ts⟩ := f
  exact b.nodup_freeNames.filter _

/-! ## What a walk adds -/

/-- The names of `xs` that are not bound have been added to what was found. -/
def Collects (bound : List Name) (free free' : List Ident) (xs : List Name) : Prop :=
  free'.map (·.name) = (free.map (·.name) ++ xs.removeAll bound).eraseDups

namespace Collects

variable {bound : List Name} {free free₁ free₂ : List Ident} {xs ys : List Name}

/-- What is collected has different names. -/
theorem nodup (h : Collects bound free free₁ xs) : (free₁.map (·.name)).Nodup := by
  rw [h]
  exact nodup_eraseDups _

/-- Where nothing is used, nothing is collected. -/
theorem nil (h : (free.map (·.name)).Nodup) : Collects bound free free [] := by
  rw [Collects, List.nil_removeAll, List.append_nil, eraseDups_of_nodup h]

/-- Uses are collected from one list of names after another. -/
theorem append (h : Collects bound free free₁ xs) (h' : Collects bound free₁ free₂ ys) :
    Collects bound free free₂ (xs ++ ys) := by
  rw [Collects, h', h, eraseDups_append_of_left, removeAll_append, List.append_assoc]

/-- Names that are used again are not collected again. -/
theorem eraseDups (h : Collects bound free free₁ xs) : Collects bound free free₁ xs.eraseDups := by
  rw [Collects, h, removeAll_eraseDups, eraseDups_append_of_right]

/-- Behind a binder only the other names are added. -/
theorem scope {p : List Name} (h : Collects (p ++ bound) free free₁ xs) :
    Collects bound free free₁ (xs.removeAll p) := by
  rw [Collects, h, removeAll_removeAll]

/-- A use is collected unless it is bound or was collected before. -/
theorem use (bound : List Name) (h : (free.map (·.name)).Nodup) (x : Ident) :
    Collects bound free (noteUse bound free x) [x.name] := by
  have hcollected : free.any (·.name == x.name) = (free.map (·.name)).contains x.name := by
    rw [List.contains_eq_any_beq, List.any_map]
    refine congrArg _ (funext fun y => ?_)
    exact Bool.beq_comm
  rw [Collects, List.eraseDups_append, eraseDups_of_nodup h, removeAll_removeAll, noteUse,
    hcollected, ← List.contains_append, List.cons_removeAll, List.nil_removeAll]
  cases (bound ++ free.map (·.name)).contains x.name with
  | true => simp
  | false => simp [List.eraseDups_cons]

/-- A list of uses is collected one by one. -/
theorem uses (bound : List Name) : ∀ (cs : List Ident) {free : List Ident},
    (free.map (·.name)).Nodup →
    Collects bound free (cs.foldl (noteUse bound) free) (cs.map (·.name))
  | [], _, h => .nil h
  | c :: cs, _, h => (use bound h c).append (uses bound cs (use bound h c).nodup)

end Collects

mutual

/-- From an expression its free names are collected, in the order of their first uses. -/
theorem Exp.collects : ∀ (e : Exp) (bound : List Name) {free : List Ident},
    (free.map (·.name)).Nodup → Collects bound free (e.collectFree bound free) e.freeNames
  | .lit _ _, _, _, h => .nil h
  | .var x _, bound, _, h => .use bound h x
  | .tuple es _, bound, _, h => Exp.collectsAll es bound h
  | .array es _ _, bound, _, h => Exp.collectsAll es bound h
  | .binary _ a b _ _, bound, _, h => by
    have ha := a.collects bound h
    have hb := b.collects bound ha.nodup
    exact (ha.append hb).eraseDups
  | .unary _ e _, bound, _, h => e.collects bound h
  | .cond c t e _ _, bound, _, h => by
    have hc := c.collects bound h
    have ht := t.collects bound hc.nodup
    have he := e.collects bound ht.nodup
    exact ((hc.append ht).append he).eraseDups
  | .call _ es _ _, bound, _, h => Exp.collectsAll es bound h
  | .letIn p r b _, bound, _, h => by
    have hr := r.collects bound h
    -- what the pattern binds is not collected from the body
    have hb := b.collects (p.names ++ bound) hr.nodup
    exact (hr.append hb.scope).eraseDups
  | .update x y is v b _, bound, _, h => by
    -- the array is looked up first, then the path, the value and what follows
    have hy := Collects.use bound h y
    have hi := Exp.collectsAll is bound hy.nodup
    have hv := v.collects bound hi.nodup
    have hb := b.collects ([x.name] ++ bound) hv.nodup
    exact (((hy.append hi).append hv).append hb.scope).eraseDups
  | .index x is _, bound, _, h => by
    have hx := Collects.use bound h x
    have hi := Exp.collectsAll is bound hx.nodup
    exact (hx.append hi).eraseDups
  | .replicate n v _, bound, _, h => by
    have hn := n.collects bound h
    have hv := v.collects bound hn.nodup
    exact (hn.append hv).eraseDups
  | .loop p is i n b r _, bound, _, h => by
    have hi := Exp.collectsAll is bound h
    have hn := n.collects bound hi.nodup
    -- the counter is bound in the body only
    have hb := b.collects ((i.name :: p.names) ++ bound) hn.nodup
    have hr := r.collects (p.names ++ bound) hb.nodup
    exact (((hi.append hn).append hb.scope).append hr.scope).eraseDups
  | .soac op es cs _, bound, _, h => by
    -- certificates are uses, and come first
    have hc := Collects.uses bound cs h
    have ho := op.collects bound hc.nodup
    have he := Exp.collectsAll es bound ho.nodup
    exact ((hc.append ho).append he).eraseDups

/-- From a list of expressions the free names are collected in the same way. -/
theorem Exp.collectsAll : ∀ (es : List Exp) (bound : List Name) {free : List Ident},
    (free.map (·.name)).Nodup → Collects bound free (Exp.collectFreeAll bound free es)
    (Exp.freeNamesAll es)
  | [], _, _, h => .nil h
  | e :: es, bound, _, h => by
    have he := e.collects bound h
    have hes := Exp.collectsAll es bound he.nodup
    exact (he.append hes).eraseDups

/-- From a lambda the free names are collected in the same way. -/
theorem Lambda.collects : ∀ (f : Lambda) (bound : List Name) {free : List Ident},
    (free.map (·.name)).Nodup → Collects bound free (f.collectFree bound free) f.freeNames
  | ⟨_, b, _⟩, _, _, h => (b.collects _ h).scope

/-- From a combinator the free names are collected in the same way. -/
theorem Combinator.collects : ∀ (op : Combinator) (bound : List Name) {free : List Ident},
    (free.map (·.name)).Nodup → Collects bound free (op.collectFree bound free) op.freeNames
  | .map f, bound, _, h => f.collects bound h
  | .reduce f ne, bound, _, h => by
    have hf := f.collects bound h
    have hne := Exp.collectsAll ne bound hf.nodup
    exact (hf.append hne).eraseDups
  | .scan f ne, bound, _, h => by
    have hf := f.collects bound h
    have hne := Exp.collectsAll ne bound hf.nodup
    exact (hf.append hne).eraseDups
  | .filter p, bound, _, h => p.collects bound h
  | .redomap f g ne, bound, _, h => by
    have hf := f.collects bound h
    have hg := g.collects bound hf.nodup
    have hne := Exp.collectsAll ne bound hg.nodup
    exact ((hf.append hg).append hne).eraseDups

end

/-- If nothing was collected before and nothing is bound, the free names are what is collected. -/
theorem Collects.of_nothing {free : List Ident} {xs : List Name} (h : Collects [] [] free xs)
    (hxs : xs.Nodup) : free.map (·.name) = xs := by
  rw [h, List.map_nil, List.nil_append, List.removeAll_nil, eraseDups_of_nodup hxs]

/-- The free variables that are collected have different names, and these are the free names scope
by scope, each at its first use. -/
theorem names_freeVars :
    (∀ e : Exp, (e.freeVars.map (·.name)).Nodup ∧ e.freeVars.map (·.name) = e.freeNames)
      ∧ ∀ f : Lambda, (f.freeVars.map (·.name)).Nodup ∧ f.freeVars.map (·.name) = f.freeNames := by
  refine ⟨fun e => ?_, fun f => ?_⟩
  · have h : Collects [] [] e.freeVars e.freeNames := e.collects [] List.nodup_nil
    exact ⟨h.nodup, h.of_nothing e.nodup_freeNames⟩
  · have h : Collects [] [] f.freeVars f.freeNames := f.collects [] List.nodup_nil
    exact ⟨h.nodup, h.of_nothing f.nodup_freeNames⟩

/-- The counter of a loop is bound in its body only: the use in the rest is free, and stands behind
the bound in the list. -/
example :
    let k : Ident := ⟨⟨"k", 0⟩, .int⟩
    let i : Ident := ⟨⟨"i", 1⟩, .int⟩
    let n : Ident := ⟨⟨"n", 2⟩, .int⟩
    (Exp.loop [k] [.ofIdent k] i (.ofIdent n) (.binary .plus (.ofIdent k) (.ofIdent i) .int .dummy)
      (.binary .plus (.ofIdent k) (.ofIdent i) .int .dummy) .dummy).freeNames
        = [k.name, n.name, i.name] := by
  decide

end ArrayFusion
