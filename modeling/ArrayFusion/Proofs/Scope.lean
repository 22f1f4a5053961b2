import Mathlib.Data.Set.Insert
import Mathlib.Data.Set.Lattice
import ArrayFusion.Syntax.FreeVars
import ArrayFusion.Syntax.Occurrence

/-!
# Binders, free names and scopes

What a piece of code binds, what it uses and does not bind, and when it keeps to a scope.
`Exp.free` is the set that `Exp.freeVars` collects (`Exp.mem_collectFree`), in the form that follows
the syntax.  Certificates are uses for some purposes and not for others, so whether they count is a
parameter.

`Exp.Tidy` is the discipline that every step of the pass keeps: all uses lie in a set of names, and
every binder is taken from another set and new at the place where it stands.
-/

namespace ArrayFusion

/-! ## Binders -/

mutual

/-- Every name that is bound somewhere in an expression. -/
def Exp.binders : Exp → List Name
  | .lit _ _ => []
  | .var _ _ => []
  | .tuple es _ => Exp.bindersAll es
  | .array es _ _ => Exp.bindersAll es
  | .binary _ a b _ _ => a.binders ++ b.binders
  | .unary _ e _ => e.binders
  | .cond c a b _ _ => c.binders ++ a.binders ++ b.binders
  | .call _ es _ _ => Exp.bindersAll es
  | .letIn p r b _ => p.names ++ r.binders ++ b.binders
  | .update x _ is v b _ => x.name :: (Exp.bindersAll is ++ v.binders ++ b.binders)
  | .index _ is _ => Exp.bindersAll is
  | .replicate n v _ => n.binders ++ v.binders
  | .loop p is i n b r _ =>
    i.name :: (p.names ++ Exp.bindersAll is ++ n.binders ++ b.binders ++ r.binders)
  | .soac op es _ _ => op.binders ++ Exp.bindersAll es

/-- Every name that is bound somewhere in a list of expressions. -/
def Exp.bindersAll : List Exp → List Name
  | [] => []
  | e :: es => e.binders ++ Exp.bindersAll es

/-- Every name that is bound somewhere in a lambda, its parameters included. -/
def Lambda.binders : Lambda → List Name
  | ⟨ps, b, _⟩ => Pattern.names ps ++ b.binders

/-- Every name that is bound somewhere in the lambdas and the neutral elements of a combinator. -/
def Combinator.binders : Combinator → List Name
  | .map f => f.binders
  | .reduce f ne => f.binders ++ Exp.bindersAll ne
  | .scan f ne => f.binders ++ Exp.bindersAll ne
  | .filter p => p.binders
  | .redomap f g ne => f.binders ++ g.binders ++ Exp.bindersAll ne

end

mutual

/-- Every `let` of an expression, as what it binds and its right-hand side. -/
def Exp.lets : Exp → List (Pattern × Exp)
  | .lit _ _ => []
  | .var _ _ => []
  | .tuple es _ => Exp.letsAll es
  | .array es _ _ => Exp.letsAll es
  | .binary _ a b _ _ => a.lets ++ b.lets
  | .unary _ e _ => e.lets
  | .cond c a b _ _ => c.lets ++ a.lets ++ b.lets
  | .call _ es _ _ => Exp.letsAll es
  | .letIn p r b _ => (p, r) :: (r.lets ++ b.lets)
  | .update _ _ is v b _ => Exp.letsAll is ++ v.lets ++ b.lets
  | .index _ is _ => Exp.letsAll is
  | .replicate n v _ => n.lets ++ v.lets
  | .loop _ is _ n b r _ => Exp.letsAll is ++ n.lets ++ b.lets ++ r.lets
  | .soac op es _ _ => op.lets ++ Exp.letsAll es

/-- Every `let` in a list of expressions. -/
def Exp.letsAll : List Exp → List (Pattern × Exp)
  | [] => []
  | e :: es => e.lets ++ Exp.letsAll es

/-- Every `let` in a lambda. -/
def Lambda.lets : Lambda → List (Pattern × Exp)
  | ⟨_, b, _⟩ => b.lets

/-- Every `let` in the lambdas and the neutral elements of a combinator. -/
def Combinator.lets : Combinator → List (Pattern × Exp)
  | .map f => f.lets
  | .reduce f ne => f.lets ++ Exp.letsAll ne
  | .scan f ne => f.lets ++ Exp.letsAll ne
  | .filter p => p.lets
  | .redomap f g ne => f.lets ++ g.lets ++ Exp.letsAll ne

end

mutual

/-- The names that an expression binds otherwise than by a `let`: parameters of lambdas, merged
names and counters of loops, and targets of updates. -/
def Exp.slots : Exp → List Name
  | .lit _ _ => []
  | .var _ _ => []
  | .tuple es _ => Exp.slotsAll es
  | .array es _ _ => Exp.slotsAll es
  | .binary _ a b _ _ => a.slots ++ b.slots
  | .unary _ e _ => e.slots
  | .cond c a b _ _ => c.slots ++ a.slots ++ b.slots
  | .call _ es _ _ => Exp.slotsAll es
  | .letIn _ r b _ => r.slots ++ b.slots
  | .update x _ is v b _ => x.name :: (Exp.slotsAll is ++ v.slots ++ b.slots)
  | .index _ is _ => Exp.slotsAll is
  | .replicate n v _ => n.slots ++ v.slots
  | .loop p is i n b r _ =>
    i.name :: (p.names ++ Exp.slotsAll is ++ n.slots ++ b.slots ++ r.slots)
  | .soac op es _ _ => op.slots ++ Exp.slotsAll es

/-- The names that a list of expressions binds otherwise than by a `let`. -/
def Exp.slotsAll : List Exp → List Name
  | [] => []
  | e :: es => e.slots ++ Exp.slotsAll es

/-- The names that a lambda binds otherwise than by a `let`. -/
def Lambda.slots : Lambda → List Name
  | ⟨ps, b, _⟩ => Pattern.names ps ++ b.slots

/-- The names that a combinator binds otherwise than by a `let`. -/
def Combinator.slots : Combinator → List Name
  | .map f => f.slots
  | .reduce f ne => f.slots ++ Exp.slotsAll ne
  | .scan f ne => f.slots ++ Exp.slotsAll ne
  | .filter p => p.slots
  | .redomap f g ne => f.slots ++ g.slots ++ Exp.slotsAll ne

end

/-- The parameters of the lambda for the elements are slots. -/
theorem Combinator.slots_element (op : Combinator) {z : Name}
    (hz : z ∈ Pattern.names op.element.params) : z ∈ op.slots := by
  have hslots : ∀ f : Lambda, z ∈ Pattern.names f.params → z ∈ f.slots := fun ⟨_, _, _⟩ hz =>
    List.mem_append_left _ hz
  cases op with
  | map f => exact hslots f hz
  | filter f => exact hslots f hz
  | reduce f ne => exact List.mem_append_left _ (hslots f hz)
  | scan f ne => exact List.mem_append_left _ (hslots f hz)
  | redomap f g ne => exact List.mem_append_left _ (List.mem_append_right _ (hslots g hz))

/-- The names that the `let`s of a list bind. -/
def letNames (ls : List (Pattern × Exp)) : List Name := ls.flatMap fun l => l.1.names

@[simp] theorem letNames_append (ls ms : List (Pattern × Exp)) :
    letNames (ls ++ ms) = letNames ls ++ letNames ms := List.flatMap_append

@[simp] theorem letNames_cons (l : Pattern × Exp) (ls : List (Pattern × Exp)) :
    letNames (l :: ls) = l.1.names ++ letNames ls := List.flatMap_cons

mutual

/-- Every binder is that of a `let` or a slot, as often as it occurs. -/
theorem Exp.count_binders (x : Name) :
    ∀ e : Exp, e.binders.count x = (letNames e.lets).count x + e.slots.count x
  | .lit _ _ => rfl
  | .var _ _ => rfl
  | .tuple es _ => Exp.count_bindersAll x es
  | .array es _ _ => Exp.count_bindersAll x es
  | .binary _ a b _ _ => by
    have ha := a.count_binders x
    have hb := b.count_binders x
    simp only [Exp.binders, Exp.lets, Exp.slots, letNames_append, List.count_append]
    omega
  | .unary _ e _ => e.count_binders x
  | .cond c a b _ _ => by
    have hc := c.count_binders x
    have ha := a.count_binders x
    have hb := b.count_binders x
    simp only [Exp.binders, Exp.lets, Exp.slots, letNames_append, List.count_append]
    omega
  | .call _ es _ _ => Exp.count_bindersAll x es
  | .letIn p r b _ => by
    have hr := r.count_binders x
    have hb := b.count_binders x
    simp only [Exp.binders, Exp.lets, Exp.slots, letNames_cons, letNames_append, List.count_append]
    omega
  | .update y _ is v b _ => by
    have his := Exp.count_bindersAll x is
    have hv := v.count_binders x
    have hb := b.count_binders x
    simp only [Exp.binders, Exp.lets, Exp.slots, letNames_append, List.count_append,
      List.count_cons]
    omega
  | .index _ is _ => Exp.count_bindersAll x is
  | .replicate n v _ => by
    have hn := n.count_binders x
    have hv := v.count_binders x
    simp only [Exp.binders, Exp.lets, Exp.slots, letNames_append, List.count_append]
    omega
  | .loop p is i n b r _ => by
    have his := Exp.count_bindersAll x is
    have hn := n.count_binders x
    have hb := b.count_binders x
    have hr := r.count_binders x
    simp only [Exp.binders, Exp.lets, Exp.slots, letNames_append, List.count_append,
      List.count_cons]
    omega
  | .soac op es _ _ => by
    have hop := op.count_binders x
    have hes := Exp.count_bindersAll x es
    simp only [Exp.binders, Exp.lets, Exp.slots, letNames_append, List.count_append]
    omega

/-- A name is bound in expressions as often as it is bound by their `let`s and by their other
binders. -/
theorem Exp.count_bindersAll (x : Name) : ∀ es : List Exp,
    (Exp.bindersAll es).count x = (letNames (Exp.letsAll es)).count x + (Exp.slotsAll es).count x
  | [] => rfl
  | e :: es => by
    have he := e.count_binders x
    have hes := Exp.count_bindersAll x es
    simp only [Exp.bindersAll, Exp.letsAll, Exp.slotsAll, letNames_append, List.count_append]
    omega

/-- A name is bound in a lambda as often as it is bound by the `let`s and by the other binders. -/
theorem Lambda.count_binders (x : Name) :
    ∀ f : Lambda, f.binders.count x = (letNames f.lets).count x + f.slots.count x
  | ⟨ps, b, _⟩ => by
    have hb := b.count_binders x
    simp only [Lambda.binders, Lambda.lets, Lambda.slots, List.count_append]
    omega

/-- A name is bound in a combinator as often as it is bound by the `let`s and by the other binders.
-/
theorem Combinator.count_binders (x : Name) :
    ∀ op : Combinator, op.binders.count x = (letNames op.lets).count x + op.slots.count x
  | .map f => f.count_binders x
  | .reduce f ne => by
    have hf := f.count_binders x
    have hne := Exp.count_bindersAll x ne
    simp only [Combinator.binders, Combinator.lets, Combinator.slots, letNames_append,
      List.count_append]
    omega
  | .scan f ne => by
    have hf := f.count_binders x
    have hne := Exp.count_bindersAll x ne
    simp only [Combinator.binders, Combinator.lets, Combinator.slots, letNames_append,
      List.count_append]
    omega
  | .filter p => p.count_binders x
  | .redomap f g ne => by
    have hf := f.count_binders x
    have hg := g.count_binders x
    have hne := Exp.count_bindersAll x ne
    simp only [Combinator.binders, Combinator.lets, Combinator.slots, letNames_append,
      List.count_append]
    omega

end

/-! ## Free names -/

/-- The names of a list. -/
def Pattern.nameSet (p : Pattern) : Set Name := {x | x ∈ p.names}

@[simp] theorem Pattern.mem_nameSet {p : Pattern} {x : Name} : x ∈ p.nameSet ↔ x ∈ p.names := .rfl

theorem Pattern.nameSet_singleton (x : Ident) : Pattern.nameSet [x] = {x.name} := by
  ext
  simp [Pattern.names]

/-- The names of a pattern are that of the head and those of the tail. -/
theorem Pattern.nameSet_cons (x : Ident) (p : Pattern) :
    Pattern.nameSet (x :: p) = {x.name} ∪ p.nameSet := by
  ext
  simp [Pattern.names]

/-- To enter a pattern and then one more identifier is to enter both at once. -/
theorem Pattern.union_nameSet_cons (V : Set Name) (i : Ident) (p : Pattern) :
    V ∪ p.nameSet ∪ Pattern.nameSet [i] = V ∪ Pattern.nameSet (i :: p) := by
  ext x
  simp only [Set.mem_union, mem_nameSet, names, List.map_cons, List.map_nil, List.mem_cons,
    List.not_mem_nil, or_false]
  tauto

mutual

/-- The names that an expression uses and does not bind around the use.  Certificates are among them
if `certs` says so. -/
def Exp.free (certs : Bool) : Exp → Set Name
  | .lit _ _ => ∅
  | .var x _ => {x.name}
  | .tuple es _ => Exp.freeAll certs es
  | .array es _ _ => Exp.freeAll certs es
  | .binary _ a b _ _ => a.free certs ∪ b.free certs
  | .unary _ e _ => e.free certs
  | .cond c a b _ _ => c.free certs ∪ (a.free certs ∪ b.free certs)
  | .call _ es _ _ => Exp.freeAll certs es
  | .letIn p r b _ => r.free certs ∪ b.free certs \ p.nameSet
  | .update x y is v b _ =>
    {y.name} ∪ (Exp.freeAll certs is ∪ (v.free certs ∪ b.free certs \ {x.name}))
  | .index x is _ => {x.name} ∪ Exp.freeAll certs is
  | .replicate n v _ => n.free certs ∪ v.free certs
  | .loop p is i n b r _ =>
    Exp.freeAll certs is ∪ (n.free certs ∪
      (b.free certs \ ({i.name} ∪ p.nameSet) ∪ r.free certs \ p.nameSet))
  | .soac op es cs _ =>
    {x | certs ∧ x ∈ cs.map (·.name)} ∪ (op.free certs ∪ Exp.freeAll certs es)

/-- The free names of a list of expressions. -/
def Exp.freeAll (certs : Bool) : List Exp → Set Name
  | [] => ∅
  | e :: es => e.free certs ∪ Exp.freeAll certs es

/-- The free names of a lambda. -/
def Lambda.free (certs : Bool) : Lambda → Set Name
  | ⟨ps, b, _⟩ => b.free certs \ Pattern.nameSet ps

/-- The free names of the lambdas and the neutral elements of a combinator. -/
def Combinator.free (certs : Bool) : Combinator → Set Name
  | .map f => f.free certs
  | .reduce f ne => f.free certs ∪ Exp.freeAll certs ne
  | .scan f ne => f.free certs ∪ Exp.freeAll certs ne
  | .filter p => p.free certs
  | .redomap f g ne => f.free certs ∪ (g.free certs ∪ Exp.freeAll certs ne)

end

/-- A name is free in expressions if it is free in one of them. -/
theorem Exp.mem_freeAll_iff {certs : Bool} {es : List Exp} {x : Name} :
    x ∈ Exp.freeAll certs es ↔ ∃ e ∈ es, x ∈ e.free certs := by
  induction es with
  | nil => simp [Exp.freeAll]
  | cons e es ih => simp [Exp.freeAll, ih]

/-- A name is free in a combinator if it is free in one of its lambdas or in a neutral element. -/
theorem Combinator.mem_free_iff {certs : Bool} {op : Combinator} {x : Name} : x ∈ op.free certs ↔
    (∃ f ∈ op.lambdas, x ∈ f.free certs) ∨ x ∈ Exp.freeAll certs op.neutral := by
  cases op <;> simp [Combinator.free, Combinator.lambdas, Combinator.neutral, Exp.freeAll, or_assoc]

/-- The lambda for the elements is one of the lambdas. -/
theorem Combinator.element_mem_lambdas (op : Combinator) : op.element ∈ op.lambdas := by
  cases op <;> simp [Combinator.element, Combinator.lambdas]

/-- What the body of a lambda uses is free in the lambda or a parameter. -/
theorem Lambda.mem_free_body {c : Bool} {f : Lambda} {x : Name} (h : x ∈ f.body.free c) :
    x ∈ f.free c ∨ x ∈ Pattern.names f.params := by
  obtain ⟨ps, b, ts⟩ := f
  by_cases hx : x ∈ Pattern.names ps
  · exact .inr hx
  · exact .inl ⟨h, hx⟩

/-- A parameter is not free in its lambda. -/
theorem Lambda.notMem_free_of_param {c : Bool} {f : Lambda} {x : Name}
    (h : x ∈ Pattern.names f.params) : x ∉ f.free c := by
  obtain ⟨ps, b, ts⟩ := f
  exact fun hfree => hfree.2 h

/-- Every identifier that is used stands in the scope, with its type. -/
abbrev Scope := Set Ident

/-- The names of a scope. -/
def Scope.names (Γ : Scope) : Set Name := {x | ∃ y ∈ Γ, y.name = x}

/-- The scope with the identifiers of a pattern. -/
def Scope.enter (Γ : Scope) (p : Pattern) : Scope := Γ ∪ {x | x ∈ p}

@[simp] theorem Scope.mem_enter {Γ : Scope} {p : Pattern} {x : Ident} :
    x ∈ Γ.enter p ↔ x ∈ Γ ∨ x ∈ p := .rfl

@[simp] theorem Scope.mem_names {Γ : Scope} {x : Name} : x ∈ Γ.names ↔ ∃ y ∈ Γ, y.name = x := .rfl

/-- The names in scope behind a pattern are those before and those of the pattern. -/
theorem Scope.names_enter (Γ : Scope) (p : Pattern) :
    (Γ.enter p).names = Γ.names ∪ p.nameSet := by
  ext x
  simp only [mem_names, mem_enter, Set.mem_union, Pattern.mem_nameSet, Pattern.names, List.mem_map,
    or_and_right, exists_or]

mutual

/-- Every use in an expression is in scope and carries the type of its binder. -/
def Exp.Scoped (Γ : Scope) : Exp → Prop
  | .lit _ _ => True
  | .var x _ => x ∈ Γ
  | .tuple es _ => Exp.ScopedAll Γ es
  | .array es _ _ => Exp.ScopedAll Γ es
  | .binary _ a b _ _ => a.Scoped Γ ∧ b.Scoped Γ
  | .unary _ e _ => e.Scoped Γ
  | .cond c a b _ _ => c.Scoped Γ ∧ a.Scoped Γ ∧ b.Scoped Γ
  | .call _ es _ _ => Exp.ScopedAll Γ es
  | .letIn p r b _ => r.Scoped Γ ∧ b.Scoped (Γ.enter p)
  | .update x y is v b _ => y ∈ Γ ∧ Exp.ScopedAll Γ is ∧ v.Scoped Γ ∧ b.Scoped (Γ.enter [x])
  | .index x is _ => x ∈ Γ ∧ Exp.ScopedAll Γ is
  | .replicate n v _ => n.Scoped Γ ∧ v.Scoped Γ
  | .loop p is i n b r _ =>
    Exp.ScopedAll Γ is ∧ n.Scoped Γ ∧ b.Scoped (Γ.enter (i :: p)) ∧ r.Scoped (Γ.enter p)
  | .soac op es cs _ => (∀ c ∈ cs, c ∈ Γ) ∧ op.Scoped Γ ∧ Exp.ScopedAll Γ es

/-- Every use in a list of expressions is in scope. -/
def Exp.ScopedAll (Γ : Scope) : List Exp → Prop
  | [] => True
  | e :: es => e.Scoped Γ ∧ Exp.ScopedAll Γ es

/-- Every use in a lambda is in scope. -/
def Lambda.Scoped (Γ : Scope) : Lambda → Prop
  | ⟨ps, b, _⟩ => b.Scoped (Γ.enter ps)

/-- Every use in the lambdas and the neutral elements of a combinator is in scope. -/
def Combinator.Scoped (Γ : Scope) : Combinator → Prop
  | .map f => f.Scoped Γ
  | .reduce f ne => f.Scoped Γ ∧ Exp.ScopedAll Γ ne
  | .scan f ne => f.Scoped Γ ∧ Exp.ScopedAll Γ ne
  | .filter p => p.Scoped Γ
  | .redomap f g ne => f.Scoped Γ ∧ g.Scoped Γ ∧ Exp.ScopedAll Γ ne

end

/-- Expressions are scoped if each of them is. -/
theorem Exp.scopedAll_iff {Γ : Scope} {es : List Exp} :
    Exp.ScopedAll Γ es ↔ ∀ e ∈ es, e.Scoped Γ := by
  induction es with
  | nil => exact ⟨fun _ _ he => (nomatch he), fun _ => trivial⟩
  | cons e es ih => rw [Exp.ScopedAll, ih, List.forall_mem_cons]

/-- A use notes the name unless it is bound. -/
theorem mem_noteUse {bound : List Name} {acc : List Ident} {x : Ident} {y : Name} :
    y ∈ (noteUse bound acc x).map (·.name) ↔
      y ∈ acc.map (·.name) ∨ y ∉ bound ∧ y = x.name := by
  unfold noteUse
  split
  · -- the name is bound, or it was noted before
    rename_i h
    simp only [Bool.or_eq_true, List.contains_iff_mem, List.any_eq_true, beq_iff_eq] at h
    constructor
    · exact .inl
    · rintro (hy | ⟨hy, rfl⟩)
      · exact hy
      · rcases h with h | ⟨z, hz, hzx⟩
        · exact absurd h hy
        · exact List.mem_map.2 ⟨z, hz, hzx⟩
  · -- the name is noted at the end
    rename_i h
    simp only [Bool.or_eq_true, List.contains_iff_mem, not_or] at h
    rw [List.map_append, List.mem_append]
    simp only [List.map_cons, List.map_nil, List.mem_singleton]
    constructor
    · rintro (hy | rfl)
      · exact .inl hy
      · exact .inr ⟨h.1, rfl⟩
    · rintro (hy | ⟨-, rfl⟩)
      · exact .inl hy
      · exact .inr rfl

/-- Uses note the names that are not bound. -/
theorem mem_noteUses {bound : List Name} (xs acc : List Ident) {y : Name} :
    y ∈ (xs.foldl (noteUse bound) acc).map (·.name) ↔
      y ∈ acc.map (·.name) ∨ y ∉ bound ∧ y ∈ xs.map (·.name) := by
  induction xs generalizing acc with
  | nil => simp
  | cons x xs ih =>
    rw [List.foldl_cons, ih, mem_noteUse, List.map_cons, List.mem_cons]
    tauto

mutual

/-- What is collected from an expression is its free names, certificates included. -/
theorem Exp.mem_collectFree {y : Name} : ∀ (e : Exp) (bound : List Name) (acc : List Ident),
    y ∈ (e.collectFree bound acc).map (·.name) ↔
      y ∈ acc.map (·.name) ∨ y ∉ bound ∧ y ∈ e.free true
  | .lit _ _, bound, acc => by simp [Exp.collectFree, Exp.free]
  | .var x _, bound, acc => by
    rw [Exp.collectFree, mem_noteUse, Exp.free, Set.mem_singleton_iff]
  | .tuple es _, bound, acc => Exp.mem_collectFreeAll es bound acc
  | .array es _ _, bound, acc => Exp.mem_collectFreeAll es bound acc
  | .binary _ a b _ _, bound, acc => by
    rw [Exp.collectFree, b.mem_collectFree, a.mem_collectFree, Exp.free, Set.mem_union]
    tauto
  | .unary _ e _, bound, acc => e.mem_collectFree bound acc
  | .cond c a b _ _, bound, acc => by
    rw [Exp.collectFree, b.mem_collectFree, a.mem_collectFree, c.mem_collectFree, Exp.free,
      Set.mem_union, Set.mem_union]
    tauto
  | .call _ es _ _, bound, acc => Exp.mem_collectFreeAll es bound acc
  | .letIn p r b _, bound, acc => by
    -- the body notes what neither the scope nor the pattern binds
    rw [Exp.collectFree, b.mem_collectFree, r.mem_collectFree, Exp.free, Set.mem_union,
      Set.mem_sdiff, Pattern.mem_nameSet, List.mem_append]
    tauto
  | .update x z is v b _, bound, acc => by
    rw [Exp.collectFree, b.mem_collectFree, v.mem_collectFree, Exp.mem_collectFreeAll, mem_noteUse,
      Exp.free, Set.mem_union, Set.mem_union, Set.mem_union, Set.mem_sdiff, Set.mem_singleton_iff,
      Set.mem_singleton_iff, List.mem_cons]
    tauto
  | .index x is _, bound, acc => by
    rw [Exp.collectFree, Exp.mem_collectFreeAll, mem_noteUse, Exp.free, Set.mem_union,
      Set.mem_singleton_iff]
    tauto
  | .replicate n v _, bound, acc => by
    rw [Exp.collectFree, v.mem_collectFree, n.mem_collectFree, Exp.free, Set.mem_union]
    tauto
  | .loop p is i n b r _, bound, acc => by
    -- the body is behind the counter and the pattern, and what follows is behind the pattern only
    rw [Exp.collectFree, r.mem_collectFree, b.mem_collectFree, n.mem_collectFree,
      Exp.mem_collectFreeAll, Exp.free]
    simp only [Set.mem_union, Set.mem_sdiff, Set.mem_singleton_iff, Pattern.mem_nameSet,
      List.mem_append, List.mem_cons]
    tauto
  | .soac op es cs _, bound, acc => by
    rw [Exp.collectFree, Exp.mem_collectFreeAll, op.mem_collectFree, mem_noteUses, Exp.free]
    simp only [Set.mem_union, Set.mem_ofPred_eq, true_and]
    tauto

/-- What is collected from expressions is what was noted before and the names free in them that are
not bound. -/
theorem Exp.mem_collectFreeAll {y : Name} :
    ∀ (es : List Exp) (bound : List Name) (acc : List Ident),
      y ∈ (Exp.collectFreeAll bound acc es).map (·.name) ↔
        y ∈ acc.map (·.name) ∨ y ∉ bound ∧ y ∈ Exp.freeAll true es
  | [], bound, acc => by simp [Exp.collectFreeAll, Exp.freeAll]
  | e :: es, bound, acc => by
    rw [Exp.collectFreeAll, Exp.mem_collectFreeAll, e.mem_collectFree, Exp.freeAll, Set.mem_union]
    tauto

/-- What is collected from a lambda is what was noted before and the names free in it that are not
bound. -/
theorem Lambda.mem_collectFree {y : Name} : ∀ (f : Lambda) (bound : List Name) (acc : List Ident),
    y ∈ (f.collectFree bound acc).map (·.name) ↔
      y ∈ acc.map (·.name) ∨ y ∉ bound ∧ y ∈ f.free true
  | ⟨ps, b, _⟩, bound, acc => by
    rw [Lambda.collectFree, b.mem_collectFree, Lambda.free, Set.mem_sdiff, Pattern.mem_nameSet,
      List.mem_append]
    tauto

/-- What is collected from a combinator is what was noted before and the names free in it that are
not bound. -/
theorem Combinator.mem_collectFree {y : Name} :
    ∀ (op : Combinator) (bound : List Name) (acc : List Ident),
      y ∈ (op.collectFree bound acc).map (·.name) ↔
        y ∈ acc.map (·.name) ∨ y ∉ bound ∧ y ∈ op.free true
  | .map f, bound, acc => f.mem_collectFree bound acc
  | .reduce f ne, bound, acc => by
    rw [Combinator.collectFree, Exp.mem_collectFreeAll, f.mem_collectFree, Combinator.free,
      Set.mem_union]
    tauto
  | .scan f ne, bound, acc => by
    rw [Combinator.collectFree, Exp.mem_collectFreeAll, f.mem_collectFree, Combinator.free,
      Set.mem_union]
    tauto
  | .filter p, bound, acc => p.mem_collectFree bound acc
  | .redomap f g ne, bound, acc => by
    rw [Combinator.collectFree, Exp.mem_collectFreeAll, g.mem_collectFree, f.mem_collectFree,
      Combinator.free, Set.mem_union, Set.mem_union]
    tauto

end

/-- The free variables of an expression have its free names. -/
theorem Exp.mem_freeVars {y : Name} (e : Exp) :
    y ∈ e.freeVars.map (·.name) ↔ y ∈ e.free true := by
  rw [Exp.freeVars, e.mem_collectFree]
  simp

/-- The free variables of a lambda have its free names. -/
theorem Lambda.mem_freeVars {y : Name} (f : Lambda) :
    y ∈ f.freeVars.map (·.name) ↔ y ∈ f.free true := by
  rw [Lambda.freeVars, f.mem_collectFree]
  simp

/-- What is noted behind a use was noted before or is the identifier used. -/
theorem of_mem_noteUse {bound : List Name} {acc : List Ident} {x y : Ident}
    (h : y ∈ noteUse bound acc x) : y ∈ acc ∨ y.name ∉ bound ∧ y = x := by
  unfold noteUse at h
  split at h
  · exact .inl h
  · rename_i hx
    simp only [Bool.or_eq_true, List.contains_iff_mem, not_or] at hx
    rcases List.mem_append.1 h with h | h
    · exact .inl h
    · obtain rfl := List.mem_singleton.1 h
      exact .inr ⟨hx.1, rfl⟩

/-- What is noted behind uses was noted before or is one of the identifiers used. -/
theorem of_mem_noteUses {bound : List Name} (xs acc : List Ident) {y : Ident}
    (h : y ∈ xs.foldl (noteUse bound) acc) : y ∈ acc ∨ y.name ∉ bound ∧ y ∈ xs := by
  induction xs generalizing acc with
  | nil => exact .inl h
  | cons x xs ih =>
    rcases ih _ h with h | ⟨hb, h⟩
    · rcases of_mem_noteUse h with h | ⟨hb, rfl⟩
      · exact .inl h
      · exact .inr ⟨hb, List.mem_cons_self⟩
    · exact .inr ⟨hb, List.mem_cons_of_mem _ h⟩

/-- What is in scope behind a binder and not bound there was in scope before. -/
theorem Scope.of_mem_enter {Γ : Scope} {p : Pattern} {bound : List Name} {y : Ident}
    (hb : y.name ∉ p.names ++ bound) (h : y ∈ Γ.enter p) : y.name ∉ bound ∧ y ∈ Γ := by
  rw [List.mem_append, not_or] at hb
  rcases h with h | h
  · exact ⟨hb.2, h⟩
  · exact absurd (List.mem_map.2 ⟨y, h, rfl⟩) hb.1

mutual

/-- What is collected from a scoped expression are identifiers of its scope. -/
theorem Exp.of_mem_collectFree {y : Ident} : ∀ (e : Exp) {Γ : Scope} (bound : List Name)
    (acc : List Ident), e.Scoped Γ → y ∈ e.collectFree bound acc →
      y ∈ acc ∨ y.name ∉ bound ∧ y ∈ Γ
  | .lit _ _, Γ, bound, acc, _, h => .inl h
  | .var x _, Γ, bound, acc, hs, h => by
    rcases of_mem_noteUse h with h | ⟨hb, rfl⟩
    · exact .inl h
    · exact .inr ⟨hb, hs⟩
  | .tuple es _, Γ, bound, acc, hs, h => Exp.of_mem_collectFreeAll es bound acc hs h
  | .array es _ _, Γ, bound, acc, hs, h => Exp.of_mem_collectFreeAll es bound acc hs h
  | .binary _ a b _ _, Γ, bound, acc, hs, h => by
    rcases b.of_mem_collectFree bound _ hs.2 h with h | h
    · exact a.of_mem_collectFree bound acc hs.1 h
    · exact .inr h
  | .unary _ e _, Γ, bound, acc, hs, h => e.of_mem_collectFree bound acc hs h
  | .cond c a b _ _, Γ, bound, acc, hs, h => by
    rcases b.of_mem_collectFree bound _ hs.2.2 h with h | h
    · rcases a.of_mem_collectFree bound _ hs.2.1 h with h | h
      · exact c.of_mem_collectFree bound acc hs.1 h
      · exact .inr h
    · exact .inr h
  | .call _ es _ _, Γ, bound, acc, hs, h => Exp.of_mem_collectFreeAll es bound acc hs h
  | .letIn p r b _, Γ, bound, acc, hs, h => by
    -- what the body uses is of the pattern or of the scope around the `let`
    rcases b.of_mem_collectFree _ _ hs.2 h with h | ⟨hb, h⟩
    · exact r.of_mem_collectFree bound acc hs.1 h
    · exact .inr (Scope.of_mem_enter hb h)
  | .update x z is v b _, Γ, bound, acc, hs, h => by
    rcases b.of_mem_collectFree _ _ hs.2.2.2 h with h | ⟨hb, h⟩
    · rcases v.of_mem_collectFree bound _ hs.2.2.1 h with h | h
      · rcases Exp.of_mem_collectFreeAll is bound _ hs.2.1 h with h | h
        · rcases of_mem_noteUse h with h | ⟨hb, rfl⟩
          · exact .inl h
          · exact .inr ⟨hb, hs.1⟩
        · exact .inr h
      · exact .inr h
    · exact .inr (Scope.of_mem_enter (p := [x]) hb h)
  | .index x is _, Γ, bound, acc, hs, h => by
    rcases Exp.of_mem_collectFreeAll is bound _ hs.2 h with h | h
    · rcases of_mem_noteUse h with h | ⟨hb, rfl⟩
      · exact .inl h
      · exact .inr ⟨hb, hs.1⟩
    · exact .inr h
  | .replicate n v _, Γ, bound, acc, hs, h => by
    rcases v.of_mem_collectFree bound _ hs.2 h with h | h
    · exact n.of_mem_collectFree bound acc hs.1 h
    · exact .inr h
  | .loop p is i n b r _, Γ, bound, acc, hs, h => by
    -- the uses were noted in order, so the last part is looked at first
    rcases r.of_mem_collectFree _ _ hs.2.2.2 h with h | ⟨hb, h⟩
    · rcases b.of_mem_collectFree _ _ hs.2.2.1 h with h | ⟨hb, h⟩
      · rcases n.of_mem_collectFree bound _ hs.2.1 h with h | h
        · exact Exp.of_mem_collectFreeAll is bound acc hs.1 h
        · exact .inr h
      · exact .inr (Scope.of_mem_enter (p := i :: p) hb h)
    · exact .inr (Scope.of_mem_enter hb h)
  | .soac op es cs _, Γ, bound, acc, hs, h => by
    rcases Exp.of_mem_collectFreeAll es bound _ hs.2.2 h with h | h
    · rcases op.of_mem_collectFree bound _ hs.2.1 h with h | h
      · rcases of_mem_noteUses cs acc h with h | ⟨hb, h⟩
        · exact .inl h
        · exact .inr ⟨hb, hs.1 _ h⟩
      · exact .inr h
    · exact .inr h

/-- What is collected from scoped expressions was noted before or is in scope, with the type it has
there. -/
theorem Exp.of_mem_collectFreeAll {y : Ident} : ∀ (es : List Exp) {Γ : Scope}
    (bound : List Name) (acc : List Ident), Exp.ScopedAll Γ es →
      y ∈ Exp.collectFreeAll bound acc es → y ∈ acc ∨ y.name ∉ bound ∧ y ∈ Γ
  | [], Γ, bound, acc, _, h => .inl h
  | e :: es, Γ, bound, acc, hs, h => by
    rcases Exp.of_mem_collectFreeAll es bound _ hs.2 h with h | h
    · exact e.of_mem_collectFree bound acc hs.1 h
    · exact .inr h

/-- What is collected from a scoped lambda was noted before or is in scope, with the type it has
there. -/
theorem Lambda.of_mem_collectFree {y : Ident} : ∀ (f : Lambda) {Γ : Scope} (bound : List Name)
    (acc : List Ident), f.Scoped Γ → y ∈ f.collectFree bound acc →
      y ∈ acc ∨ y.name ∉ bound ∧ y ∈ Γ
  | ⟨ps, b, _⟩, Γ, bound, acc, hs, h => by
    rcases b.of_mem_collectFree _ _ hs h with h | ⟨hb, h⟩
    · exact .inl h
    · exact .inr (Scope.of_mem_enter hb h)

/-- What is collected from a scoped combinator was noted before or is in scope, with the type it has
there. -/
theorem Combinator.of_mem_collectFree {y : Ident} : ∀ (op : Combinator) {Γ : Scope}
    (bound : List Name) (acc : List Ident), op.Scoped Γ → y ∈ op.collectFree bound acc →
      y ∈ acc ∨ y.name ∉ bound ∧ y ∈ Γ
  | .map f, Γ, bound, acc, hs, h => f.of_mem_collectFree bound acc hs h
  | .reduce f ne, Γ, bound, acc, hs, h => by
    rcases Exp.of_mem_collectFreeAll ne bound _ hs.2 h with h | h
    · exact f.of_mem_collectFree bound acc hs.1 h
    · exact .inr h
  | .scan f ne, Γ, bound, acc, hs, h => by
    rcases Exp.of_mem_collectFreeAll ne bound _ hs.2 h with h | h
    · exact f.of_mem_collectFree bound acc hs.1 h
    · exact .inr h
  | .filter p, Γ, bound, acc, hs, h => p.of_mem_collectFree bound acc hs h
  | .redomap f g ne, Γ, bound, acc, hs, h => by
    -- the neutral elements come last
    rcases Exp.of_mem_collectFreeAll ne bound _ hs.2.2 h with h | h
    · rcases g.of_mem_collectFree bound _ hs.2.1 h with h | h
      · exact f.of_mem_collectFree bound acc hs.1 h
      · exact .inr h
    · exact .inr h

end

/-- The free variables of a scoped lambda are identifiers of its scope. -/
theorem Lambda.of_mem_freeVars {f : Lambda} {Γ : Scope} (hs : f.Scoped Γ) {y : Ident}
    (h : y ∈ f.freeVars) : y ∈ Γ := by
  rcases f.of_mem_collectFree [] [] hs h with h | h
  · simp at h
  · exact h.2

mutual

/-- Without certificates there are no further free names. -/
theorem Exp.free_subset : ∀ e : Exp, e.free false ⊆ e.free true
  | .lit _ _ => subset_rfl
  | .var _ _ => subset_rfl
  | .tuple es _ => Exp.freeAll_subset es
  | .array es _ _ => Exp.freeAll_subset es
  | .binary _ a b _ _ => Set.union_subset_union a.free_subset b.free_subset
  | .unary _ e _ => e.free_subset
  | .cond c a b _ _ =>
    Set.union_subset_union c.free_subset (Set.union_subset_union a.free_subset b.free_subset)
  | .call _ es _ _ => Exp.freeAll_subset es
  | .letIn _ r b _ =>
    Set.union_subset_union r.free_subset (Set.sdiff_subset_sdiff_left b.free_subset)
  | .update _ _ is v b _ =>
    Set.union_subset_union_right _ (Set.union_subset_union (Exp.freeAll_subset is)
      (Set.union_subset_union v.free_subset (Set.sdiff_subset_sdiff_left b.free_subset)))
  | .index _ is _ => Set.union_subset_union_right _ (Exp.freeAll_subset is)
  | .replicate n v _ => Set.union_subset_union n.free_subset v.free_subset
  | .loop _ is _ n b r _ =>
    Set.union_subset_union (Exp.freeAll_subset is) (Set.union_subset_union n.free_subset
      (Set.union_subset_union (Set.sdiff_subset_sdiff_left b.free_subset)
        (Set.sdiff_subset_sdiff_left r.free_subset)))
  | .soac op es cs _ =>
    Set.union_subset_union (fun _ h => absurd h.1 (by simp))
      (Set.union_subset_union op.free_subset (Exp.freeAll_subset es))

/-- The names free in expressions apart from their certificates are free in them. -/
theorem Exp.freeAll_subset : ∀ es : List Exp, Exp.freeAll false es ⊆ Exp.freeAll true es
  | [] => subset_rfl
  | e :: es => Set.union_subset_union e.free_subset (Exp.freeAll_subset es)

/-- The names free in a lambda apart from its certificates are free in it. -/
theorem Lambda.free_subset : ∀ f : Lambda, f.free false ⊆ f.free true
  | ⟨_, b, _⟩ => Set.sdiff_subset_sdiff_left b.free_subset

/-- The names free in a combinator apart from its certificates are free in it. -/
theorem Combinator.free_subset : ∀ op : Combinator, op.free false ⊆ op.free true
  | .map f => f.free_subset
  | .reduce f ne => Set.union_subset_union f.free_subset (Exp.freeAll_subset ne)
  | .scan f ne => Set.union_subset_union f.free_subset (Exp.freeAll_subset ne)
  | .filter p => p.free_subset
  | .redomap f g ne =>
    Set.union_subset_union f.free_subset
      (Set.union_subset_union g.free_subset (Exp.freeAll_subset ne))

end

/-! ## Code that keeps to its scope -/

/-- The names are different, come from `B` and are new in `V`. -/
structure FreshIn (V B : Set Name) (xs : List Name) : Prop where
  nodup : xs.Nodup
  bound : ∀ x ∈ xs, x ∈ B
  new : ∀ x ∈ xs, x ∉ V

mutual

/-- All uses in an expression lie in `V`, and all binders in `B` and outside of what is in scope at
them. -/
def Exp.Tidy (certs : Bool) (B V : Set Name) : Exp → Prop
  | .lit _ _ => True
  | .var x _ => x.name ∈ V
  | .tuple es _ => Exp.TidyAll certs B V es
  | .array es _ _ => Exp.TidyAll certs B V es
  | .binary _ a b _ _ => a.Tidy certs B V ∧ b.Tidy certs B V
  | .unary _ e _ => e.Tidy certs B V
  | .cond c a b _ _ => c.Tidy certs B V ∧ a.Tidy certs B V ∧ b.Tidy certs B V
  | .call _ es _ _ => Exp.TidyAll certs B V es
  | .letIn p r b _ =>
    r.Tidy certs B V ∧ FreshIn V B p.names ∧ b.Tidy certs B (V ∪ p.nameSet)
  | .update x y is v b _ =>
    y.name ∈ V ∧ Exp.TidyAll certs B V is ∧ v.Tidy certs B V ∧ FreshIn V B [x.name]
      ∧ b.Tidy certs B (V ∪ Pattern.nameSet [x])
  | .index x is _ => x.name ∈ V ∧ Exp.TidyAll certs B V is
  | .replicate n v _ => n.Tidy certs B V ∧ v.Tidy certs B V
  | .loop p is i n b r _ =>
    Exp.TidyAll certs B V is ∧ n.Tidy certs B V ∧ FreshIn V B (i.name :: p.names)
      ∧ b.Tidy certs B (V ∪ Pattern.nameSet (i :: p)) ∧ r.Tidy certs B (V ∪ p.nameSet)
  | .soac op es cs _ =>
    (certs → ∀ x ∈ cs, x.name ∈ V) ∧ op.Tidy certs B V ∧ Exp.TidyAll certs B V es

/-- Each expression of the list keeps to its scope. -/
def Exp.TidyAll (certs : Bool) (B V : Set Name) : List Exp → Prop
  | [] => True
  | e :: es => e.Tidy certs B V ∧ Exp.TidyAll certs B V es

/-- A lambda keeps to its scope. -/
def Lambda.Tidy (certs : Bool) (B V : Set Name) : Lambda → Prop
  | ⟨ps, b, _⟩ => FreshIn V B (Pattern.names ps) ∧ b.Tidy certs B (V ∪ Pattern.nameSet ps)

/-- The lambdas and the neutral elements of a combinator keep to their scope. -/
def Combinator.Tidy (certs : Bool) (B V : Set Name) : Combinator → Prop
  | .map f => f.Tidy certs B V
  | .reduce f ne => f.Tidy certs B V ∧ Exp.TidyAll certs B V ne
  | .scan f ne => f.Tidy certs B V ∧ Exp.TidyAll certs B V ne
  | .filter p => p.Tidy certs B V
  | .redomap f g ne => f.Tidy certs B V ∧ g.Tidy certs B V ∧ Exp.TidyAll certs B V ne

end

mutual

/-- Code that keeps to its scope uses nothing else. -/
theorem Exp.Tidy.free_subset {c : Bool} {B V : Set Name} :
    ∀ {e : Exp}, e.Tidy c B V → e.free c ⊆ V
  | .lit _ _, _ => Set.empty_subset _
  | .var _ _, h => Set.singleton_subset_iff.2 h
  | .tuple _ _, h => Exp.TidyAll.free_subset h
  | .array _ _ _, h => Exp.TidyAll.free_subset h
  | .binary _ _ _ _ _, h => Set.union_subset h.1.free_subset h.2.free_subset
  | .unary _ e _, h => Exp.Tidy.free_subset (e := e) h
  | .cond _ _ _ _ _, h =>
    Set.union_subset h.1.free_subset (Set.union_subset h.2.1.free_subset h.2.2.free_subset)
  | .call _ _ _ _, h => Exp.TidyAll.free_subset h
  | .letIn _ _ _ _, h =>
    Set.union_subset h.1.free_subset (Set.sdiff_subset_iff.2 (by
      -- what the pattern binds is taken out again
      rw [Set.union_comm]
      exact h.2.2.free_subset))
  | .update _ _ _ _ _ _, h =>
    Set.union_subset (Set.singleton_subset_iff.2 h.1)
      (Set.union_subset (Exp.TidyAll.free_subset h.2.1) (Set.union_subset h.2.2.1.free_subset
        fun x hx => by
          rcases h.2.2.2.2.free_subset hx.1 with hv | hv
          · exact hv
          · simp [Pattern.names] at hv
            exact absurd hv hx.2))
  | .index _ _ _, h =>
    Set.union_subset (Set.singleton_subset_iff.2 h.1) (Exp.TidyAll.free_subset h.2)
  | .replicate _ _ _, h => Set.union_subset h.1.free_subset h.2.free_subset
  | .loop p _ i _ _ _ _, h =>
    Set.union_subset (Exp.TidyAll.free_subset h.1) (Set.union_subset h.2.1.free_subset
      (Set.union_subset
        (fun x hx => by
          -- the counter and the pattern are both taken out
          rcases h.2.2.2.1.free_subset hx.1 with hv | hv
          · exact hv
          · rcases List.mem_cons.1 hv with hv | hv
            · exact absurd (.inl hv) hx.2
            · exact absurd (.inr hv) hx.2)
        (Set.sdiff_subset_iff.2 (by
          rw [Set.union_comm]
          exact h.2.2.2.2.free_subset))))
  | .soac _ _ _ _, h =>
    Set.union_subset
      (fun x hx => by
        obtain ⟨y, hy, rfl⟩ := List.mem_map.1 hx.2
        exact h.1 hx.1 y hy)
      (Set.union_subset h.2.1.free_subset (Exp.TidyAll.free_subset h.2.2))

theorem Exp.TidyAll.free_subset {c : Bool} {B V : Set Name} :
    ∀ {es : List Exp}, Exp.TidyAll c B V es → Exp.freeAll c es ⊆ V
  | [], _ => Set.empty_subset _
  | _ :: _, h => Set.union_subset h.1.free_subset (Exp.TidyAll.free_subset h.2)

theorem Lambda.Tidy.free_subset {c : Bool} {B V : Set Name} :
    ∀ {f : Lambda}, f.Tidy c B V → f.free c ⊆ V
  | ⟨_, _, _⟩, h => Set.sdiff_subset_iff.2 (by
    rw [Set.union_comm]
    exact h.2.free_subset)

theorem Combinator.Tidy.free_subset {c : Bool} {B V : Set Name} :
    ∀ {op : Combinator}, op.Tidy c B V → op.free c ⊆ V
  | .map f, h => Lambda.Tidy.free_subset (f := f) h
  | .reduce _ _, h => Set.union_subset h.1.free_subset (Exp.TidyAll.free_subset h.2)
  | .scan _ _, h => Set.union_subset h.1.free_subset (Exp.TidyAll.free_subset h.2)
  | .filter f, h => Lambda.Tidy.free_subset (f := f) h
  | .redomap _ _ _, h =>
    Set.union_subset h.1.free_subset
      (Set.union_subset h.2.1.free_subset (Exp.TidyAll.free_subset h.2.2))

end

mutual

/-- Code that keeps to its scope binds names of `B` only. -/
theorem Exp.Tidy.binders_subset {c : Bool} {B V : Set Name} :
    ∀ {e : Exp}, e.Tidy c B V → ∀ x ∈ e.binders, x ∈ B
  | .lit _ _, _ => nofun
  | .var _ _, _ => nofun
  | .tuple _ _, h => Exp.TidyAll.binders_subset h
  | .array _ _ _, h => Exp.TidyAll.binders_subset h
  | .binary _ _ _ _ _, h => List.forall_mem_append.2 ⟨h.1.binders_subset, h.2.binders_subset⟩
  | .unary _ e _, h => Exp.Tidy.binders_subset (e := e) h
  | .cond _ _ _ _ _, h => List.forall_mem_append.2
    ⟨List.forall_mem_append.2 ⟨h.1.binders_subset, h.2.1.binders_subset⟩, h.2.2.binders_subset⟩
  | .call _ _ _ _, h => Exp.TidyAll.binders_subset h
  | .letIn _ _ _ _, h => List.forall_mem_append.2
    ⟨List.forall_mem_append.2 ⟨h.2.1.bound, h.1.binders_subset⟩, h.2.2.binders_subset⟩
  | .update _ _ _ _ _ _, h => List.forall_mem_cons.2 ⟨h.2.2.2.1.bound _ List.mem_cons_self,
    List.forall_mem_append.2 ⟨List.forall_mem_append.2 ⟨Exp.TidyAll.binders_subset h.2.1,
      h.2.2.1.binders_subset⟩, h.2.2.2.2.binders_subset⟩⟩
  | .index _ _ _, h => Exp.TidyAll.binders_subset h.2
  | .replicate _ _ _, h => List.forall_mem_append.2 ⟨h.1.binders_subset, h.2.binders_subset⟩
  | .loop _ _ _ _ _ _ _, h => by
    -- the counter is listed in front of the pattern
    have hbound := List.forall_mem_cons.1 h.2.2.1.bound
    exact List.forall_mem_cons.2 ⟨hbound.1, List.forall_mem_append.2 ⟨List.forall_mem_append.2
      ⟨List.forall_mem_append.2 ⟨List.forall_mem_append.2
        ⟨hbound.2, Exp.TidyAll.binders_subset h.1⟩,
        h.2.1.binders_subset⟩, h.2.2.2.1.binders_subset⟩, h.2.2.2.2.binders_subset⟩⟩
  | .soac _ _ _ _, h =>
    List.forall_mem_append.2 ⟨h.2.1.binders_subset, Exp.TidyAll.binders_subset h.2.2⟩

theorem Exp.TidyAll.binders_subset {c : Bool} {B V : Set Name} :
    ∀ {es : List Exp}, Exp.TidyAll c B V es → ∀ x ∈ Exp.bindersAll es, x ∈ B
  | [], _ => nofun
  | _ :: _, h => List.forall_mem_append.2 ⟨h.1.binders_subset, Exp.TidyAll.binders_subset h.2⟩

theorem Lambda.Tidy.binders_subset {c : Bool} {B V : Set Name} :
    ∀ {f : Lambda}, f.Tidy c B V → ∀ x ∈ f.binders, x ∈ B
  | ⟨_, _, _⟩, h => List.forall_mem_append.2 ⟨h.1.bound, h.2.binders_subset⟩

theorem Combinator.Tidy.binders_subset {c : Bool} {B V : Set Name} :
    ∀ {op : Combinator}, op.Tidy c B V → ∀ x ∈ op.binders, x ∈ B
  | .map f, h => Lambda.Tidy.binders_subset (f := f) h
  | .reduce _ _, h => List.forall_mem_append.2 ⟨h.1.binders_subset, Exp.TidyAll.binders_subset h.2⟩
  | .scan _ _, h => List.forall_mem_append.2 ⟨h.1.binders_subset, Exp.TidyAll.binders_subset h.2⟩
  | .filter f, h => Lambda.Tidy.binders_subset (f := f) h
  | .redomap _ _ _, h => List.forall_mem_append.2 ⟨List.forall_mem_append.2
    ⟨h.1.binders_subset, h.2.1.binders_subset⟩, Exp.TidyAll.binders_subset h.2.2⟩

end

/-- New names stay new in a scope that differs by no name of `B` in excess. -/
theorem FreshIn.change {B B' V V' : Set Name} {xs : List Name} (h : FreshIn V B xs) (hB : B ⊆ B')
    (hV : ∀ x ∈ V', x ∈ V ∨ x ∉ B) : FreshIn V' B' xs := by
  refine ⟨h.nodup, fun x hx => hB (h.bound x hx), fun x hx hxV => ?_⟩
  rcases hV x hxV with hv | hv
  · exact h.new x hx hv
  · exact hv (h.bound x hx)

/-- Names are in scope behind a pattern if those that it does not bind are in scope before. -/
theorem free_subset_union_of_diff {E V N : Set Name} (h : E \ N ⊆ V) : E ⊆ V ∪ N := by
  rw [Set.union_comm]
  exact Set.sdiff_subset_iff.1 h

/-- A scope that has no new binders has none behind a pattern either. -/
theorem mem_union_or {B V V' N : Set Name} (hV : ∀ x ∈ V', x ∈ V ∨ x ∉ B) :
    ∀ x ∈ V' ∪ N, x ∈ V ∪ N ∨ x ∉ B := by
  rintro x (hx | hx)
  · exact (hV x hx).imp_left .inl
  · exact .inl (.inr hx)

mutual

/-- Code that keeps to a scope keeps to any other that has the free names of the code and, beyond
the first one, no name that the code could bind. -/
theorem Exp.Tidy.change {c : Bool} {B B' : Set Name} (hB : B ⊆ B') :
    ∀ {e : Exp} {V V' : Set Name}, e.Tidy c B V → e.free c ⊆ V' → (∀ x ∈ V', x ∈ V ∨ x ∉ B) →
      e.Tidy c B' V'
  | .lit _ _, _, _, _, _, _ => trivial
  | .var _ _, _, _, _, hf, _ => Set.singleton_subset_iff.1 hf
  | .tuple _ _, _, _, h, hf, hV => Exp.TidyAll.change hB h hf hV
  | .array _ _ _, _, _, h, hf, hV => Exp.TidyAll.change hB h hf hV
  | .binary _ _ _ _ _, _, _, h, hf, hV =>
    have hf := Set.union_subset_iff.1 hf
    ⟨h.1.change hB hf.1 hV, h.2.change hB hf.2 hV⟩
  | .unary _ e _, _, _, h, hf, hV => Exp.Tidy.change hB (e := e) h hf hV
  | .cond _ _ _ _ _, _, _, h, hf, hV =>
    have hf := Set.union_subset_iff.1 hf
    have hf' := Set.union_subset_iff.1 hf.2
    ⟨h.1.change hB hf.1 hV, h.2.1.change hB hf'.1 hV, h.2.2.change hB hf'.2 hV⟩
  | .call _ _ _ _, _, _, h, hf, hV => Exp.TidyAll.change hB h hf hV
  | .letIn _ _ _ _, _, _, h, hf, hV =>
    have hf := Set.union_subset_iff.1 hf
    ⟨h.1.change hB hf.1 hV, h.2.1.change hB hV,
      -- behind the pattern both scopes have its names besides
      h.2.2.change hB (free_subset_union_of_diff hf.2) (mem_union_or hV)⟩
  | .update x _ _ _ _ _, _, _, h, hf, hV => by
    rw [Exp.free, Set.union_subset_iff, Set.union_subset_iff, Set.union_subset_iff,
      Set.singleton_subset_iff, ← Pattern.nameSet_singleton] at hf
    exact ⟨hf.1, Exp.TidyAll.change hB h.2.1 hf.2.1 hV, h.2.2.1.change hB hf.2.2.1 hV,
      h.2.2.2.1.change hB hV,
      h.2.2.2.2.change hB (free_subset_union_of_diff hf.2.2.2) (mem_union_or hV)⟩
  | .index _ _ _, _, _, h, hf, hV =>
    have hf := Set.union_subset_iff.1 hf
    ⟨Set.singleton_subset_iff.1 hf.1, Exp.TidyAll.change hB h.2 hf.2 hV⟩
  | .replicate _ _ _, _, _, h, hf, hV =>
    have hf := Set.union_subset_iff.1 hf
    ⟨h.1.change hB hf.1 hV, h.2.change hB hf.2 hV⟩
  | .loop p _ i _ _ _ _, _, _, h, hf, hV => by
    rw [Exp.free, Set.union_subset_iff, Set.union_subset_iff, Set.union_subset_iff,
      ← Pattern.nameSet_cons] at hf
    exact ⟨Exp.TidyAll.change hB h.1 hf.1 hV, h.2.1.change hB hf.2.1 hV, h.2.2.1.change hB hV,
      h.2.2.2.1.change hB (free_subset_union_of_diff hf.2.2.1) (mem_union_or hV),
      h.2.2.2.2.change hB (free_subset_union_of_diff hf.2.2.2) (mem_union_or hV)⟩
  | .soac _ _ _ _, _, _, h, hf, hV => by
    rw [Exp.free, Set.union_subset_iff, Set.union_subset_iff] at hf
    exact ⟨fun hc x hx => hf.1 ⟨hc, List.mem_map.2 ⟨x, hx, rfl⟩⟩, h.2.1.change hB hf.2.1 hV,
      Exp.TidyAll.change hB h.2.2 hf.2.2 hV⟩

/-- Tidy expressions stay tidy with more binders, in any scope that has their free names and no new
names that they may bind. -/
theorem Exp.TidyAll.change {c : Bool} {B B' : Set Name} (hB : B ⊆ B') :
    ∀ {es : List Exp} {V V' : Set Name}, Exp.TidyAll c B V es → Exp.freeAll c es ⊆ V' →
      (∀ x ∈ V', x ∈ V ∨ x ∉ B) → Exp.TidyAll c B' V' es
  | [], _, _, _, _, _ => trivial
  | _ :: _, _, _, h, hf, hV =>
    have hf := Set.union_subset_iff.1 hf
    ⟨h.1.change hB hf.1 hV, Exp.TidyAll.change hB h.2 hf.2 hV⟩

/-- A tidy lambda stays tidy with more binders, in any scope that has its free names and no new
names that it may bind. -/
theorem Lambda.Tidy.change {c : Bool} {B B' : Set Name} (hB : B ⊆ B') :
    ∀ {f : Lambda} {V V' : Set Name}, f.Tidy c B V → f.free c ⊆ V' → (∀ x ∈ V', x ∈ V ∨ x ∉ B) →
      f.Tidy c B' V'
  | ⟨_, _, _⟩, _, _, h, hf, hV =>
    ⟨h.1.change hB hV, h.2.change hB (free_subset_union_of_diff hf) (mem_union_or hV)⟩

/-- A tidy combinator stays tidy with more binders, in any scope that has its free names and no new
names that it may bind. -/
theorem Combinator.Tidy.change {c : Bool} {B B' : Set Name} (hB : B ⊆ B') :
    ∀ {op : Combinator} {V V' : Set Name}, op.Tidy c B V → op.free c ⊆ V' →
      (∀ x ∈ V', x ∈ V ∨ x ∉ B) → op.Tidy c B' V'
  | .map f, _, _, h, hf, hV => Lambda.Tidy.change hB (f := f) h hf hV
  | .reduce _ _, _, _, h, hf, hV =>
    have hf := Set.union_subset_iff.1 hf
    ⟨h.1.change hB hf.1 hV, Exp.TidyAll.change hB h.2 hf.2 hV⟩
  | .scan _ _, _, _, h, hf, hV =>
    have hf := Set.union_subset_iff.1 hf
    ⟨h.1.change hB hf.1 hV, Exp.TidyAll.change hB h.2 hf.2 hV⟩
  | .filter f, _, _, h, hf, hV => Lambda.Tidy.change hB (f := f) h hf hV
  | .redomap _ _ _, _, _, h, hf, hV =>
    have hf := Set.union_subset_iff.1 hf
    have hf' := Set.union_subset_iff.1 hf.2
    ⟨h.1.change hB hf.1 hV, h.2.1.change hB hf'.1 hV, Exp.TidyAll.change hB h.2.2 hf'.2 hV⟩

end

/-- The names of both parts are fresh, and different between the parts. -/
theorem FreshIn.append {V B : Set Name} {xs ys : List Name} (h : FreshIn V B (xs ++ ys)) :
    FreshIn V B xs ∧ FreshIn V B ys ∧ ∀ x ∈ xs, x ∉ ys := by
  obtain ⟨hx, hy, hxy⟩ := List.nodup_append.1 h.nodup
  exact ⟨⟨hx, fun x hx => h.bound x (List.mem_append_left _ hx),
      fun x hx => h.new x (List.mem_append_left _ hx)⟩,
    ⟨hy, fun x hx => h.bound x (List.mem_append_right _ hx),
      fun x hx => h.new x (List.mem_append_right _ hx)⟩, fun x hx hy => hxy x hx x hy rfl⟩

/-- The first name is fresh, so are the others, and it is none of them. -/
theorem FreshIn.cons {V B : Set Name} {x : Name} {xs : List Name} (h : FreshIn V B (x :: xs)) :
    FreshIn V B [x] ∧ FreshIn V B xs ∧ x ∉ xs := by
  obtain ⟨h₁, h₂, h₃⟩ := (show FreshIn V B ([x] ++ xs) from h).append
  exact ⟨h₁, h₂, h₃ x List.mem_cons_self⟩

/-- A fresh pattern and a name that is fresh behind it are fresh together. -/
theorem FreshIn.cons_enter {V B : Set Name} {i : Ident} {p : Pattern} (hp : FreshIn V B p.names)
    (hi : FreshIn (V ∪ p.nameSet) B (Pattern.names [i])) : FreshIn V B (i.name :: p.names) := by
  have hnew := hi.new _ List.mem_cons_self
  refine ⟨List.nodup_cons.2 ⟨fun h => hnew (.inr h), hp.nodup⟩, ?_, ?_⟩
  · rintro x (_ | ⟨_, hx⟩)
    · exact hi.bound _ List.mem_cons_self
    · exact hp.bound x hx
  · rintro x (_ | ⟨_, hx⟩)
    · exact fun h => hnew (.inl h)
    · exact hp.new x hx

/-- What is new in a scope and different from what is bound is new behind the binder. -/
theorem FreshIn.enter {V B : Set Name} {p : Pattern} {xs : List Name} (h : FreshIn V B xs)
    (hp : ∀ x ∈ p.names, x ∉ xs) : FreshIn (V ∪ p.nameSet) B xs := by
  refine ⟨h.nodup, h.bound, fun x hx hv => ?_⟩
  rcases hv with hv | hv
  · exact h.new x hx hv
  · exact hp x hv hx

mutual

/-- Code with distinct binders keeps to any scope that has its free names and none of its
binders. -/
theorem Exp.tidy {c : Bool} {B : Set Name} : ∀ {e : Exp} {V : Set Name}, e.free c ⊆ V →
    FreshIn V B e.binders → e.Tidy c B V
  | .lit _ _, _, _, _ => trivial
  | .var _ _, _, hf, _ => Set.singleton_subset_iff.1 hf
  | .tuple _ _, _, hf, hd => Exp.tidyAll hf hd
  | .array _ _ _, _, hf, hd => Exp.tidyAll hf hd
  | .binary _ _ _ _ _, _, hf, hd => by
    obtain ⟨hfa, hfb⟩ := Set.union_subset_iff.1 hf
    obtain ⟨ha, hb, -⟩ := hd.append
    exact ⟨Exp.tidy hfa ha, Exp.tidy hfb hb⟩
  | .unary _ e _, _, hf, hd => Exp.tidy (e := e) hf hd
  | .cond _ _ _ _ _, _, hf, hd => by
    obtain ⟨hfc, hfab⟩ := Set.union_subset_iff.1 hf
    obtain ⟨hfa, hfb⟩ := Set.union_subset_iff.1 hfab
    obtain ⟨hca, hb, -⟩ := hd.append
    obtain ⟨hc, ha, -⟩ := hca.append
    exact ⟨Exp.tidy hfc hc, Exp.tidy hfa ha, Exp.tidy hfb hb⟩
  | .call _ _ _ _, _, hf, hd => Exp.tidyAll hf hd
  | .letIn p _ _ _, _, hf, hd => by
    obtain ⟨hfr, hfb⟩ := Set.union_subset_iff.1 hf
    -- the pattern is fresh, and none of its names is bound again in the body
    obtain ⟨hpr, hb, hne⟩ := hd.append
    obtain ⟨hp, hr, -⟩ := hpr.append
    exact ⟨Exp.tidy hfr hr, hp, Exp.tidy (free_subset_union_of_diff hfb)
      (hb.enter fun x hx => hne x (List.mem_append_left _ hx))⟩
  | .update x _ _ _ _ _, _, hf, hd => by
    rw [Exp.free, Set.union_subset_iff, Set.union_subset_iff, Set.union_subset_iff,
      Set.singleton_subset_iff, ← Pattern.nameSet_singleton] at hf
    obtain ⟨hfy, hfi, hfv, hfb⟩ := hf
    -- the new name of the array is the first binder
    obtain ⟨hx, hrest, hne⟩ := hd.cons
    obtain ⟨hiv, hb, -⟩ := hrest.append
    obtain ⟨hi, hv, -⟩ := hiv.append
    refine ⟨hfy, Exp.tidyAll hfi hi, Exp.tidy hfv hv, hx,
      Exp.tidy (free_subset_union_of_diff hfb) (hb.enter fun z hz => ?_)⟩
    rw [List.mem_singleton.1 hz]
    exact fun h => hne (List.mem_append_right _ h)
  | .index _ _ _, _, hf, hd => by
    obtain ⟨hfx, hfi⟩ := Set.union_subset_iff.1 hf
    exact ⟨Set.singleton_subset_iff.1 hfx, Exp.tidyAll hfi hd⟩
  | .replicate _ _ _, _, hf, hd => by
    obtain ⟨hfn, hfv⟩ := Set.union_subset_iff.1 hf
    obtain ⟨hn, hv, -⟩ := hd.append
    exact ⟨Exp.tidy hfn hn, Exp.tidy hfv hv⟩
  | .loop p _ i _ _ _ _, V, hf, hd => by
    rw [Exp.free, Set.union_subset_iff, Set.union_subset_iff, Set.union_subset_iff,
      ← Pattern.nameSet_cons] at hf
    obtain ⟨hfi, hfn, hfb, hfr⟩ := hf
    obtain ⟨hi, hrest, hine⟩ := hd.cons
    obtain ⟨hpsnb, hr, hner⟩ := hrest.append
    obtain ⟨hpsn, hb, hneb⟩ := hpsnb.append
    obtain ⟨hps, hn, -⟩ := hpsn.append
    obtain ⟨hp, hs, -⟩ := hps.append
    -- the counter and the accumulators are bound together, in front of the body
    have hpi : FreshIn V B (i.name :: p.names) := by
      refine ⟨List.nodup_cons.2 ⟨fun h => hine ?_, hp.nodup⟩, ?_, ?_⟩
      · simp [h]
      · exact List.forall_mem_cons.2 ⟨hi.bound _ List.mem_cons_self, hp.bound⟩
      · exact List.forall_mem_cons.2 ⟨hi.new _ List.mem_cons_self, hp.new⟩
    refine ⟨Exp.tidyAll hfi hs, Exp.tidy hfn hn, hpi,
      Exp.tidy (free_subset_union_of_diff hfb) (hb.enter (p := i :: p) ?_),
      Exp.tidy (free_subset_union_of_diff hfr) (hr.enter fun x hx => hner x (by simp [hx]))⟩
    -- neither the counter nor an accumulator is bound again in the body
    rintro x (_ | ⟨_, hx⟩) hxb
    · exact hine (by simp [hxb])
    · exact hneb x (List.mem_append_left _ (List.mem_append_left _ hx)) hxb
  | .soac _ _ _ _, _, hf, hd => by
    rw [Exp.free, Set.union_subset_iff, Set.union_subset_iff] at hf
    obtain ⟨hfc, hfo, hfe⟩ := hf
    obtain ⟨hop, hes, -⟩ := hd.append
    exact ⟨fun hc x hx => hfc ⟨hc, List.mem_map_of_mem hx⟩, Combinator.tidy hfo hop,
      Exp.tidyAll hfe hes⟩

/-- Expressions are tidy whose free names are in scope and whose binders are fresh. -/
theorem Exp.tidyAll {c : Bool} {B : Set Name} : ∀ {es : List Exp} {V : Set Name},
    Exp.freeAll c es ⊆ V → FreshIn V B (Exp.bindersAll es) → Exp.TidyAll c B V es
  | [], _, _, _ => trivial
  | _ :: _, _, hf, hd => by
    obtain ⟨hfe, hfes⟩ := Set.union_subset_iff.1 hf
    obtain ⟨he, hes, -⟩ := hd.append
    exact ⟨Exp.tidy hfe he, Exp.tidyAll hfes hes⟩

/-- A lambda is tidy whose free names are in scope and whose binders are fresh. -/
theorem Lambda.tidy {c : Bool} {B : Set Name} : ∀ {f : Lambda} {V : Set Name}, f.free c ⊆ V →
    FreshIn V B f.binders → f.Tidy c B V
  | ⟨_, _, _⟩, _, hf, hd => by
    obtain ⟨hp, hb, hne⟩ := hd.append
    exact ⟨hp, Exp.tidy (free_subset_union_of_diff hf) (hb.enter hne)⟩

/-- A combinator is tidy whose free names are in scope and whose binders are fresh. -/
theorem Combinator.tidy {c : Bool} {B : Set Name} : ∀ {op : Combinator} {V : Set Name},
    op.free c ⊆ V → FreshIn V B op.binders → op.Tidy c B V
  | .map f, _, hf, hd => Lambda.tidy (f := f) hf hd
  | .reduce _ _, _, hf, hd => by
    obtain ⟨hff, hfne⟩ := Set.union_subset_iff.1 hf
    obtain ⟨hf, hne, -⟩ := hd.append
    exact ⟨Lambda.tidy hff hf, Exp.tidyAll hfne hne⟩
  | .scan _ _, _, hf, hd => by
    obtain ⟨hff, hfne⟩ := Set.union_subset_iff.1 hf
    obtain ⟨hf, hne, -⟩ := hd.append
    exact ⟨Lambda.tidy hff hf, Exp.tidyAll hfne hne⟩
  | .filter p, _, hf, hd => Lambda.tidy (f := p) hf hd
  | .redomap _ _ _, _, hf, hd => by
    obtain ⟨hff, hfgne⟩ := Set.union_subset_iff.1 hf
    obtain ⟨hfg, hfne⟩ := Set.union_subset_iff.1 hfgne
    obtain ⟨hfg', hne, -⟩ := hd.append
    obtain ⟨hf, hg, -⟩ := hfg'.append
    exact ⟨Lambda.tidy hff hf, Lambda.tidy hfg hg, Exp.tidyAll hfne hne⟩

end

/-- What is free in a scoped expression has a name of its scope. -/
theorem Exp.Scoped.free_subset {c : Bool} {e : Exp} {Γ : Scope} (hs : e.Scoped Γ) :
    e.free c ⊆ Γ.names := by
  have hfree : e.free true ⊆ Γ.names := by
    intro x hx
    obtain ⟨y, hy, rfl⟩ := List.mem_map.1 (e.mem_freeVars.2 hx)
    rcases e.of_mem_collectFree [] [] hs hy with h | h
    · cases h
    · exact ⟨y, h.2, rfl⟩
  cases c with
  | true => exact hfree
  | false => exact e.free_subset.trans hfree

theorem Lambda.Scoped.free_subset {c : Bool} {f : Lambda} {Γ : Scope} (hs : f.Scoped Γ) :
    f.free c ⊆ Γ.names := by
  have hfree : f.free true ⊆ Γ.names := by
    intro x hx
    obtain ⟨y, hy, rfl⟩ := List.mem_map.1 (f.mem_freeVars.2 hx)
    exact ⟨y, Lambda.of_mem_freeVars hs hy, rfl⟩
  cases c with
  | true => exact hfree
  | false => exact f.free_subset.trans hfree

/-- A scoped expression with distinct binders keeps to its scope. -/
theorem Exp.Scoped.tidy {c : Bool} {B : Set Name} {e : Exp} {Γ : Scope} (hs : e.Scoped Γ)
    (hd : FreshIn Γ.names B e.binders) : e.Tidy c B Γ.names :=
  Exp.tidy hs.free_subset hd

theorem Lambda.Scoped.tidy {c : Bool} {B : Set Name} {f : Lambda} {Γ : Scope} (hs : f.Scoped Γ)
    (hd : FreshIn Γ.names B f.binders) : f.Tidy c B Γ.names :=
  Lambda.tidy hs.free_subset hd

end ArrayFusion
