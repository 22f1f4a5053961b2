import ArrayFusion.Proofs.Exposure
import ArrayFusion.Proofs.ComposedLets

/-!
# Places in the code

A `Spot` is a piece of code with what is known where it stands: the names in scope there, and the
`let`s around it.  By `Spot.inner` one gets from a spot to those in it, down to all the spots that
it `Reaches`. What a `let` binds to a combinator is taken apart into what the combinator has to
compute, so that neither the combinator nor the operands that a kernel could read are spots.

The names that are bound in a piece of code with different binders are new wherever they are bound,
and they stay so (`Spot.Clear`): no `let` around a spot computes anything from a name that is bound
between them.  Two spots in which the same name is bound lie inside one another
(`Spot.Reaches.comparable`).
-/

namespace ArrayFusion

/-- What is known at a place in the code: the names in scope, and the `let`s around it. -/
structure Site where
  names : Set Name
  known : Set (Pattern × Exp)

namespace Site

/-- Behind a binder about which nothing is known. -/
def enter (Δ : Site) (p : Pattern) : Site := { Δ with names := Δ.names ∪ p.nameSet }

/-- Behind a `let`. -/
def bind (Δ : Site) (p : Pattern) (e : Exp) : Site :=
  { names := Δ.names ∪ p.nameSet, known := insert (p, e) Δ.known }

/-- What is known at the first site is known at the second one. -/
instance : LE Site := ⟨fun Δ Δ' => Δ.names ⊆ Δ'.names ∧ Δ.known ⊆ Δ'.known⟩

variable {Δ Δ' Δ'' : Site}

theorem le_refl (Δ : Site) : Δ ≤ Δ := ⟨subset_rfl, subset_rfl⟩

theorem le_trans (h : Δ ≤ Δ') (h' : Δ' ≤ Δ'') : Δ ≤ Δ'' := ⟨h.1.trans h'.1, h.2.trans h'.2⟩

/-- Behind parameters, nothing that was in scope or known is lost. -/
theorem le_enter (Δ : Site) (p : Pattern) : Δ ≤ Δ.enter p := ⟨Set.subset_union_left, subset_rfl⟩

/-- Behind a `let`, nothing that was in scope or known is lost. -/
theorem le_bind (Δ : Site) (p : Pattern) (e : Exp) : Δ ≤ Δ.bind p e :=
  ⟨Set.subset_union_left, Set.subset_insert _ _⟩

@[simp] theorem enter_nil (Δ : Site) : Δ.enter [] = Δ := by
  rw [enter, show Pattern.nameSet [] = ∅ from Set.eq_empty_of_forall_notMem fun _ =>
    List.not_mem_nil, Set.union_empty]

end Site

/-! ## Parts and their names -/

/-- The `let`s of a combinator are in its lambdas or in its neutral elements. -/
theorem Combinator.mem_lets_iff {op : Combinator} {l : Pattern × Exp} : l ∈ op.lets ↔
    (∃ f ∈ op.lambdas, l ∈ f.body.lets) ∨ ∃ e ∈ op.neutral, l ∈ e.lets := by
  cases op <;>
    simp [Combinator.lets, Combinator.lambdas, Combinator.neutral, Lambda.lets_eq, Exp.mem_letsAll,
      or_assoc]

namespace Exp

/-- What is used in a part and not bound around it is used in the expression. -/
theorem free_part (c : Bool) (e : Exp) : ∀ q ∈ e.parts, q.2.free c \ q.1.nameSet ⊆ e.free c := by
  intro q hq x hx
  cases e with
  | soac op es cs s =>
    simp only [parts, List.mem_append, List.mem_map] at hq
    rcases hq with (⟨f, hf, rfl⟩ | ⟨d, hd, rfl⟩) | ⟨d, hd, rfl⟩
    · obtain ⟨ps, b, ts⟩ := f
      exact .inr (.inl (Combinator.mem_free_iff.2 (.inl ⟨_, hf, hx⟩)))
    · exact .inr (.inl (Combinator.mem_free_iff.2 (.inr (mem_freeAll_iff.2 ⟨d, hd, hx.1⟩))))
    · exact .inr (.inr (mem_freeAll_iff.2 ⟨d, hd, hx.1⟩))
  | _ =>
    simp [parts, free, mem_freeAll_iff, Pattern.nameSet, Pattern.names] at hq hx ⊢ <;> grind

/-- The `let`s of a part are `let`s of the whole. -/
theorem lets_part (e : Exp) : ∀ q ∈ e.parts, q.2.lets ⊆ e.lets := by
  cases e <;>
    simp [parts, lets, List.subset_def, mem_letsAll, Combinator.mem_lets_iff] <;>
    grind

/-- What is bound in a part and around it is bound in the expression. -/
theorem binders_part (e : Exp) : ∀ q ∈ e.parts, q.1.names ++ q.2.binders ⊆ e.binders :=
  fun q hq x hx => List.count_pos_iff.1
    (Nat.lt_of_lt_of_le (List.count_pos_iff.2 hx) (e.count_binders_part x q hq))

/-- What an expression binds around a part is a slot of it, unless the expression is a `let`. -/
theorem slots_around_part (e : Exp) (hlet : ∀ p r b s, e ≠ .letIn p r b s) :
    ∀ q ∈ e.parts, q.1.names ⊆ e.slots := by
  cases e <;>
    simp [parts, slots, List.subset_def, Combinator.mem_slots, Pattern.names] at hlet ⊢ <;>
    grind

/-! ## Steps -/

/-- The expressions that the right-hand side of a `let` has to compute, each behind what is bound
around it.  The operands of a combinator are not among them. -/
def computed : Exp → List (Pattern × Exp)
  | .soac op es _ _ => op.lambdas.map (fun f => (f.params, f.body))
    ++ (op.neutral ++ es.flatMap Exp.inner).map ([], ·)
  | e => [([], e)]

/-- The names that an expression binds around what it has to compute. -/
def directs : Exp → List Name
  | .letIn p r _ _ => p.names ++ r.computed.flatMap (·.1.names)
  | .update x _ _ _ _ _ => [x.name]
  | .loop p _ i _ _ _ _ => Pattern.names (i :: p)
  | .soac op _ _ _ => op.lambdas.flatMap (Pattern.names ·.params)
  | _ => []

/-- What an operand computes is a part of it, with nothing in front. -/
theorem inner_parts (e : Exp) {d : Exp} (h : d ∈ e.inner) : ([], d) ∈ e.parts := by
  unfold inner at h
  split at h <;> simp_all [parts]

/-- What a right-hand side has to compute is the right-hand side, or a part of it, or a part of a
part. -/
theorem computed_cases {e : Exp} {q : Pattern × Exp} (h : q ∈ e.computed) :
    q = ([], e) ∨ q ∈ e.parts ∨ ∃ d, ([], d) ∈ e.parts ∧ q.1 = [] ∧ ([], q.2) ∈ d.parts := by
  unfold computed at h
  split at h
  · rename_i op es cs s
    simp only [List.mem_append, List.mem_map, List.mem_flatMap] at h
    rcases h with ⟨f, hf, rfl⟩ | ⟨d, hd | ⟨a, ha, hd⟩, rfl⟩
    · exact .inr (.inl (by simp [parts]; exact .inl ⟨f, hf, rfl, rfl⟩))
    · exact .inr (.inl (by simp [parts, hd]))
    · exact .inr (.inr ⟨a, by simp [parts, ha], rfl, a.inner_parts hd⟩)
  · exact .inl (List.mem_singleton.1 h)

/-- A list of expressions binds what its members bind. -/
theorem bindersAll_eq (es : List Exp) : bindersAll es = es.flatMap (·.binders) := by
  induction es with
  | nil => rfl
  | cons e es ih => rw [bindersAll, List.flatMap_cons, ih]

/-- What the operands compute binds nothing that the operands do not bind. -/
theorem count_binders_inner (es : List Exp) (x : Name) :
    ((es.flatMap Exp.inner).flatMap (·.binders)).count x ≤ (bindersAll es).count x := by
  induction es with
  | nil => exact Nat.le_refl _
  | cons e es ih =>
    have hhead : (e.inner.flatMap (·.binders)).count x ≤ e.binders.count x := by
      unfold inner
      split
      · exact Nat.le_of_eq (congrArg (List.count x) (bindersAll_eq _).symm)
      · simp [binders]
      · exact Nat.zero_le _
    rw [List.flatMap_cons, List.flatMap_append, List.count_append, bindersAll, List.count_append]
    exact Nat.add_le_add hhead ih

end Exp

/-- A combinator binds its parameters, and what its lambdas and its neutral elements bind. -/
theorem Combinator.count_binders_eq (op : Combinator) (x : Name) : op.binders.count x
    = (op.lambdas.flatMap fun f => Pattern.names f.params).count x
      + (op.lambdas.flatMap fun f => f.body.binders).count x
      + (op.neutral.flatMap (·.binders)).count x := by
  cases op <;>
    simp [Combinator.binders, Combinator.lambdas, Combinator.neutral, Lambda.binders_eq,
      Exp.bindersAll_eq] <;>
    omega

namespace Exp

/-- What is bound around and in what a right-hand side has to compute is bound in it. -/
theorem count_computed (e : Exp) (x : Name) :
    (e.computed.flatMap (·.1.names)).count x + (e.computed.flatMap (·.2.binders)).count x
      ≤ e.binders.count x := by
  cases e with
  | soac op es cs s =>
    have hinner := count_binders_inner es x
    have hnil : ∀ es : List Exp, (es.map (([], ·) : Exp → Pattern × Exp)).flatMap
        (·.1.names) = [] :=
      fun es => by simp [List.flatMap_eq_nil_iff, Pattern.names]
    simp only [computed, binders, op.count_binders_eq, List.flatMap_append, List.map_append, hnil,
      List.flatMap_map, List.count_append, bindersAll_eq, List.count_nil] at hinner ⊢
    omega
  | _ => simp [computed, Pattern.names]

/-- What an expression binds around its parts, and in them, it binds. -/
theorem count_parts (e : Exp) (x : Name) (hlet : ∀ p r b s, e ≠ .letIn p r b s) :
    e.directs.count x + (e.parts.flatMap (·.2.binders)).count x ≤ e.binders.count x := by
  cases e with
  | letIn p r b s => exact absurd rfl (hlet p r b s)
  | soac op es cs s =>
    simp only [directs, parts, binders, op.count_binders_eq, List.flatMap_append, List.flatMap_map,
      List.count_append, bindersAll_eq]
    omega
  | _ =>
    simp [directs, parts, binders, bindersAll_eq, List.flatMap_map, Pattern.names, List.count_cons]
    try omega

/-- What stands in front of a computed part are slots. -/
theorem slots_computed (e : Exp) : ∀ q ∈ e.computed, q.1.names ⊆ e.slots := by
  intro q hq x hx
  cases e with
  | soac op es cs s =>
    simp only [computed, List.mem_append, List.mem_map] at hq
    rcases hq with ⟨f, hf, rfl⟩ | ⟨d, -, rfl⟩
    · exact List.mem_append_left _ (Combinator.mem_slots.2 (.inl ⟨f, hf, .inl hx⟩))
    · cases hx
  | _ =>
    rw [List.mem_singleton.1 hq] at hx
    cases hx

/-- What stands in front of a part is bound directly, unless that is a `let`. -/
theorem directs_parts (e : Exp) (hlet : ∀ p r b s, e ≠ .letIn p r b s) :
    ∀ q ∈ e.parts, q.1.names ⊆ e.directs := by
  cases e <;>
    simp [parts, directs, List.subset_def, Pattern.names] at hlet ⊢ <;>
    grind

end Exp

/-! ## Spots -/

/-- A piece of code, and what is known where it stands. -/
structure Spot where
  site : Site
  code : Exp

namespace Spot

/-- The spots that stand directly in a spot. -/
def inner (o : Spot) : List Spot :=
  match o.code with
  | .letIn p r b _ => r.computed.map (fun q => ⟨o.site.enter q.1, q.2⟩) ++ [⟨o.site.bind p r, b⟩]
  | e => e.parts.map fun q => ⟨o.site.enter q.1, q.2⟩

/-- The second spot stands somewhere in the first one. -/
def Reaches : Spot → Spot → Prop := Relation.ReflTransGen fun o o' => o' ∈ o.inner

/-- What is reached from a reached spot is reached. -/
theorem Reaches.trans {o o' o'' : Spot} (h : o.Reaches o') (h' : o'.Reaches o'') : o.Reaches o'' :=
  Relation.ReflTransGen.trans h h'

/-- What is inside of a reached spot is reached. -/
theorem Reaches.tail {o o' o'' : Spot} (h : o.Reaches o') (h' : o'' ∈ o'.inner) : o.Reaches o'' :=
  Relation.ReflTransGen.tail h h'

/-- The spots in a spot, by what stands there. -/
theorem inner_cases {o o' : Spot} (h : o' ∈ o.inner) :
    (∃ p r b s, o.code = .letIn p r b s ∧ ((∃ q ∈ r.computed, o' = ⟨o.site.enter q.1, q.2⟩)
        ∨ o' = ⟨o.site.bind p r, b⟩))
      ∨ (∀ p r b s, o.code ≠ .letIn p r b s)
        ∧ ∃ q ∈ o.code.parts, o' = ⟨o.site.enter q.1, q.2⟩ := by
  unfold inner at h
  split at h
  · rename_i p r b s heq
    refine .inl ⟨p, r, b, s, heq, ?_⟩
    rcases List.mem_append.1 h with h | h
    · obtain ⟨q, hq, rfl⟩ := List.mem_map.1 h
      exact .inl ⟨q, hq, rfl⟩
    · exact .inr (List.mem_singleton.1 h)
  · rename_i e hlet
    obtain ⟨q, hq, rfl⟩ := List.mem_map.1 h
    exact .inr ⟨hlet, q, hq, rfl⟩

/-- The parts of an expression that is no `let` are inside of it. -/
theorem inner_part {o : Spot} (hlet : ∀ p r b s, o.code ≠ .letIn p r b s) {q : Pattern × Exp}
    (hq : q ∈ o.code.parts) : ⟨o.site.enter q.1, q.2⟩ ∈ o.inner := by
  unfold inner
  split
  · rename_i heq
    exact absurd heq (hlet _ _ _ _)
  · exact List.mem_map.2 ⟨q, hq, rfl⟩

/-- What the right-hand side of a `let` computes is inside of the `let`. -/
theorem inner_computed {Δ : Site} {p : Pattern} {r b : Exp} {s : Span} {q : Pattern × Exp}
    (hq : q ∈ r.computed) : (⟨Δ.enter q.1, q.2⟩ : Spot) ∈ inner ⟨Δ, .letIn p r b s⟩ :=
  List.mem_append_left _ (List.mem_map.2 ⟨q, hq, rfl⟩)

/-- The body of a `let` is inside of it, where the `let` is known. -/
theorem inner_body {Δ : Site} {p : Pattern} {r b : Exp} {s : Span} :
    (⟨Δ.bind p r, b⟩ : Spot) ∈ inner ⟨Δ, .letIn p r b s⟩ :=
  List.mem_append_right _ List.mem_cons_self

/-! ## Names in scope -/

/-- What the code binds is new where it stands, and all different, and a `let` around it computes
what it binds from names in scope, with binders of its own. -/
structure Clear (o : Spot) : Prop where
  uses : o.code.free false ⊆ o.site.names
  nodup : o.code.binders.Nodup
  new : ∀ x ∈ o.code.binders, x ∉ o.site.names
  bound : ∀ l ∈ o.site.known, (∀ x ∈ l.1.names, x ∈ o.site.names) ∧ l.2.free false ⊆ o.site.names
  apart : ∀ l ∈ o.site.known, ∀ x ∈ l.2.binders, x ∉ o.site.names ∧ x ∉ o.code.binders

/-- A part of clear code is clear behind what stands in front of it. -/
theorem Clear.part {o : Spot} (h : o.Clear) {q : Pattern × Exp} (hq : q ∈ o.code.parts) :
    Clear ⟨o.site.enter q.1, q.2⟩ := by
  have hbinders := o.code.binders_part q hq
  -- the names around the part and those inside it are different binders of the code
  have hnodup := Exp.nodup_part h.nodup hq
  obtain ⟨-, hnodup', hne⟩ := List.nodup_append.1 hnodup
  refine ⟨fun x hx => ?_, hnodup', fun x hx => ?_, fun l hl =>
    ⟨fun x hx => .inl ((h.bound l hl).1 x hx),
    (h.bound l hl).2.trans Set.subset_union_left⟩, fun l hl x hx => ⟨?_, fun hin => ?_⟩⟩
  · -- what the part uses is bound around it or was in scope
    by_cases hin : x ∈ q.1.names
    · exact .inr hin
    · exact .inl (h.uses (o.code.free_part false q hq ⟨hx, hin⟩))
  · rintro (hin | hin)
    · exact h.new x (hbinders (List.mem_append_right _ hx)) hin
    · exact hne x hin x hx rfl
  · rintro (hin | hin)
    · exact (h.apart l hl x hx).1 hin
    · exact (h.apart l hl x hx).2 (hbinders (List.mem_append_left _ hin))
  · exact (h.apart l hl x hx).2 (hbinders (List.mem_append_right _ hin))

/-- Behind a `let` its right-hand side is known. -/
theorem Clear.body {o : Spot} {p : Pattern} {r b : Exp} {s : Span} (h : o.Clear)
    (hcode : o.code = .letIn p r b s) : Clear ⟨o.site.bind p r, b⟩ := by
  obtain ⟨site, code⟩ := o
  cases hcode
  have hpart := h.part (q := (p, b)) (by simp [Exp.parts])
  have hnodup : (p.names ++ r.binders ++ b.binders).Nodup := h.nodup
  obtain ⟨hnodup, -, hne⟩ := List.nodup_append.1 hnodup
  obtain ⟨-, -, hne'⟩ := List.nodup_append.1 hnodup
  refine ⟨hpart.uses, hpart.nodup, hpart.new, ?_, ?_⟩
  · -- the `let` itself is known to its body, with what it binds
    rintro l (rfl | hl)
    · exact ⟨fun x hx => .inr hx, fun x hx => .inl (h.uses (.inl hx))⟩
    · exact hpart.bound l hl
  · -- what is bound inside of its right-hand side is neither in scope nor bound again
    rintro l (rfl | hl) x hx
    · refine ⟨?_, fun hin => hne x (List.mem_append_right _ hx) x hin rfl⟩
      rintro (hin | hin)
      · refine h.new x ?_ hin
        exact List.mem_append_left _ (List.mem_append_right _ hx)
      · exact hne' x hin x hx rfl
    · exact hpart.apart l hl x hx

/-- What a clear `let` computes is clear. -/
theorem Clear.computed {o : Spot} {p : Pattern} {r b : Exp} {s : Span} (h : o.Clear)
    (hcode : o.code = .letIn p r b s) {q : Pattern × Exp} (hq : q ∈ r.computed) :
    Clear ⟨o.site.enter q.1, q.2⟩ := by
  have hr := h.part (q := ([], r)) (by simp [hcode, Exp.parts])
  rw [Site.enter_nil] at hr
  rcases Exp.computed_cases hq with rfl | hq | ⟨d, hd, hnil, hq⟩
  · simpa using hr
  · exact hr.part hq
  · have hd := hr.part hd
    rw [Site.enter_nil] at hd
    have := hd.part hq
    rwa [hnil]

/-- What is inside of clear code is clear. -/
theorem Clear.inner {o o' : Spot} (h : o.Clear) (ho : o' ∈ o.inner) : o'.Clear := by
  rcases inner_cases ho with ⟨p, r, b, s, hcode, ⟨q, hq, rfl⟩ | rfl⟩ | ⟨-, q, hq, rfl⟩
  · exact h.computed hcode hq
  · exact h.body hcode
  · exact h.part hq

/-- What is reached from clear code is clear. -/
theorem Clear.reaches {o o' : Spot} (h : o.Clear) (ho : o.Reaches o') : o'.Clear := by
  induction ho with
  | refl => exact h
  | tail _ hin ih => exact ih.inner hin

/-! ## What spots have from the spot that they stand in -/

/-- What an expression has from its parts, a spot has from the spots in it. -/
theorem subset_inner {α : Type} {F : Exp → List α} (hF : ∀ e : Exp, ∀ q ∈ e.parts, F q.2 ⊆ F e)
    {o o' : Spot} (ho : o' ∈ o.inner) : F o'.code ⊆ F o.code := by
  rcases inner_cases ho with ⟨p, r, b, s, hcode, ⟨q, hq, rfl⟩ | rfl⟩ | ⟨-, q, hq, rfl⟩
  · have hr : F r ⊆ F o.code := hF o.code ([], r) (by simp [hcode, Exp.parts])
    rcases Exp.computed_cases hq with rfl | hq | ⟨d, hd, -, hq⟩
    · exact hr
    · exact List.Subset.trans (hF r q hq) hr
    · exact List.Subset.trans (hF d ([], q.2) hq) (List.Subset.trans (hF r _ hd) hr)
  · exact hF o.code (p, b) (by simp [hcode, Exp.parts])
  · exact hF o.code q hq

/-- What the parts have no more of than the whole, a reached spot has no more of. -/
theorem subset_reaches {α : Type} {F : Exp → List α} (hF : ∀ e : Exp, ∀ q ∈ e.parts, F q.2 ⊆ F e)
    {o o' : Spot} (ho : o.Reaches o') : F o'.code ⊆ F o.code := by
  induction ho with
  | refl => exact List.Subset.refl _
  | tail _ hin ih => exact List.Subset.trans (subset_inner hF hin) ih

/-- What a part exposes, the whole exposes, unless that is a `let`. -/
theorem exposed_part (e : Exp) (hlet : ∀ p r b s, e ≠ .letIn p r b s) :
    ∀ q ∈ e.parts, q.2.exposed false ⊆ e.exposed false := by
  intro q hq x hx
  cases e with
  | letIn p r b s => exact absurd rfl (hlet p r b s)
  | soac op es cs s =>
    simp only [Exp.parts, List.mem_append, List.mem_map] at hq
    rcases hq with (⟨f, hf, rfl⟩ | ⟨d, hd, rfl⟩) | ⟨a, ha, rfl⟩
    · exact .inl (Combinator.mem_exposed.2 (.inl ⟨f, hf, by rw [Lambda.exposed_eq]; exact .inl hx⟩))
    · exact .inl (Combinator.mem_exposed.2 (.inr (Exp.mem_exposedAll.2 ⟨d, hd, hx⟩)))
    · exact .inr (Exp.mem_exposedAll.2 ⟨a, ha, hx⟩)
  | _ => simp [Exp.parts, Exp.exposed, Exp.mem_exposedAll] at hq ⊢ <;> grind

/-- What a computed part exposes, the whole exposes where a `let` binds it. -/
theorem exposed_computed (e : Exp) : ∀ q ∈ e.computed, q.2.exposed false ⊆ e.exposed true := by
  intro q hq x hx
  cases e with
  | soac op es cs s =>
    simp only [Exp.computed, List.mem_append, List.mem_map, List.mem_flatMap] at hq
    rcases hq with ⟨f, hf, rfl⟩ | ⟨d, hd | ⟨a, ha, hd⟩, rfl⟩
    · exact .inl (Combinator.mem_exposed.2 (.inl ⟨f, hf, by rw [Lambda.exposed_eq]; exact .inl hx⟩))
    · exact .inl (Combinator.mem_exposed.2 (.inr (Exp.mem_exposedAll.2 ⟨d, hd, hx⟩)))
    · exact .inr (Exp.exposed_inner ha hd hx)
  | _ =>
    rw [List.mem_singleton.1 hq] at hx
    exact hx

/-- What is exposed inside is exposed outside. -/
theorem exposed_inner {o o' : Spot} (ho : o' ∈ o.inner) :
    o'.code.exposed false ⊆ o.code.exposed false := by
  rcases inner_cases ho with ⟨p, r, b, s, hcode, ⟨q, hq, rfl⟩ | rfl⟩ | ⟨hlet, q, hq, rfl⟩
  · rw [hcode]
    exact (exposed_computed r q hq).trans Set.subset_union_left
  · rw [hcode]
    exact Set.subset_union_right
  · exact exposed_part o.code hlet q hq

/-- What is bound directly and what is bound inside is bound by the code, and not twice. -/
theorem count_inner (o : Spot) (x : Name) :
    o.code.directs.count x + (o.inner.flatMap (·.code.binders)).count x ≤
      o.code.binders.count x := by
  obtain ⟨Δ, e⟩ := o
  -- a `let` has its own way inside, since its right-hand side is looked into at once
  by_cases hlet : ∃ p r b s, e = .letIn p r b s
  · obtain ⟨p, r, b, s, rfl⟩ := hlet
    have hcomputed := r.count_computed x
    simp only [inner, Exp.directs, Exp.binders, List.flatMap_append, List.flatMap_map,
      List.flatMap_singleton, List.count_append]
    omega
  · have hlet : ∀ p r b s, e ≠ .letIn p r b s := fun p r b s h => hlet ⟨p, r, b, s, h⟩
    have hinner : inner ⟨Δ, e⟩ = e.parts.map fun q => ⟨Δ.enter q.1, q.2⟩ := by
      unfold inner
      split
      · rename_i heq
        exact absurd heq (hlet _ _ _ _)
      · rfl
    rw [hinner, List.flatMap_map]
    exact e.count_parts x hlet

/-- The names in scope inside are those in scope outside, and those that are bound directly. -/
theorem names_inner {o o' : Spot} (ho : o' ∈ o.inner) :
    ∀ x ∈ o'.site.names, x ∈ o.site.names ∨ x ∈ o.code.directs := by
  rcases inner_cases ho with ⟨p, r, b, s, hcode, ⟨q, hq, rfl⟩ | rfl⟩ | ⟨hlet, q, hq, rfl⟩
  · rintro x (hx | hx)
    · exact .inl hx
    · rw [hcode]
      exact .inr (List.mem_append_right _ (List.mem_flatMap.2 ⟨q, hq, hx⟩))
  · rintro x (hx | hx)
    · exact .inl hx
    · rw [hcode]
      exact .inr (List.mem_append_left _ hx)
  · rintro x (hx | hx)
    · exact .inl hx
    · exact .inr (o.code.directs_parts hlet q hq hx)

/-- Inside, nothing that was in scope or known is lost. -/
theorem site_inner {o o' : Spot} (ho : o' ∈ o.inner) : o.site ≤ o'.site := by
  rcases inner_cases ho with ⟨p, r, b, s, hcode, ⟨q, hq, rfl⟩ | rfl⟩ | ⟨hlet, q, hq, rfl⟩
  · exact Site.le_enter _ _
  · exact Site.le_bind _ _ _
  · exact Site.le_enter _ _

/-- What is bound directly is bound. -/
theorem mem_binders_of_directs {o : Spot} {x : Name} (hx : x ∈ o.code.directs) :
    x ∈ o.code.binders := by
  have := o.count_inner x
  have := List.count_pos_iff.2 hx
  exact List.count_pos_iff.1 (by omega)

section

variable {o o' : Spot} (h : o.Reaches o')
include h

/-- What is bound at a reached spot is bound. -/
theorem Reaches.binders : o'.code.binders ⊆ o.code.binders := subset_reaches
  (fun e q hq _ hx => e.binders_part q hq (List.mem_append_right _ hx)) h

theorem Reaches.slots : o'.code.slots ⊆ o.code.slots := subset_reaches (fun e => e.slots_part) h

/-- The `let`s at a reached spot are `let`s of the code. -/
theorem Reaches.lets : o'.code.lets ⊆ o.code.lets := subset_reaches (fun e => e.lets_part) h

theorem Reaches.exposed : o'.code.exposed false ⊆ o.code.exposed false := by
  induction h with
  | refl => exact subset_rfl
  | tail _ hin ih => exact (exposed_inner hin).trans ih

/-- A name in scope at a spot is in scope at the spot that it stands in, or it is bound there. -/
theorem Reaches.names : ∀ x ∈ o'.site.names, x ∈ o.site.names ∨ x ∈ o.code.binders := by
  induction h with
  | refl => exact fun x hx => .inl hx
  | tail hreach hin ih =>
    intro x hx
    rcases names_inner hin x hx with hx | hx
    · exact ih x hx
    · exact .inr (Reaches.binders hreach (mem_binders_of_directs hx))

/-- A `let` that is known at a spot is known at the spot that it stands in, or its spot stands
there. -/
theorem Reaches.known : ∀ l ∈ o'.site.known, l ∈ o.site.known ∨ ∃ Δ b s,
    o.Reaches ⟨Δ, .letIn l.1 l.2 b s⟩ ∧ Δ.bind l.1 l.2 ≤ o'.site := by
  induction h with
  | refl => exact fun l hl => .inl hl
  | @tail o₁ o₂ hreach hin ih =>
    intro l hl
    have hle := site_inner hin
    rcases inner_cases hin with ⟨p, r, b, s, hcode, ⟨q, hq, rfl⟩ | rfl⟩ | ⟨hlet, q, hq, rfl⟩
    · exact (ih l hl).imp_right fun ⟨Δ, b, s, hl, hle'⟩ => ⟨Δ, b, s, hl, Site.le_trans hle' hle⟩
    · rcases hl with rfl | hl
      · obtain ⟨Δ, e⟩ := o₁
        cases hcode
        exact .inr ⟨Δ, b, s, hreach, Site.le_refl _⟩
      · exact (ih l hl).imp_right fun ⟨Δ, b, s, hl, hle'⟩ => ⟨Δ, b, s, hl, Site.le_trans hle' hle⟩
    · exact (ih l hl).imp_right fun ⟨Δ, b, s, hl, hle'⟩ => ⟨Δ, b, s, hl, Site.le_trans hle' hle⟩

/-- A name in scope at a spot was so before, or it is bound by a `let` that is known there, or it is
bound in some other way. -/
theorem Reaches.names_cases : ∀ x ∈ o'.site.names, x ∈ o.site.names ∨ x ∈ o.code.slots
    ∨ ∃ l ∈ o'.site.known, x ∈ l.1.names := by
  induction h with
  | refl => exact fun x hx => .inl hx
  | @tail o₁ o₂ hreach hin ih =>
    intro x hx
    have hold : x ∈ o₁.site.names → x ∈ o.site.names ∨ x ∈ o.code.slots
        ∨ ∃ l ∈ o₂.site.known, x ∈ l.1.names := fun hx =>
      (ih x hx).imp_right fun h => h.imp_right fun ⟨l, hl, hx⟩ => ⟨l, (site_inner hin).2 hl, hx⟩
    have hslots := Reaches.slots hreach
    -- a name in scope is new by the last step only, and that is a binder or a known `let`
    rcases inner_cases hin with ⟨p, r, b, s, hcode, ⟨q, hq, rfl⟩ | rfl⟩ | ⟨hlet, q, hq, rfl⟩
    · rcases hx with hx | hx
      · exact hold hx
      · refine .inr (.inl (hslots ?_))
        rw [hcode]
        exact List.mem_append_left _ (r.slots_computed q hq hx)
    · rcases hx with hx | hx
      · exact hold hx
      · exact .inr (.inr ⟨(p, r), .inl rfl, hx⟩)
    · rcases hx with hx | hx
      · exact hold hx
      · exact .inr (.inl (hslots (o₁.code.slots_around_part hlet q hq hx)))

end

/-! ## Spots with a common binder -/

section

variable {o : Spot} (hclear : o.Clear)
include hclear

/-- Only one of the spots in a spot binds a name. -/
theorem Clear.eq_of_mem_inner {o₁ o₂ : Spot} (h₁ : o₁ ∈ o.inner) (h₂ : o₂ ∈ o.inner) {x : Name}
    (hx₁ : x ∈ o₁.code.binders) (hx₂ : x ∈ o₂.code.binders) : o₁ = o₂ := by
  have hnodup : (o.inner.flatMap fun o => o.code.binders).Nodup :=
    List.nodup_iff_count_le_one.2 fun y => by
      have hcount := o.count_inner y
      have hone := List.nodup_iff_count_le_one.1 hclear.nodup y
      omega
  exact eq_of_mem_flatMap hnodup h₁ h₂ hx₁ hx₂

/-- What a spot binds around those in it is not bound in them. -/
theorem Clear.notMem_inner {o₁ : Spot} (h₁ : o₁ ∈ o.inner) {x : Name} (hx : x ∈ o.code.directs) :
    x ∉ o₁.code.binders := by
  intro hx₁
  have hcount := o.count_inner x
  have hone := List.nodup_iff_count_le_one.1 hclear.nodup x
  have hdirect := List.count_pos_iff.2 hx
  have hmem : x ∈ o.inner.flatMap (·.code.binders) := List.mem_flatMap.2 ⟨o₁, h₁, hx₁⟩
  have hinner := List.count_pos_iff.2 hmem
  omega

/-- Two spots in which the same name is bound lie inside one another. -/
theorem Clear.comparable {o₁ o₂ : Spot} (h₁ : o.Reaches o₁) (h₂ : o.Reaches o₂) {x : Name}
    (hx₁ : x ∈ o₁.code.binders) (hx₂ : x ∈ o₂.code.binders) : o₁.Reaches o₂ ∨ o₂.Reaches o₁ := by
  induction h₁ with
  | refl => exact .inl h₂
  | @tail o' o₁ hreach hin ih =>
    rcases ih (Reaches.binders (Relation.ReflTransGen.single hin) hx₁) with h | h
    · rcases Relation.ReflTransGen.cases_head h with rfl | ⟨o'', hin', h⟩
      · exact .inr (Relation.ReflTransGen.single hin)
      · rw [(hclear.reaches hreach).eq_of_mem_inner hin hin' hx₁ (Reaches.binders h hx₂)]
        exact .inl h
    · exact .inr (h.tail hin)

/-- A name is bound around something at one spot only. -/
theorem Clear.eq_of_directs {o₁ o₂ : Spot} (h₁ : o.Reaches o₁) (h₂ : o.Reaches o₂) {x : Name}
    (hx₁ : x ∈ o₁.code.directs) (hx₂ : x ∈ o₂.code.directs) : o₁ = o₂ := by
  have hinside : ∀ {o₁ o₂ : Spot}, o.Reaches o₁ → x ∈ o₁.code.directs → x ∈ o₂.code.directs →
      o₁.Reaches o₂ → o₁ = o₂ := by
    intro o₁ o₂ h₁ hx₁ hx₂ h
    rcases Relation.ReflTransGen.cases_head h with heq | ⟨o', hin, h⟩
    · exact heq
    · exact absurd (Reaches.binders h (mem_binders_of_directs hx₂))
        ((hclear.reaches h₁).notMem_inner hin hx₁)
  rcases hclear.comparable h₁ h₂ (mem_binders_of_directs hx₁)
    (mem_binders_of_directs hx₂) with h | h
  · exact hinside h₁ hx₁ hx₂ h
  · exact (hinside h₂ hx₂ hx₁ h).symm

end

end Spot

end ArrayFusion
