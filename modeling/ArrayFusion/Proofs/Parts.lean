import Mathlib.Logic.Relation
import ArrayFusion.Proofs.NormalPass

/-!
# Parts of a function

`Exp.parts` are the expressions that stand directly in an expression, each with what is bound around
it there; by such steps one gets from an expression to all that it `Contains`, the right-hand sides
of its `let`s among them (`Exp.contains_of_lets`).

What is known of all well-scoped functions is known of all their parts, because a part of a
well-scoped function is itself the body of one, which has what is bound around the part as further
parameters (`FunDef.WellScoped.within`).
-/

namespace ArrayFusion

/-- The expressions that stand directly in an expression, and what the expression binds around
each. -/
def Exp.parts : Exp → List (Pattern × Exp)
  | .lit _ _ => []
  | .var _ _ => []
  | .tuple es _ => es.map ([], ·)
  | .array es _ _ => es.map ([], ·)
  | .binary _ a b _ _ => [([], a), ([], b)]
  | .unary _ e _ => [([], e)]
  | .cond c a b _ _ => [([], c), ([], a), ([], b)]
  | .call _ es _ _ => es.map ([], ·)
  | .letIn p r b _ => [([], r), (p, b)]
  | .update x _ is v b _ => is.map ([], ·) ++ [([], v), ([x], b)]
  | .index _ is _ => is.map ([], ·)
  | .replicate n v _ => [([], n), ([], v)]
  | .loop p is i n b r _ => is.map ([], ·) ++ [([], n), (i :: p, b), (p, r)]
  | .soac op es _ _ =>
    op.lambdas.map (fun f => (f.params, f.body)) ++ op.neutral.map ([], ·) ++ es.map ([], ·)

/-- The second expression stands somewhere in the first one. -/
def Exp.Contains : Exp → Exp → Prop := Relation.ReflTransGen fun d e => ∃ p, (p, e) ∈ d.parts

/-- The expression stands somewhere in the function. -/
def Exp.Within (e : Exp) (f : FunDef) : Prop := f.body.Contains e

/-- A part is smaller than the expression that it stands in. -/
theorem Exp.sizeOf_part (e : Exp) : ∀ q ∈ e.parts, sizeOf q.2 < sizeOf e := by
  intro q hq
  -- parts that are listed are smaller than the list
  have hmem : ∀ {es : List Exp}, q ∈ es.map (([], ·) : Exp → Pattern × Exp) →
      sizeOf q.2 < sizeOf es := by
    intro es h
    obtain ⟨d, hd, rfl⟩ := List.mem_map.1 h
    exact List.sizeOf_lt_of_mem hd
  cases e with
  | soac op es cs s =>
    simp only [parts, List.mem_append] at hq
    rcases hq with (hq | hq) | hq
    · obtain ⟨⟨ps, b, ts⟩, hf, rfl⟩ := List.mem_map.1 hq
      -- the combinators have one lambda, or two
      cases op <;> simp [Combinator.lambdas] at hf <;> first
        | (subst hf; simp; omega)
        | (rcases hf with rfl | rfl <;> simp <;> omega)
    · have := hmem hq
      cases op <;> simp [Combinator.neutral] at hq this ⊢ <;> omega
    · have := hmem hq
      simp
      omega
  | tuple es s => have := hmem hq; simp; omega
  | array es t s => have := hmem hq; simp; omega
  | call f es t s => have := hmem hq; simp; omega
  | index x is s => have := hmem hq; simp; omega
  | update x y is v b s =>
    rcases List.mem_append.1 hq with hq | hq
    · have := hmem hq
      simp
      omega
    · simp at hq
      rcases hq with rfl | rfl <;> simp <;> omega
  | loop p is i k b r s =>
    rcases List.mem_append.1 hq with hq | hq
    · have := hmem hq
      simp
      omega
    · simp at hq
      rcases hq with rfl | rfl | rfl <;> simp <;> omega
  | _ => simp [parts] at hq <;> grind [sizeOf]

/-! ## Right-hand sides -/

/-- What a part contains, the whole contains. -/
theorem Exp.Contains.part {e d d' : Exp} {p : Pattern} (hd : (p, d) ∈ e.parts) (h : d.Contains d') :
    e.Contains d' := Relation.ReflTransGen.head ⟨p, hd⟩ h

/-- What a member of a list of parts contains, the whole contains. -/
theorem Exp.Contains.part_of_mem {e d' : Exp} {es : List Exp} (h : ∃ d ∈ es, d.Contains d')
    (hes : ∀ d ∈ es, ([], d) ∈ e.parts) : e.Contains d' :=
  have ⟨d, hd, hcontains⟩ := h
  hcontains.part (hes d hd)

mutual

/-- An expression contains the right-hand sides of its `let`s. -/
theorem Exp.contains_of_lets : ∀ e : Exp, ∀ l ∈ e.lets, e.Contains l.2
  | .lit _ _, _, hl => nomatch hl
  | .var _ _, _, hl => nomatch hl
  | .tuple es _, l, hl => .part_of_mem (Exp.contains_of_letsAll es l hl) (by simp [Exp.parts])
  | .array es _ _, l, hl => .part_of_mem (Exp.contains_of_letsAll es l hl) (by simp [Exp.parts])
  | .binary _ a b _ _, l, hl => (List.mem_append.1 hl).elim
    (fun hl => (a.contains_of_lets l hl).part (p := []) (by simp [Exp.parts]))
    (fun hl => (b.contains_of_lets l hl).part (p := []) (by simp [Exp.parts]))
  | .unary _ e _, l, hl => (e.contains_of_lets l hl).part (p := []) (by simp [Exp.parts])
  | .cond c a b _ _, l, hl => by
    simp only [Exp.lets, List.mem_append, or_assoc] at hl
    rcases hl with hl | hl | hl
    · exact (c.contains_of_lets l hl).part (p := []) (by simp [Exp.parts])
    · exact (a.contains_of_lets l hl).part (p := []) (by simp [Exp.parts])
    · exact (b.contains_of_lets l hl).part (p := []) (by simp [Exp.parts])
  | .call _ es _ _, l, hl => .part_of_mem (Exp.contains_of_letsAll es l hl) (by simp [Exp.parts])
  | .letIn p e b _, l, hl => by
    simp only [Exp.lets, List.mem_cons, List.mem_append] at hl
    rcases hl with rfl | hl | hl
    · exact Exp.Contains.part (p := []) (by simp [Exp.parts]) .refl
    · exact (e.contains_of_lets l hl).part (p := []) (by simp [Exp.parts])
    · exact (b.contains_of_lets l hl).part (p := p) (by simp [Exp.parts])
  | .update x _ is v b _, l, hl => by
    simp only [Exp.lets, List.mem_append, or_assoc] at hl
    rcases hl with hl | hl | hl
    · exact .part_of_mem (Exp.contains_of_letsAll is l hl) (by simp +contextual [Exp.parts])
    · exact (v.contains_of_lets l hl).part (p := []) (by simp [Exp.parts])
    · exact (b.contains_of_lets l hl).part (p := [x]) (by simp [Exp.parts])
  | .index _ is _, l, hl => .part_of_mem (Exp.contains_of_letsAll is l hl) (by simp [Exp.parts])
  | .replicate n v _, l, hl => (List.mem_append.1 hl).elim
    (fun hl => (n.contains_of_lets l hl).part (p := []) (by simp [Exp.parts]))
    (fun hl => (v.contains_of_lets l hl).part (p := []) (by simp [Exp.parts]))
  | .loop p is i n b e _, l, hl => by
    simp only [Exp.lets, List.mem_append, or_assoc] at hl
    rcases hl with hl | hl | hl | hl
    · exact .part_of_mem (Exp.contains_of_letsAll is l hl) (by simp +contextual [Exp.parts])
    · exact (n.contains_of_lets l hl).part (p := []) (by simp [Exp.parts])
    · exact (b.contains_of_lets l hl).part (p := i :: p) (by simp [Exp.parts])
    · exact (e.contains_of_lets l hl).part (p := p) (by simp [Exp.parts])
  | .soac op es _ _, l, hl => by
    rcases List.mem_append.1 hl with hl | hl
    · -- the `let` stands in a lambda, or in a neutral element
      rcases op.contains_of_lets l hl with ⟨f, hf, hcontains⟩ | hne
      · exact hcontains.part (p := f.params) (List.mem_append_left _ (List.mem_append_left _
          (List.mem_map_of_mem hf)))
      · exact .part_of_mem hne (by simp +contextual [Exp.parts])
    · exact .part_of_mem (Exp.contains_of_letsAll es l hl) (by simp +contextual [Exp.parts])

/-- The right-hand sides of the `let`s of a list are contained in its members. -/
theorem Exp.contains_of_letsAll : ∀ es : List Exp, ∀ l ∈ Exp.letsAll es, ∃ e ∈ es, e.Contains l.2
  | [], _, hl => nomatch hl
  | e :: es, l, hl => (List.mem_append.1 hl).elim
    (fun hl => ⟨e, List.mem_cons_self, e.contains_of_lets l hl⟩)
    (fun hl => have ⟨d, hd, h⟩ := Exp.contains_of_letsAll es l hl
      ⟨d, List.mem_cons_of_mem _ hd, h⟩)

/-- The right-hand sides of the `let`s of a lambda are contained in its body. -/
theorem Lambda.contains_of_lets : ∀ f : Lambda, ∀ l ∈ f.lets, f.body.Contains l.2
  | ⟨_, b, _⟩, l, hl => b.contains_of_lets l hl

/-- Those of a combinator are contained in its lambdas or its neutral elements. -/
theorem Combinator.contains_of_lets : ∀ op : Combinator, ∀ l ∈ op.lets,
    (∃ f ∈ op.lambdas, f.body.Contains l.2) ∨ ∃ e ∈ op.neutral, e.Contains l.2
  | .map f, l, hl => .inl ⟨f, List.mem_cons_self, f.contains_of_lets l hl⟩
  | .filter f, l, hl => .inl ⟨f, List.mem_cons_self, f.contains_of_lets l hl⟩
  | .reduce f ne, l, hl => (List.mem_append.1 hl).imp
    (fun hl => ⟨f, List.mem_cons_self, f.contains_of_lets l hl⟩) (Exp.contains_of_letsAll ne l)
  | .scan f ne, l, hl => (List.mem_append.1 hl).imp
    (fun hl => ⟨f, List.mem_cons_self, f.contains_of_lets l hl⟩) (Exp.contains_of_letsAll ne l)
  | .redomap f g ne, l, hl => (List.mem_append.1 hl).imp
    (fun hl => (List.mem_append.1 hl).elim
      (fun hl => ⟨f, List.mem_cons_self, f.contains_of_lets l hl⟩)
      (fun hl => ⟨g, List.mem_cons_of_mem _ List.mem_cons_self, g.contains_of_lets l hl⟩))
    (Exp.contains_of_letsAll ne l)

end

/-- What an expression has from each of its parts it has from the right-hand sides of its `let`s. -/
theorem Exp.subset_of_lets {α : Type} {F : Exp → List α}
    (hF : ∀ e : Exp, ∀ q ∈ e.parts, F q.2 ⊆ F e) {e : Exp} {l : Pattern × Exp} (hl : l ∈ e.lets) :
    F l.2 ⊆ F e := by
  have hcontains := e.contains_of_lets l hl
  generalize l.2 = d at hcontains ⊢
  induction hcontains with
  | refl => exact List.Subset.refl _
  | tail _ hpart ih =>
    obtain ⟨p, hpart⟩ := hpart
    exact List.Subset.trans (hF _ _ hpart) ih

/-- The slots of a list of expressions are those of its members. -/
theorem Exp.mem_slotsAll {x : Name} {es : List Exp} :
    x ∈ Exp.slotsAll es ↔ ∃ e ∈ es, x ∈ e.slots := by
  induction es with
  | nil => simp [Exp.slotsAll]
  | cons e es ih => rw [Exp.slotsAll, List.mem_append, ih, List.exists_mem_cons_iff]

/-- The slots of a lambda are its parameters, and those of its body. -/
theorem Lambda.slots_eq (f : Lambda) : f.slots = Pattern.names f.params ++ f.body.slots := by
  cases f
  rfl

/-- The slots of a combinator are in its lambdas or in its neutral elements. -/
theorem Combinator.mem_slots {x : Name} {op : Combinator} : x ∈ op.slots
    ↔ (∃ f ∈ op.lambdas, x ∈ Pattern.names f.params ∨ x ∈ f.body.slots)
      ∨ ∃ e ∈ op.neutral, x ∈ e.slots := by
  cases op <;>
    simp [Combinator.slots, Combinator.lambdas, Combinator.neutral, Lambda.slots_eq,
      Exp.mem_slotsAll, or_assoc]

/-- The slots of a part are slots of the whole. -/
theorem Exp.slots_part (e : Exp) : ∀ q ∈ e.parts, q.2.slots ⊆ e.slots := by
  cases e <;>
    simp [Exp.parts, Exp.slots, List.subset_def, Exp.mem_slotsAll, Combinator.mem_slots] <;>
    grind

/-! ## Scopes -/

theorem Scope.enter_nil (Γ : Scope) : Γ.enter [] = Γ := by
  ext x
  simp

/-- A lambda is scoped if its body is, behind the parameters. -/
theorem Lambda.scoped_iff {Γ : Scope} {f : Lambda} :
    f.Scoped Γ ↔ f.body.Scoped (Γ.enter f.params) := by
  cases f
  rfl

/-- A combinator is scoped if its lambdas and its neutral elements are. -/
theorem Combinator.scoped_iff {Γ : Scope} {op : Combinator} : op.Scoped Γ ↔
    (∀ f ∈ op.lambdas, f.body.Scoped (Γ.enter f.params)) ∧ Exp.ScopedAll Γ op.neutral := by
  cases op <;>
    simp [Combinator.Scoped, Combinator.lambdas, Combinator.neutral, Lambda.scoped_iff,
      Exp.ScopedAll, and_assoc]

/-- A part of a scoped expression is scoped where it stands. -/
theorem Exp.Scoped.part {Γ : Scope} {e : Exp} (hs : e.Scoped Γ) :
    ∀ q ∈ e.parts, q.2.Scoped (Γ.enter q.1) := by
  cases e <;>
    simp only [Exp.Scoped, Exp.scopedAll_iff, Combinator.scoped_iff] at hs <;>
    simp [Exp.parts, Scope.enter_nil, or_imp, forall_and, hs] <;> grind

/-- A member of a list binds nothing that the list does not bind. -/
theorem Exp.count_bindersAll_ge {es : List Exp} {e : Exp} (he : e ∈ es) (x : Name) :
    e.binders.count x ≤ (Exp.bindersAll es).count x := by
  induction es with
  | nil => cases he
  | cons d es ih =>
    rw [Exp.bindersAll, List.count_append]
    rcases List.mem_cons.1 he with rfl | he
    · omega
    · have := ih he
      omega

/-- A lambda binds its parameters and what its body binds. -/
theorem Lambda.binders_eq (f : Lambda) : f.binders = Pattern.names f.params ++ f.body.binders := by
  cases f
  rfl

/-- A part of a combinator binds nothing that the combinator does not bind. -/
theorem Combinator.count_binders_ge (op : Combinator) (x : Name) :
    (∀ f ∈ op.lambdas, (Pattern.names f.params ++ f.body.binders).count x ≤ op.binders.count x)
      ∧ (Exp.bindersAll op.neutral).count x ≤ op.binders.count x := by
  cases op <;>
    simp [Combinator.binders, Combinator.lambdas, Combinator.neutral, Exp.bindersAll,
      Lambda.binders_eq] <;>
    omega

/-- What is bound in a part and around it is bound in the expression. -/
theorem Exp.count_binders_part (e : Exp) (x : Name) :
    ∀ q ∈ e.parts, (q.1.names ++ q.2.binders).count x ≤ e.binders.count x := by
  -- of a list of expressions one is counted
  have hall : ∀ (es : List Exp) (n : Nat), (Exp.bindersAll es).count x ≤ n →
      ∀ q ∈ es.map fun e => (([], e) : Pattern × Exp), (q.1.names ++ q.2.binders).count x ≤ n := by
    intro es n hn q hq
    obtain ⟨d, hd, rfl⟩ := List.mem_map.1 hq
    exact Nat.le_trans (Exp.count_bindersAll_ge hd x) hn
  cases e with
  | lit | var => exact nofun
  | tuple es | array es | call _ es | index _ es => exact hall es _ (Nat.le_refl _)
  | unary | binary | cond | replicate | letIn =>
    simp [Exp.parts, Exp.binders, Pattern.names]
    try omega
  | update y z is v b =>
    refine List.forall_mem_append.2 ⟨hall is _ ?_, ?_⟩
    all_goals
      simp [Exp.binders, Pattern.names, List.count_cons]
      omega
  | loop p is i n b r =>
    refine List.forall_mem_append.2 ⟨hall is _ ?_, ?_⟩
    all_goals
      simp [Exp.binders, Pattern.names, List.count_cons]
      try omega
  | soac op es =>
    -- the parameters of a lambda are counted with its body
    obtain ⟨hlambdas, hneutral⟩ := op.count_binders_ge x
    have hop : op.binders.count x ≤ (Exp.soac op es [] .dummy).binders.count x := by
      simp [Exp.binders]
    refine List.forall_mem_append.2
      ⟨List.forall_mem_append.2 ⟨?_, hall _ _ (Nat.le_trans hneutral hop)⟩, hall es _ ?_⟩
    · exact List.forall_mem_map.2 fun f hf => Nat.le_trans (hlambdas f hf) hop
    · simp [Exp.binders]

/-- If all that an expression binds is different, then so is what is bound in a part and around
it. -/
theorem Exp.nodup_part {e : Exp} (h : e.binders.Nodup) {q : Pattern × Exp} (hq : q ∈ e.parts) :
    (q.1.names ++ q.2.binders).Nodup := List.nodup_iff_count_le_one.2 fun x =>
  (e.count_binders_part x q hq).trans (List.nodup_iff_count_le_one.1 h x)

/-- A part of a function whose names are all different and whose uses are in scope is the body of
such a function, too. -/
theorem FunDef.WellScoped.within {f : FunDef} {e : Exp} (hf : f.WellScoped) (he : e.Within f) :
    ∃ ps, FunDef.WellScoped { f with params := ps, body := e } := by
  induction he with
  | refl => exact ⟨f.params, hf⟩
  | @tail d e _ hpart ih =>
    obtain ⟨ps, hdistinct, huses⟩ := ih
    obtain ⟨p, hpart⟩ := hpart
    -- what the part has in scope besides counts as further parameters
    refine ⟨ps ++ p, List.nodup_iff_count_le_one.2 fun x => ?_, ?_⟩
    · have hcount := List.nodup_iff_count_le_one.1 hdistinct x
      have hle := d.count_binders_part x _ hpart
      simp only [FunDef.binders, Pattern.names, List.map_append, List.count_append] at hcount hle ⊢
      omega
    · have hscoped := huses.part _ hpart
      have henter : Scope.enter {x | x ∈ ps} p = {x | x ∈ ps ++ p} := by
        ext x
        simp
      rwa [henter] at hscoped

end ArrayFusion
