import ArrayFusion.Proofs.Sites
import ArrayFusion.Proofs.CoherentPass

/-!
# Code that is glued together

A kernel is a stage whose lambdas are glued together from code of the function and from new code
around it.  The code of the function stands at spots from which the kernel can see the same `let`s
and possibly more, and each kernel binds names of its own around it (`Ground.Owns`): the parameters
of the combinators that went into it, and names from the supply.  So whatever a kernel binds is new
inside of it.

`Kernel.Fits` says of a kernel that it is put together in this way, and that it stands for its
`let`: where the `let`s around it have the values that they compute, the stage yields what the `let`
yields.
-/

namespace ArrayFusion

open Eval (Yields Uniform)

/-! ## The code of a function -/

/-- What a `let` may bind to a combinator: at least one name, and arrays if the combinator could be
fused away.  The combinator has the results that its kind needs. -/
structure Combinator.MayBind (op : Combinator) (p : Pattern) : Prop where
  nonempty : p ≠ []
  shaped : op.Shaped
  arrays : op.kind = .map ∨ op.kind = .filter → ∀ x ∈ p, x.isArray = true

/-- The code of a function, the names in front of it, and a tag above all of its tags. -/
structure Ground where
  names : Set Name
  code : Exp
  fresh : Nat

namespace Ground

/-- The whole code as a spot. -/
def start (g : Ground) : Spot := ⟨⟨g.names, ∅⟩, g.code⟩

/-- The names that `let`s bind to arrays: no other name can be fused away. -/
def arrays (g : Ground) : Set Name :=
    {x | ∃ l ∈ g.code.lets, ∃ y ∈ l.1, y.name = x ∧ y.isArray = true}

/-- The code is well formed. -/
structure Sound (g : Ground) : Prop where
  clear : g.start.Clear
  old : ∀ x, x ∈ g.names ∨ x ∈ g.code.binders → x.tag < g.fresh
  inScope : ∃ Γ : Scope, Γ.names = g.names ∧ g.code.Scoped Γ
  arity : ∀ l ∈ g.code.lets, l.2.HasArity l.1.length
  mayBind : ∀ l ∈ g.code.lets, ∀ op es cs s, l.2 = .soac op es cs s → op.MayBind l.1

end Ground

namespace Spot

/-- Every name that is bound in a spot or in what the `let`s around it bind. -/
def zone (o : Spot) : Set Name := {x | x ∈ o.code.binders ∨ ∃ l ∈ o.site.known, x ∈ l.2.binders}

/-- The zone of a part lies within that of the spot. -/
theorem zone_inner {o o' : Spot} (h : o' ∈ o.inner) : o'.zone ⊆ o.zone := by
  rintro x (hx | ⟨l, hl, hx⟩)
  · exact .inl (Reaches.binders (Relation.ReflTransGen.single h) hx)
  · rcases inner_cases h with ⟨p, r, b, s, hcode, ⟨q, hq, rfl⟩ | rfl⟩ | ⟨hlet, q, hq, rfl⟩
    · exact .inr ⟨l, hl, hx⟩
    · rcases hl with rfl | hl
      · refine .inl ?_
        rw [hcode]
        exact List.mem_append_left _ (List.mem_append_right _ hx)
      · exact .inr ⟨l, hl, hx⟩
    · exact .inr ⟨l, hl, hx⟩

/-- What is in scope is not bound in the spot, nor by what the `let`s around it bind. -/
theorem Clear.notMem_zone {o : Spot} (h : o.Clear) {x : Name} (hx : x ∈ o.site.names) :
    x ∉ o.zone := by
  rintro (hb | ⟨l, hl, hb⟩)
  · exact h.new x hb hx
  · exact (h.apart l hl x hb).1 hx

end Spot

open Spot (Reaches)

namespace Ground

variable {g : Ground} {o : Spot} {x y : Name} {p : Pattern}

namespace Sound

variable (h : g.Sound)
include h

/-- Every spot of the code is clear. -/
theorem clear_at (ho : g.start.Reaches o) : o.Clear := h.clear.reaches ho

/-- The binders of the code have tags below those of the fresh names. -/
theorem tag_binder (ho : g.start.Reaches o) (hx : x ∈ o.code.binders) : x.tag < g.fresh :=
  h.old x (.inr (ho.binders hx))

/-- The names in scope have tags below those of the fresh names. -/
theorem tag_name (ho : g.start.Reaches o) (hx : x ∈ o.site.names) : x.tag < g.fresh :=
  h.old x (ho.names x hx)

/-- A name that a `let` binds is not bound in another way. -/
theorem notMem_slots (hx : x ∈ letNames g.code.lets) : x ∉ g.code.slots := by
  intro hslot
  have hcount := g.code.count_binders x
  have hone := List.nodup_iff_count_le_one.1 h.clear.nodup x
  have hlet := List.count_pos_iff.2 hx
  have hslot := List.count_pos_iff.2 hslot
  change g.code.binders.count x ≤ 1 at hone
  omega

omit h in
/-- A `let` that is known at a spot stands around it. -/
theorem known_at (ho : g.start.Reaches o) {l : Pattern × Exp} (hl : l ∈ o.site.known) :
    ∃ Δ b s, g.start.Reaches ⟨Δ, .letIn l.1 l.2 b s⟩ ∧ Δ.bind l.1 l.2 ≤ o.site :=
  (ho.known l hl).resolve_left fun hl => hl

end Sound

/-- The arrays are bound by `let`s of the code. -/
theorem arrays_subset (hx : x ∈ g.arrays) : x ∈ letNames g.code.lets := by
  obtain ⟨l, hl, y, hy, rfl, -⟩ := hx
  exact List.mem_flatMap.2 ⟨l, hl, List.mem_map_of_mem hy⟩

/-- A name that the supply of the pass hands out is none of the arrays. -/
theorem Sound.notMem_arrays (h : g.Sound) (hx : g.fresh ≤ x.tag) : x ∉ g.arrays := fun ha =>
  absurd (h.old x (.inr (Exp.mem_binders_of_lets (arrays_subset ha)))) (Nat.not_lt.2 hx)

/-- What a `let` binds is an array if it may be fused away. -/
theorem Sound.isArray_of_let (h : g.Sound) {l : Pattern × Exp} (hl : l ∈ g.code.lets) {y : Ident}
    (hy : y ∈ l.1) (ha : y.name ∈ g.arrays) : y.isArray = true := by
  have hnodup := Exp.nodup_letNames h.clear.nodup
  obtain ⟨l', hl', y', hy', hname, harray⟩ := ha
  obtain rfl : l' = l := eq_of_mem_flatMap hnodup hl' hl (List.mem_map_of_mem hy')
    (hname ▸ List.mem_map_of_mem hy)
  have hpnodup : l'.1.names.Nodup := (List.nodup_flatMap.1 hnodup).1 l' hl'
  rwa [List.inj_on_of_nodup_map hpnodup hy hy' hname.symm]

/-- The code of a spot is scoped where it stands, and whatever may be fused away is an array
there. -/
theorem Sound.scope_at (h : g.Sound) (ho : g.start.Reaches o) : ∃ Γ : Scope, Γ.names = o.site.names
    ∧ o.code.Scoped Γ ∧ ∀ y ∈ Γ, y.name ∈ g.arrays → y.isArray = true := by
  induction ho with
  | refl =>
    obtain ⟨Γ, hnames, hscoped⟩ := h.inScope
    refine ⟨Γ, hnames, hscoped, fun y hy ha => ?_⟩
    have hin : y.name ∈ g.names := hnames ▸ ⟨y, hy, rfl⟩
    exact absurd hin (h.clear.new _ (Exp.mem_binders_of_lets (arrays_subset ha)))
  | @tail o₁ o₂ hreach hin ih =>
    have hreach : g.start.Reaches o₁ := hreach
    obtain ⟨Γ, hnames, hscoped, htyped⟩ := ih
    have henter : ∀ p : Pattern, (Γ.enter p).names = o₁.site.names ∪ p.nameSet := fun p => by
      rw [Scope.names_enter, hnames]
    -- what is bound otherwise than by a `let` is none of the arrays
    have hslots : ∀ q : Pattern, q.names ⊆ o₁.code.slots →
        ∀ y ∈ Γ.enter q, y.name ∈ g.arrays → y.isArray = true := by
      rintro q hq y (hy | hy) ha
      · exact htyped y hy ha
      · exact absurd (hreach.slots (hq (List.mem_map_of_mem hy)))
          (h.notMem_slots (arrays_subset ha))
    rcases Spot.inner_cases hin with ⟨p, r, b, s, hcode, ⟨q, hq, rfl⟩ | rfl⟩ | ⟨hlet, q, hq, rfl⟩
    · have hr : r.Scoped Γ := by
        have := hscoped.part ([], r) (by simp [hcode, Exp.parts])
        rwa [Scope.enter_nil] at this
      have hscope : q.2.Scoped (Γ.enter q.1) := by
        -- the right-hand side itself, one of its parts, or something that an operand computes
        rcases Exp.computed_cases hq with rfl | hq | ⟨d, hd, hnil, hq⟩
        · rwa [Scope.enter_nil]
        · exact hr.part q hq
        · have hd := hr.part _ hd
          rw [Scope.enter_nil] at hd
          exact hnil ▸ hd.part _ hq
      refine ⟨_, henter q.1, hscope, hslots q.1 fun x hx => ?_⟩
      rw [hcode]
      exact List.mem_append_left _ (r.slots_computed q hq hx)
    · refine ⟨_, henter p, hscoped.part (p, b) (by simp [hcode, Exp.parts]), ?_⟩
      rintro y (hy | hy) ha
      · exact htyped y hy ha
      · -- an array that the `let` binds has the type of an array there
        refine h.isArray_of_let (l := (p, r)) (hreach.lets ?_) hy ha
        rw [hcode]
        exact List.mem_cons_self
    · exact ⟨_, henter q.1, hscoped.part q hq, hslots q.1 (o₁.code.slots_around_part hlet q hq)⟩

/-! ## Names that kernels own -/

/-- The parameters of the lambdas of the combinator that is bound to a pattern. -/
def params (g : Ground) (p : Pattern) : Set Name := {x | ∃ Δ op es cs s b s',
  g.start.Reaches ⟨Δ, .letIn p (.soac op es cs s) b s'⟩ ∧ ∃ f ∈ op.lambdas,
  x ∈ Pattern.names f.params}

/-- The parameters of a stage are bound directly in its `let`. -/
theorem directs_of_params (hx : x ∈ g.params p) : ∃ Δ op es cs s b s',
    g.start.Reaches ⟨Δ, .letIn p (.soac op es cs s) b s'⟩
      ∧ x ∈ (Exp.letIn p (.soac op es cs s) b s').directs := by
  obtain ⟨Δ, op, es, cs, s, b, s', ho, f, hf, hx⟩ := hx
  refine ⟨Δ, op, es, cs, s, b, s', ho, List.mem_append_right _
    (List.mem_flatMap.2 ⟨(f.params, f.body), ?_, hx⟩)⟩
  exact List.mem_append_left _ (List.mem_map.2 ⟨f, hf, rfl⟩)

/-- The parameters that are bound at a spot are those of the `let` that stands there. -/
theorem Sound.eq_of_params (h : g.Sound) (hx : x ∈ g.params p) (ho : g.start.Reaches o)
    (hdirect : x ∈ o.code.directs) :
    ∃ op es cs s b s', o.code = .letIn p (.soac op es cs s) b s' := by
  obtain ⟨Δ, op, es, cs, s, b, s', hreach, hx⟩ := directs_of_params hx
  have heq := h.clear.eq_of_directs hreach ho hx hdirect
  exact ⟨op, es, cs, s, b, s', by rw [← heq]⟩

/-- A parameter is one of one stage. -/
theorem Sound.params_inj (h : g.Sound) {q : Pattern} (hx : x ∈ g.params p) (hx' : x ∈ g.params q) :
    p = q := by
  obtain ⟨Δ, op, es, cs, s, b, s', hreach, hdirect⟩ := directs_of_params hx'
  obtain ⟨op', es', cs', s₁, b', s₂, hcode⟩ := h.eq_of_params hx hreach hdirect
  cases hcode
  rfl

/-- The parameters of stages are bound in other places than by `let`s. -/
theorem slots_of_params (hx : x ∈ g.params p) : x ∈ g.code.slots := by
  obtain ⟨Δ, op, es, cs, s, b, s', ho, f, hf, hx⟩ := hx
  exact ho.slots (List.mem_append_left _ (List.mem_append_left _
    (Combinator.mem_slots.2 (.inl ⟨f, hf, .inl hx⟩))))

/-- Parameters have tags below those of the fresh names. -/
theorem Sound.tag_params (h : g.Sound) (hx : x ∈ g.params p) : x.tag < g.fresh := by
  obtain ⟨Δ, op, es, cs, s, b, s', ho, hdirect⟩ := directs_of_params hx
  exact h.tag_binder ho (Spot.mem_binders_of_directs hdirect)

/-- The names that kernels take from the supply: no two kernels take the same one. -/
structure Hoard (g : Ground) (F : KernelId → Set Name) : Prop where
  fresh : ∀ id, ∀ x ∈ F id, g.fresh ≤ x.tag
  apart : ∀ id id' x, x ∈ F id → x ∈ F id' → id = id'

/-- The names that a kernel may bind in its lambdas: those that it took from the supply, and the
parameters of the combinators that are computed by it. -/
def Owns (g : Ground) (r : Registry) (F : KernelId → Set Name) (id : KernelId) : Set Name :=
  {x | x ∈ F id ∨ ∃ p : Pattern, p ≠ [] ∧ x ∈ g.params p ∧ ∀ y ∈ p.names, r.producerOf y = some id}

variable {r r' : Registry} {F F' : KernelId → Set Name} {id id' : KernelId}

/-- A name is owned by one kernel. -/
theorem Sound.owns_inj (h : g.Sound) (hF : g.Hoard F) (hx : x ∈ g.Owns r F id)
    (hx' : x ∈ g.Owns r F id') : id = id' := by
  rcases hx with hx | ⟨p, hp, hx, hid⟩ <;> rcases hx' with hx' | ⟨p', hp', hx', hid'⟩
  · exact hF.apart id id' x hx hx'
  · exact absurd (h.tag_params hx') (Nat.not_lt.2 (hF.fresh id x hx))
  · exact absurd (h.tag_params hx) (Nat.not_lt.2 (hF.fresh id' x hx'))
  · obtain rfl := h.params_inj hx hx'
    obtain ⟨y, hy⟩ := List.exists_mem_of_ne_nil p hp
    have hy : y.name ∈ p.names := List.mem_map_of_mem hy
    exact Option.some.inj ((hid _ hy).symm.trans (hid' _ hy))

/-- No kernel binds a name in its lambdas that a `let` of the function binds. -/
theorem Sound.notMem_owns (h : g.Sound) (hF : g.Hoard F) (hx : x ∈ letNames g.code.lets) :
    x ∉ g.Owns r F id := by
  rintro (hown | ⟨p, -, hown, -⟩)
  · have hbinder : x ∈ g.start.code.binders := Exp.mem_binders_of_lets hx
    exact absurd (h.old x (.inr hbinder)) (Nat.not_lt.2 (hF.fresh id x hown))
  · exact h.notMem_slots hx (slots_of_params hown)

/-- A kernel owns more when more is produced and more is hoarded. -/
theorem owns_mono (hr : ∀ x id, r.producerOf x = some id → r'.producerOf x = some id)
    (hF : ∀ id, F id ⊆ F' id) : g.Owns r F id ⊆ g.Owns r' F' id := by
  rintro x (hx | ⟨p, hp, hx, hid⟩)
  · exact .inl (hF id hx)
  · exact .inr ⟨p, hp, hx, fun y hy => hr y id (hid y hy)⟩

/-- The names that the kernel of a `let` at a spot may bind in its lambdas. -/
def binds (g : Ground) (r : Registry) (F : KernelId → Set Name) (id : KernelId) (o : Spot) :
    Set Name :=
  {x | x ∈ g.Owns r F id ∧ (x ∈ o.zone ∨ g.fresh ≤ x.tag)}

/-- More may be bound when more is produced and more is hoarded. -/
theorem binds_mono (hr : ∀ x id, r.producerOf x = some id → r'.producerOf x = some id)
    (hF : ∀ id, F id ⊆ F' id) : g.binds r F id o ⊆ g.binds r' F' id o :=
  fun _ hx => ⟨owns_mono hr hF hx.1, hx.2⟩

end Ground

/-! ## Glued code -/

/-- Code at the second spot may become part of the kernel for the `let` of a pattern at the first
one. -/
structure Spot.Feeds (root k : Spot) (p : Pattern) (o : Spot) : Prop where
  reached : root.Reaches o
  known : o.site.known ⊆ k.site.known
  binders : ∀ x ∈ o.code.binders, x ∈ k.zone ∧ x ∉ p.names

/-- Code that is glued together where the names of `V` are in scope: pieces of the function, and new
code that binds names of `G` only and uses those of `fixed`. -/
inductive Glued (piece : Spot → Prop) (fixed G : Set Name) : Set Name → Exp → Prop
  | piece {V : Set Name} {o : Spot} : piece o → o.site.names ⊆ V → Glued piece fixed G V o.code
  | plain {V : Set Name} {e : Exp} : e.Tidy false G (V ∩ fixed) → Glued piece fixed G V e
  | bind {V : Set Name} {p : Pattern} {e b : Exp} {s : Span} : FreshIn V G p.names →
      Glued piece fixed G V e → Glued piece fixed G (V ∪ p.nameSet) b →
        Glued piece fixed G V (.letIn p e b s)
  | cond {V : Set Name} {a b d : Exp} {t : Ty} {s : Span} :
    Glued piece fixed G V a → Glued piece fixed G V b →
      Glued piece fixed G V d → Glued piece fixed G V (.cond a b d t s)

/-- A lambda whose body is glued together behind its parameters. -/
structure GluedLambda (piece : Spot → Prop) (fixed G V : Set Name) (f : Lambda) : Prop where
  params : FreshIn V G (Pattern.names f.params)
  body : Glued piece fixed G (V ∪ Pattern.nameSet f.params) f.body

section

variable {piece piece' : Spot → Prop} {fixed fixed' G G' V V' : Set Name}

/-- Glued code stays so where more names are in scope, as long as the code could not bind them. -/
theorem Glued.change {e : Exp} (h : Glued piece fixed G V e) (hpiece : ∀ o, piece o → piece' o)
    (hfixed : ∀ x ∈ fixed, x ∈ fixed') (hfixed' : ∀ x ∈ fixed', x ∈ fixed ∨ x ∉ G) (hG : G ⊆ G')
    (hV : V ⊆ V') (hV' : ∀ x ∈ V', x ∈ V ∨ x ∉ G) : Glued piece' fixed' G' V' e := by
  induction h generalizing V' with
  | piece ho hnames => exact .piece (hpiece _ ho) (hnames.trans hV)
  | plain h =>
    refine .plain (h.change hG (h.free_subset.trans fun x hx =>
      ⟨hV hx.1, hfixed x hx.2⟩) fun x hx => ?_)
    rcases hV' x hx.1 with hv | hv
    · exact (hfixed' x hx.2).imp_left fun hx => ⟨hv, hx⟩
    · exact .inr hv
  | bind hp _ _ ihe ihb =>
    exact .bind (hp.change hG hV') (ihe hV hV')
      (ihb (Set.union_subset_union_left _ hV) (mem_union_or hV'))
  | cond _ _ _ iha ihb ihd => exact .cond (iha hV hV') (ihb hV hV') (ihd hV hV')

/-- A lambda stays glued with more pieces and more glue, in any scope that has no new glue. -/
theorem GluedLambda.change {f : Lambda} (h : GluedLambda piece fixed G V f)
    (hpiece : ∀ o, piece o → piece' o) (hfixed : ∀ x ∈ fixed, x ∈ fixed')
    (hfixed' : ∀ x ∈ fixed', x ∈ fixed ∨ x ∉ G) (hG : G ⊆ G') (hV : V ⊆ V')
    (hV' : ∀ x ∈ V', x ∈ V ∨ x ∉ G) : GluedLambda piece' fixed' G' V' f where
  params := h.params.change hG hV'
  body := h.body.change hpiece hfixed hfixed' hG (Set.union_subset_union_left _ hV)
    (mem_union_or hV')

/-- Glued code uses what is in scope. -/
theorem Glued.free_subset {e : Exp} (h : Glued piece fixed G V e)
    (hpiece : ∀ o, piece o → o.Clear) : e.free false ⊆ V := by
  induction h with
  | piece ho hnames => exact (hpiece _ ho).uses.trans hnames
  | plain h => exact h.free_subset.trans Set.inter_subset_left
  | bind _ _ _ ihe ihb =>
    exact Set.union_subset ihe (Set.sdiff_subset_iff.2 (by rwa [Set.union_comm]))
  | cond _ _ _ iha ihb ihd => exact Set.union_subset iha (Set.union_subset ihb ihd)

/-- What is free in a glued lambda is in scope. -/
theorem GluedLambda.free_subset {f : Lambda} (h : GluedLambda piece fixed G V f)
    (hpiece : ∀ o, piece o → o.Clear) : f.free false ⊆ V := by
  obtain ⟨ps, b, ts⟩ := f
  refine Set.sdiff_subset_iff.2 ?_
  rw [Set.union_comm]
  exact h.body.free_subset hpiece

end

/-- A stage whose code is glued together where the names of `V` are in scope. -/
structure GluedStage (piece : Spot → Prop) (fixed G V : Set Name) (g : Stage) : Prop where
  lambdas : ∀ f ∈ g.op.lambdas, GluedLambda piece fixed G V f
  neutral : ∀ d ∈ g.op.neutral, Glued piece fixed G V d
  sources : ∀ a ∈ g.operands, ∀ x, a.source? = some x → x ∈ V ∧ (a.whole? = none → x ∈ fixed)
  operands : ∀ a ∈ g.operands, ∀ d ∈ a.exps, Glued piece fixed G V d
  shaped : g.op.Shaped

/-- A stage stays glued with more pieces and more glue, in any scope that has no new glue. -/
theorem GluedStage.change {piece piece' : Spot → Prop} {fixed fixed' G G' V V' : Set Name}
    {g : Stage} (h : GluedStage piece fixed G V g) (hpiece : ∀ o, piece o → piece' o)
    (hfixed : ∀ x ∈ fixed, x ∈ fixed') (hfixed' : ∀ x ∈ fixed', x ∈ fixed ∨ x ∉ G) (hG : G ⊆ G')
    (hV : V ⊆ V') (hV' : ∀ x ∈ V', x ∈ V ∨ x ∉ G) :
    GluedStage piece' fixed' G' V' g where
  lambdas := fun f hf => (h.lambdas f hf).change hpiece hfixed hfixed' hG hV hV'
  neutral := fun d hd => (h.neutral d hd).change hpiece hfixed hfixed' hG hV hV'
  sources := fun a ha x hx =>
    ⟨hV (h.sources a ha x hx).1, fun hw => hfixed x ((h.sources a ha x hx).2 hw)⟩
  operands := fun a ha d hd => (h.operands a ha d hd).change hpiece hfixed hfixed' hG hV hV'
  shaped := h.shaped

/-! ## Kernels -/

/-- Each `let` that is known has the value that its right-hand side yields. -/
def Knows (call : Callee) (env : Env) (known : Set (Pattern × Exp)) : Prop :=
  ∀ l ∈ known, ∃ v vs k, Yields 0 (l.2.eval call env) v k ∧ v.results l.1.length = .ok vs
    ∧ l.1.names.map env.lookup? = vs.map some

/-- Who knows `let`s knows some of them. -/
theorem Knows.mono {call : Callee} {env : Env} {known known' : Set (Pattern × Exp)}
    (h : Knows call env known') (hk : known ⊆ known') :
    Knows call env known := fun l hl => h l (hk hl)

/-- Where a `let` of the pattern yields some results, the stage of the kernel yields the same ones,
and possibly more behind them. -/
def Kernel.Stands (K : Kernel) (known : Set (Pattern × Exp)) (e : Exp) : Prop :=
  ∀ call : Callee, (∀ fn args, Uniform (call fn args)) → ∀ env, Knows call env known →
    ∀ v vs k, Yields 0 (e.eval call env) v k → v.results K.pattern.length = .ok vs →
      ∃ ws k', Yields 0 (K.stage.toExp.eval call env) (.ofResults (vs ++ ws)) k'
        ∧ (vs ++ ws).length = K.outputs.length

/-- The kernel for a `let` at a spot is glued together from code in the root, binds only names of
`G`, and stands for the `let`. -/
structure Kernel.FitsAt (g : Ground) (root : Spot) (fixed G : Set Name) (k : Spot) (e : Exp)
    (K : Kernel) : Prop where
  reached : root.Reaches k
  code : ∃ b s, k.code = .letIn K.pattern e b s
  transforms : K.transforms = []
  outputs : ∃ extra : Pattern, K.outputs = K.pattern ++ extra ∧ extra.names.Nodup
    ∧ ∀ x ∈ extra.names, x ∈ G ∧ g.fresh ≤ x.tag
  glued : GluedStage (root.Feeds k K.pattern) fixed G k.site.names K.stage
  stands : K.Stands k.site.known e
  fused : ∀ x ∈ K.fused, x ∈ g.arrays
  original : K.fused = [] → Stage.ofExp? e = .ok (some K.stage)
  reduced : ∀ f ne, K.stage.op = .reduce f ne → K.fused = []

/-- The names that glued code may use by itself: those that cannot be fused away, as every use of
them in the root is exposed, or as they are forbidden. -/
def Registry.fixed (g : Ground) (root : Spot) (r : Registry) : Set Name :=
  {x | x ∈ g.arrays → x ∈ r.unfusable ∨ x ∈ root.code.exposed false}

/-- A kernel of a registry fits. -/
def Kernel.Fits (g : Ground) (root : Spot) (r : Registry) (F : KernelId → Set Name) (id : KernelId)
    (K : Kernel) :
    Prop :=
  ∃ k e, K.FitsAt g root (r.fixed g root) (g.binds r F id k) k e

section

variable {g : Ground} {root root' k : Spot} {r r' : Registry} {F F' : KernelId → Set Name}
    {id : KernelId} {K : Kernel} {p : Pattern}

/-- What a spot feeds it feeds from further out, too. -/
theorem Spot.Feeds.mono {o : Spot} (h : root.Feeds k p o) (hroot : root'.Reaches root) :
    root'.Feeds k p o :=
  { h with reached := hroot.trans h.reached }

/-- More is fixed when more is forbidden. -/
theorem Registry.fixed_mono (hr : r.unfusable ⊆ r'.unfusable) (hroot : root'.Reaches root) :
    r.fixed g root ⊆ r'.fixed g root' :=
  fun _ hx ha => (hx ha).imp (fun h => hr h) fun h => hroot.exposed h

/-- A kernel that fits does so in more code, where more names may be used, and if it may bind
more. -/
theorem Kernel.FitsAt.change {e : Exp} {fixed fixed' G G' : Set Name}
    (h : K.FitsAt g root fixed G k e) (hroot : root'.Reaches root)
    (hfixed : ∀ x ∈ fixed, x ∈ fixed') (hfixed' : ∀ x ∈ fixed', x ∈ fixed ∨ x ∉ G) (hG : G ⊆ G') :
    K.FitsAt g root' fixed' G' k e := { h with
  reached := hroot.trans h.reached
  outputs := by
    obtain ⟨extra, houts, hnodup, hextra⟩ := h.outputs
    exact ⟨extra, houts, hnodup, fun x hx => ⟨hG (hextra x hx).1, (hextra x hx).2⟩⟩
  glued := h.glued.change (fun _ ho => ho.mono hroot) hfixed hfixed' hG subset_rfl fun _ hx =>
    .inl hx }

/-- A kernel fits as long as the registry keeps what it knows. -/
theorem Kernel.Fits.mono (hg : g.Sound) (hF : g.Hoard F) (h : K.Fits g root r F id)
    (hunfusable : r.unfusable ⊆ r'.unfusable)
    (hproducers : ∀ x id, r.producerOf x = some id → r'.producerOf x = some id)
    (hsupply : ∀ id, F id ⊆ F' id) (hroot : root'.Reaches root) : K.Fits g root' r' F' id := by
  obtain ⟨k, e, h⟩ := h
  refine ⟨k, e, h.change hroot (Registry.fixed_mono hunfusable hroot) (fun x _ => ?_)
    (Ground.binds_mono hproducers hsupply)⟩
  by_cases hx : x ∈ g.arrays
  · exact .inr fun hown => hg.notMem_owns hF (Ground.arrays_subset hx) hown.1
  · exact .inl fun ha => absurd ha hx

end

end ArrayFusion
