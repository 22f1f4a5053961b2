import ArrayFusion.Proofs.Freshening
import ArrayFusion.Proofs.FusedKernels

/-!
# Compositions are closed

A kernel with a producer fused into it reads nothing that neither of the two reads: its lambdas have
no free names but those of the lambdas of the two, and the arrays that it reads as a whole are
arrays that the producer reads, or the kernel if the producer does not compute them
(`Producer.closed_fuseInto`).

The recipes change the lambda for the elements only, and for that one `Composed.free_element` asks
nothing of the binders.  The outer lambda of a fold is left alone, unless a reduction is made a
redomap: then it is a fresh copy of the operator, and renaming makes no name free in a lambda whose
binders are distinct and not free in it, whatever tags the supply still has.
-/

namespace ArrayFusion

/-! ## The lambdas of a stage -/

/-- The free variables of a stage have the names that are free in one of its lambdas. -/
theorem Stage.mem_lambdaFreeVars {g : Stage} {x : Name} :
    x ∈ Pattern.names g.lambdaFreeVars ↔ ∃ f ∈ g.op.lambdas, x ∈ f.free true := by
  -- they are collected like uses with nothing bound around them
  have hcollect : g.lambdaFreeVars = (g.op.lambdas.flatMap (·.freeVars)).foldl (noteUse [])
    [] := rfl
  rw [hcollect, Pattern.names, mem_noteUses, List.map_flatMap, List.mem_flatMap]
  constructor
  · rintro (hnil | ⟨-, f, hf, hx⟩)
    · cases hnil
    · exact ⟨f, hf, f.mem_freeVars.1 hx⟩
  · rintro ⟨f, hf, hx⟩
    exact .inr ⟨List.not_mem_nil, f, hf, f.mem_freeVars.2 hx⟩

/-- The binders of the lambda are distinct and not free in it, and its free names have been handed
out before. -/
structure Lambda.Renamable (f : Lambda) (s : NameSupply) : Prop where
  distinct : f.binders.Nodup
  unbound : ∀ x ∈ f.freeVars, x.name ∉ f.binders
  below : ∀ x ∈ f.freeVars, x.name.tag < s.count

/-- A fresh copy of such a lambda has no other free names. -/
theorem Lambda.Renamable.free_of_freshen {f : Lambda} {s : NameSupply} (h : f.Renamable s)
    {x : Name} (hx : x ∈ (f.freshen s).1.free true) : x ∈ f.free true := by
  rw [← Lambda.mem_freeVars] at hx ⊢
  exact (Lambda.freshen_freeVars rfl (Lambda.tidy_free h.distinct h.unbound)
    (Lambda.tag_lt_of_free h.below)).1 x hx

/-- Making a reduction a redomap adds no free names. -/
theorem Stage.free_asRedomap {g : Stage} {s : NameSupply} (hg : ∀ f ∈ g.op.lambdas, f.Renamable s)
    {f : Lambda} (hf : f ∈ (g.asRedomap s).1.op.lambdas) {x : Name} (hx : x ∈ f.free true) :
    ∃ f ∈ g.op.lambdas, x ∈ f.free true := by
  rcases g.asRedomap_cases s with ⟨heq, -⟩ | ⟨step, ne, hop, heq⟩
  · rw [heq] at hf
    exact ⟨f, hf, hx⟩
  · have hstep : step ∈ g.op.lambdas := by
      rw [hop]
      exact List.mem_cons_self
    rw [heq] at hf
    refine ⟨step, hstep, ?_⟩
    rcases List.mem_cons.1 hf with rfl | hf
    · exact (hg step hstep).free_of_freshen hx
    · rwa [List.mem_singleton.1 hf] at hx

/-! ## Compositions -/

section

variable {g c : Stage} {outs cOutputs outputs : List Ident} {s s' : NameSupply} {op : Combinator}
  {operands : List Operand} (h : Composed g outs c cOutputs s s' op operands outputs)
include h

/-- Only the lambda for the elements is new in a composition. -/
theorem Composed.mem_lambdas {f : Lambda} (hf : f ∈ op.lambdas) :
    f = op.element ∨ f ∈ c.op.lambdas := by
  cases h with
  | mapMap | filterFilter => exact .inl (List.mem_singleton.1 hf)
  | mapFold _ hc _ | filterFold _ hc _ =>
    rcases List.mem_cons.1 hf with rfl | hf
    · rw [hc]
      exact .inr List.mem_cons_self
    · exact .inl (List.mem_singleton.1 hf)

/-- The lambdas of a composition use what those of the two stages use. -/
theorem Composed.free_lambdas (houts : g.arity = outs.length) {f : Lambda} (hf : f ∈ op.lambdas)
    {x : Name} (hx : x ∈ f.free true) :
    (∃ f ∈ g.op.lambdas, x ∈ f.free true) ∨ ∃ f ∈ c.op.lambdas, x ∈ f.free true := by
  rcases h.mem_lambdas hf with rfl | hf
  · exact (h.free_element houts hx).imp (fun hx => ⟨_, g.op.element_mem_lambdas, hx⟩)
      fun hx => ⟨_, c.op.element_mem_lambdas, hx⟩
  · exact .inr ⟨f, hf, hx⟩

end

/-- The free names of a kernel with a producer fused into it are free in a lambda of the producer or
in one of the kernel, and the arrays that it reads as a whole are read by the producer, or by the
kernel and not computed by the producer. -/
theorem Producer.closed_fuseInto {p : Producer} {k k' : Kernel} {s s' : NameSupply}
    (hk : ∀ f ∈ k.stage.op.lambdas, f.Renamable s) (h : p.fuseInto k s = .ok (some k', s')) :
    (∀ x ∈ Pattern.names k'.stage.lambdaFreeVars,
      x ∈ Pattern.names p.stage.lambdaFreeVars ∨ x ∈ Pattern.names k.stage.lambdaFreeVars)
    ∧ ∀ x : Ident, .whole x ∈ k'.stage.operands →
      .whole x ∈ p.stage.operands ∨ .whole x ∈ k.stage.operands ∧ x.name ∉ p.names := by
  obtain ⟨harity, -, op, operands, outputs, hcomposed, rfl, -⟩ := Producer.fuseInto_eq_ok h
  constructor
  · intro x hx
    obtain ⟨f, hf, hx⟩ := Stage.mem_lambdaFreeVars.1 hx
    rw [Stage.mem_lambdaFreeVars, Stage.mem_lambdaFreeVars]
    rcases hcomposed.free_lambdas harity hf hx with hproducer | ⟨f, hf, hx⟩
    · exact .inl hproducer
    · exact .inr (Stage.free_asRedomap hk hf hx)
  · intro x hx
    rcases hcomposed.mem_operands hx with hproducer | ⟨hconsumer, hlink⟩
    · exact .inl hproducer
    · rw [k.stage.operands_asRedomap s] at hconsumer
      exact .inr ⟨hconsumer, Recipe.link_eq_none hlink rfl⟩

/-- Adds a number to each number of an array. -/
def Producer.shifted : Producer :=
  let a := Ident.number "a" 4
  ⟨⟨.map ⟨[a], .arith .plus (.ofIdent a) (.ofIdent (.number "n" 0)), [.int]⟩,
    [.whole (.numbers "xs" 2)], [], .dummy⟩, [.numbers "ys" 3]⟩

/-- A weighted sum.  The output of the producer is read twice, and so is the array that it reads. -/
def Kernel.weightedSum : Kernel :=
  let acc := Ident.number "acc" 5
  let y := Ident.number "y" 6
  let x := Ident.number "x" 7
  let z := Ident.number "z" 8
  let t := Ident.number "t" 9
  let step : Lambda := ⟨[acc, y, x, z],
    .bind [t] (.arith .times (.ofIdent y) (.ofIdent x))
      (.arith .plus (.ofIdent acc) (.arith .plus (.ofIdent t)
        (.arith .times (.ofIdent z) (.ofIdent (.number "m" 1))))), [.int]⟩
  .new ⟨0⟩ ⟨.reduce step [.lit (.int 0) .dummy],
    [.whole (.numbers "ys" 3), .whole (.numbers "xs" 2),
    .whole (.numbers "ys" 3)], [], .dummy⟩ [.number "sum" 10]

theorem Producer.closed_fuseInto_weightedSum :
    let p := Producer.shifted
    let k := Kernel.weightedSum
    compatible .default p.stage p.names k = true ∧ (∀ f ∈ k.stage.op.lambdas, f.Renamable ⟨11⟩)
      ∧ ∃ k' s', p.fuseInto k ⟨11⟩ = .ok (some k', s')
        ∧ Pattern.names k'.stage.lambdaFreeVars = [⟨"m", 1⟩, ⟨"n", 0⟩]
        ∧ k'.stage.operands = [.whole (.numbers "xs" 2)]
        ∧ (∀ x ∈ Pattern.names k'.stage.lambdaFreeVars,
          x ∈ Pattern.names p.stage.lambdaFreeVars ∨ x ∈ Pattern.names k.stage.lambdaFreeVars)
        ∧ ∀ x : Ident, .whole x ∈ k'.stage.operands →
          .whole x ∈ p.stage.operands ∨ .whole x ∈ k.stage.operands ∧ x.name ∉ p.names := by
  intro p k
  have hk : ∀ f ∈ k.stage.op.lambdas, f.Renamable ⟨11⟩ :=
    List.forall_mem_singleton.2 ⟨by decide, by decide, by decide⟩
  exact ⟨by decide, hk, _, _, rfl, by decide, rfl, Producer.closed_fuseInto hk rfl⟩

end ArrayFusion
