import ArrayFusion.Fusion.Registry

/-!
# Emitting kernels

One walk over the code puts the kernels in place.  Each `let` is one of three cases.  No kernel
produces its names: it stays.  A kernel stands for it: if anything was fused into the kernel, its
stage takes the place of the right-hand side and its transforms follow, and otherwise the `let`
stays.  A kernel that stands for another `let` produces its names: they were fused away, and the
`let` goes.

The stage of a kernel is emitted in turn, since a lambda may contain further kernels.  As no kernel
lies inside itself, it is enough to follow them as deep as there are kernels.
-/

namespace ArrayFusion

/-- Emission, with the registry at hand. -/
abbrev Emit := ReaderT Registry (Except FusionError)

namespace Emit

/-- The kernel that produces all of the names, if there are any names and if one does. -/
def producer (xs : List Name) (s : Span) : Emit (Option KernelId) := fun r =>
  match xs with
  | [] => .ok none
  | x :: xs =>
    -- a `let` is replaced as a whole or not at all
    if xs.all fun y => r.producerOf y == r.producerOf x then .ok (r.producerOf x)
    else .error ⟨s, .splitBinding⟩

/-- Emits a `let`, given how a kernel and how the parts of the `let` are emitted. -/
def letIn (emitKernel : Kernel → Emit Exp) (p : Pattern) (s : Span) (rhs : Emit Exp)
    (pattern : Emit Pattern) (body : Emit Exp) : Emit Exp := do
  match ← producer p.names s with
  | none => rebuildLet s rhs pattern body
  | some id =>
    let k ← (← read).kernel id s
    -- a producer that was fused into the kernel: nothing needs its `let` any more
    if !k.binds p.names then body
    else if !k.isFused then rebuildLet s rhs pattern body
    else
      let stage ← emitKernel k
      -- the outputs are bound where the `let` was, with the transposed ones behind them
      return .letIn k.outputs stage (k.bindTransforms (← body)) s

/-- Puts kernels in the place of what `let`s bind and leaves the rest. -/
def visitor (emitKernel : Kernel → Emit Exp) : Visitor Emit where
  letIn := letIn emitKernel

/-- The emitted stage of a kernel that lies inside other kernels, with at most `depth` of them
around any kernel in it. -/
def kernelWithin : Nat → Kernel → Emit Exp
  | 0, k => throw ⟨k.stage.span, .nestedInItself k.id⟩
  | depth + 1, k => k.stage.toExp.traverse (visitor (kernelWithin depth))

/-- The visitor that follows kernels as deep as there are any. -/
def emitter (r : Registry) : Visitor Emit := visitor (kernelWithin r.kernels.size)

end Emit

namespace Registry

/-- The expression with the kernels in place. -/
def emit (r : Registry) (e : Exp) : Except FusionError Exp :=
  (e.traverse (Emit.emitter r)).run r

/-- The lambda with the kernels in place. -/
def emitLambda (r : Registry) (f : Lambda) : Except FusionError Lambda :=
  (f.traverse (Emit.emitter r)).run r

end Registry

end ArrayFusion
