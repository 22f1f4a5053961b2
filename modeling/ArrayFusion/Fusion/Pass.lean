import ArrayFusion.Fusion.Analysis
import ArrayFusion.Fusion.Report

/-!
# The pass

A function is analysed, and if anything was fused its body is emitted anew with the kernels that the
analysis found; otherwise it stays as it is.  When the fusion of a function fails, a program keeps
the function, and its report has the error.
-/

namespace ArrayFusion

/-- A function after the pass. -/
structure FusedFun where
  function : FunDef
  /-- Was anything fused? -/
  changed : Bool
  report : FunctionReport

namespace FunDef

/-- The function as it is, with the decisions that were taken about it. -/
def unfused (f : FunDef) (decisions : List Decision) : FusedFun :=
  ⟨f, false, ⟨f.name, false, 0, decisions, none⟩⟩

/-- Fuses the combinators of a function. -/
def fuse (c : Config) (f : FunDef) : Except FusionError FusedFun := do
  if !c.enabled then return f.unfused []
  else
    let (r, progress) ← ((f.analyse c).run ⟨.forFun f, 0, []⟩).mapError (·.error)
    if !r.succeeded then return f.unfused progress.decisions
    else
      let body ← r.emit f.body
      return ⟨{ f with body }, true,
        ⟨f.name, true, r.fusedKernels.length, progress.decisions, none⟩⟩

/-- Fuses the combinators of a function, or keeps it if that fails. -/
def fuseOrKeep (c : Config) (f : FunDef) : FunDef × FunctionReport :=
  match f.fuse c with
  | .ok fused => (fused.function, fused.report)
  | .error e => (f, ⟨f.name, false, 0, [], some e⟩)

end FunDef

/-- Fuses the combinators of each function of a program. -/
def Program.fuse (c : Config) (p : Program) : Program × FusionReport :=
  let results := p.funs.map (·.fuseOrKeep c)
  (⟨results.map (·.1)⟩, ⟨results.map (·.2)⟩)

end ArrayFusion
