import ArrayFusion.Fusion.Decision

/-!
# Reports

What the pass did to each function of a program, as data and in words.
-/

namespace ArrayFusion

/-- What the pass did to one function. -/
structure FunctionReport where
  name : String
  /-- Was anything fused? -/
  changed : Bool
  /-- The number of kernels that something was fused into. -/
  kernels : Nat
  /-- The decisions, in the order in which they were taken. -/
  decisions : List Decision
  /-- Why the function was left as it is, if its fusion was given up. -/
  error : Option FusionError

namespace FunctionReport

/-- The number of combinators that were fused. -/
def fusedCount (f : FunctionReport) : Nat := f.decisions.countP (·.isFused)

/-- What became of the function, in a word. -/
def status (f : FunctionReport) : String :=
  if f.error.isSome then "skipped"
  else if f.changed then "fused"
  else "unchanged"

/-- The lines about the function, each with its end: what became of it, then the error or the
decisions. -/
def text (f : FunctionReport) : String :=
  let error := f.error.toList.map fun e => s!"  error: {e.message}\n"
  let decisions := f.decisions.map fun d => s!"  {d.text}\n"
  s!"{f.name}: {f.status}\n" ++ String.join error ++ String.join decisions

end FunctionReport

/-- What the pass did to a program, function by function. -/
structure FusionReport where
  functions : List FunctionReport

namespace FusionReport

/-- The number of functions in which anything was fused. -/
def changedCount (r : FusionReport) : Nat := r.functions.countP (·.changed)

/-- The number of combinators that were fused. -/
def fusedCount (r : FusionReport) : Nat := (r.functions.flatMap (·.decisions)).countP (·.isFused)

/-- The number of functions whose fusion was given up. -/
def errorCount (r : FusionReport) : Nat := r.functions.countP (·.error.isSome)

/-- The report on the first function of that name. -/
def function? (r : FusionReport) (name : String) : Option FunctionReport :=
  r.functions.find? (·.name == name)

/-- The lines about the functions, and a summary behind them. -/
def text (r : FusionReport) : String :=
  let skipped := if r.errorCount = 0 then "" else s!", {r.errorCount} skipped"
  String.join (r.functions.map (·.text))
    ++ s!"{r.fusedCount} bindings fused in {r.changedCount} of {r.functions.length} functions"
    ++ skipped

end FusionReport

end ArrayFusion
