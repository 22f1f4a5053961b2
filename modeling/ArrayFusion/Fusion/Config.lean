import ArrayFusion.Json.Decode

/-!
# Configuration of the pass

Which opportunities the pass takes.  An optimization level stands for a configuration.
-/

namespace ArrayFusion

/-- Which parts of the pass are switched on. -/
structure Config where
  /-- Look for fusion at all. -/
  enabled : Bool
  /-- Fuse filters into filters and folds. -/
  filterFusion : Bool
  /-- Treat a replication as a map over a range, so that it can be fused. -/
  replicateFusion : Bool
  /-- Read the arrays of a map over transposed arrays directly, and transpose its results instead.
  -/
  transposePull : Bool
  /-- Let the functions of a program be processed at the same time, which has no effect on the
  result. -/
  parallel : Bool
deriving DecidableEq

namespace Config

/-- Everything is switched on by default. -/
def default : Config := ⟨true, true, true, true, true⟩

/-- The same, with one function after another. -/
def sequential (c : Config) : Config := { c with parallel := false }

/-- A configuration as a record. -/
def toJson (c : Config) : Json :=
  .obj [("enabled", .bool c.enabled), ("filter_fusion", .bool c.filterFusion),
    ("replicate_fusion", .bool c.replicateFusion), ("transpose_pull", .bool c.transposePull),
    ("parallel", .bool c.parallel)]

/-- Reads a configuration. -/
def ofJson? (j : Json) : Option Config := do
  let fields ← j.record?
    ["enabled", "filter_fusion", "replicate_fusion", "transpose_pull", "parallel"]
  match ← fields.mapM Json.bool? with
  | [enabled, filterFusion, replicateFusion, transposePull, parallel] =>
    return ⟨enabled, filterFusion, replicateFusion, transposePull, parallel⟩
  | _ => none

end Config

/-- How much is to be optimized. -/
inductive OptLevel where
  | none
  | less
  | default
  | aggressive
deriving DecidableEq

namespace OptLevel

/-- The level of a number; every number above 3 is 3. -/
def ofNumber : Nat → OptLevel
  | 0 => .none
  | 1 => .less
  | 2 => .default
  | _ => .aggressive

/-- The name of a level. -/
def text : OptLevel → String
  | .none => "None"
  | .less => "Less"
  | .default => "Default"
  | .aggressive => "Aggressive"

/-- The configuration that a level stands for. -/
def config : OptLevel → Config
  | .none => ⟨false, false, false, false, false⟩
  | .less => { Config.default with filterFusion := false, transposePull := false }
  | .default => Config.default
  | .aggressive => Config.default

end OptLevel

end ArrayFusion
