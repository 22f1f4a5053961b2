import ArrayFusion.Eval.Value

/-!
# Environments

An environment gives values to names.  A new binding hides an older one of the same name.
-/

namespace ArrayFusion

/-- Values of names; the latest binding of a name stands first. -/
structure Env where
  bindings : List (Name × Value)

namespace Env

/-- The environment without any name. -/
def empty : Env := ⟨[]⟩

/-- The value of a name. -/
def lookup? (env : Env) (x : Name) : Option Value := env.bindings.lookup x

/-- Gives a value to a name. -/
def extend (env : Env) (x : Name) (v : Value) : Env := ⟨(x, v) :: env.bindings⟩

/-- Gives values to names one after another, so that of two values for one name the later one
counts. -/
def extendMany (env : Env) (bindings : List (Name × Value)) : Env :=
  bindings.foldl (fun env b => env.extend b.1 b.2) env

/-- The number of names that have a value. -/
def size (env : Env) : Nat := (env.bindings.map (·.1)).eraseDups.length

theorem lookup?_extend (env : Env) (x y : Name) (v : Value) :
    (env.extend x v).lookup? y = if y = x then some v else env.lookup? y := by
  by_cases h : y = x
  · simp [lookup?, extend, h]
  · simp [lookup?, extend, List.lookup_cons, beq_eq_false_iff_ne.2 h, h]

end Env

end ArrayFusion
