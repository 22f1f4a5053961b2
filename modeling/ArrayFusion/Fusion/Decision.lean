import ArrayFusion.Fusion.Error

/-!
# Decisions

For every combinator that a `let` binds the pass decides whether it goes into other kernels or
stays, and says why.
-/

namespace ArrayFusion

/-- Why a combinator stays where it is. -/
inductive Reason where
  /-- One of its results is used where it cannot be fused into. -/
  | unfusable
  /-- No kernel reads any of its results as a whole. -/
  | noConsumers
  /-- It cannot be fused into some kernel that reads its results. -/
  | incompatible
  /-- An array that it reads is updated in place before some kernel that reads its results. -/
  | hazard
  /-- There was no recipe for the composition with some kernel. -/
  | declined
deriving DecidableEq

/-- The wording of a reason. -/
def Reason.text : Reason → String
  | .unfusable => "output used outside a fusable consumer"
  | .noConsumers => "no consumers"
  | .incompatible => "incompatible consumer"
  | .hazard => "input updated in place before a consumer"
  | .declined => "composition declined"

/-- What was decided about one combinator, which computes the given names. -/
inductive Decision where
  /-- It went into the kernels and is no longer computed by itself. -/
  | fused (names : List Name) (kind : Combinator.Kind) (into : List KernelId)
  /-- It stays, as a kernel of its own if there is one for it. -/
  | kept (names : List Name) (kind : Combinator.Kind) (kernel : Option KernelId) (reason : Reason)
deriving DecidableEq

namespace Decision

/-- Was the combinator fused? -/
def isFused : Decision → Bool
  | .fused _ _ _ => true
  | .kept _ _ _ _ => false

/-- The names that the combinator computes. -/
def names : Decision → List Name
  | .fused xs _ _ => xs
  | .kept xs _ _ _ => xs

/-- A decision in words. -/
def text : Decision → String
  | .fused xs kind into =>
    s!"fused {kind.text} {Text.commaSep (xs.map (·.text))} into {Text.commaSep (into.map (·.text))}"
  | .kept xs kind _ reason =>
    s!"kept {kind.text} {Text.commaSep (xs.map (·.text))}: {reason.text}"

end Decision

end ArrayFusion
