import ArrayFusion.Syntax.Printer

/-!
# Errors of the pass

An error ends the fusion of one function, which then stays as it is.  It says where it arose and
why; there are three categories of causes, and the wording is in `FusionError.message`.
-/

namespace ArrayFusion

/-- Identifies a kernel within the fusion of one function. -/
structure KernelId where
  index : Nat
deriving DecidableEq, Inhabited

/-- A kernel id is written `k` and its number. -/
def KernelId.text (k : KernelId) : String := s!"k{k.index}"

/-- The part that a lambda plays in a composition. -/
inductive Role where
  | producer
  | predicate
  | consumer
deriving DecidableEq

/-- The name of a role. -/
def Role.text : Role → String
  | .producer => "producer"
  | .predicate => "predicate"
  | .consumer => "consumer"

namespace FusionError

/-- The kinds of errors. -/
inductive Category where
  /-- The function does not have the shape that the pass expects. -/
  | normalForm
  /-- A combinator has an argument that is no array it could read. -/
  | operand
  /-- The pass broke one of its own rules. -/
  | invariant
deriving DecidableEq

/-- Why the fusion of a function was given up. -/
inductive Cause where
  /-- A combinator is not what a `let` binds. -/
  | unboundCombinator
  /-- A lambda has the wrong number of parameters. -/
  | parameterCount (role : Role) (got expected : Nat)
  /-- An argument of a combinator is no operand. -/
  | invalidOperand (arg : Exp)
  /-- The outputs of a kernel are not as many as the results of its combinator. -/
  | kernelArity (id : KernelId) (outputs : Nat) (kind : Combinator.Kind) (arity : Nat)
  /-- A pattern does not bind as many names as the combinator has results. -/
  | bindingArity (kind : Combinator.Kind) (arity bound : Nat)
  /-- There is no kernel of that id. -/
  | missingKernel (id : KernelId)
  /-- A name that is no longer computed must not be fused. -/
  | fusedUnfusable (x : Name) (id : KernelId)
  /-- The names of one pattern are produced by different kernels. -/
  | splitBinding
  /-- A kernel contains its own binding. -/
  | nestedInItself (id : KernelId)
  /-- A complaint in someone else's words. -/
  | reported (category : Category) (message : String)

/-- The category of a cause. -/
def Cause.category : Cause → Category
  | .unboundCombinator => .normalForm
  | .parameterCount _ _ _ => .normalForm
  | .invalidOperand _ => .operand
  | .kernelArity _ _ _ _ => .invariant
  | .bindingArity _ _ _ => .invariant
  | .missingKernel _ => .invariant
  | .fusedUnfusable _ _ => .invariant
  | .splitBinding => .invariant
  | .nestedInItself _ => .invariant
  | .reported c _ => c

/-- The wording of a cause. -/
def Cause.message : Cause → String
  | .unboundCombinator => "array combinator outside the right-hand side of a let"
  | .parameterCount role got expected =>
    s!"{role.text} lambda takes {got} parameters, expected {expected}"
  | .invalidOperand arg =>
    "\x60" ++ arg.text ++ "\x60 is not an array variable, row, transposition or range"
  | .kernelArity id outputs kind arity =>
    s!"kernel {id.text} binds {outputs} outputs but its {kind.text} returns {arity}"
  | .bindingArity kind arity bound =>
    s!"{kind.text} returns {arity} values but {bound} are bound"
  | .missingKernel id => s!"kernel {id.text} is not registered"
  | .fusedUnfusable x id => s!"{x.text} was fused into {id.text} but is unfusable"
  | .splitBinding => "binding is split across kernels"
  | .nestedInItself id => s!"kernel {id.text} is nested in itself"
  | .reported _ message => message

/-- The words in front of the message of an error. -/
def Category.text : Category → String
  | .normalForm => "not in normal form"
  | .operand => "invalid array input"
  | .invariant => "internal fusion invariant violated"

end FusionError

/-- An error of the pass: where it arose and why. -/
structure FusionError where
  span : Span
  cause : FusionError.Cause

namespace FusionError

/-- The text of an error: the place, the category, the cause. -/
def message (e : FusionError) : String :=
  s!"{e.span.text}: {e.cause.category.text}: {e.cause.message}"

end FusionError

/-- What a computation with a state leaves behind that fails: the error, and the state that it came
to. -/
structure Failure (σ : Type) where
  error : FusionError
  state : σ

end ArrayFusion
