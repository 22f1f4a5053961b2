import ArrayFusion.Eval.Env
import ArrayFusion.Eval.Operator
import ArrayFusion.Syntax.Exp

/-!
# Evaluation

A sequential reference evaluator.  `Exp.eval` recurses on the expression and gets the meaning of
calls as a parameter, together with the state that calls may change; nothing else reads or changes
it. `Program.call` supplies the meaning of calls, recursing on how many calls may still be open at
once.  So every program has a result: a call beyond the limit fails.

A map applies its lambda to each row and returns one array per result; a filter keeps the rows for
which its predicate holds; a reduction is a left fold from the neutral elements, a scan keeps every
accumulator but the first, and a redomap is the fold with its inner lambda.

Each call is logged, whether or not it succeeds, so that it can be told how often a function ran.
-/

namespace ArrayFusion

/-- An evaluation over a state: it may fail, and what it did to the state stays in either case. -/
abbrev Evaluation (τ : Type) := ExceptT EvalError (StateM τ)

/-- What it means to call a function, over a state. -/
abbrev CalleeOver (τ : Type) := String → List Value → Evaluation τ Value

/-- The functions called so far, the latest first. -/
abbrev CallLog := List String

/-- An evaluation that extends a log of calls. -/
abbrev Eval := Evaluation CallLog

/-- What it means to call a function of the program. -/
abbrev Callee := CalleeOver CallLog

namespace Eval

variable {α σ τ : Type}

/-- An evaluation that calls nothing. -/
def lift : Except EvalError α → Evaluation τ α
  | .ok a => pure a
  | .error e => throw e

/-- Takes `count` steps, numbered from `k` on.  A step that fails is the last one. -/
def iterate (step : Nat → σ → Evaluation τ σ) (k : Nat) : Nat → σ → Evaluation τ σ
  | 0, acc => pure acc
  | count + 1, acc => do iterate step (k + 1) count (← step k acc)

/-- The accumulators of a fold behind the first one. -/
def scan (step : σ → α → Evaluation τ σ) (acc : σ) : List α → Evaluation τ (List σ)
  | [] => pure []
  | x :: xs => do
    let acc ← step acc x
    return acc :: (← scan step acc xs)

/-- The members that pass a test. -/
def keep (test : α → Evaluation τ Bool) : List α → Evaluation τ (List α)
  | [] => pure []
  | x :: xs => do
    -- a member is tested before those behind it
    let kept ← test x
    let rest ← keep test xs
    return if kept then x :: rest else rest

/-- The rows of the arguments of a combinator, whose evaluation is `arrays`. -/
def rows (arrays : Evaluation τ (List (List Value))) : Evaluation τ (List (List Value)) := do
  lift (Value.pairUp (← arrays))

/-- Does a row stay in a filter whose predicate returned these results?  The first one decides. -/
def verdict : List Value → Evaluation τ Bool
  | [] => pure false
  | v :: _ => lift v.toBool

end Eval

/-- Several arrays as one value. -/
def Value.ofColumns (cs : List (List Value)) : Value := .ofResults (cs.map .array)

/-- Binds the identifiers of a pattern to the parts of a value. -/
def Env.bindPattern (env : Env) (p : Pattern) (v : Value) : Except EvalError Env := do
  return env.extendMany (p.names.zip (← v.results p.length))

/-- The value of a name that must have one. -/
def Env.get (env : Env) (x : Name) : Except EvalError Value :=
  match env.lookup? x with
  | some v => .ok v
  | none => .error (.unboundVariable x)

open Eval (lift)

variable {τ : Type}

mutual

/-- Evaluates an expression. -/
def Exp.eval (call : CalleeOver τ) (env : Env) : Exp → Evaluation τ Value
  | .lit v _ => pure (.ofLiteral v)
  | .var x _ => lift (env.get x.name)
  | .tuple es _ => do return .tuple (← Exp.evalAll call env es)
  | .array es _ _ => do return .array (← Exp.evalAll call env es)
  | .binary op a b _ _ => do
    let v ← a.eval call env
    let w ← b.eval call env
    lift (Value.binary op v w)
  | .unary op e _ => do lift (Value.unary op (← e.eval call env))
  | .cond c a b _ _ => do
    let v ← c.eval call env
    if ← lift v.toBool then a.eval call env else b.eval call env
  | .call f es _ _ => do call f (← Exp.evalAll call env es)
  | .letIn p r b _ => do
    let v ← r.eval call env
    b.eval call (← lift (env.bindPattern p v))
  | .update x y is e b _ => do
    -- the array is looked up before the path and the new value are evaluated
    let v ← lift (env.get y.name)
    let path ← Exp.evalPath call env is
    let new ← e.eval call env
    b.eval call (env.extend x.name (← lift (Value.updateAt new v path)))
  | .index x is _ => do Exp.evalIndex call env (← lift (env.get x.name)) is
  | .replicate n e _ => do
    let v ← n.eval call env
    let count ← lift v.toInt
    return .copies count (← e.eval call env)
  | .loop p is i n b r _ => do
    let start ← Exp.evalAll call env is
    let v ← n.eval call env
    let count ← lift v.toInt
    let step (k : Nat) (vs : List Value) : Evaluation τ (List Value) := do
      -- the counter hides a variable of the loop that has its name
      let inner ← lift (env.bindPattern p (.ofResults vs))
      let v ← b.eval call (inner.extend i.name (.int (Int64.ofNat k)))
      lift (v.results p.length)
    let final ← Eval.iterate step 0 count.toInt.toNat start
    r.eval call (← lift (env.bindPattern p (.ofResults final)))
  | .soac op es _ _ =>
    op.eval call env es.length (Eval.rows (Exp.evalArrays call env es))

/-- Evaluates expressions from left to right. -/
def Exp.evalAll (call : CalleeOver τ) (env : Env) : List Exp → Evaluation τ (List Value)
  | [] => pure []
  | e :: es => do
    let v ← e.eval call env
    return v :: (← Exp.evalAll call env es)

/-- Evaluates indices, each of which must be an integer before the next one is looked at. -/
def Exp.evalPath (call : CalleeOver τ) (env : Env) : List Exp → Evaluation τ (List Int64)
  | [] => pure []
  | e :: es => do
    let v ← e.eval call env
    let i ← lift v.toInt
    return i :: (← Exp.evalPath call env es)

/-- Follows indices into a value, each of them evaluated when it is needed. -/
def Exp.evalIndex (call : CalleeOver τ) (env : Env) (v : Value) : List Exp → Evaluation τ Value
  | [] => pure v
  | e :: es => do
    let w ← e.eval call env
    let i ← lift w.toInt
    Exp.evalIndex call env (← lift (v.row i)) es

/-- Evaluates the arguments of a combinator, which must be arrays. -/
def Exp.evalArrays (call : CalleeOver τ) (env : Env) : List Exp → Evaluation τ (List (List Value))
  | [] => pure []
  | e :: es => do
    let v ← e.eval call env
    let rows ← lift v.toArray
    return rows :: (← Exp.evalArrays call env es)

/-- Applies a lambda: one value for each of its declared results. -/
def Lambda.apply (call : CalleeOver τ) (env : Env) : Lambda → List Value → Evaluation τ (List Value)
  | ⟨ps, b, ts⟩, args =>
    if ps.length = args.length then do
      let v ← b.eval call (env.extendMany ((Pattern.names ps).zip args))
      lift (v.results ts.length)
    else throw (.wrongArity ps.length args.length)

/-- Applies a combinator to `width` arguments whose rows are computed by `rows`.  A fold evaluates
its neutral elements before its arguments. -/
def Combinator.eval (call : CalleeOver τ) (env : Env) (width : Nat)
    (rows : Evaluation τ (List (List Value))) : Combinator → Evaluation τ Value
  | .map f => do
    let results ← (← rows).mapM (f.apply call env)
    return .ofColumns (columns f.rets.length results)
  | .reduce f ne => do
    let start ← Exp.evalAll call env ne
    return .ofResults (← (← rows).foldlM (fun acc row => f.apply call env (acc ++ row)) start)
  | .scan f ne => do
    let start ← Exp.evalAll call env ne
    let accs ← Eval.scan (fun acc row => f.apply call env (acc ++ row)) start (← rows)
    return .ofColumns (columns start.length accs)
  | .filter p => do
    let kept ← Eval.keep (fun row => do Eval.verdict (← p.apply call env row)) (← rows)
    return .ofColumns (columns width kept)
  -- the outer operator only says how parts of the result could be combined
  | .redomap _ f ne => do
    let start ← Exp.evalAll call env ne
    return .ofResults (← (← rows).foldlM (fun acc row => f.apply call env (acc ++ row)) start)

end

namespace Program

/-- The function that is called, if there is one and the number of arguments is right. -/
def resolve (p : Program) (fn : String) (args : List Value) : Except EvalError FunDef :=
  match p.fun? fn with
  | none => .error (.unknownFunction fn)
  | some f =>
    if f.params.length = args.length then .ok f
    else .error (.wrongArity f.params.length args.length)

/-- A call of a function while at most `depth` further calls may be open. -/
def callWithin (p : Program) : Nat → Callee
  | 0, fn, args => do
    let _ ← lift (p.resolve fn args)
    throw .stackOverflow
  | depth + 1, fn, args => do
    let f ← lift (p.resolve fn args)
    -- the latest call comes first in the log
    modify (fn :: ·)
    f.body.eval (p.callWithin depth) (Env.empty.extendMany ((Pattern.names f.params).zip args))

/-- How many calls may be open at once. -/
def maxDepth : Nat := 1000

/-- A call from outside. -/
def call (p : Program) : Callee := p.callWithin maxDepth

end Program

end ArrayFusion
