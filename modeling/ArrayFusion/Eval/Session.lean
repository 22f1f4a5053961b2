import ArrayFusion.Data.Table
import ArrayFusion.Eval.Evaluator

/-!
# Sessions

An evaluator answers one request after another.  Its session is what it remembers meanwhile: how
many calls are open, and how often each function has been called.  A call is counted and opened if
its function exists, the arguments fit and the limit leaves room for it.  It is closed when its body
is over, whatever the outcome.
-/

namespace ArrayFusion

/-- What an evaluator remembers. -/
structure Session where
  /-- The number of open calls. -/
  depth : Nat
  /-- How often each function has been called. -/
  counts : Table String Nat

namespace Session

/-- Nothing has been called. -/
def new : Session := ⟨0, .empty⟩

/-- How often a function has been called. -/
def callCount (s : Session) (fn : String) : Nat := (s.counts.find? fn).getD 0

/-- Counts a call of a function and opens it. -/
def enter (fn : String) (s : Session) : Session :=
  ⟨s.depth + 1, s.counts.insert fn (s.callCount fn + 1)⟩

/-- Closes a call. -/
def leave (s : Session) : Session := { s with depth := s.depth - 1 }

/-- A call of a function, given its body: when that is over the call is closed, also if it
failed. -/
def during {α : Type} (fn : String) (body : Evaluation Session α) : Evaluation Session α :=
  ExceptT.mk do
    modify (enter fn)
    let result ← body.run
    modify leave
    return result

theorem callCount_enter (s : Session) (fn g : String) :
    (s.enter fn).callCount g = s.callCount g + [fn].count g := by
  unfold callCount enter
  rw [Table.find?_insert]
  by_cases h : g = fn
  · subst h
    simp [callCount]
  · simp [h, Ne.symm h]

end Session

namespace Program

open Eval (lift)

/-- A call in a session, with at most `room` calls inside of one another.  The limit is checked
against the open calls of the session, so more room than they leave makes no difference. -/
def answer (p : Program) : Nat → CalleeOver Session
  | 0, fn, args => do
    let _ ← lift (p.resolve fn args)
    throw .stackOverflow
  | room + 1, fn, args => do
    let f ← lift (p.resolve fn args)
    if maxDepth ≤ (← get).depth then throw .stackOverflow
    else
      Session.during fn (f.body.eval (p.answer room)
        (Env.empty.extendMany ((Pattern.names f.params).zip args)))

/-- Evaluates an expression in a session. -/
def evaluate (p : Program) (env : Env) (e : Exp) (s : Session) : Except EvalError Value × Session :=
  (e.eval (p.answer maxDepth) env).run.run s

/-- Applies a lambda in a session. -/
def applyLambda (p : Program) (env : Env) (f : Lambda) (args : List Value) (s : Session) :
    Except EvalError (List Value) × Session := (f.apply (p.answer maxDepth) env args).run.run s

/-- Answers a request. -/
def request (p : Program) (fn : String) (args : List Value) (s : Session) :
    Except EvalError Value × Session := (p.answer maxDepth fn args).run.run s

/-- Answers requests one after another, with what the session is in the end. -/
def requests (p : Program) : List (String × List Value) → Session →
    List (Except EvalError Value) × Session
  | [], s => ([], s)
  | (fn, args) :: qs, s =>
    let (result, s) := p.request fn args s
    let (results, s) := p.requests qs s
    (result :: results, s)

end Program

end ArrayFusion
