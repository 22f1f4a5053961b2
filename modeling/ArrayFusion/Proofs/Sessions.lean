import Mathlib.Algebra.BigOperators.Group.List.Basic
import Mathlib.Algebra.GroupWithZero.Nat
import ArrayFusion.Eval.Session
import ArrayFusion.Proofs.Outcome

/-!
# Sessions and their requests

Two evaluations of one expression go the same way if their states stay related by whatever is called
(`Exp.related_eval`).  So a session can be followed by the log of the calls that were made in it: a
call has the outcome that it has with as much room as the session leaves, it leaves as many calls
open as it found, and it counts just the calls of that log (`Program.tracks_answer`).

Hence the requests to one evaluator do not influence one another (`Program.requests_independent`).
-/

namespace ArrayFusion

namespace Eval

variable {σ τ α β : Type} {R : σ → τ → Prop}

/-- From related states the two evaluations have the same outcome and end in related states. -/
def Related (R : σ → τ → Prop) (x : Evaluation σ α) (y : Evaluation τ α) : Prop :=
  ∀ s t, R s t → (x.run.run s).1 = (y.run.run t).1 ∧ R (x.run.run s).2 (y.run.run t).2

namespace Related

/-- To return a value is the same in both sessions. -/
theorem pure (a : α) : Related R (Pure.pure a) (Pure.pure a) := fun _ _ h => ⟨rfl, h⟩

/-- To fail is the same in both sessions. -/
theorem throw (e : EvalError) :
    Related R (MonadExcept.throw e : Evaluation σ α) (MonadExcept.throw e) := fun _ _ h => ⟨rfl, h⟩

theorem lift (x : Except EvalError α) : Related R (lift x) (lift x) := by
  cases x with
  | ok a => exact .pure a
  | error e => exact .throw e

/-- Related evaluations in a row are related. -/
theorem bind {x : Evaluation σ α} {y : Evaluation τ α} {f : α → Evaluation σ β}
    {g : α → Evaluation τ β} (hx : Related R x y) (hf : ∀ a, Related R (f a) (g a)) :
    Related R (x >>= f) (y >>= g) := by
  intro s t h
  have hrun := hx s t h
  change (StateT.run (ExceptT.bindCont f (x.run.run s).1) (x.run.run s).2).1
      = (StateT.run (ExceptT.bindCont g (y.run.run t).1) (y.run.run t).2).1
    ∧ R (StateT.run (ExceptT.bindCont f (x.run.run s).1) (x.run.run s).2).2
      (StateT.run (ExceptT.bindCont g (y.run.run t).1) (y.run.run t).2).2
  rw [← hrun.1]
  cases (x.run.run s).1 with
  | ok a => exact hf a _ _ hrun.2
  | error e => exact ⟨rfl, hrun.2⟩

/-- Related steps follow one another. -/
def congruence (R : σ → τ → Prop) : Congruence σ τ where
  holds := Related R
  pure := pure
  throw := throw
  bind := bind

end Related

end Eval

open Eval (Related)

/-- Whatever relation between states the calls keep, the evaluation of an expression keeps. -/
theorem Exp.related_eval {σ τ : Type} {R : σ → τ → Prop} {call : CalleeOver σ}
    {call' : CalleeOver τ} (hcall : ∀ fn args, Related R (call fn args) (call' fn args)) (env : Env)
    (e : Exp) : Related R (e.eval call env) (e.eval call' env) :=
  e.congruent (Related.congruence R) hcall env

/-! ## Calls -/

namespace Session

/-- The session has so many open calls, and it counts the calls of the log above what was counted
before them. -/
structure Tracks (depth : Nat) (before : String → Nat) (s : Session) (log : CallLog) : Prop where
  depth : s.depth = depth
  counts : ∀ fn, s.callCount fn = before fn + log.count fn

variable {d : Nat} {before : String → Nat} {s : Session} {log : CallLog}

theorem Tracks.enter (h : Tracks d before s log) (fn : String) :
    Tracks (d + 1) before (s.enter fn) (fn :: log) where
  depth := congrArg (· + 1) h.depth
  counts := fun g => by
    rw [callCount_enter, h.counts, List.count_singleton, List.count_cons, Nat.add_assoc]

theorem Tracks.leave (h : Tracks (d + 1) before s log) : Tracks d before s.leave log where
  depth := by rw [Session.leave, h.depth, Nat.add_sub_cancel]
  counts := h.counts

/-- What is done while a call is open happens in a session with one more open call. -/
theorem Tracks.during {α : Type} {x : Evaluation Session α} {y : Eval α} (fn : String)
    (h : Related (Tracks (d + 1) before) x y) :
    Related (Tracks d before) (Session.during fn x) (modify (fn :: ·) >>= fun _ => y) :=
  fun s log hs => (h (s.enter fn) (fn :: log) (hs.enter fn)).imp_right Tracks.leave

/-- The limit is checked against the open calls of the session. -/
theorem Tracks.limited {α : Type} {x x' : Evaluation Session α} {y : Eval α}
    (h : Related (Tracks d before) (if Program.maxDepth ≤ d then x else x') y) :
    Related (Tracks d before) (do if Program.maxDepth ≤ (← get).depth then x else x') y :=
  fun s log hs => by
    obtain rfl := hs.depth
    exact h s log hs

end Session

namespace Program

open Session (Tracks)

/-- A call in a session has the outcome that it has within what the limit leaves, and it closes
whatever it opens.  The induction is on the room: a call that is opened has one less of it, and the
session has one open call more. -/
theorem tracks_answer (p : Program) {room d : Nat} (hroom : maxDepth ≤ d + room)
    (before : String → Nat) (fn : String) (args : List Value) :
    Related (Tracks d before) (p.answer room fn args) (p.callWithin (maxDepth - d) fn args) := by
  induction room generalizing d fn args with
  | zero =>
    -- no room is left, and the limit is reached already
    rw [Nat.sub_eq_zero_of_le (show maxDepth ≤ d from hroom)]
    exact (Related.lift _).bind fun _ => .throw _
  | succ room ih =>
    -- the room is more than the limit allows, or the depth decides
    by_cases hd : maxDepth ≤ d
    · rw [Nat.sub_eq_zero_of_le hd]
      -- both refuse the call
      refine (Related.lift _).bind fun f => Tracks.limited ?_
      rw [if_pos hd]
      exact .throw _
    · obtain ⟨n, hn⟩ : ∃ n, maxDepth - d = n + 1 := ⟨maxDepth - (d + 1), by omega⟩
      rw [hn]
      refine (Related.lift _).bind fun f => Tracks.limited ?_
      rw [if_neg hd]
      obtain rfl : n = maxDepth - (d + 1) := by omega
      -- the body is evaluated one level deeper in both sessions
      exact Tracks.during fn (f.body.related_eval (ih (by omega)) _)

/-- A request is answered as by a call with as much room as the session leaves, and the session then
has as many open calls as before and counts the calls that were made. -/
theorem request_spec (p : Program) (fn : String) (args : List Value) (s : Session) :
    (p.request fn args s).1 = ((p.callWithin (maxDepth - s.depth) fn args).run.run []).1
      ∧ (p.request fn args s).2.depth = s.depth
      ∧ ∀ g, (p.request fn args s).2.callCount g = s.callCount g
        + ((p.callWithin (maxDepth - s.depth) fn args).run.run []).2.count g := by
  obtain ⟨hresult, htracks⟩ := p.tracks_answer (Nat.le_add_left maxDepth s.depth) s.callCount
    fn args s [] ⟨rfl, fun g => (Nat.add_zero _).symm⟩
  exact ⟨hresult, htracks.depth, htracks.counts⟩

/-- An expression has in a session the outcome that it has with calls that get as much room as the
session leaves. -/
theorem evaluate_spec (p : Program) (env : Env) (e : Exp) (s : Session) :
    (p.evaluate env e s).1 = ((e.eval (p.callWithin (maxDepth - s.depth)) env).run.run []).1 :=
  (e.related_eval (p.tracks_answer (Nat.le_add_left maxDepth s.depth) s.callCount) env s []
    ⟨rfl, fun _ => (Nat.add_zero _).symm⟩).1

/-- An expression has a value in a session if it yields that value, whatever the calls cost. -/
theorem evaluate_eq_ok {p : Program} {env : Env} {e : Exp} {s : Session} {v : Value}
    (w : String → Nat) : (p.evaluate env e s).1 = .ok v
      ↔ ∃ k, Eval.Yields w (e.eval (p.callWithin (maxDepth - s.depth)) env) v k := by
  rw [evaluate_spec]
  exact (e.eval_uniform (p.callWithin_uniform (maxDepth - s.depth)) env).eq_ok_iff w

/-- In a session without open calls a request is a call from outside. -/
theorem request_of_depth {s : Session} (hs : s.depth = 0) (p : Program) (fn : String)
    (args : List Value) : (p.request fn args s).1 = ((p.call fn args).run.run []).1
      ∧ (p.request fn args s).2.depth = 0
      ∧ ∀ g, (p.request fn args s).2.callCount g
        = s.callCount g + ((p.call fn args).run.run []).2.count g := by
  obtain ⟨hresult, hdepth, hcounts⟩ := p.request_spec fn args s
  rw [hs] at hresult hdepth hcounts
  exact ⟨hresult, hdepth, hcounts⟩

/-- Requests in a session without open calls. -/
theorem requests_of_depth (p : Program) (qs : List (String × List Value)) {s : Session}
    (hs : s.depth = 0) :
    (p.requests qs s).1 = qs.map (fun q => (p.request q.1 q.2 .new).1)
      ∧ (p.requests qs s).2.depth = 0
      ∧ ∀ g, (p.requests qs s).2.callCount g
        = s.callCount g + (qs.map fun q => (p.request q.1 q.2 .new).2.callCount g).sum := by
  induction qs generalizing s with
  | nil => exact ⟨rfl, hs, fun _ => (Nat.add_zero _).symm⟩
  | cons q qs ih =>
    obtain ⟨hresult, hdepth, hcounts⟩ := request_of_depth hs p q.1 q.2
    -- the first request has the outcome and the counts that it has in a new session
    obtain ⟨hresult', -, hcounts'⟩ := request_of_depth (s := .new) rfl p q.1 q.2
    obtain ⟨hresults, hdepth', hrest⟩ := ih hdepth
    refine ⟨congrArg₂ List.cons (hresult.trans hresult'.symm) hresults, hdepth',
      fun g => (hrest g).trans ?_⟩
    rw [hcounts g, List.map_cons, List.sum_cons, hcounts' g, show Session.new.callCount g =
      0 from rfl]
    omega

/-- Requests to one evaluator, failing ones included, do not influence one another: each has the
outcome that it has as the only request to a new evaluator, no call is open between them, and in the
end each function has been called as often as by separate new evaluators together. -/
theorem requests_independent (p : Program) (qs : List (String × List Value)) :
    (p.requests qs .new).1 = qs.map (fun q => (p.request q.1 q.2 .new).1)
      ∧ (∀ k, (p.requests (qs.take k) .new).2.depth = 0)
      ∧ ∀ g, (p.requests qs .new).2.callCount g
        = (qs.map fun q => (p.request q.1 q.2 .new).2.callCount g).sum := by
  obtain ⟨hresults, -, hcounts⟩ := p.requests_of_depth qs (s := .new) rfl
  refine ⟨hresults, fun k => (p.requests_of_depth (qs.take k) rfl).2.1, fun g => ?_⟩
  rw [hcounts g, show Session.new.callCount g = 0 from rfl, Nat.zero_add]

end Program

end ArrayFusion
