import Mathlib.Algebra.BigOperators.Group.List.Basic
import Mathlib.Tactic.Choose
import Mathlib.Algebra.Order.BigOperators.Group.List
import Mathlib.Algebra.GroupWithZero.Nat
import ArrayFusion.Proofs.Congruences

/-!
# Outcomes of evaluations

An evaluation reads and extends a log of calls.  `Yields` says that it succeeds with a value and
what its calls cost, whatever was logged before.  `Uniform` says that the log before it has no
influence at all, which holds of every expression as soon as it holds of the calls, and which is
what makes a sequence of evaluations fall apart into its steps (`Uniform.yields_bind_iff`).

`Refines` compares two evaluations: whenever the first one yields a value, so does the second one,
at a cost that exceeds the first one's by no more than a given allowance.
-/

namespace ArrayFusion

/-- What the calls of a log cost together, if a call of `fn` costs `w fn`. -/
def CallLog.cost (w : String → Nat) (log : CallLog) : Nat := (log.map w).sum

/-- The calls of two logs cost what those of each cost. -/
theorem CallLog.cost_append (w : String → Nat) (d e : CallLog) :
    CallLog.cost w (d ++ e) = CallLog.cost w d + CallLog.cost w e := by
  simp [CallLog.cost]

namespace Eval

variable {α β σ : Type} {w : String → Nat}

/-- The result of an evaluation behind the calls of a log, and the log afterwards. -/
def runFrom (x : Eval α) (log : CallLog) : Except EvalError α × CallLog := x.run.run log

/-- It succeeds with the value `a`, and its calls cost `k`, whatever was logged before. -/
def Yields (w : String → Nat) (x : Eval α) (a : α) (k : Nat) : Prop :=
  ∃ d : CallLog, (∀ log, x.runFrom log = (.ok a, d ++ log)) ∧ CallLog.cost w d = k

/-- Its result and what it adds to the log do not depend on what was logged before. -/
def Uniform (x : Eval α) : Prop :=
  ∃ (r : Except EvalError α) (d : CallLog), ∀ log, x.runFrom log = (r, d ++ log)

/-! ## Sequences of evaluations -/

/-- The second step runs from the log that the first one leaves, unless that has failed. -/
theorem runFrom_bind (x : Eval α) (f : α → Eval β) (log : CallLog) :
    (x >>= f).runFrom log = match x.runFrom log with
      | (.ok a, log) => (f a).runFrom log
      | (.error e, log) => (.error e, log) := by
  change (match x.runFrom log with
    | (r, s) => (StateT.run (ExceptT.bindCont f r : StateM CallLog (Except EvalError β)) s :)) = _
  rcases x.runFrom log with ⟨r, s⟩
  cases r <;> rfl

/-- Behind a step that succeeds, the second one runs. -/
theorem run_bind_ok {x : Eval α} {f : α → Eval β} {log log' : CallLog} {a : α}
    (h : x.runFrom log = (.ok a, log')) : (x >>= f).runFrom log = (f a).runFrom log' := by
  rw [runFrom_bind, h]

/-- Behind a step that fails, nothing runs. -/
theorem run_bind_error {x : Eval α} {f : α → Eval β} {log log' : CallLog} {e : EvalError}
    (h : x.runFrom log = (.error e, log')) : (x >>= f).runFrom log = (.error e, log') := by
  rw [runFrom_bind, h]

/-- A value is yielded at no cost. -/
theorem Yields.pure (a : α) : Yields w (Pure.pure a) a 0 := ⟨[], fun _ => rfl, rfl⟩

/-- The costs of two steps add up. -/
theorem Yields.bind {x : Eval α} {f : α → Eval β} {a : α} {b : β} {i j : Nat}
    (hx : Yields w x a i) (hf : Yields w (f a) b j) : Yields w (x >>= f) b (i + j) := by
  obtain ⟨d, hd, hi⟩ := hx
  obtain ⟨e, he, hj⟩ := hf
  refine ⟨e ++ d, fun log => ?_, ?_⟩
  · rw [run_bind_ok (hd log), he, List.append_assoc]
  · rw [CallLog.cost_append, hi, hj, Nat.add_comm]

/-- An evaluation has one value and one cost. -/
theorem Yields.unique {x : Eval α} {a b : α} {i j : Nat} (ha : Yields w x a i)
    (hb : Yields w x b j) : a = b ∧ i = j := by
  obtain ⟨d, hd, rfl⟩ := ha
  obtain ⟨e, he, rfl⟩ := hb
  have h := (hd []).symm.trans (he [])
  simp only [List.append_nil, Prod.mk.injEq, Except.ok.injEq] at h
  exact ⟨h.1, by rw [h.2]⟩

theorem Uniform.pure (a : α) : Uniform (Pure.pure a : Eval α) := ⟨.ok a, [], fun _ => rfl⟩

/-- A failure does not look at the log. -/
theorem Uniform.throw (e : EvalError) : Uniform (MonadExcept.throw e : Eval α) :=
  ⟨.error e, [], fun _ => rfl⟩

/-- What makes no calls does not look at the log. -/
theorem Uniform.lift (x : Except EvalError α) : Uniform (lift x) := by
  cases x with
  | ok a => exact Uniform.pure a
  | error e => exact Uniform.throw e

/-- Calls are logged in front of whatever was logged before. -/
theorem Uniform.log (fn : String) : Uniform (modify (fn :: ·) : Eval PUnit) :=
    ⟨.ok ⟨⟩, [fn], fun _ => rfl⟩

/-- Two steps do not look at the log if neither does. -/
theorem Uniform.bind {x : Eval α} {f : α → Eval β} (hx : Uniform x) (hf : ∀ a, Uniform (f a)) :
    Uniform (x >>= f) := by
  obtain ⟨r, d, hd⟩ := hx
  cases r with
  | error e => exact ⟨.error e, d, fun log => run_bind_error (hd log)⟩
  | ok a =>
    obtain ⟨r, e, he⟩ := hf a
    exact ⟨r, e ++ d, fun log => by rw [run_bind_ok (hd log), he, List.append_assoc]⟩

/-- An evaluation that does not depend on the log yields a value if it returns it where nothing was
logged. -/
theorem Uniform.eq_ok_iff {x : Eval α} (h : Uniform x) (w : String → Nat) {a : α} :
    (x.run.run []).1 = .ok a ↔ ∃ k, Yields w x a k := by
  constructor
  · intro ha
    obtain ⟨r, d, hd⟩ := h
    have hr : r = .ok a := (congrArg Prod.fst (hd [])).symm.trans ha
    exact ⟨CallLog.cost w d, d, hr ▸ hd, rfl⟩
  · rintro ⟨k, d, hd, -⟩
    exact congrArg Prod.fst (hd [])

/-- A sequence yields what its second step yields on the value of the first one. -/
theorem Uniform.yields_bind_iff {x : Eval α} {f : α → Eval β} (hx : Uniform x)
    (hf : ∀ a, Uniform (f a)) {b : β} {k : Nat} :
    Yields w (x >>= f) b k ↔ ∃ a i j, Yields w x a i ∧ Yields w (f a) b j ∧ i + j = k := by
  constructor
  · rintro ⟨d, hd, rfl⟩
    obtain ⟨r, d₁, h₁⟩ := hx
    -- both parts cost the same in every session, so one run of each decides
    cases r with
    | error e =>
      cases (hd []).symm.trans (run_bind_error (h₁ []))
    | ok a =>
      obtain ⟨r, d₂, h₂⟩ := hf a
      have h := hd []
      rw [run_bind_ok (h₁ []), h₂] at h
      simp only [List.append_nil, Prod.mk.injEq] at h
      obtain ⟨rfl, rfl⟩ := h
      refine ⟨a, CallLog.cost w d₁, CallLog.cost w d₂, ⟨d₁, h₁, rfl⟩, ⟨d₂, h₂, rfl⟩, ?_⟩
      -- the log has the later calls in front
      rw [CallLog.cost_append, Nat.add_comm]
  · rintro ⟨a, i, j, ha, hb, rfl⟩
    exact ha.bind hb

theorem Yields.bind_pure {x : Eval α} {g : α → β} {a : α} {k : Nat} (hx : Yields w x a k) :
    Yields w (x >>= fun a => Pure.pure (g a)) (g a) k :=
  have h : Yields w (x >>= fun a => Pure.pure (g a)) (g a) (k + 0) := hx.bind (.pure (g a))
  h

/-- A value yields itself, at no cost. -/
theorem yields_pure_iff {a b : α} {k : Nat} :
    Yields w (Pure.pure a) b k ↔ a = b ∧ k = 0 := by
  constructor
  · intro h
    obtain ⟨h₁, h₂⟩ := (Yields.pure a).unique h
    exact ⟨h₁, h₂.symm⟩
  · rintro ⟨rfl, rfl⟩
    exact .pure a

/-- A result that is computed from what a step yields costs what the step does. -/
theorem Uniform.yields_bind_pure_iff {x : Eval α} {g : α → β} (hx : Uniform x) {b : β} {k : Nat} :
    Yields w (x >>= fun a => Pure.pure (g a)) b k ↔ ∃ a, Yields w x a k ∧ g a = b := by
  rw [hx.yields_bind_iff fun _ => .pure _]
  constructor
  · rintro ⟨a, i, j, ha, hb, rfl⟩
    obtain ⟨rfl, rfl⟩ := yields_pure_iff.1 hb
    exact ⟨a, ha, rfl⟩
  · rintro ⟨a, ha, rfl⟩
    exact ⟨a, k, 0, ha, .pure _, rfl⟩

/-- What makes no calls yields its value at no cost. -/
theorem yields_lift_iff {x : Except EvalError α} {b : α} {k : Nat} :
    Yields w (lift x) b k ↔ x = .ok b ∧ k = 0 := by
  cases x with
  | ok a =>
    rw [show lift (.ok a : Except EvalError α) = Pure.pure a from rfl, yields_pure_iff]
    simp
  | error e =>
    constructor
    · rintro ⟨d, hd, -⟩
      cases (hd []).symm
    · rintro ⟨h, -⟩
      cases h

/-- What makes no calls and succeeds yields its value. -/
theorem Yields.lift {x : Except EvalError α} {a : α} (h : x = .ok a) : Yields w (lift x) a 0 :=
  yields_lift_iff.2 ⟨h, rfl⟩

/-- A failure yields nothing. -/
theorem not_yields_throw {e : EvalError} {b : α} {k : Nat} :
    ¬ Yields w (MonadExcept.throw e : Eval α) b k := by
  rintro ⟨d, hd, -⟩
  cases (hd []).symm

/-- If no call costs anything, nothing does. -/
theorem Yields.eq_zero {x : Eval α} {a : α} {k : Nat} (h : Yields w x a k)
    (hw : ∀ fn, w fn = 0) : k = 0 := by
  obtain ⟨d, -, rfl⟩ := h
  rw [show w = fun _ => 0 from funext hw]
  simp [CallLog.cost]

/-! ## Loops -/

/-- Uniform steps follow one another. -/
def Uniform.congruence : Congruence CallLog CallLog where
  holds x _ := Uniform x
  pure := Uniform.pure
  throw := Uniform.throw
  bind := Uniform.bind

/-- No step of a loop over a list looks at the log if each of them does not. -/
theorem Uniform.mapM {f : α → Eval β} (hf : ∀ a, Uniform (f a)) (xs : List α) :
    Uniform (xs.mapM f) :=
  Uniform.congruence.mapM (g := f) hf xs

/-- A fold does not look at the log if its steps do not. -/
theorem Uniform.foldlM {f : σ → α → Eval σ} (hf : ∀ s a, Uniform (f s a)) (xs : List α) (s : σ) :
    Uniform (xs.foldlM f s) :=
  Uniform.congruence.foldlM (g := f) hf xs s

/-- A scan does not look at the log if its steps do not. -/
theorem Uniform.scan {f : σ → α → Eval σ} (hf : ∀ s a, Uniform (f s a)) (xs : List α) (s : σ) :
    Uniform (scan f s xs) :=
  Uniform.congruence.scan (g := f) hf xs s

/-- A filter does not look at the log if its predicate does not. -/
theorem Uniform.keep {f : α → Eval Bool} (hf : ∀ a, Uniform (f a)) (xs : List α) :
    Uniform (keep f xs) :=
  Uniform.congruence.keep (g := f) hf xs

theorem Uniform.verdict (vs : List Value) : Uniform (verdict vs) := Uniform.congruence.verdict vs

/-- A loop over a list yields the list of what its steps yield. -/
theorem Yields.mapM {f : α → Eval β} {val : α → β} {cost : α → Nat} {xs : List α}
    (h : ∀ a ∈ xs, Yields w (f a) (val a) (cost a)) :
    Yields w (xs.mapM f) (xs.map val) (xs.map cost).sum := by
  induction xs with
  | nil => exact .pure []
  | cons x xs ih =>
    rw [List.mapM_cons, List.map_cons, List.map_cons, List.sum_cons]
    have hxs := ih fun a ha => h a (List.mem_cons_of_mem _ ha)
    exact (h x List.mem_cons_self).bind hxs.bind_pure

/-- A loop over a list yields what it does for the head and for the tail. -/
theorem yields_mapM_cons_iff {f : α → Eval β} (hf : ∀ a, Uniform (f a)) {x : α} {xs : List α}
    {ys : List β} {k : Nat} :
    Yields w ((x :: xs).mapM f) ys k ↔
      ∃ b bs i j, Yields w (f x) b i ∧ Yields w (xs.mapM f) bs j ∧ ys = b :: bs ∧ k = i + j := by
  rw [List.mapM_cons, (hf x).yields_bind_iff fun _ => (Uniform.mapM hf xs).bind fun _ => .pure _]
  simp only [(Uniform.mapM hf xs).yields_bind_pure_iff]
  constructor
  · rintro ⟨b, i, j, hb, ⟨bs, hbs, rfl⟩, rfl⟩
    exact ⟨b, bs, i, j, hb, hbs, rfl, rfl⟩
  · rintro ⟨b, bs, i, j, hb, hbs, rfl, rfl⟩
    exact ⟨b, i, j, hb, ⟨bs, hbs, rfl⟩, rfl⟩

/-- If a loop over a list succeeds, so does each of its steps. -/
theorem yields_mapM_iff [Inhabited β] {f : α → Eval β} (hf : ∀ a, Uniform (f a)) {xs : List α}
    {ys : List β} {k : Nat} :
    Yields w (xs.mapM f) ys k ↔
      ∃ (val : α → β) (cost : α → Nat), (∀ a ∈ xs, Yields w (f a) (val a) (cost a))
        ∧ ys = xs.map val ∧ k = (xs.map cost).sum := by
  constructor
  · intro h
    -- each element yields something, by induction on the list
    have hsteps : ∀ a ∈ xs, ∃ b i, Yields w (f a) b i := by
      induction xs generalizing ys k with
      | nil => simp
      | cons x xs ih =>
        obtain ⟨b, bs, i, j, hb, hbs, -⟩ := (yields_mapM_cons_iff hf).1 h
        intro a ha
        rcases List.mem_cons.1 ha with rfl | ha
        · exact ⟨b, i, hb⟩
        · exact ih hbs a ha
    -- which makes functions of the values and of the costs
    choose! val cost hval using hsteps
    obtain ⟨h₁, h₂⟩ := h.unique (.mapM hval)
    exact ⟨val, cost, hval, h₁, h₂⟩
  · rintro ⟨val, cost, h, rfl, rfl⟩
    exact .mapM h

/-- A selection yields the members that pass the test. -/
theorem Yields.keep {f : α → Eval Bool} {flag : α → Bool} {cost : α → Nat} {xs : List α}
    (h : ∀ a ∈ xs, Yields w (f a) (flag a) (cost a)) :
    Yields w (keep f xs) (xs.filter flag) (xs.map cost).sum := by
  induction xs with
  | nil => exact .pure []
  | cons x xs ih =>
    have hxs := ih fun a ha => h a (List.mem_cons_of_mem _ ha)
    have hx := (h x List.mem_cons_self).bind (f := fun kept => do
      let rest ← Eval.keep f xs
      return if kept then x :: rest else rest) hxs.bind_pure
    rw [List.map_cons, List.sum_cons, List.filter_cons]
    exact hx

/-- A filter keeps the head if the predicate says so, and what it keeps of the tail. -/
theorem yields_keep_cons_iff {f : α → Eval Bool} (hf : ∀ a, Uniform (f a)) {x : α} {xs : List α}
    {ys : List α} {k : Nat} :
    Yields w (keep f (x :: xs)) ys k ↔
      ∃ b bs i j, Yields w (f x) b i ∧ Yields w (keep f xs) bs j
        ∧ ys = (if b then x :: bs else bs) ∧ k = i + j := by
  rw [Eval.keep, (hf x).yields_bind_iff fun _ => (Uniform.keep hf xs).bind fun _ => .pure _]
  simp only [(Uniform.keep hf xs).yields_bind_pure_iff]
  constructor
  · rintro ⟨b, i, j, hb, ⟨bs, hbs, rfl⟩, rfl⟩
    exact ⟨b, bs, i, j, hb, hbs, rfl, rfl⟩
  · rintro ⟨b, bs, i, j, hb, hbs, rfl, rfl⟩
    exact ⟨b, i, j, hb, ⟨bs, hbs, rfl⟩, rfl⟩

/-- If a selection succeeds, so does each test. -/
theorem yields_keep_iff {f : α → Eval Bool} (hf : ∀ a, Uniform (f a)) {xs ys : List α} {k : Nat} :
    Yields w (keep f xs) ys k ↔
      ∃ (flag : α → Bool) (cost : α → Nat), (∀ a ∈ xs, Yields w (f a) (flag a) (cost a))
        ∧ ys = xs.filter flag ∧ k = (xs.map cost).sum := by
  constructor
  · intro h
    -- each element yields a flag, by induction on the list
    have hsteps : ∀ a ∈ xs, ∃ b i, Yields w (f a) b i := by
      induction xs generalizing ys k with
      | nil => simp
      | cons x xs ih =>
        obtain ⟨b, bs, i, j, hb, hbs, -⟩ := (yields_keep_cons_iff hf).1 h
        intro a ha
        rcases List.mem_cons.1 ha with rfl | ha
        · exact ⟨b, i, hb⟩
        · exact ih hbs a ha
    choose! flag cost hflag using hsteps
    obtain ⟨h₁, h₂⟩ := h.unique (.keep hflag)
    exact ⟨flag, cost, hflag, h₁, h₂⟩
  · rintro ⟨flag, cost, h, rfl, rfl⟩
    exact .keep h

/-- A fold goes on with what its first step yields. -/
theorem yields_foldlM_cons_iff {f : σ → α → Eval σ} (hf : ∀ s a, Uniform (f s a)) {x : α}
    {xs : List α} {s t : σ} {k : Nat} :
    Yields w ((x :: xs).foldlM f s) t k ↔
      ∃ u i j, Yields w (f s x) u i ∧ Yields w (xs.foldlM f u) t j ∧ i + j = k := by
  rw [List.foldlM_cons, (hf s x).yields_bind_iff fun _ => Uniform.foldlM hf xs _]

/-! ## Comparing two evaluations -/

/-- Whatever `x` yields, `x'` yields at no more than `c` above the cost. -/
structure Refines (w : String → Nat) (x x' : Eval α) (c : Nat) : Prop where
  uniform : Uniform x
  yields : ∀ a k, Yields w x a k → ∃ k', Yields w x' a k' ∧ k' ≤ k + c

namespace Refines

/-- An evaluation refines itself, at no further cost. -/
theorem refl {x : Eval α} (h : Uniform x) : Refines w x x 0 := ⟨h, fun _ k hk => ⟨k, hk, by omega⟩⟩

/-- A refinement of a refinement is one, and the further costs add up. -/
theorem trans {x x' x'' : Eval α} {c d : Nat} (h : Refines w x x' c) (h' : Refines w x' x'' d) :
    Refines w x x'' (c + d) := by
  refine ⟨h.uniform, fun a k hk => ?_⟩
  obtain ⟨k', hk', hle⟩ := h.yields a k hk
  obtain ⟨k'', hk'', hle'⟩ := h'.yields a k' hk'
  exact ⟨k'', hk'', by omega⟩

/-- The second steps need only be compared on a value that the first step yields. -/
theorem bind_of {x x' : Eval α} {f f' : α → Eval β} {c d : Nat} (hx : Refines w x x' c)
    (hu : ∀ a, Uniform (f a)) (hf : ∀ a k, Yields w x a k → Refines w (f a) (f' a) d) :
    Refines w (x >>= f) (x' >>= f') (c + d) := by
  refine ⟨hx.uniform.bind hu, fun b k hk => ?_⟩
  obtain ⟨a, i, j, ha, hb, rfl⟩ := (hx.uniform.yields_bind_iff hu).1 hk
  obtain ⟨i', ha', hi⟩ := hx.yields a i ha
  obtain ⟨j', hb', hj⟩ := (hf a i ha).yields b j hb
  exact ⟨i' + j', ha'.bind hb', by omega⟩

/-- Two steps are refined if both are, and the further costs add up. -/
theorem bind {x x' : Eval α} {f f' : α → Eval β} {c d : Nat} (hx : Refines w x x' c)
    (hf : ∀ a, Refines w (f a) (f' a) d) : Refines w (x >>= f) (x' >>= f') (c + d) :=
  hx.bind_of (fun a => (hf a).uniform) fun a _ _ => hf a

/-- Neither step needs an allowance. -/
theorem seq {x x' : Eval α} {f f' : α → Eval β} (hx : Refines w x x' 0)
    (hf : ∀ a, Refines w (f a) (f' a) 0) : Refines w (x >>= f) (x' >>= f') 0 := hx.bind hf

/-- Both go on in the same way. -/
theorem bind_same {x x' : Eval α} {f : α → Eval β} {c : Nat} (hx : Refines w x x' c)
    (hf : ∀ a, Uniform (f a)) : Refines w (x >>= f) (x' >>= f) c :=
  hx.bind fun a => refl (hf a)

/-- Steps that refine others follow one another as those do. -/
def congruence (w : String → Nat) : Congruence CallLog CallLog where
  holds x x' := Refines w x x' 0
  pure a := refl (.pure a)
  throw e := refl (.throw e)
  bind := seq

/-- A loop over a list is refined if its steps are. -/
theorem mapM {f f' : α → Eval β} (hf : ∀ a, Refines w (f a) (f' a) 0) (xs : List α) :
    Refines w (xs.mapM f) (xs.mapM f') 0 :=
  (congruence w).mapM hf xs

/-- A fold is refined if its steps are. -/
theorem foldlM {f f' : σ → α → Eval σ} (hf : ∀ s a, Refines w (f s a) (f' s a) 0) (xs : List α)
    (s : σ) : Refines w (xs.foldlM f s) (xs.foldlM f' s) 0 :=
  (congruence w).foldlM hf xs s

/-- Repeated steps are refined if the steps are. -/
theorem iterate {f f' : Nat → σ → Eval σ} (hf : ∀ i s, Refines w (f i s) (f' i s) 0) (k n : Nat)
    (s : σ) : Refines w (iterate f k n s) (iterate f' k n s) 0 :=
  (congruence w).iterate hf k n s

/-- A scan is refined if its steps are. -/
theorem scan {f f' : σ → α → Eval σ} (hf : ∀ s a, Refines w (f s a) (f' s a) 0) (xs : List α)
    (s : σ) : Refines w (scan f s xs) (scan f' s xs) 0 :=
  (congruence w).scan hf xs s

/-- A filter is refined if its predicate is. -/
theorem keep {f f' : α → Eval Bool} (hf : ∀ a, Refines w (f a) (f' a) 0) (xs : List α) :
    Refines w (keep f xs) (keep f' xs) 0 :=
  (congruence w).keep hf xs

end Refines

end Eval

/-! ## Evaluation is uniform if the calls are -/

open Eval (Uniform Refines)

section

variable {call : Callee} (hcall : ∀ fn args, Uniform (call fn args)) (env : Env)
include hcall

/-- The evaluation of an expression does not look at the log. -/
theorem Exp.eval_uniform (e : Exp) : Uniform (e.eval call env) :=
  have h : ∀ fn args, Uniform.congruence.holds (call fn args) (call fn args) := hcall
  Exp.congruent _ h env e

/-- Nor does that of a list of expressions. -/
theorem Exp.evalAll_uniform (es : List Exp) : Uniform (Exp.evalAll call env es) :=
  have h : ∀ fn args, Uniform.congruence.holds (call fn args) (call fn args) := hcall
  Exp.congruentAll _ h env es

theorem Exp.evalArrays_uniform (es : List Exp) : Uniform (Exp.evalArrays call env es) :=
  have h : ∀ fn args, Uniform.congruence.holds (call fn args) (call fn args) := hcall
  Exp.congruentArrays _ h env es

/-- Nor does the application of a lambda. -/
theorem Lambda.apply_uniform (f : Lambda) (args : List Value) : Uniform (f.apply call env args) :=
  have h : ∀ fn args, Uniform.congruence.holds (call fn args) (call fn args) := hcall
  Lambda.congruent _ h env f args

end

/-- Where the calls refine others, so does an expression. -/
theorem Exp.refines_calls {w : String → Nat} {call call' : Callee}
    (hcall : ∀ fn args, Refines w (call fn args) (call' fn args) 0) (env : Env) (e : Exp) :
    Refines w (e.eval call env) (e.eval call' env) 0 :=
  Exp.congruent (Refines.congruence w) hcall env e

/-- The calls of a program are uniform. -/
theorem Program.callWithin_uniform (p : Program) (depth : Nat) (fn : String) (args : List Value) :
    Uniform (p.callWithin depth fn args) := by
  induction depth generalizing fn args with
  | zero => exact (Uniform.lift _).bind fun _ => .throw _
  | succ depth ih =>
    exact (Uniform.lift _).bind fun f => (Uniform.log fn).bind fun _ => f.body.eval_uniform ih _

/-! ## Comparing lists of expressions -/

section Lists

variable {w : String → Nat} {call call' : Callee} {env env' : Env} {es es' : List Exp}

/-- A list of expressions is refined if its members are. -/
theorem Exp.refines_evalAll
    (h : List.Forall₂ (fun e e' => Refines w (e.eval call env) (e'.eval call' env') 0) es es') :
    Refines w (Exp.evalAll call env es) (Exp.evalAll call' env' es') 0 := by
  induction h with
  | nil => exact .refl (.pure _)
  | cons he _ ih => exact he.bind fun _ => ih.bind_same fun _ => .pure _

/-- A path is refined if its indices are. -/
theorem Exp.refines_evalPath
    (h : List.Forall₂ (fun e e' => Refines w (e.eval call env) (e'.eval call' env') 0) es es') :
    Refines w (Exp.evalPath call env es) (Exp.evalPath call' env' es') 0 := by
  induction h with
  | nil => exact .refl (.pure _)
  | cons he _ ih =>
    exact he.bind fun _ => (Refines.refl (.lift _)).bind fun _ => ih.bind_same fun _ => .pure _

/-- An element is refined if its indices are. -/
theorem Exp.refines_evalIndex
    (h : List.Forall₂ (fun e e' => Refines w (e.eval call env) (e'.eval call' env') 0) es es')
    (v : Value) : Refines w (Exp.evalIndex call env v es) (Exp.evalIndex call' env' v es') 0 := by
  induction h generalizing v with
  | nil => exact .refl (.pure _)
  | cons he _ ih =>
    exact he.bind fun _ => (Refines.refl (.lift _)).bind fun _ =>
      (Refines.refl (.lift _)).bind fun v => ih v

/-- A list of arguments is refined if its members are. -/
theorem Exp.refines_evalArrays
    (h : List.Forall₂ (fun e e' => Refines w (e.eval call env) (e'.eval call' env') 0) es es') :
    Refines w (Exp.evalArrays call env es) (Exp.evalArrays call' env' es') 0 := by
  induction h with
  | nil => exact .refl (.pure _)
  | cons he _ ih =>
    exact he.bind fun _ => (Refines.refl (.lift _)).bind fun _ => ih.bind_same fun _ => .pure _

end Lists

end ArrayFusion
