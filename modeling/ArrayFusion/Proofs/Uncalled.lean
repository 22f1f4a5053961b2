import ArrayFusion.Proofs.Preservation

/-!
# Functions that are not called

A fused program may call a function more often than the original program does: the number of rows of
a `replicate` is computed where its array is bound, and again in every kernel that reads the array.
But a function that is not called at all is not called by the fused program either
(`Program.callCount_fuse`).

A call that does without a function is the same call in the program without that function
(`Program.spares_callWithin`).  The pass takes one function at a time, so the fused program without
a function is the fused form of the program without it (`Program.fuse_without`), and that returns
what the latter returns.
-/

namespace ArrayFusion

namespace Eval

variable {α β : Type} {w : String → Nat}

/-- Logging a call costs the weight of the function. -/
theorem yields_log_iff {fn : String} {u : PUnit} {k : Nat} :
    Yields w (modify (fn :: ·) : Eval PUnit) u k ↔ k = w fn := by
  have hlog : Yields w (modify (fn :: ·) : Eval PUnit) ⟨⟩ (w fn) :=
    ⟨[fn], fun _ => rfl, Nat.add_zero _⟩
  constructor
  · intro h
    exact (h.unique hlog).2
  · rintro rfl
    exact hlog

/-- The second evaluation yields what the first one yields at no cost, and nothing else. -/
structure Spares (w : String → Nat) (x x' : Eval α) : Prop where
  uniform : Uniform x
  uniform' : Uniform x'
  yields_iff : ∀ a k, Yields w x' a k ↔ k = 0 ∧ Yields w x a 0

namespace Spares

/-- An evaluation without cost is spared as it is. -/
theorem of_free {x : Eval α} (h : Uniform x) (hx : ∀ a k, Yields w x a k → k = 0) :
    Spares w x x := by
  refine ⟨h, h, fun a k => ⟨fun ha => ?_, ?_⟩⟩
  · obtain rfl := hx a k ha
    exact ⟨rfl, ha⟩
  · rintro ⟨rfl, ha⟩
    exact ha

/-- Two sequences that spare a call in each part spare it together. -/
theorem bind {x x' : Eval α} {f f' : α → Eval β} (hx : Spares w x x')
    (hf : ∀ a, Spares w (f a) (f' a)) : Spares w (x >>= f) (x' >>= f') := by
  refine ⟨hx.uniform.bind fun a => (hf a).uniform, hx.uniform'.bind fun a =>
    (hf a).uniform', fun b k => ?_⟩
  rw [hx.uniform.yields_bind_iff fun a => (hf a).uniform, hx.uniform'.yields_bind_iff fun a =>
    (hf a).uniform']
  constructor
  · rintro ⟨a, i, j, ha', hb', rfl⟩
    obtain ⟨rfl, ha⟩ := (hx.yields_iff a i).1 ha'
    obtain ⟨rfl, hb⟩ := ((hf a).yields_iff b j).1 hb'
    exact ⟨rfl, a, 0, 0, ha, hb, rfl⟩
  · rintro ⟨rfl, a, i, j, ha, hb, hsum⟩
    obtain ⟨rfl, rfl⟩ := Nat.add_eq_zero_iff.1 hsum
    exact ⟨a, 0, 0, (hx.yields_iff a 0).2 ⟨rfl, ha⟩, ((hf a).yields_iff b 0).2 ⟨rfl, hb⟩, rfl⟩

/-- Spared steps follow one another. -/
def congruence (w : String → Nat) : Congruence CallLog CallLog where
  holds := Spares w
  pure a := of_free (.pure a) fun _ _ h => (yields_pure_iff.1 h).2
  throw e := of_free (.throw e) fun _ _ h => absurd h not_yields_throw
  bind := bind

end Spares

end Eval

open Eval (Spares Uniform Yields)

/-- What a call costs if the calls of one function are counted. -/
def callsOf (g fn : String) : Nat := if fn = g then 1 else 0

/-- The cost of a log is the number of calls of the function that is counted. -/
theorem CallLog.cost_callsOf (g : String) (log : CallLog) :
    CallLog.cost (callsOf g) log = log.count g := by
  induction log with
  | nil => rfl
  | cons fn log ih =>
    rw [List.count_cons, ← ih, Nat.add_comm]
    simp [CallLog.cost, callsOf]

namespace Program

variable {p : Program} {c : Config} {fn g : String}

/-- The program without the functions of a name. -/
def without (p : Program) (g : String) : Program := ⟨p.funs.filter (·.name != g)⟩

/-- Another function is found without it. -/
theorem resolve_without (h : fn ≠ g) (args : List Value) :
    (p.without g).resolve fn args = p.resolve fn args := by
  have hfun : (p.without g).fun? fn = p.fun? fn := by
    change (p.funs.filter _).find? _ = p.funs.find? _
    rw [List.find?_filter]
    refine congrArg (fun q => p.funs.find? q) (funext fun f => ?_)
    by_cases hf : f.name = fn <;> simp [hf, h]
  rw [resolve, resolve, hfun]

/-- The function that was removed is unknown. -/
theorem resolve_without_self (args : List Value) :
    (p.without g).resolve g args = .error (.unknownFunction g) := by
  have hfun : (p.without g).fun? g = none := by
    change (p.funs.filter _).find? _ = none
    simp [List.find?_filter]
  rw [resolve, hfun]

/-- The pass takes one function at a time. -/
theorem fuse_without (p : Program) (c : Config) (g : String) :
    ((p.without g).fuse c).1 = (p.fuse c).1.without g := by
  change Program.mk (((p.funs.filter _).map (·.fuseOrKeep c)).map (·.1))
    = ⟨((p.funs.map (·.fuseOrKeep c)).map (·.1)).filter _⟩
  rw [List.map_map, List.map_map, List.filter_map]
  refine congrArg (fun q => Program.mk ((p.funs.filter q).map _)) (funext fun f => ?_)
  exact congrArg (· != g) (f.fuseOrKeep_header c).1.symm

/-- A call of the function that was removed yields nothing. -/
theorem not_yields_without {w : String → Nat} {depth : Nat} {args : List Value} {a : Value}
    {k : Nat} : ¬ Yields w ((p.without g).callWithin depth g args) a k := by
  intro h
  have hu := (p.without g).callWithin_uniform
  cases depth with
  | zero =>
    obtain ⟨f, i, j, hf, -, -⟩ := ((Uniform.lift _).yields_bind_iff fun _ => .throw _).1 h
    cases (p.resolve_without_self args).symm.trans (Eval.yields_lift_iff.1 hf).1
  | succ depth =>
    obtain ⟨f, i, j, hf, -, -⟩ := ((Uniform.lift _).yields_bind_iff fun f =>
      (Uniform.log g).bind fun _ => f.body.eval_uniform (hu depth) _).1 h
    cases (p.resolve_without_self args).symm.trans (Eval.yields_lift_iff.1 hf).1

/-- A call of a function is counted. -/
theorem not_yields_free {depth : Nat} {args : List Value} {a : Value} :
    ¬ Yields (callsOf g) (p.callWithin depth g args) a 0 := by
  intro h
  have hu := p.callWithin_uniform
  cases depth with
  | zero =>
    obtain ⟨_, _, _, -, hthrow, -⟩ := ((Uniform.lift _).yields_bind_iff fun _ => .throw _).1 h
    exact Eval.not_yields_throw hthrow
  | succ depth =>
    obtain ⟨f, i, j, -, hf, hsum⟩ := ((Uniform.lift _).yields_bind_iff fun f =>
      (Uniform.log g).bind fun _ => f.body.eval_uniform (hu depth) _).1 h
    obtain ⟨_, k, _, hlog, -, rfl⟩ := ((Uniform.log g).yields_bind_iff fun _ =>
      f.body.eval_uniform (hu depth) _).1 hf
    have hone := Eval.yields_log_iff.1 hlog
    rw [callsOf, if_pos rfl] at hone
    omega

/-- A program spares the calls of a function that it does not have. -/
theorem spares_self (p : Program) (g : String) (depth : Nat) (args : List Value) :
    Spares (callsOf g) (p.callWithin depth g args) ((p.without g).callWithin depth g args) where
  uniform := p.callWithin_uniform depth g args
  uniform' := (p.without g).callWithin_uniform depth g args
  yields_iff _ _ := ⟨fun h => absurd h not_yields_without, fun h => absurd h.2 not_yields_free⟩

/-- A call in the program without a function is a call in the program that does without it. -/
theorem spares_callWithin (p : Program) (g : String) (depth : Nat) (fn : String)
    (args : List Value) :
    Spares (callsOf g) (p.callWithin depth fn args) ((p.without g).callWithin depth fn args) := by
  have hlift : ∀ x : Except EvalError FunDef, Spares (callsOf g) (Eval.lift x) (Eval.lift x) :=
    (Spares.congruence (callsOf g)).lift
  induction depth generalizing fn args with
  | zero =>
    obtain rfl | hfn := eq_or_ne fn g
    · exact p.spares_self fn 0 args
    · rw [callWithin, callWithin, resolve_without hfn]
      exact (hlift _).bind fun _ => (Spares.congruence _).throw _
  | succ depth ih =>
    obtain rfl | hfn := eq_or_ne fn g
    · exact p.spares_self fn (depth + 1) args
    · rw [callWithin, callWithin, resolve_without hfn]
      have hlog : Spares (callsOf g) (modify (fn :: ·) : Eval PUnit) (modify (fn :: ·)) :=
        .of_free (.log fn) fun _ k hk => (Eval.yields_log_iff.1 hk).trans (if_neg hfn)
      exact (hlift _).bind fun f => hlog.bind fun _ =>
        Exp.congruent (Spares.congruence _) ih _ f.body

/-- A request returns a value without calling a function just if the call yields the value for
free. -/
theorem request_uncalled_iff {args : List Value} {v : Value} :
    (p.request fn args .new).1 = .ok v ∧ (p.request fn args .new).2.callCount g = 0
      ↔ Yields (callsOf g) (p.call fn args) v 0 := by
  obtain ⟨hresult, -, hcount⟩ := p.request_of_depth (s := .new) rfl fn args
  obtain ⟨r, d, hd⟩ := p.callWithin_uniform maxDepth fn args
  rw [hresult, hcount g, show Session.new.callCount g = 0 from rfl, Nat.zero_add]
  have hrun : (p.call fn args).run.run [] = (r, d ++ []) := hd []
  rw [hrun, List.append_nil]
  constructor
  · rintro ⟨rfl, hzero⟩
    exact ⟨d, hd, (CallLog.cost_callsOf g d).trans hzero⟩
  · rintro ⟨d', hd', hzero⟩
    have heq := (hd []).symm.trans (hd' [])
    simp only [List.append_nil, Prod.mk.injEq] at heq
    obtain ⟨rfl, rfl⟩ := heq
    exact ⟨rfl, (CallLog.cost_callsOf g d).symm.trans hzero⟩

/-- A request to a well-formed program that returns a value without a call of some function returns
the same value after a pass that pulls no transpositions, again without a call of that function. -/
theorem request_fuse_uncalled (hc : c.transposePull = false) (hp : ∀ f ∈ p.funs, f.WellFormed c)
    {args : List Value} {v : Value} (h : (p.request fn args .new).1 = .ok v)
    (hg : (p.request fn args .new).2.callCount g = 0) :
    ((p.fuse c).1.request fn args .new).1 = .ok v ∧
    ((p.fuse c).1.request fn args .new).2.callCount g = 0 := by
  have hrest : ∀ f ∈ (p.without g).funs, f.WellFormed c := fun f hf =>
    hp f (List.mem_of_mem_filter hf)
  -- the call does without the function, so it is one in the program that has no such function
  have hcall := ((p.spares_callWithin g maxDepth fn args).yields_iff v 0).2
    ⟨rfl, request_uncalled_iff.1 ⟨h, hg⟩⟩
  have hu := (p.without g).callWithin_uniform maxDepth fn args
  obtain ⟨k, hk⟩ := (hu.eq_ok_iff 0).1 ((hu.eq_ok_iff (callsOf g)).2 ⟨0, hcall⟩)
  obtain ⟨k', hk', -⟩ := (refines_fuse hc hrest maxDepth fn args).yields v k hk
  rw [fuse_without] at hk'
  -- and so is the call in the fused program
  have hu' := ((p.fuse c).1.without g).callWithin_uniform maxDepth fn args
  obtain ⟨k'', hk''⟩ := (hu'.eq_ok_iff (callsOf g)).1 ((hu'.eq_ok_iff 0).2 ⟨k', hk'⟩)
  exact request_uncalled_iff.2 (((p.fuse c).1.spares_callWithin g maxDepth fn args).yields_iff v
    k'' |>.1 hk'').2

theorem request_fuse_uncalled_twoFunctions :
    let p : Program := ⟨[negatedTwice, { negatedTwice with name := "g" }]⟩
    ∃ c : Config, c.transposePull = false ∧ (∀ f ∈ p.funs, f.WellFormed c)
      ∧ (p.request "f" [.array [.int 3, .int 5]] .new).1 = .ok (.array [.int 3, .int 5])
      ∧ (p.request "f" [.array [.int 3, .int 5]] .new).2.callCount "g" = 0
      ∧ ((p.fuse c).1.request "f" [.array [.int 3, .int 5]] .new).1 = .ok (.array [.int 3, .int 5])
      ∧ ((p.fuse c).1.request "f" [.array [.int 3, .int 5]] .new).2.callCount "g" = 0 := by
  intro p
  have hwell : ∀ f ∈ p.funs, f.WellFormed { Config.default with transposePull := false } := by
    intro f hf
    rcases List.mem_pair.1 hf with rfl | rfl
    · exact FunDef.wellFormed_negatedTwice
    · obtain ⟨⟨hdistinct, huses⟩, hmayBind, htags, hroom⟩ := FunDef.wellFormed_negatedTwice
      exact ⟨⟨hdistinct, huses⟩, hmayBind, htags, hroom⟩
  have hvalue : (p.request "f" [.array [.int 3, .int 5]] .new).1 =
    .ok (.array [.int 3, .int 5]) := rfl
  have hcount : (p.request "f" [.array [.int 3, .int 5]] .new).2.callCount "g" = 0 :=
    by decide +kernel
  exact ⟨{ Config.default with transposePull := false }, rfl, hwell, hvalue, hcount,
    request_fuse_uncalled rfl hwell hvalue hcount⟩

end Program

end ArrayFusion
