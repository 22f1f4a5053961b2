import ArrayFusion.Proofs.SecurePass
import ArrayFusion.Proofs.Sessions

/-!
# Fusion preserves what programs compute

The analysis of a well-formed function leaves a registry that is ready for its body, so the emitted
body yields whatever the original one yields (`FunDef.WellFormed.refines_fuseOrKeep`).  A program is
fused function by function.  By induction on the calls that may be open, a call that returns a value
returns the same value after the pass (`Program.refines_fuse`).
-/

namespace ArrayFusion

open Eval (Uniform Refines)

/-! ## Functions -/

/-- What the pass relies on: the binders are distinct and the uses in scope, combinators are bound
to what they may be bound to, and the tags behind those of the function suffice for all fresh
names. -/
structure FunDef.WellFormed (c : Config) (f : FunDef) : Prop where
  wellScoped : f.WellScoped
  mayBind : ∀ l ∈ f.body.lets, ∀ op es cs s, l.2 = .soac op es cs s → op.MayBind l.1
  tags : ∀ x ∈ f.params ++ f.body.idents, x.name.tag < Name.maxTag
  room : f.TagsSuffice c

/-- The body of a function behind its parameters. -/
def FunDef.ground (f : FunDef) : Ground :=
    ⟨Pattern.nameSet f.params, f.body, (NameSupply.forFun f).count⟩

namespace FunDef

variable {f : FunDef} {c : Config}

/-- Of a function that is well-formed, what the proofs ask of its body holds of all its code. -/
theorem WellFormed.sound (h : f.WellFormed c) (harity : f.ArityFits) : f.ground.Sound where
  clear := by
    have hfresh := h.wellScoped.fresh_binders
    exact ⟨h.wellScoped.free_subset false, hfresh.nodup, hfresh.new, nofun, nofun⟩
  old := by
    rintro x (hx | hx)
    · obtain ⟨y, hy, rfl⟩ := List.mem_map.1 hx
      exact NameSupply.lt_forFun h.tags (List.mem_append_left _ hy)
    · obtain ⟨y, hy, rfl⟩ := List.mem_map.1 (f.body.mem_idents x hx)
      exact NameSupply.lt_forFun h.tags (List.mem_append_right _ hy)
  inScope := ⟨{x | x ∈ f.params}, Set.ext fun _ => List.mem_map.symm, h.wellScoped.uses⟩
  arity := harity
  mayBind := h.mayBind

/-- If the analysis succeeds, then the patterns fit the numbers of results. -/
theorem arityFits_of_analyse {r : Registry} {a b : Progress}
    (h : f.body.analyse c none .empty a = .ok (r, b)) :
    f.ArityFits := by
  obtain ⟨l, hl, hcourse⟩ := Exp.analyse_course h
  exact arityFits_of_course (Log.of_analyse hl h) hcourse

/-- The body that is emitted is faithful to the body, wherever the names in front of it are
bound. -/
theorem faithful_emit {N : Set Name} (hg : (Ground.mk N f.body (NameSupply.forFun f).count).Sound)
    (hc : c.transposePull = false) {r : Registry} {b : Progress} {body : Exp}
    (hrun : f.body.analyse c none .empty ⟨.forFun f, 0, []⟩ = .ok (r, b)) (hroom : b.names.InRange)
    (hbody : r.dropUnfused.emit f.body = .ok body) {call : Callee}
    (hu : ∀ fn args, Uniform (call fn args)) :
    let g : Ground := ⟨N, f.body, (NameSupply.forFun f).count⟩
    ∃ F, Faithful 0 call (g.bindable r F g.start) (g.context r F call g.start) f.body body := by
  intro g
  have hstands : g.start.Stands ⟨g.names, ∅⟩ f.body none := .refl
  have hsecure := ((Exp.secures hg hc f.body none .refl hstands).alone (Nat.le_refl _) hrun).1
  obtain ⟨F, hready⟩ := hsecure.ready hg .refl hc hrun hroom
  have hmimics := hready.mimics hg (Registry.emitsOn_dropUnfused Set.univ r) (fun _ _ => trivial) hu
  exact ⟨F, hmimics _ _ .refl body hbody⟩

/-- The body that is emitted yields what the body yields. -/
theorem WellFormed.refines_emit (h : f.WellFormed c) (hc : c.transposePull = false) {r : Registry}
    {b : Progress} {body : Exp} (hrun : f.body.analyse c none .empty ⟨.forFun f, 0, []⟩ = .ok
    (r, b)) (hsupply : f.supplyAfter c = b.names) (hbody : r.dropUnfused.emit f.body = .ok body)
    {call : Callee} (hu : ∀ fn args, Uniform (call fn args)) (env : Env) :
    Refines 0 (f.body.eval call env) (body.eval call env) 0 := by
  obtain ⟨F, hfaithful⟩ := faithful_emit (h.sound (arityFits_of_analyse hrun)) hc hrun
    (hsupply ▸ h.room) hbody hu
  exact hfaithful.runs env env ⟨fun _ _ _ => rfl, nofun⟩

/-- The function that negates twice is well-formed. -/
theorem wellFormed_negatedTwice :
    negatedTwice.WellFormed { Config.default with transposePull := false } where
  wellScoped := ⟨by decide, by
    simp [negatedTwice, Exp.bind, Exp.ofIdent, Exp.Scoped, Exp.ScopedAll, Combinator.Scoped,
      Lambda.Scoped]⟩
  mayBind := by
    intro l hl op es cs s heq
    simp only [negatedTwice, Exp.bind, Exp.ofIdent, Exp.lets, Exp.letsAll, Combinator.lets,
      Lambda.lets,
      List.append_nil, List.nil_append, List.mem_cons, List.not_mem_nil, or_false] at hl
    rcases hl with rfl | rfl <;> cases heq <;> exact ⟨List.cons_ne_nil _ _, trivial, fun _ =>
      by decide⟩
  tags := by decide
  room := by decide +kernel

/-- The pass replaces the body of a function, if it changes anything. -/
theorem fuseOrKeep_function (c : Config) (f : FunDef) :
    (f.fuseOrKeep c).1 = f ∨ ∃ r b body, f.body.analyse c none .empty
    ⟨.forFun f, 0, []⟩ = .ok (r, b)
      ∧ f.supplyAfter c = b.names ∧ r.dropUnfused.emit f.body = .ok body
      ∧ (f.fuseOrKeep c).1 = { f with body } := by
  unfold fuseOrKeep
  cases h : f.fuse c with
  | ok fused => exact fuse_eq_ok h
  | error e => exact .inl rfl

/-- The name and the parameters of a function stay, whether or not it is fused. -/
theorem fuseOrKeep_header (c : Config) (f : FunDef) :
    (f.fuseOrKeep c).1.name = f.name ∧ (f.fuseOrKeep c).1.params = f.params := by
  obtain h | ⟨_, _, body, -, -, -, h⟩ := fuseOrKeep_function c f <;> rw [h] <;> exact ⟨rfl, rfl⟩

/-- The body of a function yields what it yielded before the pass. -/
theorem WellFormed.refines_fuseOrKeep (h : f.WellFormed c) (hc : c.transposePull = false)
    {call : Callee} (hu : ∀ fn args, Uniform (call fn args)) (env : Env) :
    Refines 0 (f.body.eval call env) ((f.fuseOrKeep c).1.body.eval call env) 0 := by
  obtain heq | ⟨r, b, body, hrun, hsupply, hbody, heq⟩ := fuseOrKeep_function c f
  · rw [heq]
    exact .refl (f.body.eval_uniform hu env)
  · rw [heq]
    exact h.refines_emit hc hrun hsupply hbody hu env

end FunDef

/-! ## Programs -/

namespace Program

variable {p : Program} {c : Config}

/-- A function that is called is one of the program. -/
theorem mem_of_resolve {fn : String} {args : List Value} {f : FunDef}
    (h : p.resolve fn args = .ok f) : f ∈ p.funs := by
  unfold resolve at h
  split at h
  · cases h
  · next g hg =>
    split at h
    · cases h
      exact List.mem_of_find?_eq_some hg
    · cases h

/-- The pass keeps names and parameters, so a call finds the fused form of the function that it
found before. -/
theorem resolve_fuse (p : Program) (c : Config) (fn : String) (args : List Value) :
    (p.fuse c).1.resolve fn args = (p.resolve fn args).map fun f => (f.fuseOrKeep c).1 := by
  have hfun : (p.fuse c).1.fun? fn = (p.fun? fn).map fun f => (f.fuseOrKeep c).1 := by
    change ((p.funs.map (·.fuseOrKeep c)).map (·.1)).find? _ = _
    rw [List.map_map, List.find?_map]
    refine congrArg (fun q => (p.funs.find? q).map _) (funext fun f => ?_)
    exact congrArg (· == fn) (f.fuseOrKeep_header c).1
  unfold resolve
  rw [hfun]
  cases p.fun? fn with
  | none => rfl
  | some f =>
    simp only [Option.map_some, (f.fuseOrKeep_header c).2]
    split <;> rfl

/-- To call a function of the fused program is to call that of the program and to go on with its
fused version. -/
theorem lift_resolve_fuse (p : Program) (c : Config) (fn : String) (args : List Value)
    (k : FunDef → Eval Value) : Eval.lift ((p.fuse c).1.resolve fn args) >>= k
      = Eval.lift (p.resolve fn args) >>= fun f => k (f.fuseOrKeep c).1 := by
  rw [resolve_fuse]
  cases p.resolve fn args <;> rfl

/-- A call in the fused program returns what the call in the original program returns, however many
further calls may be open. -/
theorem refines_fuse (hc : c.transposePull = false) (hp : ∀ f ∈ p.funs, f.WellFormed c)
    (depth : Nat) (fn : String) (args : List Value) :
    Refines 0 (p.callWithin depth fn args) ((p.fuse c).1.callWithin depth fn args) 0 := by
  induction depth generalizing fn args with
  | zero =>
    rw [callWithin, callWithin, lift_resolve_fuse]
    exact .refl ((Uniform.lift _).bind fun _ => .throw _)
  | succ depth ih =>
    have hu := p.callWithin_uniform depth
    rw [callWithin, callWithin, lift_resolve_fuse]
    refine (Refines.refl (.lift (p.resolve fn args))).bind_of (d := 0)
      (fun f => (Uniform.log fn).bind fun _ => f.body.eval_uniform hu _) fun f k hk => ?_
    have hf := hp f (mem_of_resolve (Eval.yields_lift_iff.1 hk).1)
    rw [(f.fuseOrKeep_header c).2]
    -- first the body as the pass leaves it, then the calls in it
    exact (Refines.refl (Uniform.log fn)).seq fun _ =>
      (hf.refines_fuseOrKeep hc hu _).trans (Exp.refines_calls ih _ _)

/-- If a request to a well-formed program returns a value, it returns the same value after a pass
that pulls no transpositions, in any session with as many open calls. -/
theorem request_fuse (hc : c.transposePull = false) (hp : ∀ f ∈ p.funs, f.WellFormed c)
    {fn : String} {args : List Value} {s s' : Session} (hdepth : s'.depth = s.depth) {v : Value}
    (h : (p.request fn args s).1 = .ok v) : ((p.fuse c).1.request fn args s').1 = .ok v := by
  rw [(request_spec p fn args s).1] at h
  rw [(request_spec (p.fuse c).1 fn args s').1, hdepth]
  obtain ⟨k, hk⟩ := ((p.callWithin_uniform (maxDepth - s.depth) fn args).eq_ok_iff 0).1 h
  obtain ⟨k', hk', -⟩ := (refines_fuse hc hp (maxDepth - s.depth) fn args).yields v k hk
  exact (((p.fuse c).1.callWithin_uniform (maxDepth - s.depth) fn args).eq_ok_iff 0).2 ⟨k', hk'⟩

theorem request_fuse_negatedTwice : ∃ c : Config, c.transposePull = false
    ∧ (negatedTwice.fuse c).toOption.any (·.changed) = true ∧ (∀ f ∈ [negatedTwice], f.WellFormed c)
    ∧ (Program.request ⟨[negatedTwice]⟩ "f" [.array [.int 3, .int 5]] .new).1 =
    .ok (.array [.int 3, .int 5])
    ∧ ((Program.fuse c ⟨[negatedTwice]⟩).1.request "f" [.array [.int 3, .int 5]] .new).1
      = .ok (.array [.int 3, .int 5]) := by
  have hwell := List.forall_mem_singleton.2 FunDef.wellFormed_negatedTwice
  have hvalue : (Program.request ⟨[negatedTwice]⟩ "f" [.array [.int 3, .int 5]] .new).1
      = .ok (.array [.int 3, .int 5]) := rfl
  exact ⟨{ Config.default with transposePull := false }, rfl, by decide +kernel, hwell, hvalue,
    request_fuse rfl hwell rfl hvalue⟩

end Program

end ArrayFusion
