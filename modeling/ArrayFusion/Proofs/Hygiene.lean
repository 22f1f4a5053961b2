import ArrayFusion.Proofs.Preservation

/-!
# The scope of fused functions

Dropping the `let` of a combinator is safe only if every use of its results is gone, too, and code
may move into a kernel only where it hides no name that the kernel uses.  Emitted code is faithful
to the original code wherever the names in front of that are bound, so it uses no other names, and
binds none of them again (`FunDef.tidy_emit`).

To see that no name becomes free (`FunDef.WellFormed.free_fuse`), the body of a function is put
behind just those names that it uses itself, which is possible because it is scoped there
(`Exp.Scoped.narrow`).  Behind the parameters, no binder hides another one
(`FunDef.WellFormed.tidy_fuse`).  Two binders outside of each other's scope may get the same name,
though, when the number of rows of a `replicate` is copied into a kernel.

Certificates are left out.  The pass does not take them for uses, so a combinator can go although
its result is the certificate of another one.
-/

namespace ArrayFusion

/-- Code with distinct binders is scoped wherever its free names are bound as before. -/
theorem Exp.Scoped.narrow {Γ Δ : Scope} {e : Exp} (hs : e.Scoped Γ) (hd : e.binders.Nodup)
    (hnew : ∀ x ∈ Γ, x.name ∉ e.binders) (hΔ : ∀ x ∈ Γ, x.name ∈ e.free true → x ∈ Δ) :
    e.Scoped Δ := by
  -- by the size of the expression, since its parts are not its subterms
  induction hsize : sizeOf e using Nat.strong_induction_on generalizing e Γ Δ with
  | _ n ih =>
  subst hsize
  have hparts : ∀ q ∈ e.parts, q.2.Scoped (Δ.enter q.1) := by
    intro q hq
    have hsub := e.binders_part q hq
    obtain ⟨-, hd', hne⟩ := List.nodup_append.1 (Exp.nodup_part hd hq)
    refine ih _ (e.sizeOf_part q hq) (hs.part q hq) hd' ?_ ?_ rfl
    · rintro x (hx | hx) hb
      · -- a name of the scope is not bound below, and what the part binds is not bound twice
        exact hnew x hx (hsub (List.mem_append_right _ hb))
      · exact hne _ (List.mem_map_of_mem hx) _ hb rfl
    · rintro x (hx | hx) hfree
      · refine .inl (hΔ x hx (e.free_part true q hq ⟨hfree, fun hp => ?_⟩))
        exact hnew x hx (hsub (List.mem_append_left _ hp))
      · exact .inr hx
  clear ih hd hnew
  -- what is left is that the form itself is in scope, given that its parts are
  cases e <;>
    simp only [Exp.Scoped, Exp.scopedAll_iff, Combinator.scoped_iff] at hs ⊢ <;>
    simp [Exp.parts, Exp.free, Scope.enter_nil, or_imp, forall_and] at hparts hΔ ⊢ <;> grind

namespace FunDef

variable {f : FunDef} {c : Config}

/-- The body of a well-formed function is sound behind the names that it uses. -/
theorem WellFormed.sound_free (h : f.WellFormed c) (harity : f.ArityFits) :
    (Ground.mk (f.body.free true) f.body (NameSupply.forFun f).count).Sound where
  clear := by
    have hclear := (h.sound harity).clear
    refine ⟨f.body.free_subset, hclear.nodup, fun x hx hfree => hclear.new x hx ?_, nofun, nofun⟩
    obtain ⟨y, hy, rfl⟩ := h.wellScoped.uses.free_subset hfree
    exact List.mem_map_of_mem hy
  old := by
    rintro x (hx | hx)
    · obtain ⟨y, hy, rfl⟩ := h.wellScoped.uses.free_subset hx
      exact NameSupply.lt_forFun h.tags (List.mem_append_left _ hy)
    · exact (h.sound harity).old x (.inr hx)
  inScope := by
    -- the parameters that the body does not read can be left out of the scope
    refine ⟨{x | x ∈ f.params ∧ x.name ∈ f.body.free true}, Set.ext fun x => ⟨?_, fun hx => ?_⟩, ?_⟩
    · rintro ⟨y, ⟨-, hy⟩, rfl⟩
      exact hy
    · obtain ⟨y, hy, rfl⟩ := h.wellScoped.uses.free_subset hx
      exact ⟨y, ⟨hy, hx⟩, rfl⟩
    · obtain ⟨-, hbody, hne⟩ := List.nodup_append.1 h.wellScoped.distinct
      exact h.wellScoped.uses.narrow hbody (fun x hx hb => hne _ (List.mem_map_of_mem hx) _ hb rfl)
        fun x hx hfree => ⟨hx, hfree⟩
  arity := harity
  mayBind := h.mayBind

/-- The body that is emitted keeps to the scope of the body: it uses the names in front of it only,
and binds none of them. -/
theorem tidy_emit {N : Set Name} (hg : (Ground.mk N f.body (NameSupply.forFun f).count).Sound)
    (hc : c.transposePull = false) {r : Registry} {b : Progress} {body : Exp}
    (hrun : f.body.analyse c none .empty ⟨.forFun f, 0, []⟩ = .ok (r, b)) (hroom : b.names.InRange)
    (hbody : r.dropUnfused.emit f.body = .ok body) : body.Tidy false Set.univ N := by
  -- any calls will do, so let them all fail
  have hu : ∀ fn args, Eval.Uniform ((fun _ _ => throw .stackOverflow : Callee) fn args) :=
    fun _ _ => .throw _
  obtain ⟨F, hfaithful⟩ := faithful_emit hg hc hrun hroom hbody hu
  have htidy := hfaithful.tidy N ⟨fun _ hx _ => hx, fun _ hx => hg.notMem_bindable .refl hx⟩
  exact htidy.change (Set.subset_univ _) htidy.free_subset fun _ hx => .inl hx

/-- No name becomes free in a well-formed function by a pass that pulls no transpositions,
certificates aside: whatever the fused body uses and does not bind, the original body used and did
not bind. -/
theorem WellFormed.free_fuse (h : f.WellFormed c) (hc : c.transposePull = false) {r : FusedFun}
    (hr : f.fuse c = .ok r) : r.function.body.free false ⊆ f.body.free true := by
  rcases fuse_eq_ok hr with heq | ⟨q, b, body, hrun, hsupply, hbody, heq⟩
  · rw [heq]
    exact f.body.free_subset
  · rw [heq]
    exact (tidy_emit (h.sound_free (arityFits_of_analyse hrun)) hc hrun
      (hsupply ▸ h.room) hbody).free_subset

theorem WellFormed.free_fuse_negatedTwice :
    ∃ c : Config, negatedTwice.WellFormed c ∧ c.transposePull = false
    ∧ ∃ r, negatedTwice.fuse c = .ok r ∧ r.changed = true
      ∧ r.function.body.free false ⊆ negatedTwice.body.free true := by
  have hchanged : (negatedTwice.fuse { Config.default with transposePull := false }).toOption.any
      (·.changed)
      = true := by
    decide +kernel
  obtain ⟨r, h, hchanged⟩ := Except.exists_of_any hchanged
  exact ⟨{ Config.default with transposePull := false }, wellFormed_negatedTwice, rfl, r, h,
    hchanged, WellFormed.free_fuse wellFormed_negatedTwice rfl h⟩

/-- In what such a pass makes of a well-formed function, no binder hides a name that is in scope
at it, be it that of a parameter or of another binder, and every use is in scope, certificates
aside. -/
theorem WellFormed.tidy_fuse (h : f.WellFormed c) (hc : c.transposePull = false) {r : FusedFun}
    (hr : f.fuse c = .ok r) : (Pattern.names r.function.params).Nodup
      ∧ r.function.body.Tidy false Set.univ (Pattern.nameSet r.function.params) := by
  obtain ⟨hparams, -, -⟩ := List.nodup_append.1 h.wellScoped.distinct
  rcases fuse_eq_ok hr with heq | ⟨q, b, body, hrun, hsupply, hbody, heq⟩
  · rw [heq]
    have htidy := h.wellScoped.tidy false
    have hnames : Scope.names {x | x ∈ f.params} = Pattern.nameSet f.params := Set.ext fun _ =>
      List.mem_map.symm
    rw [hnames] at htidy
    exact ⟨hparams, htidy.change (Set.subset_univ _) htidy.free_subset fun _ hx => .inl hx⟩
  · rw [heq]
    exact ⟨hparams, tidy_emit (h.sound (arityFits_of_analyse hrun)) hc hrun
      (hsupply ▸ h.room) hbody⟩

/-- A function that replicates as often as a `let` says.  The pass copies the `let` into a
kernel. -/
def replicatedByLet : FunDef :=
  let int (base : String) (tag : Nat) : Ident := ⟨⟨base, tag⟩, .int⟩
  let array (base : String) (tag : Nat) : Ident := ⟨⟨base, tag⟩, .array .int⟩
  let negate : Lambda := ⟨[int "a" 2], .unary .negate (.ofIdent (int "a" 2)) .dummy, [.int]⟩
  ⟨"f", [], .tuple [.array .int, .array .int],
    .bind [array "xs" 1]
      (.replicate (.bind [int "t" 0] (.lit (.int 2) .dummy) (.ofIdent (int "t" 0)))
        (.lit (.int 0) .dummy) .dummy)
      (.bind [array "ys" 3] (.soac (.map negate) [.ofIdent (array "xs" 1)] [] .dummy)
        (.tuple [.ofIdent (array "xs" 1), .ofIdent (array "ys" 3)] .dummy)), .dummy⟩

theorem WellFormed.tidy_fuse_replicatedByLet : ∃ c : Config, replicatedByLet.WellFormed c
    ∧ c.transposePull = false ∧ ∃ r, replicatedByLet.fuse c = .ok r ∧ ¬ r.function.binders.Nodup
      ∧ (Pattern.names r.function.params).Nodup
      ∧ r.function.body.Tidy false Set.univ (Pattern.nameSet r.function.params) := by
  have hwell : replicatedByLet.WellFormed { Config.default with transposePull := false } := by
    refine ⟨⟨by decide, ?_⟩, ?_, by decide, by decide +kernel⟩
    · simp [replicatedByLet, Exp.bind, Exp.ofIdent, Exp.Scoped, Exp.ScopedAll, Combinator.Scoped,
        Lambda.Scoped]
    · -- the only combinators bound are the replicate and the map over it
      intro l hl op es cs s heq
      simp only [replicatedByLet, Exp.bind, Exp.ofIdent, Exp.lets, Exp.letsAll, Combinator.lets,
        Lambda.lets,
        List.append_nil, List.nil_append, List.cons_append, List.mem_cons, List.not_mem_nil,
          or_false] at hl
      rcases hl with rfl | rfl | rfl <;> cases heq
      exact ⟨List.cons_ne_nil _ _, trivial, fun _ => by decide⟩
  have hbinders : (replicatedByLet.fuse { Config.default with transposePull := false }).toOption.any
      (fun r => ¬ r.function.binders.Nodup) = true := by
    decide +kernel
  obtain ⟨r, h, hbinders⟩ := Except.exists_of_any hbinders
  exact ⟨{ Config.default with transposePull := false }, hwell, rfl, r, h,
    of_decide_eq_true hbinders, hwell.tidy_fuse rfl h⟩

end FunDef

end ArrayFusion
