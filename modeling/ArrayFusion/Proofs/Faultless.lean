import ArrayFusion.Proofs.ComposedLets
import ArrayFusion.Proofs.Ends

/-!
# How compositions fail

A composition fails if the lambda of the producer or of the consumer has not as many parameters as
there are values for it, and in no other way (`Producer.failsWith_compose`).  Fusing a producer into
a kernel also fails if one of the two does not have an output for each result, and in no other way,
since a composition has an output for each result again (`Composed.arity`).  Whether it succeeds,
finds no recipe or fails, it gives no name back to the supply.

Some errors are about the function that is fused, others are about the pass itself.  Those about
numbers of parameters are about the function.
-/

namespace ArrayFusion

/-- The error is about the function, not about the pass. -/
def FusionError.OfInput (e : FusionError) : Prop := e.cause.category ≠ .invariant

open FusionError (OfInput)

/-- The error is that the lambda does not have `n` parameters, and it has not. -/
def FusionError.Miscounts (e : FusionError) (f : Lambda) (n : Nat) : Prop :=
  f.params.length ≠ n ∧ ∃ role, e = ⟨f.body.span, .parameterCount role f.params.length n⟩

/-- If a lambda has the wrong number of parameters, then the input is to blame. -/
theorem FusionError.Miscounts.ofInput {e : FusionError} {f : Lambda} {n : Nat}
    (h : e.Miscounts f n) :
    e.OfInput := by
  obtain ⟨-, role, rfl⟩ := h
  exact nofun

/-- The computation fails with errors in `E` only, and takes names from the supply. -/
def Fresh.FailsWith {α : Type} (E : FusionError → Prop) (x : Fresh α) : Prop :=
  ∀ s, Ends (fun e => s.count ≤ e.state.count ∧ E e.error) x s fun _ s' => s.count ≤ s'.count

/-- The computation fails with errors about the function only, and takes names from the supply. -/
def Fresh.Faultless {α : Type} (x : Fresh α) : Prop := x.FailsWith OfInput

/-- The computation takes names from the supply, however it ends. -/
abbrev Fresh.Grows {α : Type} (x : Fresh α) : Prop := x.FailsWith fun _ => True

section

variable {E : FusionError → Prop}

namespace Fresh.FailsWith

variable {α β : Type}

/-- What is there already takes no names and does not fail. -/
theorem pure (a : α) : FailsWith E (Pure.pure a) := fun _ => Nat.le_refl _

/-- Two steps fail as each of them does. -/
theorem bind {x : Fresh α} {f : α → Fresh β} (hx : FailsWith E x) (hf : ∀ a, FailsWith E (f a)) :
    FailsWith E (x >>= f) := fun s =>
  (hx s).bind fun a s₁ hle => (hf a s₁).imp (fun _ ⟨hle', he⟩ => ⟨Nat.le_trans hle hle', he⟩)
    fun _ _ hle' => Nat.le_trans hle hle'

/-- A loop over a list fails as its steps do. -/
theorem mapM {f : α → Fresh β} (h : ∀ a, FailsWith E (f a)) (as : List α) :
    FailsWith E (as.mapM f) := by
  induction as with
  | nil => exact pure []
  | cons a as ih =>
    rw [List.mapM_cons]
    exact (h a).bind fun b => ih.bind fun bs => pure _

/-- What takes no names fails as it did. -/
theorem lift {x : Except FusionError α} (h : ∀ e, x = .error e → E e) :
    FailsWith E (Fresh.lift x) := by
  intro s
  cases x with
  | error e => exact ⟨Nat.le_refl _, h e rfl⟩
  | ok a => exact Nat.le_refl s.count

/-- What takes names and gives none back does not fail. -/
theorem take {x : StateM NameSupply α} (h : ∀ s : NameSupply, s.count ≤ (x s).2.count) :
    FailsWith E (Fresh.take x) := h

/-- What is known under a condition only, besides the names that are taken anyway. -/
theorem when {C : Prop} {x : Fresh α} (hgrows : x.Grows) (h : C → FailsWith E x) :
    FailsWith (fun e => C → E e) x := by
  by_cases hC : C
  · exact fun s => (h hC s).imp (fun _ ⟨hle, he⟩ => ⟨hle, fun _ => he⟩) fun _ _ => id
  · exact fun s => (hgrows s).imp (fun _ ⟨hle, _⟩ => ⟨hle, fun h => absurd h hC⟩) fun _ _ => id

theorem ident (base : String) (ty : Ty) : FailsWith E (Fresh.ident base ty) := fun s =>
  Nat.le_succ s.count

theorem identLike (x : Ident) : FailsWith E (Fresh.identLike x) := fun s => Nat.le_succ s.count

end Fresh.FailsWith

namespace Recipe

/-- The count of the parameters fails with a miscount. -/
theorem failsWith_checkParams (role : Role) {f : Lambda} {n : Nat}
    (h : ∀ e : FusionError, e.Miscounts f n → E e) :
    Fresh.FailsWith E (Fresh.lift (checkParams role f n)) := by
  refine .lift fun e he => ?_
  unfold checkParams at he
  split at he
  · cases he
  · rename_i hn
    cases he
    exact h _ ⟨hn, role, rfl⟩

/-- The pattern of a linking takes names and does not fail. -/
theorem Linking.failsWith_pattern (l : Linking) (outs : List Ident) (rets : List Ty) :
    Fresh.FailsWith E (l.pattern outs rets) := by
  refine .mapM (fun e => ?_) _
  cases h : l.binders.lookup e.2 with
  | none =>
    simp only [h]
    exact .ident _ _
  | some x =>
    simp only [h]
    exact .pure x

/-- A guard takes a name and does not fail. -/
theorem failsWith_guardedBy (p : Lambda) (guarded otherwise : Exp) (ty : Ty) :
    Fresh.FailsWith E (guardedBy p guarded otherwise ty) :=
  (Fresh.FailsWith.ident _ _).bind fun _ => .pure _

/-- Reading in order takes names and does not fail. -/
theorem failsWith_readInOrder (seen : List Nat) (readers : List (Ident × Nat × Source)) :
    Fresh.FailsWith E (readInOrder seen readers) := by
  induction readers generalizing seen with
  | nil => exact .pure []
  | cons r readers ih =>
    obtain ⟨q, i, source⟩ := r
    rw [readInOrder]
    split
    · exact (Fresh.FailsWith.identLike _).bind fun _ => (ih _).bind fun _ => .pure _
    · exact (Fresh.FailsWith.pure _).bind fun _ => (ih _).bind fun _ => .pure _

section

variable {p c : Lambda} {pOperands cOperands : List Operand} {acc : Nat}
  (hp : ∀ e : FusionError, e.Miscounts p pOperands.length → E e)
include hp

/-- A composition with a map fails with miscounts. -/
theorem failsWith_afterMap (hc : ∀ e : FusionError, e.Miscounts c (acc + cOperands.length) → E e)
    (outs : List Ident) : Fresh.FailsWith E (afterMap p pOperands outs c acc cOperands) :=
  (failsWith_checkParams _ hp).bind fun _ => (failsWith_checkParams _ hc).bind fun _ =>
    (Linking.failsWith_pattern _ _ _).bind fun _ => .pure _

/-- A fold behind a filter fails with miscounts. -/
theorem failsWith_foldAfterFilter
    (hc : ∀ e : FusionError, e.Miscounts c (acc + cOperands.length) → E e) (outs : List Ident) :
    Fresh.FailsWith E (foldAfterFilter p pOperands outs c acc cOperands) := by
  refine (failsWith_checkParams _ hp).bind fun _ => (failsWith_checkParams _ hc).bind fun _ => ?_
  cases readers? (sources outs p.params pOperands) (c.params.drop acc) cOperands with
  | none => exact .pure none
  | some readers => exact (failsWith_guardedBy _ _ _ _).bind fun _ => .pure _

/-- A filter behind a filter fails with miscounts. -/
theorem failsWith_filterAfterFilter
    (hc : ∀ e : FusionError, e.Miscounts c cOperands.length → E e) (outs cOutputs : List Ident) :
    Fresh.FailsWith E (filterAfterFilter p pOperands outs c cOperands cOutputs) := by
  refine (failsWith_checkParams _ hp).bind fun _ => (failsWith_checkParams _ hc).bind fun _ => ?_
  dsimp only
  cases readers? (sources outs p.params pOperands) c.params cOperands with
  | none => exact .pure none
  | some readers =>
    exact (failsWith_readInOrder _ _).bind fun _ =>
      (Fresh.FailsWith.mapM (fun _ => .identLike _) _).bind fun _ =>
        (failsWith_guardedBy _ _ _ _).bind fun _ => .pure _

end

end Recipe

/-- The error is that the lambda for the elements does not take the accumulators and an element of
each operand, and it does not. -/
def FusionError.MiscountsIn (e : FusionError) (g : Stage) : Prop :=
  e.Miscounts g.op.element (g.op.neutral.length + g.operands.length)

/-- A composition fails only if a lambda has not as many parameters as there are values for it. -/
theorem Producer.failsWith_compose {p : Producer} {c : Stage}
    (hp : ∀ e : FusionError, e.MiscountsIn p.stage → E e)
    (hc : ∀ e : FusionError, e.MiscountsIn c → E e) (outs : List Ident) :
    (p.compose c outs).FailsWith E := by
  unfold FusionError.MiscountsIn at hp hc
  unfold compose
  split
  case h_1 hpop hcop | h_2 hpop hcop =>
    rw [hpop] at hp
    rw [hcop] at hc
    simp only [Combinator.element, Combinator.neutral, List.length_nil, Nat.zero_add] at hp
    exact (Recipe.failsWith_afterMap hp hc _).bind fun _ => .pure _
  -- the four recipes count parameters and do nothing else that may fail
  case h_3 hpop hcop =>
    rw [hpop] at hp
    rw [hcop] at hc
    simp only [Combinator.element, Combinator.neutral, List.length_nil, Nat.zero_add] at hp hc
    refine (Recipe.failsWith_filterAfterFilter hp hc _ _).bind fun r => ?_
    cases r with
    | none => exact .pure none
    | some r => exact .pure _
  case h_4 hpop hcop =>
    rw [hpop] at hp
    rw [hcop] at hc
    simp only [Combinator.element, Combinator.neutral, List.length_nil, Nat.zero_add] at hp
    refine (Recipe.failsWith_foldAfterFilter hp hc _).bind fun r => ?_
    cases r with
    | none => exact .pure none
    | some r => exact .pure _
  case h_5 => exact .pure none

end

/-- A composition has an output for each result. -/
theorem Composed.arity {g c : Stage} {outs cOutputs outputs : List Ident} {s s' : NameSupply}
    {op : Combinator} {operands : List Operand}
    (h : Composed g outs c cOutputs s s' op operands outputs) (hc : cOutputs.length = c.arity)
    (certs : Certificates) (span : Span) :
    outputs.length = (Stage.mk op operands certs span).arity := by
  cases h with
  | mapMap hgop hcop hr =>
    rw [hc, Stage.arity, hcop]
    exact (congrArg List.length (Recipe.afterMap_rets hr)).symm
  | mapFold hgop hcop hr =>
    rw [hc, Stage.arity, hcop]
    rfl
  | filterFilter hgop hcop hr =>
    rw [Stage.arity, hcop] at hc
    -- the fresh outputs are as many as the operands that the consumer does not read
    have hover : ∀ f : Lambda, f.Over Set.univ fun _ => True := fun _ =>
      ⟨fun _ _ => trivial, fun _ _ => trivial⟩
    exact (Recipe.over_filterAfterFilter (fun _ _ => trivial) (Set.subset_univ _) hr (hover _)
      (hover _)).2.2 hc
  | filterFold hgop hcop hr =>
    rw [hc, Stage.arity, hcop]
    rfl

/-- The stage as a redomap has as many results. -/
theorem Stage.arity_asRedomap (g : Stage) (s : NameSupply) : (g.asRedomap s).1.arity = g.arity := by
  rcases g.asRedomap_cases s with ⟨heq, -⟩ | ⟨f, ne, hop, heq⟩
  · rw [heq]
  · rw [heq, arity, arity, hop]
    rfl

/-- If both have an output for each result, fusing a producer into a kernel fails only if a lambda
has not as many parameters as there are values for it. -/
theorem Producer.failsWith_fuseInto {E : FusionError → Prop} {p : Producer} {K : Kernel}
    (hp : p.stage.arity = p.outputs.length) (hK : K.outputs.length = K.stage.arity)
    (hpE : ∀ e : FusionError, e.MiscountsIn p.stage → E e)
    (hKE : ∀ e : FusionError, e.MiscountsIn K.stage → E e) : (p.fuseInto K).FailsWith E := by
  intro s
  unfold Producer.fuseInto
  rw [show p.checkOutputs = .ok () from Producer.checkOutputs_eq_ok.2 hp,
    show K.checkArity = .ok () from Kernel.checkArity_eq_ok.2 hK]
  refine Ends.bind (P := fun _ s₁ => s₁ = s) rfl fun _ s₁ hs₁ => ?_
  refine Ends.bind (P := fun _ s₁ => s₁ = s) hs₁ fun _ s₁ hs₁ => ?_
  subst hs₁
  refine Ends.bind (P := fun c s₂ => K.stage.asRedomap s₁ = (c, s₂)) rfl fun c s₂ hc => ?_
  have hle := K.stage.count_le_asRedomap s₁
  have harity := K.stage.arity_asRedomap s₁
  -- a reduction counts its parameters as the redomap does
  have hcE : ∀ e : FusionError, e.MiscountsIn (K.stage.asRedomap s₁).1 → E e := by
    intro e he
    rw [FusionError.MiscountsIn, Stage.element_asRedomap, Stage.neutral_asRedomap,
      Stage.operands_asRedomap] at he
    exact hKE e he
  rw [hc] at hle harity hcE
  refine ((Producer.failsWith_compose hpE hcE K.outputs s₂).imp
    (fun _ ⟨hle', he⟩ => ⟨Nat.le_trans hle hle', he⟩) fun _ _ =>
      id).and_eq.bind fun r s₃ ⟨hle', hr⟩ => ?_
  rcases r with _ | ⟨op, operands, outputs⟩
  · exact .pure (Nat.le_trans hle hle')
  · have hoks := (Producer.composed hr).arity (hK.trans harity.symm)
      (Certificates.union p.stage.certs K.stage.certs) K.stage.span
    dsimp only
    rw [show Kernel.checkArity _ = .ok () from Kernel.checkArity_eq_ok.2 hoks]
    exact Nat.le_trans hle hle'

/-- Fusing a producer into a kernel gives no name back. -/
theorem Producer.grows_fuseInto (p : Producer) (K : Kernel) : (p.fuseInto K).Grows := by
  unfold Producer.fuseInto
  refine (Fresh.FailsWith.lift fun _ _ => trivial).bind fun _ =>
    (Fresh.FailsWith.lift fun _ _ => trivial).bind fun _ =>
      (Fresh.FailsWith.take K.stage.count_le_asRedomap).bind fun c =>
        (Producer.failsWith_compose (fun _ _ => trivial) (fun _ _ => trivial) K.outputs).bind
          fun r => ?_
  cases r with
  | none => exact .pure none
  | some r => exact (Fresh.FailsWith.lift fun _ _ => trivial).bind fun _ => .pure _

/-- A fusion is faultless if both have an output for each result. -/
theorem Producer.faultless_fuseInto {p : Producer} {K : Kernel}
    (hp : p.stage.arity = p.outputs.length) (hK : K.outputs.length = K.stage.arity) :
    (p.fuseInto K).Faultless :=
  failsWith_fuseInto hp hK (fun _ h => h.ofInput) fun _ h => h.ofInput

end ArrayFusion
