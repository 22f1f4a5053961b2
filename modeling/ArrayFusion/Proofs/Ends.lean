import Mathlib.Data.List.Forall2
import ArrayFusion.Fusion.Analysis

/-!
# How computations end

The pass is written with computations that carry a state and may fail.  A computation that ended
with a result is taken apart by `State.bind_eq_ok` and its companions.  Where only the failure
counts, a list of computations ended if each of them did (`Except.mapM_eq_ok`).  Where the errors
matter as much as the results, `Ends` says how a computation ends in either case, and its rules
follow the structure of the computation.
-/

namespace ArrayFusion

/-! ## Computations that ended with a result -/

/-- Two steps succeed if the first one does, and then the second one. -/
theorem Except.bind_eq_ok {ε α β : Type} {x : Except ε α} {f : α → Except ε β} {b : β} :
    (x >>= f) = .ok b ↔ ∃ a, x = .ok a ∧ f a = .ok b := by
  cases x with
  | error e => exact ⟨nofun, nofun⟩
  | ok a => exact ⟨fun h => ⟨a, rfl, h⟩, fun ⟨_, ha, h⟩ => by cases ha; exact h⟩

/-- Two steps fail if the first one does, or else the second one. -/
theorem Except.bind_eq_error {ε α β : Type} {x : Except ε α} {f : α → Except ε β} {e : ε} :
    (x >>= f) = .error e ↔ x = .error e ∨ ∃ a, x = .ok a ∧ f a = .error e := by
  cases x with
  -- the second part does not run
  | error e' =>
    constructor
    · intro h
      cases h
      exact .inl rfl
    · rintro (h | ⟨_, ha, -⟩)
      · cases h
        rfl
      · cases ha
  -- the error is that of the second part
  | ok a =>
    constructor
    · exact fun h => .inr ⟨a, rfl, h⟩
    · rintro (h | ⟨_, ha, h⟩)
      · cases h
      · cases ha
        exact h

theorem Except.pure_eq_ok {ε α : Type} {a b : α} :
    (pure a : Except ε α) = .ok b ↔ b = a :=
  ⟨fun h => by cases h; rfl, fun h => by rw [h]; rfl⟩

/-- A computation has a result if some condition holds of it. -/
theorem Except.exists_of_any {ε α : Type} {x : Except ε α} {q : α → Bool}
    (h : x.toOption.any q = true) : ∃ a, x = .ok a ∧ q a = true := by
  cases x with
  | ok a => exact ⟨a, rfl, h⟩
  | error e => cases h

/-- Other words for an error make no difference for results. -/
theorem Except.mapError_eq_ok {ε ε' α : Type} {x : Except ε α} {g : ε → ε'} {a : α} :
    x.mapError g = .ok a ↔ x = .ok a := by
  cases x with
  | error e => exact ⟨nofun, nofun⟩
  | ok b => exact ⟨fun h => by cases h; rfl, fun h => by cases h; rfl⟩

/-- What fails with a mapped error failed with the error itself. -/
theorem Except.mapError_eq_error {ε ε' α : Type} {x : Except ε α} {g : ε → ε'} {e : ε'} :
    x.mapError g = .error e ↔ ∃ e', x = .error e' ∧ g e' = e := by
  cases x with
  | error e' =>
    refine ⟨fun h => ⟨e', rfl, ?_⟩, ?_⟩
    · cases h
      rfl
    · rintro ⟨_, h, rfl⟩
      cases h
      rfl
  | ok b => exact ⟨nofun, fun ⟨_, h, _⟩ => nomatch h⟩

/-- A loop of steps succeeds if each of them does. -/
theorem Except.forM_eq_ok {ε α : Type} {xs : List α} {f : α → Except ε Unit}
    (h : ∀ a ∈ xs, f a = .ok ()) : xs.forM f = .ok () := by
  induction xs with
  | nil => rfl
  | cons a xs ih =>
    obtain ⟨ha, hxs⟩ := List.forall_mem_cons.1 h
    exact Except.bind_eq_ok.2 ⟨(), ha, ih hxs⟩

/-- A computation has a result for a list if and only if it has one for each member, and these are
its members. -/
theorem Except.mapM_eq_ok {ε α β : Type} {f : α → Except ε β} {as : List α} {bs : List β} :
    as.mapM f = .ok bs ↔ List.Forall₂ (fun a b => f a = .ok b) as bs := by
  induction as generalizing bs with
  | nil =>
    rw [List.forall₂_nil_left_iff]
    exact Except.pure_eq_ok
  | cons a as ih =>
    rw [List.mapM_cons, List.forall₂_cons_left_iff, Except.bind_eq_ok]
    refine exists_congr fun b => ?_
    rw [Except.bind_eq_ok, ← exists_and_left]
    exact exists_congr fun bs' => by rw [ih, Except.pure_eq_ok]

/-- All members of a list have results if there is one for each. -/
theorem Option.mapM_eq_some {α β : Type} {f : α → Option β} {as : List α} {bs : List β} :
    as.mapM f = some bs ↔ List.Forall₂ (fun a b => f a = some b) as bs := by
  induction as generalizing bs with
  | nil =>
    rw [List.forall₂_nil_left_iff, List.mapM_nil, Option.pure_def, Option.some_inj]
    exact eq_comm
  | cons a as ih =>
    rw [List.mapM_cons, List.forall₂_cons_left_iff, Option.bind_eq_bind, Option.bind_eq_some_iff]
    refine exists_congr fun b => ?_
    rw [Option.bind_eq_bind, Option.bind_eq_some_iff, ← exists_and_left]
    exact exists_congr fun bs' => by rw [ih, Option.pure_def, Option.some_inj, eq_comm (a := bs)]

/-- If each member of a list has a partner, there is a list of partners. -/
theorem exists_forall₂ {α β : Type} {R : α → β → Prop} {xs : List α} (h : ∀ x ∈ xs, ∃ y, R x y) :
    ∃ ys, List.Forall₂ R xs ys := by
  induction xs with
  | nil => exact ⟨[], .nil⟩
  | cons x xs ih =>
    obtain ⟨⟨y, hy⟩, hxs⟩ := List.forall_mem_cons.1 h
    obtain ⟨ys, hys⟩ := ih hxs
    exact ⟨y :: ys, .cons hy hys⟩

/-- Two steps with a state succeed one after the other. -/
theorem State.bind_eq_ok {σ ε α β : Type} {x : StateT σ (Except ε) α}
    {f : α → StateT σ (Except ε) β} {s s' : σ} {b : β} :
    (x >>= f) s = .ok (b, s') ↔ ∃ a s₁, x s = .ok (a, s₁) ∧ f a s₁ = .ok (b, s') := by
  change (x s >>= fun p => f p.1 p.2) = .ok (b, s') ↔ _
  cases x s with
  | error e => exact ⟨nofun, nofun⟩
  | ok p =>
    obtain ⟨a, s₁⟩ := p
    exact ⟨fun h => ⟨a, s₁, rfl, h⟩, fun ⟨_, _, ha, h⟩ => by cases ha; exact h⟩

/-- Two steps with a state fail if the first one does, or else the second one. -/
theorem State.bind_eq_error {σ ε α β : Type} {x : StateT σ (Except ε) α}
    {f : α → StateT σ (Except ε) β} {s : σ} {e : ε} :
    (x >>= f) s = .error e ↔
      x s = .error e ∨ ∃ a s₁, x s = .ok (a, s₁) ∧ f a s₁ = .error e := by
  change (x s >>= fun p => f p.1 p.2) = .error e ↔ _
  rw [Except.bind_eq_error]
  exact or_congr_right ⟨fun ⟨p, hp, h⟩ => ⟨p.1, p.2, hp, h⟩, fun ⟨a, s₁, hp, h⟩ => ⟨(a, s₁), hp, h⟩⟩

theorem State.pure_eq_ok {σ ε α : Type} {s s' : σ} {a b : α} :
    (pure a : StateT σ (Except ε) α) s = .ok (b, s') ↔ b = a ∧ s' = s := by
  constructor
  · intro h
    cases h
    exact ⟨rfl, rfl⟩
  · rintro ⟨rfl, rfl⟩
    rfl

/-- If a computation ended for all members of a list, it did for each of them. -/
theorem State.exists_of_mapM_eq_ok {σ ε α β : Type} {f : α → StateT σ (Except ε) β} {as : List α}
    {bs : List β} {s s' : σ} (h : as.mapM f s = .ok (bs, s')) {a : α} (ha : a ∈ as) :
    ∃ b ∈ bs, ∃ s₁ s₂, f a s₁ = .ok (b, s₂) := by
  induction as generalizing s bs with
  | nil => cases ha
  | cons a' as ih =>
    rw [List.mapM_cons] at h
    obtain ⟨b, s₁, hb, h⟩ := State.bind_eq_ok.1 h
    obtain ⟨bs', s₂, hbs, h⟩ := State.bind_eq_ok.1 h
    obtain ⟨rfl, rfl⟩ := State.pure_eq_ok.1 h
    rcases List.mem_cons.1 ha with rfl | ha
    · exact ⟨b, List.mem_cons_self, s, s₁, hb⟩
    · obtain ⟨b', hb', hstep⟩ := ih hbs ha
      exact ⟨b', List.mem_cons_of_mem _ hb', hstep⟩

/-- A step that takes no names leaves the supply as it is. -/
theorem Fresh.lift_eq_ok {α : Type} {x : Except FusionError α} {s s' : NameSupply} {a : α} :
    Fresh.lift x s = .ok (a, s') ↔ x = .ok a ∧ s' = s := by
  cases x with
  | error e => exact ⟨nofun, nofun⟩
  | ok b =>
    constructor
    · intro h
      cases h
      exact ⟨rfl, rfl⟩
    · rintro ⟨h, rfl⟩
      cases h
      rfl

/-- A step that takes names leaves everything but the supply as it is. -/
theorem Analysis.fresh_eq_ok {α : Type} {x : Fresh α} {a b : Progress} {v : α} :
    Analysis.fresh x a = .ok (v, b) ↔ ∃ s, x a.names = .ok (v, s) ∧ b = { a with names := s } := by
  rw [Analysis.fresh]
  cases x a.names with
  | error e => exact ⟨nofun, nofun⟩
  | ok p =>
    obtain ⟨w, s⟩ := p
    constructor
    · intro h
      cases h
      exact ⟨s, rfl, rfl⟩
    · rintro ⟨s', h, rfl⟩
      cases h
      rfl

/-- A step without a state succeeds and leaves the state as it is. -/
theorem Analysis.lift_eq_ok {α : Type} {x : Except FusionError α} {a b : Progress} {v : α} :
    Analysis.lift x a = .ok (v, b) ↔ x = .ok v ∧ b = a := by
  cases x with
  | error e => exact ⟨nofun, nofun⟩
  | ok w =>
    constructor
    · intro h
      cases h
      exact ⟨rfl, rfl⟩
    · rintro ⟨h, rfl⟩
      cases h
      rfl

/-- A step without a state fails and leaves the state as it is. -/
theorem Analysis.lift_eq_error {α : Type} {x : Except FusionError α} {a : Progress}
    {e : Failure Progress} : Analysis.lift x a = .error e ↔ x = .error e.error ∧ e.state = a := by
  obtain ⟨e, b⟩ := e
  cases x with
  | error e' =>
    constructor
    · intro h
      cases h
      exact ⟨rfl, rfl⟩
    · rintro ⟨h, rfl⟩
      cases h
      rfl
  | ok w => exact ⟨nofun, nofun⟩

/-! ## Computations that end in one way or the other -/

section

variable {σ ε α β : Type}

/-- However the computation ends, it ends well: `Q` holds of its result and of the state behind it,
or `E` holds of its error. -/
def Ends (E : ε → Prop) (x : StateT σ (Except ε) α) (s : σ) (Q : α → σ → Prop) : Prop :=
  match x s with
  | .ok (a, s') => Q a s'
  | .error e => E e

variable {E : ε → Prop} {x : StateT σ (Except ε) α} {f : α → StateT σ (Except ε) β} {s s' : σ}
  {P : α → σ → Prop} {Q : β → σ → Prop}

theorem Ends.pure {a : α} (h : P a s) : Ends E (Pure.pure a) s P := h

/-- What follows may rely on what the first step ends with. -/
theorem Ends.bind (hx : Ends E x s P) (hf : ∀ a s', P a s' → Ends E (f a) s' Q) :
    Ends E (x >>= f) s Q := by
  unfold Ends at hx ⊢
  change match x s >>= fun p => f p.1 p.2 with
    | .ok (a, s') => Q a s'
    | .error e => E e
  cases h : x s with
  | error e =>
    rw [h] at hx
    exact hx
  | ok p =>
    rw [h] at hx
    exact hf p.1 p.2 hx

/-- A computation that ends well ends well in a weaker sense. -/
theorem Ends.imp {E' : ε → Prop} {P' : α → σ → Prop} (hx : Ends E x s P) (hE : ∀ e, E e → E' e)
    (h : ∀ a s', P a s' → P' a s') : Ends E' x s P' := by
  unfold Ends at hx ⊢
  cases hs : x s with
  | error e =>
    rw [hs] at hx
    exact hE e hx
  | ok p =>
    rw [hs] at hx
    exact h p.1 p.2 hx

/-- What a computation ends with may be weakened. -/
theorem Ends.mono {P' : α → σ → Prop} (hx : Ends E x s P) (h : ∀ a s', P a s' → P' a s') :
    Ends E x s P' := hx.imp (fun _ => id) h

/-- What holds of an outcome may refer to how the computation got there. -/
theorem Ends.and_eq (hx : Ends E x s P) : Ends E x s fun a s' => P a s' ∧ x s = .ok (a, s') := by
  unfold Ends at hx ⊢
  cases hs : x s with
  | error e =>
    rw [hs] at hx
    exact hx
  | ok p =>
    rw [hs] at hx
    exact ⟨hx, rfl⟩

/-- A computation that has succeeded ended as it was said. -/
theorem Ends.of_ok {a : α} (hx : Ends E x s P) (h : x s = .ok (a, s')) : P a s' := by
  unfold Ends at hx
  rw [h] at hx
  exact hx

/-- A computation that has failed failed as it was said. -/
theorem Ends.of_error {e : ε} (hx : Ends E x s P) (h : x s = .error e) : E e := by
  unfold Ends at hx
  rw [h] at hx
  exact hx

/-- How a computation ends is known from its two outcomes. -/
theorem Ends.intro (hok : ∀ a s', x s = .ok (a, s') → P a s') (herror : ∀ e, x s = .error e → E e) :
    Ends E x s P := by
  unfold Ends
  cases h : x s with
  | error e => exact herror e h
  | ok p => exact hok p.1 p.2 h

end

/-- The analysis is given up where it has come to. -/
theorem Ends.throw {E : Failure Progress → Prop} {α : Type} {e : FusionError} {a : Progress}
    {Q : α → Progress → Prop} (h : E ⟨e, a⟩) : Ends E (Analysis.lift (MonadExcept.throw e)) a Q := h

/-- A computation that takes fresh names ends in the analysis as it does by itself. -/
theorem Ends.fresh {E : Failure Progress → Prop} {α : Type} {x : Fresh α} {a : Progress}
    {Q : α → Progress → Prop}
    (hx : Ends (fun e => E ⟨e.error, { a with names := e.state }⟩) x a.names
      fun v s => Q v { a with names := s }) :
    Ends E (Analysis.fresh x) a Q := by
  unfold Ends at hx ⊢
  rw [Analysis.fresh]
  cases hs : x a.names with
  | error e =>
    rw [hs] at hx
    exact hx
  | ok p =>
    rw [hs] at hx
    exact hx

end ArrayFusion
