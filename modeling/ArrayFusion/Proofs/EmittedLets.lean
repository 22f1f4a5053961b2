import ArrayFusion.Proofs.Coherence
import ArrayFusion.Proofs.Shown

/-!
# The `let`s of emitted code

What the `let`s of emitted code bind, and which certificates they have, can be read off the code and
the registry (`Exp.emits`): a `let` that is shown stays if no kernel has its names, and if a kernel
stands for it there are the `let`s of the kernel and whatever the stage of the kernel binds in turn
(`Registry.Binds`).

A name that went into the kernel of another `let` is bound nowhere
(`Registry.Coherent.not_dropped_of_binds`).  Conversely, if each kernel stands for a `let` that is
shown in the code or in some kernel, then whatever a kernel shows is bound in the code: no kernel
lies inside itself, so the way out of the kernels ends in the code
(`Registry.Coherent.binds_of_kernel`).
-/

namespace ArrayFusion

/-! ## What emission preserves of a `let` -/

/-- What emission preserves of a `let` that stays: its pattern and the certificates of its
combinator. -/
def letHead (l : Pattern × Exp) : Pattern × Certificates := (l.1, l.2.certs)

/-- The heads of the `let`s that a kernel is emitted as. -/
def Kernel.heads (K : Kernel) : List (Pattern × Certificates) :=
  (K.outputs, K.stage.certs) :: K.transforms.map fun t => ([t.target], [])

/-- The transforms of a kernel are bound without certificates. -/
theorem Kernel.certs_bindTransforms (K : Kernel) (b : Exp) :
    (K.bindTransforms b).certs = b.certs := by
  unfold bindTransforms
  induction K.transforms with
  | nil => rfl
  | cons t ts ih => exact ih

/-- The transforms of a kernel are bound by one `let` each in front of the others. -/
theorem Kernel.lets_bindTransforms (K : Kernel) (b : Exp) : ∃ ls : List (Pattern × Exp),
    ls.map letHead = K.transforms.map (fun t => ([t.target], []))
      ∧ (K.bindTransforms b).lets = ls ++ b.lets := by
  unfold bindTransforms
  induction K.transforms with
  | nil => exact ⟨[], rfl, rfl⟩
  | cons t ts ih =>
    obtain ⟨ls, hls, heq⟩ := ih
    exact ⟨([t.target], .unary .transpose (.ofIdent t.source) .dummy) :: ls, congrArg (_ :: ·) hls,
      congrArg (_ :: ·) heq⟩

namespace Emit

variable {n : Nat} {q : Registry}

/-- A kernel is emitted with the certificates of its stage. -/
theorem certs_kernelWithin {K : Kernel} {e' : Exp} (h : (kernelWithin n K).run q = .ok e') :
    e'.certs = K.stage.certs := by
  obtain ⟨k, -, op', -, es', -, rfl⟩ := kernelWithin_eq_ok.1 h
  rfl

/-- Emission changes no certificates of the combinator that an expression ends in. -/
theorem certs_expAt : ∀ {e e' : Exp}, expAt n q e = .ok e' → e'.certs = e.certs
  | .lit _ _, _, h => by
    cases h
    rfl
  | .var _ _, _, h => by
    cases h
    rfl
  | .tuple es _, _, h => by
    obtain ⟨_, -, rfl⟩ := expAt_tuple_eq_ok.1 h
    rfl
  | .array es _ _, _, h => by
    obtain ⟨_, -, rfl⟩ := expAt_array_eq_ok.1 h
    rfl
  | .binary _ _ _ _ _, _, h => by
    obtain ⟨_, -, _, -, rfl⟩ := expAt_binary_eq_ok.1 h
    rfl
  | .unary _ _ _, _, h => by
    obtain ⟨_, -, rfl⟩ := expAt_unary_eq_ok.1 h
    rfl
  | .cond _ _ _ _ _, _, h => by
    obtain ⟨_, -, _, -, _, -, rfl⟩ := expAt_cond_eq_ok.1 h
    rfl
  | .call _ _ _ _, _, h => by
    obtain ⟨_, -, rfl⟩ := expAt_call_eq_ok.1 h
    rfl
  | .letIn _ _ b _, _, h => by
    rcases expAt_letIn_cases h with ⟨_, -, b₁, hb, rfl⟩ | hb | ⟨_, K, -, _, -, b₁, hb, rfl⟩
    · exact show b₁.certs = b.certs from certs_expAt hb
    · exact certs_expAt (e := b) hb
    · exact (K.certs_bindTransforms b₁).trans (certs_expAt (e := b) hb)
  | .update _ _ _ _ _ _, _, h => by
    obtain ⟨_, -, _, -, _, -, rfl⟩ := expAt_update_eq_ok.1 h
    rfl
  | .index _ _ _, _, h => by
    obtain ⟨_, -, rfl⟩ := expAt_index_eq_ok.1 h
    rfl
  | .replicate _ _ _, _, h => by
    obtain ⟨_, -, _, -, rfl⟩ := expAt_replicate_eq_ok.1 h
    rfl
  | .loop _ _ _ _ _ _ _, _, h => by
    obtain ⟨_, -, _, -, _, -, _, -, rfl⟩ := expAt_loop_eq_ok.1 h
    rfl
  | .soac _ _ _ _, _, h => by
    obtain ⟨_, -, _, -, rfl⟩ := expAt_soac_eq_ok.1 h
    rfl

end Emit

/-! ## What is to be bound -/

namespace Registry

variable {q : Registry} {S S' : Set (Pattern × Exp)} {ls ls' : List (Pattern × Exp)}
  {m : Pattern × Certificates}

/-- The names that some kernel has. -/
def produced (q : Registry) : Set Name := {x | q.producerOf x ≠ none}

/-- The kernel stands for the `let` of the pattern. -/
structure Represents (q : Registry) (p : Pattern) (K : Kernel) : Prop where
  ne : p ≠ []
  kernel : ∃ id, q.kernels.find? id = some K ∧ ∀ x ∈ p.names, q.producerOf x = some id
  pattern : K.pattern.names = p.names

/-- What is emitted for code that shows the `let`s of `S` has a `let` with this head: one that
stays, one that a kernel is emitted as, or one inside of a kernel. -/
inductive Binds (q : Registry) : Set (Pattern × Exp) → Pattern × Certificates → Prop
  | stays {S : Set (Pattern × Exp)} {l : Pattern × Exp} : l ∈ S →
      (∀ y ∈ l.1.names, q.producerOf y = none) → q.Binds S (letHead l)
  | kernel {S : Set (Pattern × Exp)} {l : Pattern × Exp} {K : Kernel} {m : Pattern × Certificates} :
      l ∈ S → q.Represents l.1 K → m ∈ K.heads → q.Binds S m
  | inside {S : Set (Pattern × Exp)} {l : Pattern × Exp} {K : Kernel} {m : Pattern × Certificates} :
      l ∈ S → q.Represents l.1 K → q.Binds (K.stage.toExp.shown q.produced) m → q.Binds S m

/-- What some `let`s are emitted as is among what more of them are emitted as. -/
theorem Binds.mono (h : q.Binds S m) (hS : S ⊆ S') : q.Binds S' m := by
  cases h with
  | stays hl hp => exact .stays (hS hl) hp
  | kernel hl hK hm => exact .kernel (hS hl) hK hm
  | inside hl hK hm => exact .inside (hS hl) hK hm

/-- Of two sets of `let`s one or the other is emitted. -/
theorem binds_union : q.Binds (S ∪ S') m ↔ q.Binds S m ∨ q.Binds S' m := by
  refine ⟨fun h => ?_, fun h => h.elim (·.mono Set.subset_union_left)
    (·.mono Set.subset_union_right)⟩
  cases h with
  | stays hl hp => exact hl.imp (.stays · hp) (.stays · hp)
  | kernel hl hK hm => exact hl.imp (.kernel · hK hm) (.kernel · hK hm)
  | inside hl hK hm => exact hl.imp (.inside · hK hm) (.inside · hK hm)

/-- Nothing is emitted from no `let`s. -/
theorem not_binds_empty : ¬q.Binds ∅ m := by
  intro h
  cases h with
  | stays hl | kernel hl | inside hl => exact hl

/-- The `let`s have just the heads of what is emitted for code that shows the `let`s of `S`. -/
def BindsJust (q : Registry) (S : Set (Pattern × Exp)) (ls : List (Pattern × Exp)) : Prop :=
  ∀ m, m ∈ ls.map letHead ↔ q.Binds S m

namespace BindsJust

/-- From nothing come no `let`s. -/
theorem nil : q.BindsJust ∅ [] := fun _ => ⟨nofun, fun h => absurd h not_binds_empty⟩

/-- The `let`s from two sets are those from each. -/
theorem append (h : q.BindsJust S ls) (h' : q.BindsJust S' ls') :
    q.BindsJust (S ∪ S') (ls ++ ls') := fun m => by
  rw [List.map_append, List.mem_append, h m, h' m, binds_union]

/-- The names that are bound are those of the `let`s that are emitted. -/
theorem mem_letNames (h : q.BindsJust S ls) {x : Name} :
    x ∈ letNames ls ↔ ∃ m, q.Binds S m ∧ x ∈ m.1.names := by
  rw [ArrayFusion.mem_letNames]
  constructor
  · rintro ⟨l, hl, hx⟩
    exact ⟨letHead l, (h _).1 (List.mem_map_of_mem hl), hx⟩
  · rintro ⟨m, hm, hx⟩
    obtain ⟨l, hl, rfl⟩ := List.mem_map.1 ((h m).2 hm)
    exact ⟨l, hl, hx⟩

variable {p : Pattern} {e : Exp} {T : Set (Pattern × Exp)}

/-- A `let` stays if no kernel has its names, and its right-hand side is not hidden. -/
theorem stays {e₁ : Exp} (h : q.BindsJust T ls) (hp : ∀ y ∈ p.names, q.producerOf y = none)
    (hcerts : e₁.certs = e.certs) :
    q.BindsJust ({(p, e)} ∪ {l ∈ T | ∀ y ∈ p.names, y ∉ q.produced}) ((p, e₁) :: ls) := by
  intro m
  have hshown : {l ∈ T | ∀ y ∈ p.names, y ∉ q.produced} = T :=
    Set.sep_eq_self_iff_mem_true.2 fun l _ y hy hmem => hmem (hp y hy)
  have hhead : letHead (p, e₁) = letHead (p, e) := congrArg (p, ·) hcerts
  rw [List.map_cons, List.mem_cons, h m, hshown, binds_union, hhead]
  refine or_congr_left ⟨?_, fun hm => ?_⟩
  · rintro rfl
    exact .stays (l := (p, e)) rfl hp
  -- no kernel stands for it
  have hnone : ∀ K, ¬q.Represents p K := fun K hK => by
    obtain ⟨id, -, hid⟩ := hK.kernel
    obtain ⟨y, hy⟩ := List.exists_mem_of_ne_nil _ (mt List.map_eq_nil_iff.1 hK.ne)
    cases (hp y hy).symm.trans (hid y hy)
  cases hm with
  | stays hl =>
    cases hl
    rfl
  | kernel hl hK | inside hl hK =>
    cases hl
    exact absurd hK (hnone _)

section

variable {id : KernelId} {K : Kernel} (hne : p ≠ []) (hp : ∀ y ∈ p.names, q.producerOf y = some id)

include hne hp

/-- A pattern that is produced is not among those that are bound to no kernel. -/
theorem hidden (T : Set (Pattern × Exp)) : {l ∈ T | ∀ y ∈ p.names, y ∉ q.produced} = ∅ := by
  obtain ⟨y, hy⟩ := List.exists_mem_of_ne_nil _ (mt List.map_eq_nil_iff.1 hne)
  refine Set.eq_empty_of_forall_notMem fun l hl => hl.2 y hy fun hnone => ?_
  cases (hp y hy).symm.trans hnone

/-- A pattern that a kernel represents is not left as it was. -/
theorem not_stays (h : ∀ y ∈ p.names, q.producerOf y = none) : False := by
  obtain ⟨y, hy⟩ := List.exists_mem_of_ne_nil _ (mt List.map_eq_nil_iff.1 hne)
  cases (hp y hy).symm.trans (h y hy)

variable (hK : q.kernels.find? id = some K)

include hK

/-- One kernel represents a pattern. -/
theorem represents_unique {K' : Kernel} (h : q.Represents p K') : K' = K := by
  obtain ⟨y, hy⟩ := List.exists_mem_of_ne_nil _ (mt List.map_eq_nil_iff.1 hne)
  obtain ⟨id', hK', hid'⟩ := h.kernel
  cases (hp y hy).symm.trans (hid' y hy)
  exact Option.some.inj (hK'.symm.trans hK)

/-- A `let` goes if its names have the kernel of another one. -/
theorem drop (hpattern : K.pattern.names ≠ p.names) :
    q.BindsJust ({(p, e)} ∪ {l ∈ T | ∀ y ∈ p.names, y ∉ q.produced}) [] := by
  intro m
  rw [hidden hne hp, Set.union_empty]
  refine ⟨nofun, fun hm => ?_⟩
  cases hm with
  | stays hl hnone =>
    cases hl
    exact absurd hnone (not_stays hne hp)
  | kernel hl hL | inside hl hL =>
    cases hl
    cases represents_unique hne hp hK hL
    exact absurd hL.pattern hpattern

/-- The stage of a kernel takes the place of a right-hand side, and the transforms follow. -/
theorem kernel {e₁ : Exp} {ts : List (Pattern × Exp)} (hpattern : K.pattern.names = p.names)
    (h : q.BindsJust (K.stage.toExp.shown q.produced) e₁.lets) (hcerts : e₁.certs = K.stage.certs)
    (hts : ts.map letHead = K.transforms.map fun t => ([t.target], [])) :
    q.BindsJust ({(p, e)} ∪ {l ∈ T | ∀ y ∈ p.names, y ∉ q.produced})
      ((K.outputs, e₁) :: (e₁.lets ++ ts)) := by
  intro m
  have hrepresents : q.Represents p K := ⟨hne, ⟨id, hK, hp⟩, hpattern⟩
  -- the heads are those of the kernel and of the `let`s inside of it
  have hheads : m ∈ ((K.outputs, e₁) :: (e₁.lets ++ ts)).map letHead
      ↔ m ∈ K.heads ∨ m ∈ e₁.lets.map letHead := by
    rw [List.map_cons, List.map_append, hts, Kernel.heads, List.mem_cons, List.mem_cons,
      List.mem_append, or_assoc, or_comm (b := m ∈ K.transforms.map _)]
    rw [show letHead (K.outputs, e₁) = (K.outputs, K.stage.certs) from congrArg
      (K.outputs, ·) hcerts]
  rw [hidden hne hp, Set.union_empty, hheads, h m]
  refine ⟨fun hm => hm.elim (.kernel rfl hrepresents) (.inside rfl hrepresents), fun hm => ?_⟩
  -- what the `let` is emitted as is of this kernel, as no other one stands for it
  cases hm with
  | stays hl hnone =>
    cases hl
    exact absurd hnone (not_stays hne hp)
  | kernel hl hL hm =>
    cases hl
    cases represents_unique hne hp hK hL
    exact .inl hm
  | inside hl hL hm =>
    cases hl
    cases represents_unique hne hp hK hL
    exact .inr hm

end

end BindsJust

end Registry

/-! ## Emission -/

namespace Emit

variable {n : Nat} {q : Registry}

/-- The producer that is found for names is that of each of them. -/
theorem producer_eq_ok {xs : List Name} {s : Span} {o : Option KernelId}
    (h : (producer xs s).run q = .ok o) : ∀ x ∈ xs, q.producerOf x = o := by
  cases xs with
  | nil => exact fun x hx => absurd hx List.not_mem_nil
  | cons x xs =>
    change (if _ then _ else _) = _ at h
    split at h
    · rename_i hall
      cases h
      refine List.forall_mem_cons.2 ⟨rfl, fun y hy => ?_⟩
      exact beq_iff_eq.1 (List.all_eq_true.1 hall y hy)
    · cases h

/-- A registry knows about the `let`s that it emits: either no kernel has the names, or all of them
have the same one. -/
theorem producer_of_expAt {p : Pattern} {e b : Exp} {s : Span} {e' : Exp}
    (h : expAt n q (.letIn p e b s) = .ok e') : (∀ x ∈ p.names, q.producerOf x = none)
      ∨ p ≠ [] ∧ ∃ id K, q.kernels.find? id = some K ∧ ∀ x ∈ p.names, q.producerOf x = some id := by
  change ((producer p.names s).run q >>= _) = _ at h
  obtain ⟨o, ho, h⟩ := Except.bind_eq_ok.1 h
  have hall := producer_eq_ok ho
  cases o with
  | none => exact .inl hall
  | some id =>
    obtain ⟨K, hK, -⟩ := Except.bind_eq_ok.1 (show (q.kernel id s >>= _) = _ from h)
    refine .inr ⟨?_, id, K, Registry.kernel_eq_ok.1 hK, hall⟩
    rintro rfl
    cases ho

end Emit

section

variable {n : Nat} {q : Registry}

/-- The `let`s of an emitted `let`, if something was fused into each kernel. -/
theorem Exp.emits_letIn {p : Pattern} {e b : Exp} {s : Span} {e' : Exp}
    (hq : q.All fun K => K.isFused = true)
    (hk : ∀ id K e', q.kernels.find? id = some K → (Emit.kernelWithin n K).run q = .ok e' →
      q.BindsJust (K.stage.toExp.shown q.produced) e'.lets)
    (he : ∀ e₁, Emit.expAt n q e = .ok e₁ → q.BindsJust (e.shown q.produced) e₁.lets)
    (hb : ∀ b₁, Emit.expAt n q b = .ok b₁ → q.BindsJust (b.shown q.produced) b₁.lets)
    (h : Emit.expAt n q (.letIn p e b s) = .ok e') :
    q.BindsJust ((Exp.letIn p e b s).shown q.produced) e'.lets := by
  rw [Exp.shown, ← Set.union_assoc]
  -- no kernel has the names, or the kernel is emitted, or the `let` is dropped
  rcases Emit.producer_of_expAt h with hnone | ⟨hne, id, K, hK, hp⟩
  · obtain ⟨e₁, he₁, b₁, hb₁, rfl⟩ := (Emit.expAt_bind_eq_ok hnone).1 h
    exact ((he e₁ he₁).stays hnone (Emit.certs_expAt he₁)).append (hb b₁ hb₁)
  by_cases hpattern : K.pattern.names = p.names
  · -- only kernels that something was fused into are left
    have hne' : K.fused ≠ [] := by
      have hfused : K.isFused = true := hq id K hK
      rwa [Kernel.isFused, Bool.not_eq_true', List.isEmpty_eq_false_iff] at hfused
    obtain ⟨e₁, he₁, b₁, hb₁, rfl⟩ := (Emit.expAt_fused_eq_ok hne hp hK hpattern hne').1 h
    obtain ⟨ts, hts, hlets⟩ := K.lets_bindTransforms b₁
    have hkernel := Registry.BindsJust.kernel (e := e) (T := e.shown q.produced) hne hp hK hpattern
      (hk id K e₁ hK he₁) (Emit.certs_kernelWithin he₁) hts
    rw [Exp.lets, hlets, ← List.append_assoc]
    exact hkernel.append (hb b₁ hb₁)
  · rw [Emit.expAt_drop hne hp hK hpattern] at h
    exact (Registry.BindsJust.drop hne hp hK hpattern).append (hb e' h)

mutual

/-- Emitted code binds just what is to be read off the code and the registry, if the kernels in it
do. -/
theorem Exp.emits (hq : q.All fun K => K.isFused = true)
    (hk : ∀ id K e', q.kernels.find? id = some K → (Emit.kernelWithin n K).run q = .ok e' →
      q.BindsJust (K.stage.toExp.shown q.produced) e'.lets) :
    ∀ {e e' : Exp}, Emit.expAt n q e = .ok e' → q.BindsJust (e.shown q.produced) e'.lets
  | .lit _ _, _, h => by
    cases h
    exact .nil
  | .var _ _, _, h => by
    cases h
    exact .nil
  | .tuple es _, _, h => by
    obtain ⟨es', hes, rfl⟩ := Emit.expAt_tuple_eq_ok.1 h
    exact Exp.emitsAll hq hk hes
  | .array es _ _, _, h => by
    obtain ⟨es', hes, rfl⟩ := Emit.expAt_array_eq_ok.1 h
    exact Exp.emitsAll hq hk hes
  | .binary _ _ _ _ _, _, h => by
    obtain ⟨a', ha, b', hb, rfl⟩ := Emit.expAt_binary_eq_ok.1 h
    exact (Exp.emits hq hk ha).append (Exp.emits hq hk hb)
  | .unary _ e _, _, h => by
    obtain ⟨e₁, he, rfl⟩ := Emit.expAt_unary_eq_ok.1 h
    have he := Exp.emits hq hk he
    exact he
  | .cond _ _ _ _ _, _, h => by
    obtain ⟨c', hc, a', ha, b', hb, rfl⟩ := Emit.expAt_cond_eq_ok.1 h
    exact ((Exp.emits hq hk hc).append (Exp.emits hq hk ha)).append (Exp.emits hq hk hb)
  | .call _ es _ _, _, h => by
    obtain ⟨es', hes, rfl⟩ := Emit.expAt_call_eq_ok.1 h
    exact Exp.emitsAll hq hk hes
  | .letIn _ e b _, _, h => Exp.emits_letIn hq hk (fun _ he => Exp.emits (e := e) hq hk he)
      (fun _ hb => Exp.emits (e := b) hq hk hb) h
  | .update _ _ is v b _, _, h => by
    obtain ⟨is', his, v', hv, b', hb, rfl⟩ := Emit.expAt_update_eq_ok.1 h
    exact ((Exp.emitsAll hq hk his).append (Exp.emits hq hk hv)).append (Exp.emits hq hk hb)
  | .index _ is _, _, h => by
    obtain ⟨is', his, rfl⟩ := Emit.expAt_index_eq_ok.1 h
    exact Exp.emitsAll hq hk his
  | .replicate _ _ _, _, h => by
    obtain ⟨k', hk', v', hv, rfl⟩ := Emit.expAt_replicate_eq_ok.1 h
    exact (Exp.emits hq hk hk').append (Exp.emits hq hk hv)
  | .loop _ is _ _ _ _ _, _, h => by
    obtain ⟨is', his, k', hk', b', hb, e₁, he, rfl⟩ := Emit.expAt_loop_eq_ok.1 h
    exact (((Exp.emitsAll hq hk his).append (Exp.emits hq hk hk')).append
      (Exp.emits hq hk hb)).append (Exp.emits hq hk he)
  | .soac op es _ _, _, h => by
    obtain ⟨o', ho, es', hes, rfl⟩ := Emit.expAt_soac_eq_ok.1 h
    exact (Combinator.emits hq hk ho).append (Exp.emitsAll hq hk hes)
termination_by structural e => e

/-- From expressions come the `let`s that they show. -/
theorem Exp.emitsAll (hq : q.All fun K => K.isFused = true)
    (hk : ∀ id K e', q.kernels.find? id = some K → (Emit.kernelWithin n K).run q = .ok e' →
      q.BindsJust (K.stage.toExp.shown q.produced) e'.lets) :
    ∀ {es es' : List Exp}, Emit.allAt n q es = .ok es' →
      q.BindsJust (Exp.shownAll q.produced es) (Exp.letsAll es')
  | [], _, h => by
    cases h
    exact .nil
  | _ :: _, _, h => by
    obtain ⟨e₁, he, es₁, hes, rfl⟩ := Emit.allAt_cons_eq_ok.1 h
    exact (Exp.emits hq hk he).append (Exp.emitsAll hq hk hes)
termination_by structural e => e

/-- From a lambda come the `let`s that it shows. -/
theorem Lambda.emits (hq : q.All fun K => K.isFused = true)
    (hk : ∀ id K e', q.kernels.find? id = some K → (Emit.kernelWithin n K).run q = .ok e' →
      q.BindsJust (K.stage.toExp.shown q.produced) e'.lets) :
    ∀ {f f' : Lambda}, Emit.lambdaAt n q f = .ok f' → q.BindsJust (f.shown q.produced) f'.lets
  | ⟨_, b, _⟩, _, h => by
    obtain ⟨b', hb, rfl⟩ := Emit.lambdaAt_eq_ok.1 h
    exact Exp.emits (e := b) hq hk hb
termination_by structural e => e

/-- From a combinator come the `let`s that it shows. -/
theorem Combinator.emits (hq : q.All fun K => K.isFused = true)
    (hk : ∀ id K e', q.kernels.find? id = some K → (Emit.kernelWithin n K).run q = .ok e' →
      q.BindsJust (K.stage.toExp.shown q.produced) e'.lets) :
    ∀ {o o' : Combinator}, Emit.opAt n q o = .ok o' → q.BindsJust (o.shown q.produced) o'.lets
  | .map f, _, h => by
    obtain ⟨f', hf, rfl⟩ := Emit.opAt_map_eq_ok.1 h
    exact Lambda.emits hq hk (f := f) hf
  | .reduce _ _, _, h => by
    obtain ⟨f', hf, ne', hne, rfl⟩ := Emit.opAt_reduce_eq_ok.1 h
    exact (Lambda.emits hq hk hf).append (Exp.emitsAll hq hk hne)
  | .scan _ _, _, h => by
    obtain ⟨f', hf, ne', hne, rfl⟩ := Emit.opAt_scan_eq_ok.1 h
    exact (Lambda.emits hq hk hf).append (Exp.emitsAll hq hk hne)
  | .filter f, _, h => by
    obtain ⟨f', hf, rfl⟩ := Emit.opAt_filter_eq_ok.1 h
    exact Lambda.emits hq hk (f := f) hf
  | .redomap _ _ _, _, h => by
    obtain ⟨f', hf, g', hg, ne', hne, rfl⟩ := Emit.opAt_redomap_eq_ok.1 h
    exact ((Lambda.emits hq hk hf).append (Lambda.emits hq hk hg)).append (Exp.emitsAll hq hk hne)
termination_by structural e => e

end

/-- Kernels bind just what is to be read off their stages, however deep they lie. -/
theorem Registry.bindsJust_kernelWithin (hq : q.All fun K => K.isFused = true) :
    ∀ id K e', q.kernels.find? id = some K → (Emit.kernelWithin n K).run q = .ok e' →
      q.BindsJust (K.stage.toExp.shown q.produced) e'.lets := by
  induction n with
  | zero =>
    intro id K e' hK h
    cases h
  | succ n ih =>
    intro id K e' hK h
    exact Exp.emits (e := K.stage.toExp) hq ih h

/-- The emitted form of an expression binds just what is to be read off the expression. -/
theorem Registry.bindsJust_emit (hq : q.All fun K => K.isFused = true)
    {e e' : Exp} (h : q.emit e = .ok e') : q.BindsJust (e.shown q.produced) e'.lets :=
  Exp.emits hq (Registry.bindsJust_kernelWithin hq) h

end

/-! ## Names that are bound and names that are not -/

namespace Registry

variable {Λ : List (Pattern × Exp)} {o : List KernelId} {q : Registry} {S : Set (Pattern × Exp)}

/-- No name is bound that went into the kernel of another `let`, if each kernel binds, besides the
names of its own `let`, only names that no kernel has. -/
theorem Coherent.not_dropped_of_binds (hq : q.Coherent Λ o)
    (hheads : q.All fun K => ∀ m ∈ K.heads, ∀ x ∈ m.1.names,
      x ∈ K.pattern.names ∨ q.producerOf x = none) {m : Pattern × Certificates} (h : q.Binds S m) :
    ∀ x ∈ m.1.names, ¬q.Dropped x := by
  induction h with
  | stays _ hp => exact fun x hx => Coherent.not_dropped (hp x hx)
  | @kernel S l K m _ hK hm =>
    intro x hx
    obtain ⟨id, hK, -⟩ := hK.kernel
    rcases hheads id K hK m hm x hx with hx | hnone
    · rintro ⟨id', L, hid', hL, hnot⟩
      cases (hq.patterns id K hK x hx).symm.trans hid'
      cases hK.symm.trans hL
      exact hnot hx
    · exact Coherent.not_dropped hnone
  | inside _ _ _ ih => exact ih

/-- If each kernel stands for a `let` that the code shows or some kernel, then all kernels are bound
in the code with whatever is bound inside of them.  The induction is on the position of the kernel
in the order: the kernel around it stands in front of it. -/
theorem Coherent.binds_of_kernel (hq : q.Coherent Λ o)
    (hshown : ∀ id K, q.kernels.find? id = some K → ∃ l : Pattern × Exp, q.Represents l.1 K
      ∧ (l ∈ S ∨ ∃ id' L, q.kernels.find? id' = some L ∧ l ∈ L.stage.toExp.shown q.produced)) :
    ∀ {id K}, q.kernels.find? id = some K →
      (∀ m ∈ K.heads, q.Binds S m)
        ∧ ∀ m, q.Binds (K.stage.toExp.shown q.produced) m → q.Binds S m := by
  intro id
  induction hn : o.idxOf id using Nat.strong_induction_on generalizing id with
  | _ n ih =>
  intro K hK
  subst hn
  obtain ⟨l, hl, hmem | ⟨id', L, hL, hmem⟩⟩ := hshown id K hK
  · exact ⟨fun m hm => .kernel hmem hl hm, fun m hm => .inside hmem hl hm⟩
  obtain ⟨id₁, hK₁, hprod⟩ := hl.kernel
  obtain ⟨y, hy⟩ := List.exists_mem_of_ne_nil _ (mt List.map_eq_nil_iff.1 hl.ne)
  -- the `let` binds a name, and in the kernel around it that name is not dropped
  have hid : id₁ = id := by rw [← hq.ids id₁ K hK₁, ← hq.ids id K hK]
  subst hid
  have hy' : y ∈ K.pattern.names := by
    rw [hl.pattern]
    exact hy
  have hlt : o.idxOf id' < o.idxOf id₁ := by
    refine idxOf_lt_of_pair hq.nodup ((hq.nested id' y id₁ ⟨L, hL, ?_⟩
      (hprod y hy)).resolve_left ?_)
    · exact mem_letNames.2 ⟨l, (Exp.covers q.produced _).mem l hmem, hy⟩
    · rintro ⟨id₂, M, hid₂, hM, hnot⟩
      cases (hprod y hy).symm.trans hid₂
      cases hK.symm.trans hM
      exact hnot hy'
  obtain ⟨-, hinside⟩ := ih _ hlt rfl hL
  exact ⟨fun m hm => hinside m (.kernel hmem hl hm), fun m hm => hinside m (.inside hmem hl hm)⟩

end Registry

end ArrayFusion
