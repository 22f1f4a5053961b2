import ArrayFusion.Proofs.Calls
import ArrayFusion.Proofs.DecisionLog
import ArrayFusion.Proofs.Parts
import ArrayFusion.Proofs.UpdatesBefore

/-!
# No read is moved over an update

A producer that is fused into a kernel reads its arrays where the kernel stands.  Hence a kernel
notes what is updated in place while the analysis goes on in front of it, and nothing is fused into
it that reads one of these arrays.  That this suffices is shown in two steps.  The analysis of a
piece of code adds each update in it to all kernels behind it (`Minds`): there is a law for each way
in which code is put together, and from these it follows for all expressions that every kernel knows
of the updates before its `let` (`Exp.minds`).  So a kernel that stands for a `let` in the body of
another one knows, where that is decided about, of every update between the two
(`Kernel.Alert.knows`), and a stage that reads what is updated there is not fused into it
(`FunDef.safe_of_calls`).

A kernel does not know of the updates in its own right-hand side, which are analysed before it is
made.
-/

namespace ArrayFusion

/-! ## Kernels that know of the updates before them -/

/-- The kernel stands for one of the `let`s, and knows of everything that is updated before that. -/
def Kernel.Alert (ls : List (Pattern × Set Name)) (K : Kernel) : Prop :=
  ∃ l ∈ ls, l.1 = K.pattern ∧ ∀ x ∈ l.2, x ∈ K.inplace

namespace Kernel.Alert

variable {ls ms : List (Pattern × Set Name)} {K K' : Kernel}

/-- A kernel that is alert to more code is alert to less. -/
theorem mono (h : K.Alert ls) (hls : ls ⊆ ms) : K.Alert ms := by
  obtain ⟨l, hl, h⟩ := h
  exact ⟨l, hls hl, h⟩

/-- A kernel is as alert with the same pattern and more updates. -/
theorem alike (h : K.Alert ls) (hpattern : K'.pattern = K.pattern)
    (hinplace : K.inplace ⊆ K'.inplace) : K'.Alert ls := by
  obtain ⟨l, hl, hlet, hknown⟩ := h
  exact ⟨l, hl, hlet.trans hpattern.symm, fun x hx => hinplace (hknown x hx)⟩

/-- A kernel that has noted an update is alert to the code with it in front. -/
theorem noteUpdate (h : K.Alert ls) (y : Name) : (K.noteUpdate y).Alert (updatedFirst {y} ls) := by
  obtain ⟨l, hl, hlet, hknown⟩ := h
  refine ⟨_, List.mem_map_of_mem hl, hlet.trans (K.pattern_noteUpdate y).symm, fun x hx => ?_⟩
  unfold Kernel.noteUpdate
  split
  · rename_i hy
    rcases hx with rfl | hx
    · exact List.contains_iff_mem.1 hy
    · exact hknown x hx
  · rcases hx with rfl | hx
    · exact List.mem_cons_self
    · exact List.mem_cons_of_mem _ (hknown x hx)

end Kernel.Alert

namespace Registry

variable {r q : Registry} {X : Set Name} {ls ks : List (Pattern × Set Name)}

/-- All kernels know of the updates before them. -/
def Alert (r : Registry) (ls : List (Pattern × Set Name)) : Prop := r.All (Kernel.Alert ls)

/-- Whatever the kernels are, there is a list of `let`s for them. -/
theorem exists_alert (r : Registry) : ∃ ls, r.Alert ls :=
  ⟨r.kernels.entries.map fun e => (e.2.pattern, {x | x ∈ e.2.inplace}), fun id K hK =>
    ⟨(K.pattern, {x | x ∈ K.inplace}), List.mem_map.2 ⟨(id, K), Table.find?_eq_some_iff.1 hK,
      rfl⟩, rfl, fun _ hx => hx⟩⟩

/-- Kernels that are alert about some `let`s are so about fewer of them. -/
theorem Alert.mono {ms : List (Pattern × Set Name)} (h : r.Alert ls) (hls : ls ⊆ ms) : r.Alert ms :=
  fun id K hK => (h id K hK).mono hls

/-- A noted update was made in front of all the `let`s, for each kernel. -/
theorem Alert.noteUpdate (h : r.Alert ls) (y : Name) :
    (r.noteUpdate y).Alert (updatedFirst {y} ls) := by
  intro id K hK
  obtain ⟨L, hL, rfl⟩ := Option.map_eq_some_iff.1 ((r.find?_noteUpdate y id).symm.trans hK)
  exact (h id L hL).noteUpdate y

/-- A noted update is among the updates. -/
theorem mem_updated_noteUpdate {x y : Name} :
    x ∈ (r.noteUpdate y).updated ↔ x = y ∨ x ∈ r.updated :=
  List.mem_insert_iff

/-- So are noted updates one after the other. -/
theorem mem_updated_noteUpdates {x : Name} {ys : List Name} :
    x ∈ (ys.foldl Registry.noteUpdate r).updated ↔ x ∈ ys ∨ x ∈ r.updated := by
  induction ys generalizing r with
  | nil => simp
  | cons y ys ih =>
    rw [List.foldl_cons, ih, mem_updated_noteUpdate, List.mem_cons, or_left_comm,
      or_assoc]

/-- Noted updates were made in front of all the `let`s. -/
theorem Alert.noteUpdates (h : r.Alert ls) (ys : List Name) :
    (ys.foldl Registry.noteUpdate r).Alert (updatedFirst {x | x ∈ ys} ls) := by
  induction ys generalizing r ls with
  | nil => simpa using h
  | cons y ys ih =>
    have hcons : {x | x ∈ ys} ∪ {y} = {x | x ∈ y :: ys} := by
      ext x
      simp
    rw [List.foldl_cons, ← hcons, ← updatedFirst_updatedFirst]
    exact ih (h.noteUpdate y)

/-- Kernels are as alert if fewer arrays are updated first. -/
theorem Alert.weaken (h : r.Alert (updatedFirst X ls)) {Y : Set Name} (hY : Y ⊆ X) :
    r.Alert (updatedFirst Y ls) := by
  intro id K hK
  obtain ⟨l, hl, hlet, hknown⟩ := h id K hK
  obtain ⟨m, hm, rfl⟩ := List.mem_map.1 hl
  exact ⟨_, List.mem_map_of_mem hm, hlet, fun x hx => hknown x (hx.imp_left fun hx => hY hx)⟩

/-- The kernels behind a region know of the updates in it. -/
theorem Alert.mergeRegion (h : r.Alert ks) (h' : q.Alert ls) (hX : ∀ x ∈ X, x ∈ q.updated)
    (xs : List Name) : (r.mergeRegion q xs).Alert (ls ++ updatedFirst X ks) :=
  (((h.noteUpdates q.updated).weaken hX).mono (List.subset_append_right _ _)).union
    (h'.mono (List.subset_append_left _ _))

/-- What a region updates is updated in the code that it becomes a part of. -/
theorem mem_updated_mergeRegion {x : Name} {xs : List Name} :
    x ∈ (r.mergeRegion q xs).updated ↔ x ∈ q.updated ∨ x ∈ r.updated := by
  change x ∈ joined q.updated (q.updated.foldl Registry.noteUpdate r).updated ↔ _
  rw [mem_joined, mem_updated_noteUpdates]
  tauto

end Registry

/-! ## What a piece of code adds -/

/-- The analysis of code in which the names of `X` are updated.  The `let`s of `ls` stand in the
code, each with what is updated before it, and the kernels of all other code are behind it. -/
structure Minds (X : Set Name) (ls : List (Pattern × Set Name)) (m : Registry → Analysis Registry) :
    Prop where
  updated : ∀ (r r' : Registry) (a b : Progress), m r a = .ok (r', b) →
    ∀ x, x ∈ X ∨ x ∈ r.updated → x ∈ r'.updated
  alert : ∀ (r r' : Registry) (a b : Progress), m r a = .ok (r', b) →
    ∀ ks, r.Alert ks → r'.Alert (ls ++ updatedFirst X ks)

section

variable {c : Config} {X Y Z : Set Name} {ls ms ks : List (Pattern × Set Name)}
  {m m' m'' : Registry → Analysis Registry}

namespace Minds

/-- Equal steps mind the same. -/
theorem congr (h : Minds X ls m) (hm : ∀ r, m' r = m r) : Minds X ls m' := by rwa [funext hm]

/-- A step that minds some `let`s does so among more of them. -/
theorem mono (h : Minds X ls m) (hX : Y = X) (hls : ls ⊆ ms) : Minds Y ms m := by
  subst hX
  exact ⟨h.updated, fun r r' a b hrun ks hks => (h.alert r r' a b hrun ks hks).mono
    (List.append_subset.2 ⟨List.subset_append_of_subset_left _ hls, List.subset_append_right _ _⟩)⟩

/-- A step in which nothing is updated, and which leaves the kernels as they are. -/
theorem step (f : Registry → Registry) (hkernels : ∀ r, (f r).kernels = r.kernels)
    (hupdated : ∀ r, (f r).updated = r.updated) : Minds ∅ [] fun r => return f r where
  updated r r' a b h x hx := by
    obtain ⟨rfl, rfl⟩ := State.pure_eq_ok.1 h
    rw [hupdated]
    exact hx.resolve_left (Set.notMem_empty x)
  alert r r' a b h ks hks := by
    obtain ⟨rfl, rfl⟩ := State.pure_eq_ok.1 h
    rw [updatedFirst_empty]
    exact Registry.All.of_kernels hks (hkernels r)

/-- A step that does nothing updates nothing. -/
theorem pure : Minds ∅ [] fun r => return r := step id (fun _ => rfl) fun _ => rfl

/-- A step that forbids names updates nothing. -/
theorem forbid (xs : List Name) : Minds ∅ [] fun r => return r.forbid xs :=
    step _ (fun _ => rfl) fun _ => rfl

/-- A step that notes an update updates that array. -/
theorem noteUpdate (y : Name) (xs : List Name) :
    Minds {y} [] fun r => return (r.noteUpdate y).forbid xs where
  updated r r' a b h x hx := by
    obtain ⟨rfl, rfl⟩ := State.pure_eq_ok.1 h
    exact Registry.mem_updated_noteUpdate.2 hx
  alert r r' a b h ks hks := by
    obtain ⟨rfl, rfl⟩ := State.pure_eq_ok.1 h
    exact hks.noteUpdate y

/-- Code in front of other code. -/
theorem seq (h : Minds X ls m) (h' : Minds Y ms m') :
    Minds (Y ∪ X) (ms ++ updatedFirst Y ls) fun r => m r >>= m' where
  updated r r' a b hrun x hx := by
    obtain ⟨r₁, a₁, h₁, h₂⟩ := State.bind_eq_ok.1 hrun
    refine h'.updated _ _ _ _ h₂ x ?_
    rcases hx with (hx | hx) | hx
    · exact .inl hx
    · exact .inr (h.updated _ _ _ _ h₁ x (.inl hx))
    · exact .inr (h.updated _ _ _ _ h₁ x (.inr hx))
  alert r r' a b hrun ks hks := by
    obtain ⟨r₁, a₁, h₁, h₂⟩ := State.bind_eq_ok.1 hrun
    have halert := h'.alert _ _ _ _ h₂ _ (h.alert _ _ _ _ h₁ ks hks)
    rwa [updatedFirst_append, updatedFirst_updatedFirst, ← List.append_assoc] at halert

/-- A region with a scope of its own. -/
theorem region (h : Minds X ls m) (escaping : Registry → List Name) : Minds X ls fun r => do
    let q ← m .empty
    return r.mergeRegion q (escaping q) where
  updated r r' a b hrun x hx := by
    obtain ⟨q, a₁, h₁, h₂⟩ := State.bind_eq_ok.1 hrun
    obtain ⟨rfl, rfl⟩ := State.pure_eq_ok.1 h₂
    exact Registry.mem_updated_mergeRegion.2 (hx.imp_left fun hx =>
      h.updated _ _ _ _ h₁ x (.inl hx))
  alert r r' a b hrun ks hks := by
    obtain ⟨q, a₁, h₁, h₂⟩ := State.bind_eq_ok.1 hrun
    obtain ⟨rfl, rfl⟩ := State.pure_eq_ok.1 h₂
    have hq := h.alert _ _ _ _ h₁ [] Registry.all_empty
    rw [updatedFirst_nil, List.append_nil] at hq
    exact hks.mergeRegion hq (fun x hx => h.updated _ _ _ _ h₁ x (.inl hx)) _

/-- The arms of a conditional, and its condition in front of them. -/
theorem branches (h : Minds X ls m) (h' : Minds Y ms m') (h'' : Minds Z ks m'') :
    Minds (Z ∪ (X ∪ Y)) (ks ++ updatedFirst Z (ls ++ ms)) fun r => m .empty >>= fun yes =>
      m' .empty >>= fun no =>
      m'' (r.mergeRegion (yes.unionBranches no) []) where
  updated r r' a b hrun x hx := by
    obtain ⟨yes, a₁, h₁, hrun⟩ := State.bind_eq_ok.1 hrun
    obtain ⟨no, a₂, h₂, h₃⟩ := State.bind_eq_ok.1 hrun
    refine h''.updated _ _ _ _ h₃ x (or_iff_not_imp_left.2 fun hz =>
      Registry.mem_updated_mergeRegion.2 ?_)
    rcases hx with (hx | hx | hx) | hx
    · exact absurd hx hz
    · exact .inl (mem_joined.2 (.inr (h.updated _ _ _ _ h₁ x (.inl hx))))
    · exact .inl (mem_joined.2 (.inl (h'.updated _ _ _ _ h₂ x (.inl hx))))
    · exact .inr hx
  alert r r' a b hrun ks hks := by
    obtain ⟨yes, a₁, h₁, hrun⟩ := State.bind_eq_ok.1 hrun
    obtain ⟨no, a₂, h₂, h₃⟩ := State.bind_eq_ok.1 hrun
    -- each arm starts without kernels, so it knows of its own updates only
    have hyes := h.alert _ _ _ _ h₁ [] Registry.all_empty
    have hno := h'.alert _ _ _ _ h₂ [] Registry.all_empty
    rw [updatedFirst_nil, List.append_nil] at hyes hno
    have hboth : (yes.unionBranches no).Alert (ls ++ ms) := Registry.All.unionBranches
      (hyes.mono (List.subset_append_left _ _)) (hno.mono (List.subset_append_right _ _))
    -- the code in front sees both arms as one piece
    have hmerged := hks.mergeRegion (X := X ∪ Y) hboth (fun x hx => mem_joined.2 (hx.symm.imp
      (fun hx => h'.updated _ _ _ _ h₂ x (.inl hx)) fun hx => h.updated _ _ _ _ h₁ x (.inl hx))) []
    have halert := h''.alert _ _ _ _ h₃ _ hmerged
    rwa [updatedFirst_append, updatedFirst_updatedFirst, ← List.append_assoc] at halert

end Minds

end

/-! ## Decisions -/

namespace Registry

/-- Noting readers is no update. -/
theorem updated_recordOperands (r : Registry) (ids : List KernelId) (g : Stage) :
    (r.recordOperands ids g).updated = r.updated := by
  unfold recordOperands
  induction g.operands generalizing r with
  | nil => rfl
  | cons a as ih =>
    rw [List.foldl_cons, ih]
    unfold recordOperand
    split
    · dsimp only
      split <;> rfl
    all_goals rfl

/-- A fusion is no update. -/
theorem updated_fused (r : Registry) (o : Origin) (p : Pattern) (g : Stage) (Ks : List Kernel) :
    (r.fused o p g Ks).updated = r.updated := by
  -- fusing a name changes producers and readers only
  have hrecord : ∀ (id : KernelId) (xs : List Name) (q : Registry),
      (xs.foldl (recordFused o id) q).updated = q.updated := by
    intro id xs q
    induction xs generalizing q with
    | nil => rfl
    | cons x xs ih =>
      rw [List.foldl_cons, ih]
      unfold recordFused
      dsimp only
      split <;> rfl
  unfold fused
  rw [updated_recordOperands]
  cases Ks with
  | nil => rfl
  | cons K Ks => exact hrecord K.id p.names r

/-- A new kernel is no update. -/
theorem updated_register (r : Registry) (K : Kernel) : (r.register K).updated = r.updated :=
  updated_recordOperands _ _ _

end Registry

/-- A kernel that takes a stage in stays where it is, and a new one has no updates before it yet. -/
theorem Decided.alert {c : Config} {o : Origin} {p : Pattern} {g : Stage} {r r' : Registry}
    {a b : Progress} {d : Decision} (h : Decided c o p g r a d r' b)
    {ks : List (Pattern × Set Name)} (hks : r.Alert ks) :
    r'.updated = r.updated ∧ (r'.Alert ks ∨ o = .combinator ∧ r'.Alert ((p, ∅) :: ks)) := by
  cases h with
  | fused htried =>
    refine ⟨r.updated_fused o p g _, .inl (Registry.All.fused hks o p g fun K' hK' => ?_)⟩
    obtain ⟨id, -, K, hK, hextends⟩ := Recipe.exists_of_forall₂ htried.extends hK'
    exact (hks id K hK).alike hextends.pattern (hextends.inplace ▸ List.Subset.refl _)
  | stays => exact ⟨rfl, .inl hks⟩
  | registered ho _ _ hK =>
    refine ⟨r.updated_register _, .inr ⟨ho, ?_⟩⟩
    exact Registry.All.register (hks.mono (List.subset_cons_self _ _))
      ⟨_, List.mem_cons_self, (Placed.isNew hK).pattern.symm, nofun⟩

section

variable {c : Config}

/-- A decision about a combinator updates nothing, and its kernel is alert about its own `let`. -/
theorem Minds.place (p : Pattern) (g : Stage) :
    Minds ∅ [(p, ∅)] (ArrayFusion.place c .combinator p g) where
  updated r r' a b h x hx := by
    obtain ⟨d, -, hdecided⟩ := decided_of_place h
    obtain ⟨ks, hks⟩ := r.exists_alert
    rw [(hdecided.alert hks).1]
    exact hx.resolve_left (Set.notMem_empty x)
  alert r r' a b h ks hks := by
    obtain ⟨d, -, hdecided⟩ := decided_of_place h
    rw [updatedFirst_empty]
    rcases (hdecided.alert hks).2 with hks | ⟨-, hks⟩
    · exact hks.mono (List.subset_cons_self _ _)
    · exact hks

/-- No kernel comes from a replicated value. -/
theorem Minds.placeReplicate (site : Option Pattern) (n v : Exp) (s : Span) :
    Minds ∅ [] (ArrayFusion.placeReplicate c site n v s) := by
  -- a replicate updates nothing
  have hsame : ∀ r r' a b, ArrayFusion.placeReplicate c site n v s r a = .ok (r', b) →
      ∀ ks, r.Alert ks → r'.updated = r.updated ∧ r'.Alert ks := by
    intro r r' a b h ks hks
    cases site with
    | none =>
      obtain ⟨rfl, rfl⟩ := State.pure_eq_ok.1 h
      exact ⟨rfl, hks⟩
    | some p =>
      obtain ⟨g, a₁, -, h⟩ := State.bind_eq_ok.1 h
      cases g with
      | none =>
        obtain ⟨rfl, rfl⟩ := State.pure_eq_ok.1 h
        exact ⟨rfl, hks⟩
      | some g =>
        obtain ⟨d, -, hdecided⟩ := decided_of_place h
        exact (hdecided.alert hks).imp_right fun h => h.resolve_right nofun
  refine ⟨fun r r' a b h x hx => ?_, fun r r' a b h ks hks => ?_⟩
  · obtain ⟨ks, hks⟩ := r.exists_alert
    rw [(hsame r r' a b h ks hks).1]
    exact hx.resolve_left (Set.notMem_empty x)
  · rw [updatedFirst_empty]
    exact (hsame r r' a b h ks hks).2

/-- The `let` whose right-hand side is analysed. -/
def here (site : Option Pattern) : List (Pattern × Set Name) := site.toList.map (·, ∅)

/-- A step may have a `let` in front that it says nothing about. -/
theorem Minds.front {X : Set Name} {ls : List (Pattern × Set Name)}
    {m : Registry → Analysis Registry} (h : Minds X ls m) (site : Option Pattern) :
    Minds X (here site ++ ls) m :=
  h.mono rfl (List.subset_append_right _ _)

/-! ## Expressions -/

/-- Two lambdas of a combinator. -/
theorem Minds.beside {X Y : Set Name} {ls ms : List (Pattern × Set Name)}
    {m m' : Registry → Analysis Registry} (h : Minds X ls m) (h' : Minds Y ms m') :
    Minds (X ∪ Y) (ls ++ ms) fun r => m r >>= m' := by
  have hseq := h.seq h'
  rw [Set.union_comm Y X] at hseq
  refine ⟨hseq.updated, fun r r' a b hrun ks hks id K hK => ?_⟩
  obtain ⟨l, hl, hlet, hknown⟩ := hseq.alert r r' a b hrun ks hks id K hK
  rcases List.mem_append.1 hl with hl | hl
  · rcases List.mem_append.1 hl with hl | hl
    · exact ⟨l, List.mem_append_left _ (List.mem_append_right _ hl), hlet, hknown⟩
    · obtain ⟨l', hl', rfl⟩ := List.mem_map.1 hl
      exact ⟨l', List.mem_append_left _ (List.mem_append_left _ hl'), hlet, fun x hx =>
        hknown x (.inr hx)⟩
  · exact ⟨l, List.mem_append_right _ hl, hlet, hknown⟩

/-- Nothing is updated in an operand that reads the transposition of an array. -/
theorem updated_transposed {e : Exp} {s : Span} (h : (Exp.unary .transpose e s).IsOperand) :
    e.updated = ∅ ∧ e.updatedBefore = [] := by
  obtain ⟨x, s, rfl⟩ : ∃ x s, e = .var x s := by
    rcases Exp.isOperand_iff.1 h with ⟨_, _, h, -⟩ | ⟨_, _, _, h⟩ | ⟨x, s, _, h, -⟩ |
      ⟨_, _, h⟩ <;> cases h
    exact ⟨x, s, rfl⟩
  exact ⟨rfl, rfl⟩

/-- The analysis of what stands in a combinator. -/
def Combinator.analyseParts (c : Config) (args : List Exp) (op : Combinator) (r : Registry) :
    Analysis Registry :=
  op.analyseLambdas c r >>= fun r => Exp.analyseOperands c r args >>= op.analyseNeutral c

/-- A combinator is analysed by its parts, and then something is decided about it. -/
theorem Combinator.analyseParts_eq_ok {op : Combinator} {args : List Exp} {certs : Certificates}
    {s : Span} {p : Pattern} {r r' : Registry} {a b : Progress}
    (h : (Exp.soac op args certs s).analyse c (some p) r a = .ok (r', b)) :
    ∃ g, Stage.ofExp? (.soac op args certs s) = .ok (some g)
      ∧ (op.analyseParts c args r >>= ArrayFusion.place c .combinator p g) a = .ok (r', b) := by
  obtain ⟨g, hg, -, h⟩ := Exp.analyse_soac_eq_ok h
  exact ⟨g, hg, by simpa only [Combinator.analyseParts, bind_assoc] using h⟩

/-- The arguments of a combinator that is read as a stage are operands. -/
theorem Stage.operands_of_ofExp? {op : Combinator} {args : List Exp} {certs : Certificates}
    {s : Span} {g : Stage} (h : Stage.ofExp? (.soac op args certs s) = .ok (some g)) :
    ∀ e ∈ args, e.IsOperand := by
  intro e he
  obtain ⟨as, has, -⟩ := Stage.ofExp?_eq_ok h
  obtain ⟨a, -, ha⟩ := Recipe.exists_of_forall₂ has.flip he
  exact Option.isSome_iff_exists.2 ⟨a, ha⟩

/-- The neutral elements come first and the lambdas last, and they are analysed the other way
round. -/
theorem Minds.parts {op : Combinator} {args : List Exp}
    (hlambdas : Minds {x | ∃ f ∈ op.lambdas, x ∈ f.updated}
    (op.lambdas.flatMap Lambda.updatedBefore) fun r => op.analyseLambdas c r)
    (hoperands : Minds (Exp.updatedAll args) (Exp.updatedBeforeAll args) fun r =>
    Exp.analyseOperands c r args)
    (hneutral : Minds (Exp.updatedAll op.neutral) (Exp.updatedBeforeAll op.neutral) fun r =>
    op.analyseNeutral c r)
    (certs : Certificates) (s : Span) : Minds (Exp.soac op args certs s).updated
      (Exp.soac op args certs s).updatedBefore (op.analyseParts c args) := by
  refine (hlambdas.seq (hoperands.seq hneutral)).mono ?_ ?_
  · rw [Exp.updated, op.updated_eq]
    exact Set.union_right_comm _ _ _
  · rw [Exp.updatedBefore, op.updatedBefore_eq, updatedFirst_updatedFirst,
      List.append_assoc _ (Exp.updatedBeforeAll _)]
    exact List.perm_append_comm.subset

mutual

/-- Behind the analysis of an expression, every kernel knows of the updates in the expression before
its `let`. -/
theorem Exp.minds : ∀ (e : Exp) (site : Option Pattern),
    Minds e.updated (here site ++ e.updatedBefore) fun r => e.analyse c site r
  | .lit _ _, site => Minds.pure.front site
  | .var x _, site => ((Minds.step (fun r => if x.isArray then r.forbid [x.name] else r)
      (fun r => by split <;> rfl) fun r => by split <;> rfl).congr fun r => by
        rw [Exp.analyse]).front site
  | .tuple es _, site => ((Exp.mindsAll es).congr fun r => by rw [Exp.analyse]).front site
  | .array es _ _, site => ((Exp.mindsAll es).congr fun r => by rw [Exp.analyse]).front site
  | .call _ es _ _, site => ((Exp.mindsAll es).congr fun r => by rw [Exp.analyse]).front site
  | .unary _ e _, site => ((e.minds none).congr fun r => by rw [Exp.analyse]).front site
  | .binary _ a b _ _, site => (((b.minds none).seq (a.minds none)).congr fun r =>
      by rw [Exp.analyse]).front site
  | .cond e a b _ _, site => (((a.minds none).branches (b.minds none) (e.minds none)).congr
        fun r => by
      rw [Exp.analyse]).front site
  | .letIn p e b _, site => (((b.minds none).seq (e.minds (some p))).congr fun r =>
      by rw [Exp.analyse]).front site
  | .update x y is v b _, site =>
    ((((b.minds none).seq ((Minds.noteUpdate y.name [y.name, x.name]).seq
      ((v.minds none).seq (Exp.mindsAll is)))).congr fun r => by
        simp only [Exp.analyse, pure_bind]).mono (by
          ext z
          simp [Exp.updated]
          tauto) (by simp [Exp.updatedBefore, here])).front site
  | .index x is _, site => ((((Minds.forbid [x.name]).seq (Exp.mindsAll is)).congr fun r => by
      simp only [Exp.analyse, pure_bind]).mono (Set.union_empty _).symm
        (by simp [Exp.updatedBefore])).front site
  | .replicate n v s, site =>
    ((((Minds.placeReplicate site n v s).seq ((v.minds none).seq (n.minds none))).congr fun r =>
      Exp.analyse_replicate c site r n v s).mono (Set.union_empty _).symm (by
        simp [Exp.updatedBefore, here])).front site
  | .loop p is i n b e _, site =>
    ((((e.minds none).seq (((b.minds none).region fun q => q.consumers.keys).seq
      ((n.minds none).seq (Exp.mindsAll is)))).congr fun r => by
        simp only [Exp.analyse, bind_assoc, pure_bind]).mono
            (by simp [Exp.updated, Set.union_assoc]) (by
          simp [Exp.updatedBefore, here, Set.union_assoc])).front site
  | .soac op args certs s, none => ⟨fun _ _ _ _ h => (nomatch h), fun _ _ _ _ h => (nomatch h)⟩
  | .soac op args certs s, some p => by
    have hminds : ∀ g : Stage, (∀ e ∈ args, e.IsOperand) → Minds (Exp.soac op args certs s).updated
        (here (some p) ++ (Exp.soac op args certs s).updatedBefore) fun r =>
          op.analyseParts c args r >>= ArrayFusion.place c .combinator p g := fun g hargs =>
      ((Minds.parts op.mindsLambdas (Exp.mindsOperands args hargs) op.mindsNeutral certs s).seq
        (.place p g)).mono (Set.empty_union _).symm
          (by rw [updatedFirst_empty]; exact List.Subset.refl _)
    refine ⟨fun r r' a b h => ?_, fun r r' a b h => ?_⟩
    all_goals obtain ⟨g, hg, h⟩ := Combinator.analyseParts_eq_ok h
    · exact (hminds g (Stage.operands_of_ofExp? hg)).updated r r' a b h
    · exact (hminds g (Stage.operands_of_ofExp? hg)).alert r r' a b h

/-- The analysis of a list of expressions minds what is updated in front of its `let`s. -/
theorem Exp.mindsAll : ∀ es : List Exp,
    Minds (Exp.updatedAll es) (Exp.updatedBeforeAll es) fun r => Exp.analyseAll c r es
  | [] => .pure
  | e :: es => ((Exp.mindsAll es).seq (e.minds none)).congr fun r => by rw [Exp.analyseAll]

/-- So does the analysis of what the operands compute. -/
theorem Exp.mindsOperands : ∀ es : List Exp, (∀ e ∈ es, e.IsOperand) →
    Minds (Exp.updatedAll es) (Exp.updatedBeforeAll es) fun r => Exp.analyseOperands c r es
  | [], _ => .pure
  | .index y is s :: es, h => ((Exp.mindsOperands es fun e he =>
    h e (List.mem_cons_of_mem _ he)).seq
      (Exp.mindsAll is)).congr fun r => by rw [Exp.analyseOperands]
  | .unary .iota n s :: es, h => ((Exp.mindsOperands es fun e he =>
    h e (List.mem_cons_of_mem _ he)).seq (n.minds none)).congr fun r => by rw [Exp.analyseOperands]
  | .var x s :: es, h => (((Exp.mindsOperands es fun e he =>
    h e (List.mem_cons_of_mem _ he)).seq .pure).congr
      fun r => by rw [Exp.analyseOperands]).mono (by simp [Exp.updatedAll, Exp.updated]) (by
        simp [Exp.updatedBeforeAll, Exp.updatedBefore, Exp.updated])
  | .unary .transpose e s :: es, h => (((Exp.mindsOperands es fun e he =>
      h e (List.mem_cons_of_mem _ he)).seq
      .pure).congr fun r => by rw [Exp.analyseOperands]).mono (by
        simp [Exp.updatedAll, Exp.updated, updated_transposed (h _ List.mem_cons_self)]) (by
        simp [Exp.updatedBeforeAll, Exp.updatedBefore, Exp.updated,
          updated_transposed (h _ List.mem_cons_self)])
  | .unary .not _ _ :: es, h | .unary .negate _ _ :: es, h | .unary .size _ _ :: es,
      h | .lit .. :: es, h
  | .tuple .. :: es, h | .array .. :: es, h | .binary .. :: es, h | .cond .. :: es,
      h | .call .. :: es, h
  | .letIn .. :: es, h | .update .. :: es, h | .replicate .. :: es, h | .loop .. :: es,
      h | .soac .. :: es, h =>
    absurd (h _ List.mem_cons_self) (by simp [Exp.isOperand_iff])

/-- So does the analysis of a lambda. -/
theorem Lambda.minds : ∀ f : Lambda, Minds f.updated f.updatedBefore fun r => f.analyse c r
  | ⟨ps, b, ts⟩ => ((b.minds none).region
      fun q => q.consumers.keys ++ Lambda.freeArrays ⟨ps, b, ts⟩).congr fun r =>
        by rw [Lambda.analyse]

/-- So does the analysis of the lambdas of a combinator. -/
theorem Combinator.mindsLambdas : ∀ op : Combinator, Minds {x | ∃ f ∈ op.lambdas, x ∈ f.updated}
    (op.lambdas.flatMap Lambda.updatedBefore) fun r => op.analyseLambdas c r
  | .map f | .reduce f _ | .scan f _ | .filter f => (f.minds.congr fun r => by
      rw [Combinator.analyseLambdas]).mono (by simp [Combinator.lambdas]) (by
        simp [Combinator.lambdas])
  | .redomap f g _ => ((f.minds.beside g.minds).congr fun r => by
      rw [Combinator.analyseLambdas]).mono (by ext x; simp [Combinator.lambdas]) (by
        simp [Combinator.lambdas])

/-- So does the analysis of its neutral elements. -/
theorem Combinator.mindsNeutral : ∀ op : Combinator, Minds (Exp.updatedAll op.neutral)
    (Exp.updatedBeforeAll op.neutral) fun r => op.analyseNeutral c r
  | .map _ | .filter _ => Minds.pure.congr fun r => by rw [Combinator.analyseNeutral]
  | .reduce _ ne | .scan _ ne | .redomap _ _ ne =>
    (Exp.mindsAll ne).congr fun r => by rw [Combinator.analyseNeutral]

end

end

/-! ## Fusion over updates -/

namespace Call

variable {c : Config} {j k : Call}

/-- The code of a call that is made among expressions is one of these. -/
theorem Among.mem {es : List Exp} {r : Registry} {a : Progress} (h : Among c es r a k) :
    k.code ∈ es := by
  obtain ⟨-, es₁, es₂, rfl, -⟩ := h
  exact List.mem_append_right _ List.mem_cons_self

/-- The code that is analysed by a call that another one makes stands in the code of that one. -/
theorem Makes.contains (h : Makes c j k) : j.code.Contains k.code := by
  cases h with
  | tuple hk | array hk | arguments hk | index hk | place _ _ hk | initial _ _ _ hk
  | neutral _ _ _ _ hk =>
    exact .single ⟨[], by simp [Exp.parts, hk.mem]⟩
  | @lambda p op _ _ _ _ _ _ f fs _ hfs => exact .single ⟨f.params, by simp [Exp.parts, hfs]⟩
  | @inner p outer f => exact .single ⟨f.params, by simp [Exp.parts, Combinator.lambdas]⟩
  | @row p op _ cs s _ _ _ _ _ es₁ x is t es₂ _ _ _ _ _ _ hargs _ hk =>
    have harg : (Exp.soac op (es₁ ++ .index x is t :: es₂) cs s).Contains (.index x is t) :=
      .single ⟨[], by simp [Exp.parts]⟩
    exact hargs ▸ harg.tail ⟨[], by simp [Exp.parts, hk.mem]⟩
  | @range p op _ cs s _ _ _ _ _ es₁ n t es₂ _ _ _ _ _ hargs =>
    have harg : (Exp.soac op (es₁ ++ .unary .iota n t :: es₂) cs s).Contains (.unary .iota n t) :=
      .single ⟨[], by simp [Exp.parts]⟩
    exact hargs ▸ harg.tail ⟨[], by simp [Exp.parts]⟩
  | _ => exact .single (by simp [Exp.parts, exists_or])

end Call

/-- A part of code with distinct binders has distinct binders. -/
theorem Exp.Contains.nodup_binders {d e : Exp} (h : d.Contains e) (hd : d.binders.Nodup) :
    e.binders.Nodup := by
  induction h with
  | refl => exact hd
  | tail _ hpart ih =>
    obtain ⟨p, hp⟩ := hpart
    exact (List.nodup_append.1 (Exp.nodup_part ih hp)).2.1

/-- The code of every call stands in the function. -/
theorem FunDef.Calls.within {c : Config} {f : FunDef} {k : Call} (h : f.Calls c k) :
    k.code.Within f := by
  induction h with
  | refl => exact .refl
  | tail _ hmakes ih => exact ih.trans hmakes.contains

/-- Where a `let` is decided about, the kernel of a `let` in its scope knows of all that is updated
between the two. -/
theorem Kernel.Alert.knows {K : Kernel} {p : Pattern} {e b : Exp} {s : Span}
    {ks : List (Pattern × Set Name)} (hK : K.Alert
    (e.updatedBefore ++ updatedFirst e.updated (b.updatedBefore ++ updatedFirst b.updated ks)))
    (hnodup : (Exp.letIn p e b s).binders.Nodup) {us : Set Name}
    (hlet : (K.pattern, us) ∈ b.updatedBefore) (hne : K.pattern ≠ []) :
    ∀ x ∈ us, x ∈ K.inplace := by
  obtain ⟨-, hb, hapart⟩ := List.nodup_append.1 hnodup
  obtain ⟨l, hl, heq, hknown⟩ := hK
  rcases List.mem_append.1 hl with hl | hl
  · -- no `let` of the right-hand side binds the same names as one of the body
    obtain ⟨x, hx⟩ := List.exists_mem_of_ne_nil _ (mt List.map_eq_nil_iff.1 hne)
    exact absurd rfl (hapart x (List.mem_append_right _
      (Exp.binders_of_updatedBefore hl x (heq ▸ hx))) x
      (Exp.binders_of_updatedBefore hlet x hx))
  obtain ⟨m, hm, rfl⟩ := List.mem_map.1 hl
  rcases List.mem_append.1 hm with hm | hm
  · cases Exp.updatedBefore_unique hb hm hlet heq (heq ▸ hne)
    exact fun x hx => hknown x (.inr hx)
  · obtain ⟨m, -, rfl⟩ := List.mem_map.1 hm
    exact fun x hx => hknown x (.inr (.inl (b.subset_updated _ hlet hx)))

/-- A stage goes into kernels that know of no update of what it reads. -/
theorem Decided.exists_kernel {c : Config} {p : Pattern} {g : Stage} {r r' : Registry}
    {a b : Progress} {d : Decision} {m n : Nat} (h : Decided c .combinator p g r a d r' b)
    (hr : r.Numbered m n) :
    d.names = p.names ∧ ∀ id ∈ d.into, ∃ K K', r.kernels.find? id = some K
      ∧ r'.kernels.find? id = some K'
      ∧ Kernel.Extends p.names g K K' ∧ ∀ x ∈ g.reads, x ∉ K.inplace := by
  cases h with
  | stays ho => cases ho
  | registered => exact ⟨rfl, nofun⟩
  | fused htried =>
    refine ⟨rfl, fun id hid => ?_⟩
    -- the kernels of the decision are those that read the names
    replace hid : id ∈ r.candidates p.names := htried.ids hr ▸ hid
    obtain ⟨K, K', hK, hK', hextends⟩ := (htried.find?_fused hr).1 id hid
    obtain ⟨Ks, hKs, -, hhazard, -⟩ := htried.compatible
    obtain ⟨L, hL, hfind⟩ := Recipe.exists_of_forall₂ (Registry.mem_of_mapM_kernel hKs).flip hid
    cases hfind.symm.trans hK
    exact ⟨K, K', hK, hK', hextends, hhazard K hL⟩

/-- Fusion moves no read over an update in the body of its `let`: if the binders of a function are
all different, then a kernel that takes in what a `let` computes stands for no `let` of the body
such that an array that the stage reads is updated in the body before that.  The updates in the
`let` of the kernel itself are not among those. -/
theorem FunDef.safe_of_calls {c : Config} {f : FunDef} (hbinders : f.binders.Nodup) {k : Call}
    (hk : f.Calls c k) {p : Pattern} {e b : Exp} {s : Span} (hcode : k.code = .letIn p e b s)
    {g : Stage} (hg : Stage.ofExp? e = .ok (some g)) {r : Registry} {a : Progress}
    (hrun : k.run c = .ok (r, a)) :
    ∃ ds d, a.decisions = ds ++ [d] ∧ d.names = p.names ∧ ∀ id ∈ d.into, ∃ K,
      r.kernels.find? id = some K
      ∧ (∀ x ∈ p.names, x ∈ K.fused) ∧ ∀ us, (K.pattern, us) ∈ b.updatedBefore → K.pattern ≠ [] →
        ∀ x ∈ g.reads, x ∉ us := by
  have hnodup : (Exp.letIn p e b s).binders.Nodup :=
    hcode ▸ hk.within.nodup_binders (List.nodup_append.1 hbinders).2.1
  rw [Call.run, hcode] at hrun
  obtain ⟨r₁, a₁, hbody, hrhs⟩ := State.bind_eq_ok.1 hrun
  cases e with
  | soac op args certs span =>
    obtain ⟨g', hg', hrhs⟩ := Combinator.analyseParts_eq_ok hrhs
    cases hg.symm.trans hg'
    obtain ⟨r₂, a₂, hparts, hplace⟩ := State.bind_eq_ok.1 hrhs
    obtain ⟨d, hd, hdecided⟩ := decided_of_place hplace
    -- what the kernels know just before the decision
    obtain ⟨ks, hks⟩ := k.registry.exists_alert
    have halert := (Minds.parts (c := c) op.mindsLambdas
      (Exp.mindsOperands args (Stage.operands_of_ofExp? hg)) op.mindsNeutral certs span).alert _ _ _
        _ hparts _ ((b.minds none).alert _ _ _ _ hbody ks hks)
    -- the numbers of the kernels are in order, as those before the call are
    obtain ⟨l, -, hcourse⟩ := Exp.analyse_course hbody
    obtain ⟨l', -, hcourse'⟩ := (op.followsLambdas.seq
      ((Exp.followsOperands args).seq op.followsNeutral)) _ _ _ _ hparts
    obtain ⟨hnames, hinto⟩ := hdecided.exists_kernel
      ((hcourse.append hcourse').ordered hk.ordered).2
    refine ⟨_, d, hd, hnames, fun id hid => ?_⟩
    obtain ⟨K, K', hK, hK', hextends, hsafe⟩ := hinto id hid
    refine ⟨K', hK', fun x hx => hextends.fused ▸ List.mem_append_right _ hx,
      fun us hlet hne x hx hus => ?_⟩
    rw [hextends.pattern] at hlet hne
    exact hsafe x hx ((halert id K hK).knows hnodup hlet hne x hus)
  | _ => cases hg

/-- A map that negates each number, behind another one and an update of an array that this one does
not read. -/
def negatedOverUpdate : FunDef :=
  let array (base : String) (tag : Nat) : Ident := ⟨⟨base, tag⟩, .array .int⟩
  let negate (base : String) (tag : Nat) : Lambda :=
    ⟨[⟨⟨base, tag⟩, .int⟩], .unary .negate (.ofIdent ⟨⟨base, tag⟩, .int⟩) .dummy, [.int]⟩
  ⟨"f", [array "xs" 0, array "zs" 1], .tuple [.array .int, .array .int],
    .bind [array "ys" 2] (.soac (.map (negate "x" 3)) [.ofIdent (array "xs" 0)] [] .dummy)
      (.update (array "ws" 4) (array "zs" 1) [.lit (.int 0) .dummy] (.lit (.int 1) .dummy)
        (.bind [array "vs" 5] (.soac (.map (negate "y" 6)) [.ofIdent (array "ys" 2)] [] .dummy)
          (.tuple [.ofIdent (array "ws" 4), .ofIdent (array "vs" 5)] .dummy)) .dummy), .dummy⟩

theorem FunDef.safe_of_calls_negatedOverUpdate : negatedOverUpdate.binders.Nodup
    ∧ ∃ p e b s g, negatedOverUpdate.call.code = .letIn p e b s ∧ Stage.ofExp? e = .ok (some g)
      ∧ ⟨"xs", 0⟩ ∈ g.reads ∧ ∃ r a, negatedOverUpdate.call.run Config.default = .ok (r, a)
      ∧ ∃ K, r.kernels.find? ⟨0⟩ = some K ∧ ⟨"ys", 2⟩ ∈ K.fused ∧ K.pattern ≠ []
      ∧ ∃ us, (K.pattern, us) ∈ b.updatedBefore ∧ ⟨"zs", 1⟩ ∈ us ∧ ∀ x ∈ g.reads, x ∉ us := by
  have hbinders : negatedOverUpdate.binders.Nodup := by decide
  -- the update stands between the stage and the kernel of a `let` that does not read it
  have hrun : (negatedOverUpdate.call.run Config.default).toOption.any (fun p =>
      p.2.decisions.getLast? == some (.fused [⟨"ys", 2⟩] .map [⟨0⟩])
        && (p.1.kernels.find? ⟨0⟩).any (·.pattern == [⟨⟨"vs", 5⟩, .array .int⟩])) = true :=
          by decide +kernel
  obtain ⟨⟨r, a⟩, h, hrun⟩ := Except.exists_of_any hrun
  obtain ⟨hlast, hpattern⟩ := Bool.and_eq_true_iff.1 hrun
  obtain ⟨ds, d, hd, -, hinto⟩ := FunDef.safe_of_calls hbinders .refl rfl rfl h
  have hdecision : d = .fused [⟨"ys", 2⟩] .map [⟨0⟩] := by
    rw [hd, List.getLast?_concat] at hlast
    exact Option.some.inj (beq_iff_eq.1 hlast)
  subst hdecision
  obtain ⟨K, hK, hfused, hsafe⟩ := hinto ⟨0⟩ List.mem_cons_self
  have hvs : K.pattern = [⟨⟨"vs", 5⟩, .array .int⟩] := by
    rw [hK] at hpattern
    exact beq_iff_eq.1 hpattern
  refine ⟨hbinders, _, _, _, _, _, rfl, rfl, by
    decide, r, a, h, K, hK, hfused _ List.mem_cons_self, by simp [hvs],
    {⟨"zs", 1⟩}, ?hlet, rfl, hsafe _ ?hlet (by simp [hvs])⟩
  simp [hvs, Exp.bind, Exp.ofIdent, Exp.updatedBefore, Exp.updatedBeforeAll, Exp.updated,
    Exp.updatedAll,
    Combinator.updatedBefore, Lambda.updatedBefore, Combinator.updated, Lambda.updated,
      updatedFirst]

end ArrayFusion
