import ArrayFusion.Proofs.Sharing
import ArrayFusion.Proofs.Shown

/-!
# The log and the registry

The log of an analysis says what was decided about each choice, and the registry says which kernel
each name belongs to.  The two agree after every step (`Course.accounts`): a combinator that was
fused has its names in a kernel with something fused into it, one that was kept has a kernel of its
own, and every kernel that is registered for the names of a choice retains all `let`s that the
choice shows and has its certificates.
-/

namespace ArrayFusion

/-! ## Names are handed out once -/

/-- A decision gives no name back. -/
theorem Decided.count_le {c : Config} {o : Origin} {p : Pattern} {g : Stage} {r r' : Registry}
    {a b : Progress} {d : Decision} (h : Decided c o p g r a d r' b) :
    a.names.count ≤ b.names.count := by
  cases h with
  | fused htried =>
    obtain ⟨_, -, -, -, hinto⟩ := htried.compatible
    exact hinto.takes.1
  | stays _ htry => exact (Registry.grows_tryFuse _ _ _ _ _ _).of_ok htry
  | @registered _ s _ _ _ htry _ hK =>
    refine Nat.le_trans ((Registry.grows_tryFuse _ _ _ _ _ _).of_ok htry) ?_
    rcases hK with ⟨-, -, hnames⟩ | ⟨-, hpull⟩
    · rw [hnames]
    · have hle := (Kernel.new ⟨a.nextKernel⟩ g p).count_le_pullTransposes s
      rwa [hpull] at hle

/-- A course gives no name back. -/
theorem Course.count_le {c : Config} {l : Log} {r r' : Registry} {a b : Progress}
    (h : Course c l r a r' b) : a.names.count ≤ b.names.count := by
  induction h with
  | nil | forbid | noteUpdate => exact Nat.le_refl _
  | append _ _ ih ih' => exact Nat.le_trans ih ih'
  | meet _ _ _ _ ih => exact ih
  | place _ _ hle _ _ hdecided => exact Nat.le_trans hle hdecided.count_le

/-! ## What becomes of kernels -/

variable {c : Config} {N H : Set Name}

/-- The kernel computes the names of its `let` itself, and besides them only names of `N`. -/
structure Kernel.Straight (N : Set Name) (K : Kernel) : Prop where
  transforms : K.transforms = []
  binds : ∀ x ∈ K.pattern.names, x ∈ Pattern.names K.outputs
  outputs : ∀ x ∈ Pattern.names K.outputs, x ∈ K.pattern.names ∨ x ∈ N

/-- The parameters of the kernel belong to `N`, and as long as no transposition is taken out of
kernels it is straight. -/
structure Kernel.Regular (c : Config) (N : Set Name) (K : Kernel) : Prop where
  stage : K.stage.Over N fun _ => True
  straight : c.transposePull = false → K.Straight N

/-- The kernel `K'` is what `K` has become: it stands for the same `let`, nothing was taken out of
it again, and it shows all that it showed. -/
structure Kernel.Becomes (H : Set Name) (K K' : Kernel) : Prop where
  id : K'.id = K.id
  pattern : K'.pattern = K.pattern
  isFused : K.isFused = true → K'.isFused = true
  shown : K.stage.toExp.shown H ⊆ K'.stage.toExp.shown H
  certs : ∀ x ∈ K.stage.certs.names, x ∈ K'.stage.certs.names

/-- The kernel retains whatever the expression shows, and it has the certificates of the
expression. -/
structure Kernel.Holds (c : Config) (N H : Set Name) (e : Exp) (K : Kernel) : Prop where
  shown : Retains c N (e.shown H) (K.stage.toExp.shown H)
  certs : ∀ x ∈ e.certs.names, x ∈ K.stage.certs.names

/-- A kernel becomes itself. -/
theorem Kernel.Becomes.refl (K : Kernel) : K.Becomes H K :=
  ⟨rfl, rfl, fun h => h, subset_rfl, fun _ h => h⟩

/-- A kernel becomes the one that has noted an update. -/
theorem Kernel.Becomes.noteUpdate (x : Name) (K : Kernel) : K.Becomes H (K.noteUpdate x) where
  id := K.id_noteUpdate x
  pattern := K.pattern_noteUpdate x
  isFused := fun h => by
    unfold Kernel.isFused
    rwa [K.fused_noteUpdate]
  shown := by rw [K.stage_noteUpdate]
  certs := by
    rw [K.stage_noteUpdate]
    exact fun _ h => h

/-- What a kernel holds is held by what the kernel becomes. -/
theorem Kernel.Holds.becomes {e : Exp} {K K' : Kernel} (h : K.Holds c N H e) (hK : K.Becomes H K') :
    K'.Holds c N H e where
  shown := h.shown.mono subset_rfl hK.shown
  certs := fun x hx => hK.certs x (h.certs x hx)

/-- A regular kernel that has noted an update is regular. -/
theorem Kernel.Regular.noteUpdate {K : Kernel} (h : K.Regular c N) (x : Name) :
    (K.noteUpdate x).Regular c N := by
  obtain ⟨hover, hstraight⟩ := h
  unfold Kernel.noteUpdate
  split
  · exact ⟨hover, hstraight⟩
  · exact ⟨hover, fun hc => ⟨(hstraight hc).transforms, (hstraight hc).binds,
      (hstraight hc).outputs⟩⟩

section

variable (hN : ∀ x ∈ N, x ∉ H)

include hN

/-- A kernel with a stage fused into it. -/
theorem Producer.becomes_fuseInto {p : Producer} {K K' : Kernel} {s s' : NameSupply}
    (h : p.fuseInto K s = .ok (some K', s')) (hs : s.until s' ⊆ N)
    (hp : p.stage.Over N fun _ => True) (hK : K.Regular c N) :
    (K'.Regular c N ∧ K.Becomes H K' ∧ K'.fused = K.fused ++ p.names)
      ∧ K'.Holds c N H p.stage.toExp := by
  -- what either of the two shows is shown by the composition, and the certificates are united
  obtain ⟨hstage, hkernel⟩ := Producer.shown_fuseInto h (fun x hx => hN x (hs hx))
    fun x hx => hN x (hK.stage.params x hx)
  have hcerts := fun x => Producer.certs_fuseInto (x := x) h
  have hover := Producer.over_fuseInto (fun _ _ => trivial) h hs hp hK.stage
  obtain ⟨-, -, op, operands, outputs, hcomposed, rfl, -⟩ := Producer.fuseInto_eq_ok h
  -- the outputs are those of the kernel, and fresh ones behind them
  obtain ⟨unused, rfl, -, hunused⟩ := hcomposed.outputs
  refine ⟨⟨⟨hover, fun hc => ⟨(hK.straight hc).transforms, fun x hx => ?_, fun x hx => ?_⟩⟩,
    ⟨rfl, rfl, fun hfused => ?_, hkernel, fun x hx => (hcerts x).2 (.inr hx)⟩, rfl⟩,
    .of_subset hstage, fun x hx => (hcerts x).2 (.inl hx)⟩
  · rw [Pattern.names_append]
    exact List.mem_append_left _ ((hK.straight hc).binds x hx)
  · rw [Pattern.names_append, List.mem_append] at hx
    refine hx.elim ((hK.straight hc).outputs x) fun hx => ?_
    exact .inr (hs (NameSupply.until_subset (K.stage.count_le_asRedomap s) (Nat.le_refl _)
      (hunused x hx)))
  · unfold Kernel.isFused at hfused ⊢
    rw [Bool.not_eq_true', List.isEmpty_eq_false_iff] at hfused ⊢
    exact mt (fun h => (List.append_eq_nil_iff.1 h).1) hfused

namespace Registry

variable {r : Registry} {g : Stage} {s s' : NameSupply} {Ks Ks' : List Kernel}
  (hs : s.until s' ⊆ N) (hg : g.Over N fun _ => True)

include hs hg

/-- Kernels into which a stage is fused stay regular, become what comes out, and hold the names of
the outputs; the first one holds the stage, too. -/
theorem FusedInto.becomes {outs : List Ident} {first : Bool}
    (h : r.FusedInto g outs first Ks s Ks' s') (hKs : ∀ K ∈ Ks, K.Regular c N) :
    List.Forall₂ (fun K K' => K'.Regular c N ∧ K.Becomes H K'
        ∧ K'.fused = K.fused ++ Pattern.names outs) Ks Ks'
      ∧ (first = true → ∀ K' ∈ Ks'.head?, K'.Holds c N H g.toExp) := by
  induction h with
  | nil => exact ⟨.nil, nofun⟩
  | first hK hrest ih =>
    obtain ⟨hhead, htail⟩ := List.forall_mem_cons.1 hKs
    -- each kernel takes its own part of the fresh names
    have hle := Producer.count_le_fuseInto hK
    obtain ⟨hbecomes, hholds⟩ := Producer.becomes_fuseInto hN hK
      ((NameSupply.until_subset (Nat.le_refl _) hrest.takes.1).trans hs) hg hhead
    obtain ⟨hall, -⟩ := ih ((NameSupply.until_subset hle (Nat.le_refl _)).trans hs) htail
    refine ⟨.cons hbecomes hall, fun _ K' hK' => ?_⟩
    cases hK'
    exact hholds
  | copy hcopy hK hrest ih =>
    -- the `let`s of a copy bind other names, so nothing is said of what it shows
    obtain ⟨hhead, htail⟩ := List.forall_mem_cons.1 hKs
    have hle := count_le_copyOf hcopy
    have hle' := Producer.count_le_fuseInto hK
    have hover := over_copyOf (fun _ _ => trivial) hcopy
      ((NameSupply.until_subset (Nat.le_refl _) (Nat.le_trans hle' hrest.takes.1)).trans hs) hg
    obtain ⟨hbecomes, -⟩ := Producer.becomes_fuseInto hN hK
      ((NameSupply.until_subset hle hrest.takes.1).trans hs) hover hhead
    obtain ⟨hall, -⟩ := ih
      ((NameSupply.until_subset (Nat.le_trans hle hle') (Nat.le_refl _)).trans hs) htail
    exact ⟨.cons hbecomes hall, nofun⟩

/-- Each kernel with the stage fused into it is one that was there, and the first one holds the
stage. -/
theorem TriedFusion.becomes {c' : Config} {o : Origin} {p : Pattern} {m n : Nat}
    (h : r.TriedFusion c' o p g s Ks' s') (hr : r.All (Kernel.Regular c N)) (hn : r.Numbered m n) :
    (∀ K' ∈ Ks', ∃ K, r.kernels.find? K'.id = some K ∧ K'.Regular c N ∧ K.Becomes H K'
        ∧ K'.isFused = true)
      ∧ ∀ K' ∈ Ks'.head?, K'.Holds c N H g.toExp := by
  obtain ⟨Ks, hKs, -, -, hinto⟩ := h.compatible
  have hfound := mem_of_mapM_kernel hKs
  obtain ⟨hall, hfirst⟩ := hinto.becomes hN hs hg fun K hK => by
    obtain ⟨id, -, hid⟩ := Recipe.exists_of_forall₂ hfound hK
    exact hr id K hid
  -- nothing would read the results if there were none
  have hne : p.names ≠ [] := fun hnil => by
    obtain ⟨id, hid⟩ := List.exists_mem_of_ne_nil _ h.candidates
    obtain ⟨x, hx, -⟩ := mem_candidates.1 hid
    rw [hnil] at hx
    cases hx
  refine ⟨fun K' hK' => ?_, hfirst rfl⟩
  obtain ⟨K, hK, hregular, hbecomes, hfused⟩ := Recipe.exists_of_forall₂ hall hK'
  obtain ⟨id, -, hid⟩ := Recipe.exists_of_forall₂ hfound hK
  refine ⟨K, ?_, hregular, hbecomes, ?_⟩
  · rwa [hbecomes.id, (hn id K hid).1]
  · unfold Kernel.isFused
    rw [Bool.not_eq_true', List.isEmpty_eq_false_iff, hfused]
    exact mt (fun h => (List.append_eq_nil_iff.1 h).2) hne

end Registry

end

/-! ## From one registry to the next -/

namespace Registry

/-- The registry `r'` comes from `r` by steps that change the producers of names of `X` only. -/
structure Onward (H X : Set Name) (r r' : Registry) : Prop where
  kernels : ∀ id K, r.kernels.find? id = some K →
    ∃ K', r'.kernels.find? id = some K' ∧ K.Becomes H K'
  producers : ∀ x ∉ X, r'.producerOf x = r.producerOf x
  succeeded : r.succeeded = true → r'.succeeded = true

variable {X : Set Name} {r r' q : Registry} {m n k : Nat}

/-- Registries go on when an update is noted. -/
theorem onward_noteUpdate (r : Registry) (x : Name) : Onward H X r (r.noteUpdate x) where
  kernels := fun id K hK => ⟨K.noteUpdate x, by rw [find?_noteUpdate, hK]; rfl, .noteUpdate x K⟩
  producers := fun _ _ => rfl
  succeeded := id

/-- Registries go on to a union with others that have later kernels. -/
theorem onward_union_left (hr : r.Numbered m n) (hq : q.Numbered n k)
    (hX : ∀ x id, q.producerOf x = some id → x ∈ X) : Onward H X r (r.union q) where
  kernels := fun id K hK => ⟨K, by rw [find?_union, hr.find?_eq_none hq hK, hK]; rfl, .refl K⟩
  producers := fun x hx => by
    rw [producerOf_union, Option.eq_none_iff_forall_ne_some.2 fun id hid => hx (hX x id hid)]
    rfl
  succeeded := fun h => Bool.or_eq_true_iff.2 (.inl h)

/-- Registries go on to a union with others that have earlier kernels. -/
theorem onward_union_right (hX : ∀ x id, r.producerOf x = some id → x ∈ X) :
    Onward H X q (r.union q) where
  kernels := fun id K hK => ⟨K, by rw [find?_union, hK]; rfl, .refl K⟩
  producers := fun x hx => by
    rw [producerOf_union, Option.eq_none_iff_forall_ne_some.2 fun id hid => hx (hX x id hid)]
    exact Option.or_none
  succeeded := fun h => Bool.or_eq_true_iff.2 (.inr h)

/-- Registries go on when a new kernel is registered. -/
theorem onward_register {K : Kernel} (hnew : r.kernels.find? K.id = none)
    (hX : ∀ x ∈ K.pattern.names, x ∈ X) : Onward H X r (r.register K) := by
  have hregistered := registered_register r K
  refine ⟨fun id L hL => ⟨L, ?_, .refl L⟩, fun x hx => ?_, fun h => ?_⟩
  · rw [hregistered.kernels, if_neg, hL]
    rintro rfl
    cases hnew.symm.trans hL
  · rw [hregistered.producers, if_neg fun hmem => hx (hX x hmem)]
  · exact (succeeded_recordOperands _ _ _).trans h

/-- Registries go on when a stage is fused into kernels. -/
theorem onward_fused {o : Origin} {p : Pattern} {g : Stage} {K : Kernel} {Ks : List Kernel}
    (hKs : ∀ K' ∈ K :: Ks, ∃ L, r.kernels.find? K'.id = some L ∧ L.Becomes H K')
    (hX : ∀ x ∈ p.names, x ∈ X) : Onward H X r (r.fused o p g (K :: Ks)) where
  kernels := fun id L hL => by
    rw [kernels_fused]
    rcases find?_putKernels r (K :: Ks) id with ⟨K', hK', rfl, hfind⟩ | ⟨-, hfind⟩
    · obtain ⟨L', hL', hbecomes⟩ := hKs K' hK'
      cases hL'.symm.trans hL
      exact ⟨K', hfind, hbecomes⟩
    · exact ⟨L, hfind.trans hL, .refl L⟩
  producers := fun x hx => by
    rw [(absorbed_fused r o p g K Ks).producers, if_neg fun hmem => hx (hX x hmem.1)]
  succeeded := fun _ => succeeded_recordOperands _ _ _

end Registry

/-! ## Choices and their stages -/

/-- What a right-hand side shows is shown by its operands. -/
theorem Operand.shown_of_ofExp? {e : Exp} {a : Operand} (h : ofExp? e = some a) :
    e.shown H ⊆ Exp.shownAll H a.exps := by
  unfold ofExp? at h
  split at h
  · exact Set.empty_subset _
  · cases h
    exact subset_rfl
  · exact Set.empty_subset _
  · cases h
    exact fun l hl => .inl hl
  · cases h

/-- A stage shows what the right-hand side shows that it stands for. -/
theorem Choice.Stands.shown {s : Choice} {g : Stage} (h : s.Stands g) :
    s.rhs.shown H ⊆ g.toExp.shown H := by
  rw [Stage.shown_toExp]
  cases h with
  | @combinator p e g hg =>
    cases e with
    | soac op args certs span =>
      obtain ⟨as, has, rfl⟩ := Stage.ofExp?_eq_ok hg
      refine Set.union_subset_union_right _ fun l hl => ?_
      obtain ⟨e, he, hl⟩ := Exp.mem_shownAll.1 hl
      obtain ⟨a, ha, hea⟩ := Recipe.exists_of_forall₂ has.flip he
      exact ⟨a, ha, Operand.shown_of_ofExp? hea hl⟩
    | _ => cases hg
  | @replicate x i n v row span hatom =>
    refine Set.union_subset (fun l hl => .inr ⟨_, List.mem_cons_self, .inl hl⟩) fun l hl => .inl ?_
    exact hl

/-- The stage that a choice stands for has its certificates. -/
theorem Choice.Stands.certs {s : Choice} {g : Stage} (h : s.Stands g) :
    ∀ x ∈ s.rhs.certs.names, x ∈ g.certs.names := by
  cases h with
  | @combinator p e g hg =>
    cases e with
    | soac op args certs span =>
      obtain ⟨as, -, rfl⟩ := Stage.ofExp?_eq_ok hg
      exact fun _ hx => hx
    | _ => cases hg
  | replicate => exact fun _ hx => absurd hx List.not_mem_nil

/-- What holds the stage holds the right-hand side that it stands for. -/
theorem Choice.Stands.holds {s : Choice} {g : Stage} {K : Kernel} (h : s.Stands g)
    (hK : K.Holds c N H g.toExp) : K.Holds c N H s.rhs where
  shown := hK.shown.mono h.shown subset_rfl
  certs := fun x hx => hK.certs x (h.certs x hx)

/-- The stage reads nothing but variables of `N` if the right-hand side does not. -/
theorem Choice.Stands.operandReads {s : Choice} {g : Stage} (h : s.Stands g)
    (hreads : s.rhs.ReadsOnly N) : ∀ x ∈ g.operandReads, x ∈ N := by
  cases h with
  | @combinator p e g hg =>
    cases e with
    | soac op args certs span =>
      obtain ⟨as, has, rfl⟩ := Stage.ofExp?_eq_ok hg
      intro x hx
      obtain ⟨a, ha, hx⟩ := List.mem_flatMap.1 hx
      obtain ⟨e, he, hea⟩ := Recipe.exists_of_forall₂ has ha
      -- the arguments are plain identifiers
      obtain ⟨y, t, rfl, hy⟩ := hreads e he
      unfold Operand.ofExp? at hea
      dsimp only at hea
      split at hea
      · cases hea
        cases List.mem_singleton.1 hx
        exact hy
      · cases hea
    | _ => cases hg
  | replicate => exact absurd hreads id

/-! ## What is accounted for -/

/-- The names that the choices of a log bind. -/
def logNames (l : Log) : List Name := l.flatMap fun e => e.1.names

@[simp] theorem logNames_append (l l' : Log) : logNames (l ++ l') = logNames l ++ logNames l' :=
  List.flatMap_append

/-- A log of one decision is about the names of its choice. -/
theorem logNames_singleton (e : Choice × Decision) : logNames [e] = e.1.names :=
  List.flatMap_singleton _ _

theorem mem_logNames {l : Log} {x : Name} : x ∈ logNames l ↔ ∃ e ∈ l, x ∈ e.1.names :=
  List.mem_flatMap

/-- What a registry knows about a choice that was decided about. -/
def Registry.Settles (r : Registry) (s : Choice) : Decision → Prop
  | .fused _ _ _ => r.succeeded = true ∧ (s.origin = .combinator → ∀ x ∈ s.names, ∃ id K,
      r.producerOf x = some id ∧ r.kernels.find? id = some K ∧ K.isFused = true)
  | .kept _ _ (some id) _ => ∃ K, r.kernels.find? id = some K ∧ K.pattern = s.pattern
  | .kept _ _ none _ => ∀ x ∈ s.names, r.producerOf x = none

/-- The kernel stands for a choice that was kept.  If that reads nothing but variables of `N`, then
nothing was fused into the kernel. -/
structure Kernel.StandsFor (N : Set Name) (e : Choice × Decision) (K : Kernel) : Prop where
  kept : e.2.isFused = false
  origin : e.1.origin = .combinator
  pattern : e.1.pattern = K.pattern
  untouched : e.1.rhs.ReadsOnly N → K.fused = [] ∧ ∀ x ∈ K.stage.wholeNames, x ∈ N

/-- A kernel stands for a decision with an update noted, too. -/
theorem Kernel.StandsFor.noteUpdate {e : Choice × Decision} {K : Kernel} (h : K.StandsFor N e)
    (x : Name) : (K.noteUpdate x).StandsFor N e where
  kept := h.kept
  origin := h.origin
  pattern := h.pattern.trans (K.pattern_noteUpdate x).symm
  untouched := by
    rw [K.fused_noteUpdate, K.stage_noteUpdate]
    exact h.untouched

/-- The kernel stands for a choice of the log. -/
def Log.Keeps (N : Set Name) (l : Log) (K : Kernel) : Prop := ∃ e ∈ l, K.StandsFor N e

/-- A longer log keeps what the shorter one does. -/
theorem Log.Keeps.mono {l l' : Log} {K : Kernel} (h : l.Keeps N K) (hl : l ⊆ l') :
    l'.Keeps N K := by
  obtain ⟨e, he, hstands⟩ := h
  exact ⟨e, hl he, hstands⟩

/-- The registry agrees with the log: each of its kernels stands for a choice that was kept, each of
its producers is a kernel that holds a choice that binds the name, and it knows what was decided
about each choice. -/
structure Registry.Accounts (c : Config) (N H : Set Name) (l : Log) (r : Registry) : Prop where
  regular : r.All (Kernel.Regular c N)
  stands : r.All (l.Keeps N)
  producers : ∀ x id, r.producerOf x = some id → ∃ e ∈ l, x ∈ e.1.names
    ∧ ∃ K, r.kernels.find? id = some K ∧ K.Holds c N H e.1.rhs
  settles : ∀ e ∈ l, r.Settles e.1 e.2

namespace Registry

variable {X : Set Name} {l l' : Log} {r r' q : Registry} {m n k : Nat}

/-- A decision stays settled when registries go on. -/
theorem Settles.onward {s : Choice} {d : Decision} (h : r.Settles s d) (hr : Onward H X r r')
    (hX : ∀ x ∈ s.names, x ∉ X) : r'.Settles s d := by
  match d, h with
  | .fused .., ⟨hsucceeded, hfused⟩ =>
    refine ⟨hr.succeeded hsucceeded, fun ho x hx => ?_⟩
    obtain ⟨id, K, hid, hK, hfused⟩ := hfused ho x hx
    obtain ⟨K', hK', hbecomes⟩ := hr.kernels id K hK
    exact ⟨id, K', (hr.producers x (hX x hx)).trans hid, hK', hbecomes.isFused hfused⟩
  | .kept _ _ (some id) _, ⟨K, hK, hpattern⟩ =>
    obtain ⟨K', hK', hbecomes⟩ := hr.kernels id K hK
    exact ⟨K', hK', hbecomes.pattern.trans hpattern⟩
  | .kept _ _ none _, h => exact fun x hx => (hr.producers x (hX x hx)).trans (h x hx)

namespace Accounts

/-- Before the first decision all is accounted for. -/
theorem empty (c : Config) (N H : Set Name) : Accounts c N H [] .empty :=
  ⟨all_empty, all_empty, nofun, nofun⟩

/-- What has a producer is a name of the log. -/
theorem mem_logNames (h : r.Accounts c N H l) {x : Name} {id : KernelId}
    (hid : r.producerOf x = some id) : x ∈ logNames l := by
  obtain ⟨e, he, hx, -⟩ := h.producers x id hid
  exact ArrayFusion.mem_logNames.2 ⟨e, he, hx⟩

/-- What was decided before is still accounted for. -/
theorem settles_onward (h : r.Accounts c N H l) (hr : Onward H X r r')
    (hX : ∀ x ∈ logNames l, x ∉ X) : ∀ e ∈ l, r'.Settles e.1 e.2 := fun e he =>
  (h.settles e he).onward hr fun x hx => hX x (ArrayFusion.mem_logNames.2 ⟨e, he, hx⟩)

/-- Later, too, the kernel that produces a name holds what the decision about it was made of. -/
theorem producers_onward (h : r.Accounts c N H l) (hr : Onward H X r r') {x : Name} {id : KernelId}
    (hid : r.producerOf x = some id) : ∃ e ∈ l, x ∈ e.1.names
      ∧ ∃ K, r'.kernels.find? id = some K ∧ K.Holds c N H e.1.rhs := by
  obtain ⟨e, he, hx, K, hK, hholds⟩ := h.producers x id hid
  obtain ⟨K', hK', hbecomes⟩ := hr.kernels id K hK
  exact ⟨e, he, hx, K', hK', hholds.becomes hbecomes⟩

/-- To forbid names leaves all accounted for. -/
theorem forbid (h : r.Accounts c N H l) (xs : List Name) : (r.forbid xs).Accounts c N H l where
  regular := h.regular
  stands := h.stands
  producers := h.producers
  settles := h.settles_onward (X := ∅) ⟨fun _ K hK => ⟨K, hK, .refl K⟩, fun _ _ => rfl, id⟩
    fun _ _ => Set.notMem_empty _

/-- To note an update leaves all accounted for. -/
theorem noteUpdate (h : r.Accounts c N H l) (y : Name) : (r.noteUpdate y).Accounts c N H l where
  regular := h.regular.noteUpdate (fun _ _ hK => hK.noteUpdate _) y
  stands := h.stands.noteUpdate (fun _ x ⟨e, he, hstands⟩ => ⟨e, he, hstands.noteUpdate x⟩) y
  producers := fun _ _ => h.producers_onward (onward_noteUpdate (X := ∅) r y)
  settles := h.settles_onward (onward_noteUpdate (X := ∅) r y) fun _ _ => Set.notMem_empty _

/-- Two pieces of code that bind different names and have different kernels. -/
theorem union (h : r.Accounts c N H l) (h' : q.Accounts c N H l') (hr : r.Numbered m n)
    (hq : q.Numbered n k) (hnames : (logNames (l ++ l')).Nodup) :
    (r.union q).Accounts c N H (l ++ l') := by
  rw [logNames_append] at hnames
  have hne := (List.nodup_append.1 hnames).2.2
  have hleft := onward_union_left (H := H) hr hq fun x id => h'.mem_logNames
  have hright := onward_union_right (H := H) (q := q) fun x id => h.mem_logNames
  refine ⟨h.regular.union h'.regular,
    All.union (fun id K hK => (h.stands id K hK).mono (List.subset_append_left _ _))
      fun id K hK => (h'.stands id K hK).mono (List.subset_append_right _ _), fun x id hid => ?_,
    List.forall_mem_append.2 ⟨h.settles_onward hleft fun x hx hx' => hne x hx x hx' rfl,
      h'.settles_onward hright fun x hx hx' => hne x hx' x hx rfl⟩⟩
  -- a name is produced in the first of the two that produces it
  rw [producerOf_union, Option.or_eq_some_iff] at hid
  rcases hid with hid | ⟨-, hid⟩
  · obtain ⟨e, he, hx⟩ := h'.producers_onward hright hid
    exact ⟨e, List.mem_append_right _ he, hx⟩
  · obtain ⟨e, he, hx⟩ := h.producers_onward hleft hid
    exact ⟨e, List.mem_append_left _ he, hx⟩

section

variable {s : Choice} {g : Stage}

/-- Nothing computes the names of a choice that is still to be made. -/
theorem producerOf_eq_none (h : r.Accounts c N H l) {d : Decision}
    (hnames : (logNames (l ++ [(s, d)])).Nodup) : ∀ x ∈ s.names, r.producerOf x = none := by
  intro x hx
  rw [logNames_append, logNames_singleton] at hnames
  exact Option.eq_none_iff_forall_ne_some.2 fun id hid =>
    (List.nodup_append.1 hnames).2.2 x (h.mem_logNames hid) x hx rfl

/-- What one more decision leaves of what was accounted for. -/
theorem decided (h : r.Accounts c N H l) {d : Decision} (hnames : (logNames (l ++ [(s, d)])).Nodup)
    (hr : Onward H {x | x ∈ s.names} r r') (hregular : r'.All (Kernel.Regular c N))
    (hstands : r'.All ((l ++ [(s, d)]).Keeps N))
    (hproducers : ∀ x ∈ s.names, ∀ id, r'.producerOf x = some id →
      ∃ K, r'.kernels.find? id = some K ∧ K.Holds c N H s.rhs)
    (hsettles : r'.Settles s d) : r'.Accounts c N H (l ++ [(s, d)]) where
  regular := hregular
  stands := hstands
  producers := fun x id hid => by
    -- of the names the decision is about, and of the others
    by_cases hx : x ∈ s.names
    · exact ⟨(s, d), List.mem_append_right _ List.mem_cons_self, hx, hproducers x hx id hid⟩
    · obtain ⟨e, he, hholds⟩ := h.producers_onward hr ((hr.producers x hx).symm.trans hid)
      exact ⟨e, List.mem_append_left _ he, hholds⟩
  settles := by
    refine List.forall_mem_append.2 ⟨h.settles_onward hr fun x hx hmem => ?_,
      List.forall_mem_singleton.2 hsettles⟩
    rw [logNames_append, logNames_singleton] at hnames
    exact (List.nodup_append.1 hnames).2.2 x hx x hmem rfl

/-- A choice for which no kernel is registered is accounted for as kept. -/
theorem stays (h : r.Accounts c N H l) {kind : Combinator.Kind} {reason : Reason}
    (hnames : (logNames (l ++ [(s, .kept s.names kind none reason)])).Nodup) :
    r.Accounts c N H (l ++ [(s, .kept s.names kind none reason)]) := by
  have hnone := h.producerOf_eq_none hnames
  refine h.decided hnames ⟨fun id K hK => ⟨K, hK, .refl K⟩, fun _ _ => rfl, id⟩ h.regular
    (fun id K hK => (h.stands id K hK).mono (List.subset_append_left _ _))
      (fun x hx id hid => ?_) hnone
  cases (hnone x hx).symm.trans hid

/-- A choice for which a kernel is registered is accounted for as kept in it. -/
theorem register (h : r.Accounts c N H l) {K : Kernel} {kind : Combinator.Kind} {reason : Reason}
    (hnames : (logNames (l ++ [(s, .kept s.names kind (some K.id) reason)])).Nodup)
    (hnew : r.kernels.find? K.id = none) (hK : K.Regular c N)
    (hstands : K.StandsFor N (s, .kept s.names kind (some K.id) reason))
    (hholds : K.Holds c N H s.rhs) :
    (r.register K).Accounts c N H (l ++ [(s, .kept s.names kind (some K.id) reason)]) := by
  have hregistered := registered_register r K
  have hfind : (r.register K).kernels.find? K.id = some K := by rw [hregistered.kernels, if_pos rfl]
  have hsame : K.pattern.names = s.names := congrArg Pattern.names hstands.pattern.symm
  refine h.decided hnames (onward_register hnew fun x hx => hsame ▸ hx)
    (h.regular.register hK) ?_ (fun x hx id hid => ?_) ⟨K, hfind, hstands.pattern.symm⟩
  · refine All.register (fun id L hL => (h.stands id L hL).mono (List.subset_append_left _ _)) ?_
    exact ⟨_, List.mem_append_right _ List.mem_cons_self, hstands⟩
  · rw [hregistered.producers, if_pos (hsame ▸ hx)] at hid
    cases hid
    exact ⟨K, hfind, hholds⟩

/-- The first of the kernels computes the names that were fused.  None of them stands for a choice
that reads nothing but variables of `N`. -/
theorem fused (h : r.Accounts c N H l) (hN : ∀ x ∈ N, x ∉ H) {kind : Combinator.Kind}
    {t t' : NameSupply} {Ks : List Kernel}
    (hnames : (logNames (l ++ [(s, .fused s.names kind (Ks.map (·.id)))])).Nodup)
    (hforeign : ∀ x ∈ s.names, x ∉ N) (hindexed : r.Indexed)
    (htried : r.TriedFusion c s.origin s.pattern g t Ks t')
    (hs : t.until t' ⊆ N) (hg : g.Over N fun _ => True) (hn : r.Numbered m n)
    (hstands : s.Stands g) :
    (r.fused s.origin s.pattern g Ks).Accounts c N H
      (l ++ [(s, .fused s.names kind (Ks.map (·.id)))]) := by
  obtain ⟨hbecomes, hfirst⟩ := htried.becomes hN hs hg h.regular hn
  have hids : (Ks.map (·.id)).Nodup := by
    rw [htried.ids hn]
    exact r.nodup_candidates _
  obtain ⟨K, Ks, rfl⟩ := List.exists_cons_of_ne_nil htried.ne_nil
  -- the kernels have different ids, so what is found under the first one is the first one
  have hfind : (r.fused s.origin s.pattern g (K :: Ks)).kernels.find? K.id = some K := by
    rw [kernels_fused]
    rcases find?_putKernels r (K :: Ks) K.id with ⟨K', hK', hid, hfind⟩ | ⟨hnot, -⟩
    · rwa [List.inj_on_of_nodup_map hids hK' List.mem_cons_self hid] at hfind
    · exact absurd rfl (hnot K List.mem_cons_self)
  obtain ⟨-, -, -, -, hfused⟩ := hbecomes K List.mem_cons_self
  have hproducers := (absorbed_fused r s.origin s.pattern g K Ks).producers
  have honward : Onward H {x | x ∈ s.names} r (r.fused s.origin s.pattern g (K :: Ks)) :=
    onward_fused (fun K' hK' => (hbecomes K' hK').imp fun L hL => ⟨hL.1, hL.2.2.1⟩) fun x hx => hx
  refine h.decided hnames honward (h.regular.fused _ _ _ fun K' hK' => ?_)
    (All.fused (fun id L hL => (h.stands id L hL).mono (List.subset_append_left _ _)) _ _ _
      fun K' hK' => ?_) (fun x hx id hid => ?_)
    ⟨succeeded_recordOperands _ _ _, fun ho x hx => ⟨K.id, K, ?_, hfind, hfused⟩⟩
  · obtain ⟨-, -, hregular, -, -⟩ := hbecomes K' hK'
    exact hregular
  · obtain ⟨L, hL, -, hLK, -⟩ := hbecomes K' hK'
    obtain ⟨e, he, hkept, ho, hpattern, huntouched⟩ := h.stands _ L hL
    refine ⟨e, List.mem_append_left _ he, hkept, ho, hpattern.trans hLK.pattern.symm,
      fun hreads => ?_⟩
    -- the kernel reads one of the names, which do not belong to `N`
    obtain ⟨x, hx, hid⟩ := mem_candidates.1 (htried.ids hn ▸ List.mem_map_of_mem hK')
    obtain ⟨L', hL', hwhole⟩ := (hindexed.readers x K'.id).1 hid
    cases hL'.symm.trans hL
    exact absurd ((huntouched hreads).2 x hwhole) (hforeign x hx)
  · rw [hproducers] at hid
    split at hid
    · cases hid
      exact ⟨K, hfind, hstands.holds (hfirst K rfl)⟩
    · cases (h.producerOf_eq_none hnames x hx).symm.trans hid
  · rw [hproducers, if_pos ⟨hx, .inl ho⟩]

end

end Accounts

end Registry

/-! ## Courses -/

/-- A new kernel is regular, stands for the choice that it was made for, and holds it. -/
theorem Placed.accounted {p : Pattern} {g : Stage} {s s' : NameSupply} {id : KernelId} {K : Kernel}
    (h : c.transposePull = false ∧ K = Kernel.new id g p ∧ s' = s
      ∨ c.transposePull = true ∧ (Kernel.new id g p).pullTransposes s = (K, s'))
    (hN : ∀ x ∈ N, x ∉ H) (hs : s.until s' ⊆ N) (hg : g.Over N fun _ => True) :
    K.Regular c N ∧ K.Holds c N H g.toExp := by
  have hover := (Placed.isNew h).binds (fun _ _ => trivial) hs hg
  rcases h with ⟨-, rfl, -⟩ | ⟨hc, h⟩
  · exact ⟨⟨hover, fun _ => ⟨rfl, fun x hx => hx, fun x hx => .inl hx⟩⟩, .of_subset subset_rfl,
      fun _ hx => hx⟩
  · have hretains := Kernel.retains_pullTransposes (K := Kernel.new id g p) hc hN
      (by rwa [h]) hg.params
    have hcerts := (Kernel.new id g p).certs_pullTransposes s
    rw [h] at hretains hcerts
    refine ⟨⟨hover, fun hc' => Bool.noConfusion (hc'.symm.trans hc)⟩, hretains, fun x hx => ?_⟩
    rw [show K.stage.certs = g.certs from hcerts]
    exact hx

/-- Every step of an analysis keeps account of what was decided, if the choices bind different
names, none of them in `N`, and no name of `H` is a parameter or fresh. -/
theorem Course.accounts {l l₀ : Log} {r r' : Registry} {a b : Progress} {m : Nat}
    (h : Course c l r a r' b) (hN : ∀ x ∈ N, x ∉ H) (hr : r.Accounts c N H l₀)
    (hindexed : r.Indexed) (hn : r.Numbered m a.nextKernel) (hm : m ≤ a.nextKernel)
    (hnames : (logNames (l₀ ++ l)).Nodup) (hforeign : ∀ x ∈ logNames l, x ∉ N)
    (hs : a.names.until b.names ⊆ N) (hslots : ∀ e ∈ l, ∀ x ∈ e.1.rhs.slots, x ∈ N) :
    r'.Accounts c N H (l₀ ++ l) := by
  induction h generalizing l₀ m with
  | nil =>
    rw [List.append_nil]
    exact hr
  | forbid xs =>
    rw [List.append_nil]
    exact hr.forbid xs
  | noteUpdate x =>
    rw [List.append_nil]
    exact hr.noteUpdate x
  | append h h' ih ih' =>
    obtain ⟨hle, hn'⟩ := h.numbered hn hm
    obtain ⟨hslots, hslots'⟩ := List.forall_mem_append.1 hslots
    rw [logNames_append] at hforeign
    obtain ⟨hforeign, hforeign'⟩ := List.forall_mem_append.1 hforeign
    rw [← List.append_assoc] at hnames ⊢
    have hfirst := hnames
    rw [logNames_append] at hfirst
    -- the names that are taken in either part are among those that are taken
    have hs₁ := (NameSupply.until_subset (Nat.le_refl _) h'.count_le).trans hs
    exact ih' (ih hr hindexed hn hm (List.nodup_append.1 hfirst).1 hforeign hs₁ hslots)
      (h.indexed hindexed hn hm) hn' (Nat.le_trans hm hle) hnames hforeign'
      ((NameSupply.until_subset h.count_le (Nat.le_refl _)).trans hs) hslots'
  | @meet _ _ a _ _ xs ys h _ ih =>
    -- the account of a region starts anew, with kernels numbered onwards
    have hempty := Registry.numbered_empty a.nextKernel a.nextKernel
    have hregion := hnames
    rw [logNames_append] at hregion
    have hq := ih (.empty c N H) Registry.indexed_empty hempty (Nat.le_refl _)
      (List.nodup_append.1 hregion).2.1 hforeign hs hslots
    exact ((hr.union hq hn (h.numbered hempty (Nat.le_refl _)).2 hnames).forbid xs).forbid ys
  | @place r a t r' b s g d hstands _ hle hparams _ hdecided =>
    -- the parameters of the stage belong to `N`
    have hover : g.Over N fun _ => True := ⟨fun x hx => (hparams x hx).elim
      (hslots _ List.mem_cons_self x) fun hx =>
        hs (NameSupply.until_subset (Nat.le_refl _) hdecided.count_le hx),
      fun _ _ => trivial, fun _ _ _ _ => trivial⟩
    have hs' : t.until b.names ⊆ N := (NameSupply.until_subset hle (Nat.le_refl _)).trans hs
    rw [logNames_singleton] at hforeign
    cases hdecided with
    | fused htried => exact hr.fused hN hnames hforeign hindexed htried hs' hover hn hstands
    | stays => exact hr.stays hnames
    | @registered _ u K _ ho htry _ hK =>
      have hu := (Registry.grows_tryFuse _ _ _ _ _ _).of_ok htry
      -- refused, the stage gets a kernel that holds what it shows
      obtain ⟨hregular, hholds⟩ := Placed.accounted hK hN
        ((NameSupply.until_subset hu (Nat.le_refl _)).trans hs') hover
      have hnew := Placed.isNew hK
      refine hr.register hnames (hnew.id ▸ hn.find?_next) hregular
        ⟨rfl, ho, hnew.pattern.symm, fun hreads => ⟨hnew.fused, fun x hx => ?_⟩⟩
          (hstands.holds hholds)
      exact hstands.operandReads hreads x (hnew.reads ▸ Stage.wholeNames_subset hx)

end ArrayFusion
