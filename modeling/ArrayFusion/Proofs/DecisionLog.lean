import Mathlib.Data.List.Dedup
import Mathlib.Data.List.Perm.Lattice
import ArrayFusion.Proofs.Choices
import ArrayFusion.Proofs.Indexing
import ArrayFusion.Proofs.NormalPass

/-!
# The log of decisions

The report on a function lists one decision for each `let` that something is to be decided about.
The combinators that stay become the kernels 0, 1, 2 and so on, and whatever is fused goes into
kernels that are there already (`Numbering`).  The registry agrees with the log at every step of the
analysis: it says that something was fused if some decision does, and the kernels that something was
fused into are those that the decisions say (`Course.tallies`).  So the report says exactly what was
done (`FunDef.decisions_exact`).
-/

namespace ArrayFusion

namespace Decision

/-- The kernels that the combinator went into. -/
def into : Decision → List KernelId
  | .fused _ _ ids => ids
  | .kept _ _ _ _ => []

/-- The kernel that the combinator became. -/
def kernel? : Decision → Option KernelId
  | .fused _ _ _ => none
  | .kept _ _ id _ => id

end Decision

/-! ## Numbers -/

/-- The decisions open kernels with the numbers from `n` on below `m`, and whatever they fuse goes
into kernels with smaller numbers than the next one. -/
inductive Numbering : Nat → List Decision → Nat → Prop
  | nil {n} : Numbering n [] n
  | fused {n m xs kind ids ds} : (∀ id ∈ ids, id.index < n) → Numbering n ds m →
      Numbering n (.fused xs kind ids :: ds) m
  | stays {n m xs kind reason ds} : Numbering n ds m →
      Numbering n (.kept xs kind none reason :: ds) m
  | opens {n m xs kind reason ds} : Numbering (n + 1) ds m →
      Numbering n (.kept xs kind (some ⟨n⟩) reason :: ds) m

namespace Numbering

variable {n m k : Nat} {ds es : List Decision}

/-- Two runs of decisions in a row number their kernels in a row. -/
theorem append (h : Numbering n ds m) (h' : Numbering m es k) : Numbering n (ds ++ es) k := by
  induction h with
  | nil => exact h'
  | fused hids _ ih => exact .fused hids (ih h')
  | stays _ ih => exact .stays (ih h')
  | opens _ ih => exact .opens (ih h')

/-- Numbers only grow. -/
theorem le (h : Numbering n ds m) : n ≤ m := by
  induction h with
  | nil => exact Nat.le_refl _
  | fused _ _ ih | stays _ ih => exact ih
  | opens _ ih => exact Nat.le_of_succ_le ih

/-- The kernels that are opened have consecutive numbers. -/
theorem kernels (h : Numbering n ds m) :
    ds.filterMap Decision.kernel? = (List.range' n (m - n)).map KernelId.mk := by
  induction h with
  | nil => rw [Nat.sub_self]; rfl
  | fused _ _ ih | stays _ ih => exact ih
  | @opens n m _ _ _ ds h ih =>
    obtain ⟨i, rfl⟩ := Nat.exists_eq_add_of_le h.le
    rw [show n + 1 + i - (n + 1) = i by omega] at ih
    rw [show n + 1 + i - n = i + 1 by omega, List.range'_succ, List.map_cons, ← ih]
    rfl

/-- A kernel that something goes into has one of the old numbers, or it was opened before. -/
theorem earlier (h : Numbering n ds m) {pre post : List Decision} {d : Decision}
    (hds : ds = pre ++ d :: post) {id : KernelId} (hid : id ∈ d.into) :
    id.index < n ∨ ∃ e ∈ pre, e.kernel? = some id := by
  induction h generalizing pre with
  | nil => simp at hds
  | fused hids _ ih =>
    rcases pre with _ | ⟨e, pre⟩
    · cases hds
      exact .inl (hids id hid)
    · cases hds
      exact (ih rfl).imp_right fun ⟨e, he, heq⟩ => ⟨e, List.mem_cons_of_mem _ he, heq⟩
  | stays _ ih =>
    rcases pre with _ | ⟨e, pre⟩
    · cases hds
      cases hid
    · cases hds
      exact (ih rfl).imp_right fun ⟨e, he, heq⟩ => ⟨e, List.mem_cons_of_mem _ he, heq⟩
  | @opens n _ _ _ _ _ _ ih =>
    rcases pre with _ | ⟨e, pre⟩
    · cases hds
      cases hid
    · cases hds
      rcases ih rfl with hlt | ⟨e, he, heq⟩
      · -- the kernel was there before the decision, or the decision made it
        rcases Nat.lt_or_eq_of_le (Nat.le_of_lt_succ hlt) with hlt | heq
        · exact .inl hlt
        · exact .inr ⟨_, List.mem_cons_self, by rw [Decision.kernel?, ← heq]⟩
      · exact .inr ⟨e, List.mem_cons_of_mem _ he, heq⟩

end Numbering

/-- A decision opens the next kernel, or none. -/
theorem Decided.numbering {c : Config} {o : Origin} {p : Pattern} {g : Stage} {r r' : Registry}
    {a b : Progress} {d : Decision} {m : Nat} (h : Decided c o p g r a d r' b)
    (hr : r.Numbered m a.nextKernel) : Numbering a.nextKernel [d] b.nextKernel := by
  cases h with
  | fused htried hnext =>
    rw [hnext]
    refine .fused (fun id hid => ?_) .nil
    obtain ⟨K', hK', rfl⟩ := List.mem_map.1 hid
    obtain ⟨K, hK, -⟩ := htried.exists_kernel hr hK'
    exact (hr _ K hK).2.2
  | stays _ _ hnext =>
    rw [hnext]
    exact .stays .nil
  | registered _ _ hnext hK =>
    rw [hnext, (Placed.isNew hK).id]
    exact .opens .nil

/-- The decisions of an analysis open its kernels in order. -/
theorem Course.numbering {c : Config} {l : Log} {r r' : Registry} {a b : Progress} {m : Nat}
    (h : Course c l r a r' b) (hr : r.Numbered m a.nextKernel) (hm : m ≤ a.nextKernel) :
    Numbering a.nextKernel (l.map Prod.snd) b.nextKernel := by
  induction h generalizing m with
  | nil | forbid | noteUpdate => exact .nil
  | append h _ ih ih' =>
    obtain ⟨hle, hr'⟩ := h.numbered hr hm
    rw [List.map_append]
    exact (ih hr hm).append (ih' hr' (Nat.le_trans hm hle))
  | meet _ _ _ _ ih => exact ih (Registry.numbered_empty _ _) (Nat.le_refl _)
  | place _ _ _ _ _ hdecided => exact hdecided.numbering hr

/-! ## What the registry says about the log -/

namespace Registry

variable {r q : Registry} {id : KernelId} {m n k : Nat}

/-- There is a kernel of that id that something was fused into. -/
def TookIn (r : Registry) (id : KernelId) : Prop :=
  ∃ K, r.kernels.find? id = some K ∧ K.isFused = true

theorem tookIn_noteUpdate {x : Name} : (r.noteUpdate x).TookIn id ↔ r.TookIn id := by
  unfold TookIn Kernel.isFused
  rw [find?_noteUpdate]
  simp [Option.map_eq_some_iff, Kernel.fused_noteUpdate]

/-- Different pieces of code have different kernels. -/
theorem tookIn_union (hr : r.Numbered m n) (hq : q.Numbered n k) :
    (r.union q).TookIn id ↔ r.TookIn id ∨ q.TookIn id := by
  unfold TookIn
  rw [find?_union]
  cases hK : r.kernels.find? id with
  | none => simp
  | some K =>
    rw [hr.find?_eq_none hq hK]
    simp

theorem TriedFusion.tookIn {c : Config} {o : Origin} {p : Pattern} {g : Stage} {s s' : NameSupply}
    {Ks' : List Kernel} (h : r.TriedFusion c o p g s Ks' s') (hr : r.Numbered m n) :
    (r.fused o p g Ks').TookIn id ↔ r.TookIn id ∨ id ∈ Ks'.map (·.id) := by
  obtain ⟨hread, hother⟩ := h.find?_fused hr
  rw [h.ids hr]
  by_cases hid : id ∈ r.candidates p.names
  · obtain ⟨K, K', hK, hK', hextends⟩ := hread id hid
    obtain ⟨x, hx, -⟩ := mem_candidates.1 hid
    refine iff_of_true ⟨K', hK', ?_⟩ (.inr hid)
    rw [Kernel.isFused, hextends.fused, Bool.not_eq_true', List.isEmpty_eq_false_iff]
    exact List.append_ne_nil_of_right_ne_nil _ (List.ne_nil_of_mem hx)
  · unfold TookIn
    rw [hother id hid]
    exact (or_iff_left hid).symm

end Registry

/-- What a registry says about the decisions by which it came from another one. -/
structure Tallies (ds : List Decision) (r r' : Registry) : Prop where
  succeeded : r'.succeeded = (r.succeeded || ds.any (·.isFused))
  tookIn : ∀ id, r'.TookIn id ↔ r.TookIn id ∨ id ∈ ds.flatMap Decision.into

theorem Tallies.of_nil {r r' : Registry} (hsucceeded : r'.succeeded = r.succeeded)
    (htook : ∀ id, r'.TookIn id ↔ r.TookIn id) : Tallies [] r r' :=
  ⟨hsucceeded.trans (Bool.or_false _).symm, fun id => (htook id).trans (by simp)⟩

/-- Tallies of two logs in a row are one of both. -/
theorem Tallies.append {ds es : List Decision} {r r' r'' : Registry} (h : Tallies ds r r')
    (h' : Tallies es r' r'') : Tallies (ds ++ es) r r'' where
  succeeded := by rw [h'.succeeded, h.succeeded, List.any_append, Bool.or_assoc]
  tookIn := fun id => by
    rw [h'.tookIn, h.tookIn, List.flatMap_append, List.mem_append, or_assoc]

/-- A decision that fuses a stage says into which kernels; no other one changes a kernel. -/
theorem Decided.tallies {c : Config} {o : Origin} {p : Pattern} {g : Stage} {r r' : Registry}
    {a b : Progress} {d : Decision} {m : Nat} (h : Decided c o p g r a d r' b)
    (hr : r.Numbered m a.nextKernel) : Tallies [d] r r' := by
  cases h with
  | fused htried =>
    refine ⟨?_, fun id => (htried.tookIn hr).trans (by simp [Decision.into])⟩
    rw [Registry.fused, Registry.succeeded_recordOperands]
    exact (Bool.or_true _).symm
  | stays => exact ⟨(Bool.or_false _).symm, fun id => by simp [Decision.into]⟩
  | @registered _ _ K _ _ _ _ hK =>
    -- the new kernel has taken nothing in
    have hnew := Placed.isNew hK
    refine ⟨(Registry.succeeded_recordOperands _ _ _).trans (Bool.or_false _).symm, fun id => ?_⟩
    unfold Registry.TookIn
    rw [(Registry.registered_register r K).kernels]
    by_cases hid : id = K.id
    · subst hid
      rw [if_pos rfl, hnew.id, hr.find?_next]
      simp [Kernel.isFused, hnew.fused, Decision.into]
    · rw [if_neg hid]
      simp [Decision.into]

/-- The registry says of every step of an analysis what the decisions say. -/
theorem Course.tallies {c : Config} {l : Log} {r r' : Registry} {a b : Progress} {m : Nat}
    (h : Course c l r a r' b) (hr : r.Numbered m a.nextKernel) (hm : m ≤ a.nextKernel) :
    Tallies (l.map Prod.snd) r r' := by
  induction h generalizing m with
  | nil | forbid => exact .of_nil rfl fun _ => .rfl
  | noteUpdate => exact .of_nil rfl fun _ => Registry.tookIn_noteUpdate
  | append h _ ih ih' =>
    obtain ⟨hle, hr'⟩ := h.numbered hr hm
    rw [List.map_append]
    exact (ih hr hm).append (ih' hr' (Nat.le_trans hm hle))
  | @meet _ r a q _ _ _ h _ ih =>
    have hempty := Registry.numbered_empty a.nextKernel a.nextKernel
    obtain ⟨hsucceeded, htook⟩ := ih hempty (Nat.le_refl _)
    refine ⟨congrArg (r.succeeded || ·) hsucceeded, fun id => ?_⟩
    refine (Registry.tookIn_union hr (h.numbered hempty (Nat.le_refl _)).2).trans
      (or_congr_right ?_)
    exact (htook id).trans (or_iff_right fun ⟨_, hK, _⟩ => nomatch hK)
  | place _ _ _ _ _ hdecided => exact hdecided.tallies hr

/-- The kernels of a registry that something was fused into, counted by their ids. -/
theorem Registry.length_fusedKernels {r : Registry} {ids : List KernelId}
    (hids : ∀ id, r.TookIn id ↔ id ∈ ids) :
    r.dropUnfused.fusedKernels.length = ids.dedup.length := by
  have hids' : ((r.kernels.entries.filter fun e => e.2.isFused).map (·.1)).Perm ids.dedup := by
    refine (List.perm_ext_iff_of_nodup ?_ ids.nodup_dedup).2 fun id => ?_
    · exact r.kernels.nodup.sublist (List.filter_sublist.map _)
    · rw [List.mem_dedup, ← hids]
      simp [TookIn, Table.find?_eq_some_iff]
  rw [← hids'.length_eq, fusedKernels, List.length_mergeSort, List.length_map]
  change (((r.kernels.entries.filter _).map Prod.snd).filter _).length = _
  rw [List.filter_map, List.length_map, List.filter_filter]
  simp

/-! ## Reports -/

/-- The report on a function says exactly what was done.  There is one decision for each `let` that
is to be decided about: those that bind a combinator, wherever they stand, and those that bind one
array to a replicated atom, if such are fused.  The combinators that stayed became the kernels 0, 1,
2 and so on; whatever was fused went into kernels of combinators that were decided about before; the
function was changed if anything was fused; and then the number of kernels is that of the different
ones that something went into. -/
theorem FunDef.decisions_exact {c : Config} {f : FunDef} {r : FusedFun} (hc : c.enabled = true)
    (h : f.fuse c = .ok r) :
    (r.report.decisions.map Decision.names).Perm
        ((f.body.lets.filter c.considers).map fun q => q.1.names)
      ∧ (∃ n, r.report.decisions.filterMap Decision.kernel? = (List.range n).map KernelId.mk)
      ∧ (∀ pre d post, r.report.decisions = pre ++ d :: post →
        ∀ id ∈ d.into, ∃ e ∈ pre, e.kernel? = some id)
      ∧ (r.changed = true ↔ ∃ d ∈ r.report.decisions, d.isFused = true)
      ∧ (r.changed = true →
        r.report.kernels = (r.report.decisions.flatMap Decision.into).dedup.length) := by
  rcases FunDef.outcome_of_fuse h with ⟨hoff, -⟩ | ⟨-, q, b, hanalyse, houtcome⟩
  · cases hc.symm.trans hoff
  have hempty := Registry.numbered_empty 0 0
  obtain ⟨l, hl, hcourse⟩ := Exp.analyse_course hanalyse
  have hdecisions : b.decisions = l.map Prod.snd := hcourse.decisions
  -- the log and the registry are those at the end of the analysis of the body
  have hnumbering : Numbering 0 b.decisions b.nextKernel :=
    hdecisions ▸ hcourse.numbering hempty (Nat.le_refl 0)
  -- the report is the log, whether or not the body was rewritten
  have hreport : r.report.decisions = b.decisions ∧ r.changed = q.succeeded := by
    rcases houtcome with ⟨hsucceeded, rfl⟩ | ⟨hsucceeded, body, -, rfl⟩
    · exact ⟨rfl, hsucceeded.symm⟩
    · exact ⟨rfl, hsucceeded.symm⟩
  obtain ⟨hsucceeded, htook⟩ := hcourse.tallies hempty (Nat.le_refl 0)
  rw [hreport.1, hreport.2]
  -- the five parts: one decision per choice, numbers in order, only earlier kernels, success, the
  -- count
  refine ⟨?_, ⟨b.nextKernel, ?_⟩, fun pre d post hds id hid => ?_, ?_, fun hchanged => ?_⟩
  · have hnames : b.decisions.map Decision.names = (f.body.choices c none).map Choice.names := by
      rw [hdecisions, ← hl, List.map_map, List.map_map]
      exact List.map_congr_left hcourse.names
    rw [hnames]
    have hperm := (Exp.choices_perm hanalyse).map Choice.names
    rwa [List.map_map] at hperm
  · rw [hnumbering.kernels, Nat.sub_zero, List.range_eq_range']
  · exact (hnumbering.earlier hds hid).resolve_left (Nat.not_lt_zero _)
  · rw [hsucceeded, ← hdecisions, ← List.any_eq_true]
    rfl
  · rcases houtcome with ⟨hnot, -⟩ | ⟨-, body, -, rfl⟩
    · cases hnot.symm.trans hchanged
    · refine Registry.length_fusedKernels fun id => ?_
      rw [htook, ← hdecisions]
      exact or_iff_right fun ⟨_, hK, _⟩ => nomatch hK

/-- A map with another map in its lambda, behind a replicated number. -/
def replicatedSeven : FunDef :=
  let array (base : String) (tag : Nat) : Ident := ⟨⟨base, tag⟩, .array .int⟩
  let number (base : String) (tag : Nat) : Ident := ⟨⟨base, tag⟩, .int⟩
  let inner : Lambda := ⟨[number "b" 5], .unary .negate (.ofIdent (number "b" 5)) .dummy, [.int]⟩
  let outer : Lambda :=
    ⟨[number "a" 3],
      .bind [array "ws" 4] (.soac (.map inner) [.ofIdent (array "xs" 0)] [] .dummy)
        (.ofIdent (number "a" 3)), [.int]⟩
  ⟨"f", [array "xs" 0], .array .int,
    .bind [array "ys" 1] (.replicate (.lit (.int 3) .dummy) (.lit (.int 7) .dummy) .dummy)
      (.bind [array "zs" 2] (.soac (.map outer) [.ofIdent (array "ys" 1)] [] .dummy)
        (.ofIdent (array "zs" 2))), .dummy⟩

theorem FunDef.decisions_exact_replicatedSeven : Config.default.enabled = true
    ∧ ∃ r, replicatedSeven.fuse Config.default = .ok r
      ∧ r.report.decisions = [.kept [⟨"ws", 4⟩] .map (some ⟨0⟩) .noConsumers,
        .kept [⟨"zs", 2⟩] .map (some ⟨1⟩) .unfusable, .fused [⟨"ys", 1⟩] .map [⟨1⟩]]
      ∧ r.changed = true ∧ r.report.kernels = 1
      ∧ ([⟨"ws", 4⟩] :: [⟨"zs", 2⟩] :: [[⟨"ys", 1⟩]] : List (List Name)).Perm
        ((replicatedSeven.body.lets.filter Config.default.considers).map fun q => q.1.names) := by
  have hreport : (replicatedSeven.fuse Config.default).toOption.map (·.report.decisions)
      = some [.kept [⟨"ws", 4⟩] .map (some ⟨0⟩) .noConsumers,
        .kept [⟨"zs", 2⟩] .map (some ⟨1⟩) .unfusable, .fused [⟨"ys", 1⟩] .map [⟨1⟩]] := by
    decide +kernel
  refine ⟨rfl, ?_⟩
  cases h : replicatedSeven.fuse Config.default with
  | error e =>
    rw [h] at hreport
    cases hreport
  | ok r =>
    rw [h] at hreport
    have hdecisions : r.report.decisions = _ := Option.some.inj hreport
    obtain ⟨hperm, -, -, hchanged, hkernels⟩ := FunDef.decisions_exact rfl h
    have hyes := hchanged.2 ⟨.fused [⟨"ys", 1⟩] .map [⟨1⟩], by simp [hdecisions], rfl⟩
    refine ⟨r, rfl, hdecisions, hyes, (hkernels hyes).trans ?_, ?_⟩
    · rw [hdecisions]
      rfl
    · rw [hdecisions] at hperm
      exact hperm

end ArrayFusion
