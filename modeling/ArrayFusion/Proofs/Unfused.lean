import ArrayFusion.Proofs.Calls
import ArrayFusion.Proofs.DecisionLog
import ArrayFusion.Proofs.Emission

/-!
# Functions in which nothing was fused

The pass returns a function as it is if the analysis did not succeed, and emits it otherwise.
Emission would have changed nothing: a registry that did not succeed has no kernel that something
was fused into, in whatever region the kernel is (`Course.not_tookIn`).  So no kernel is left in it
when those are dropped that nothing was fused into, and since it is indexed, nothing in it refers to
a kernel either (`Registry.Indexed.vacant`).  With such a registry, every `let` stays
(`FunDef.emit_unsuccessful`).
-/

namespace ArrayFusion

/-- A table in which nothing is found is empty. -/
theorem Table.entries_eq_nil {κ β : Type} [DecidableEq κ] {t : Table κ β}
    (h : ∀ x, t.find? x = none) : t.entries = [] :=
  List.eq_nil_iff_forall_not_mem.2 fun e he =>
    by cases (h e.1).symm.trans (Table.find?_eq_some_iff.2 he)

/-- A decision that fused nothing does not say where anything went. -/
theorem Decision.into_eq_nil {d : Decision} (h : d.isFused = false) : d.into = [] := by
  cases d with
  | fused => cases h
  | kept => rfl

namespace Registry

variable {r : Registry}

/-- There are no kernels, and none is referred to. -/
structure Vacant (r : Registry) : Prop where
  kernels : r.kernels.entries = []
  producers : r.producers.entries = []
  consumers : r.consumers.entries = []

namespace Vacant

/-- Nothing has a producer. -/
theorem producerOf (h : r.Vacant) (x : Name) : r.producerOf x = none := by
  rw [Registry.producerOf, Table.find?, h.producers]
  rfl

/-- There are no fused kernels. -/
theorem fusedKernels (h : r.Vacant) : r.fusedKernels = [] := by
  rw [Registry.fusedKernels, Table.values, h.kernels, List.map_nil, List.filter_nil,
    List.mergeSort_nil]

/-- An expression is emitted as it is. -/
theorem emit (h : r.Vacant) (e : Exp) : r.emit e = .ok e :=
  Exp.expAt_self fun x _ => h.producerOf x

end Vacant

/-- Nothing is left of an indexed registry that nothing was fused into. -/
theorem Indexed.vacant (h : r.Indexed) (hr : ∀ id, ¬ r.TookIn id) : r.dropUnfused.Vacant := by
  have hkernels : ∀ id, r.dropUnfused.kernels.find? id = none := fun id =>
    Option.eq_none_iff_forall_ne_some.2 fun K hK =>
      hr id ⟨K, (Coherent.find?_dropUnfused.1 hK).1, Coherent.all_isFused_dropUnfused id K hK⟩
  refine ⟨Table.entries_eq_nil hkernels, Table.entries_eq_nil fun x => ?_, ?_⟩
  · refine Option.eq_none_iff_forall_ne_some.2 fun id hid => ?_
    obtain ⟨K, hK, -⟩ := h.dropUnfused.producers x id hid
    cases (hkernels id).symm.trans hK
  · refine List.eq_nil_iff_forall_not_mem.2 fun ⟨x, ids⟩ he => ?_
    -- Names without a reader are not listed.
    have hids : ids ≠ [] := by simpa using (List.mem_filter.1 he).2
    obtain ⟨id, hid⟩ := List.exists_mem_of_ne_nil ids hids
    have hreads : id ∈ r.dropUnfused.consumersOf x := by
      rwa [consumersOf, Table.find?_eq_some_iff.2 he]
    obtain ⟨K, hK, -⟩ := (h.dropUnfused.readers x id).1 hreads
    cases (hkernels id).symm.trans hK

end Registry

/-- An analysis from nothing that does not succeed fuses nothing into any kernel. -/
theorem Course.not_tookIn {c : Config} {l : Log} {r : Registry} {a b : Progress}
    (h : Course c l .empty a r b) (hr : r.succeeded = false) (id : KernelId) : ¬ r.TookIn id := by
  obtain ⟨hsucceeded, htook⟩ := h.tallies (Registry.numbered_empty a.nextKernel a.nextKernel)
    (Nat.le_refl _)
  have hkept : ∀ d ∈ l.map Prod.snd, ¬ d.isFused = true :=
    List.any_eq_false.1 (hsucceeded.symm.trans hr)
  intro hid
  rcases (htook id).1 hid with ⟨K, hK, -⟩ | hinto
  · cases hK
  · obtain ⟨d, hd, hid⟩ := List.mem_flatMap.1 hinto
    rw [Decision.into_eq_nil (eq_false_of_ne_true (hkept d hd))] at hid
    cases hid

/-- If the analysis of a function did not succeed, its body is emitted as it is, from a registry
without kernels.  So the function that the pass returns unchanged is the one that emission would
have given. -/
theorem FunDef.emit_unsuccessful {c : Config} {f : FunDef} {r : Registry} {a b : Progress}
    (h : f.analyse c a = .ok (r, b)) (hr : r.succeeded = false) :
    r.emit f.body = .ok f.body
      ∧ ((r.emit f.body).map fun body => { f with body }) = .ok (f.unfused b.decisions).function
      ∧ r.kernels.entries = [] ∧ r.producers.entries = [] ∧ r.consumers.entries = []
      ∧ r.fusedKernels = [] := by
  obtain ⟨q, _, hbody, hclean⟩ := State.bind_eq_ok.1 h
  obtain ⟨l, -, hl⟩ := Exp.analyse_course hbody
  obtain rfl := Registry.clean_eq_ok (Analysis.lift_eq_ok.1 hclean).1
  have hvacant := (hl.ordered (Registry.ordered_empty _)).1.vacant (hl.not_tookIn hr)
  have hemit := hvacant.emit f.body
  refine ⟨hemit, ?_, hvacant.kernels, hvacant.producers, hvacant.consumers, hvacant.fusedKernels⟩
  rw [hemit]
  rfl

/-- A map that negates each number, behind another one whose numbers are returned as well. -/
def negatedBoth : FunDef :=
  let array (base : String) (tag : Nat) : Ident := ⟨⟨base, tag⟩, .array .int⟩
  let negate (base : String) (tag : Nat) : Lambda :=
    ⟨[⟨⟨base, tag⟩, .int⟩], .unary .negate (.ofIdent ⟨⟨base, tag⟩, .int⟩) .dummy, [.int]⟩
  ⟨"f", [array "xs" 0], .tuple [.array .int, .array .int],
    .bind [array "ys" 1] (.soac (.map (negate "x" 2)) [.ofIdent (array "xs" 0)] [] .dummy)
      (.bind [array "zs" 3] (.soac (.map (negate "y" 4)) [.ofIdent (array "ys" 1)] [] .dummy)
        (.tuple [.ofIdent (array "ys" 1), .ofIdent (array "zs" 3)] .dummy)), .dummy⟩

theorem FunDef.emit_unsuccessful_negatedBoth :
    ∃ r b, negatedBoth.analyse Config.default ⟨.forFun negatedBoth, 0, []⟩ = .ok (r, b)
      ∧ r.succeeded = false
      ∧ b.decisions = [.kept [⟨"zs", 3⟩] .map (some ⟨0⟩) .unfusable,
        .kept [⟨"ys", 1⟩] .map (some ⟨1⟩) .unfusable]
      ∧ r.emit negatedBoth.body = .ok negatedBoth.body ∧ r.kernels.entries = [] := by
  have hrun : (negatedBoth.analyse Config.default ⟨.forFun negatedBoth, 0, []⟩).toOption.map
      (fun p => (p.1.succeeded, p.2.decisions))
      = some (false, [.kept [⟨"zs", 3⟩] .map (some ⟨0⟩) .unfusable,
        .kept [⟨"ys", 1⟩] .map (some ⟨1⟩) .unfusable]) := by decide +kernel
  cases h : negatedBoth.analyse Config.default ⟨.forFun negatedBoth, 0, []⟩ with
  | error e =>
    rw [h] at hrun
    cases hrun
  | ok p =>
    obtain ⟨r, b⟩ := p
    rw [h] at hrun
    obtain ⟨hr, hdecisions⟩ := Prod.mk.inj (Option.some.inj hrun)
    obtain ⟨hemit, -, hkernels, -⟩ := FunDef.emit_unsuccessful h hr
    exact ⟨r, b, rfl, hr, hdecisions, hemit, hkernels⟩

end ArrayFusion
