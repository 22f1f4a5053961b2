import ArrayFusion.Proofs.Agreement
import ArrayFusion.Proofs.FilterChain
import ArrayFusion.Proofs.Rows

/-!
# What the outputs of a producer hold

Where the results of a producer are bound to its outputs, a kernel that reads an output as a whole
sees, for a map, what the lambda returns for the rows of the operands (`Stage.reads_map`), and, for
a filter, the cells of an operand at the positions that the predicate accepts
(`Stage.reads_filter`).
-/

namespace ArrayFusion

open Eval (Yields Uniform)
open Recipe (link)

/-- An operand that reads an output does so as a whole. -/
theorem Recipe.link_eq_some {outs : List Ident} {a : Operand} {k : Nat}
    (h : link outs a = some k) :
    ∃ x y, a = .whole x ∧ outs[k]? = some y ∧ y.name = x.name := by
  rw [link] at h
  obtain ⟨x, hx, hk⟩ := Option.bind_eq_some_iff.1 h
  obtain ⟨hlt, heq, -⟩ := List.findIdx?_eq_some_iff_getElem.1 hk
  refine ⟨x, outs[k], ?_, List.getElem?_eq_getElem hlt, beq_iff_eq.1 heq⟩
  cases a <;> cases hx
  rfl

theorem Recipe.link_eq_none {outs : List Ident} {a : Operand} (h : link outs a = none) {x : Ident}
    (hx : a = .whole x) : x.name ∉ Pattern.names outs := by
  subst hx
  rw [link, Operand.whole?, Option.bind_some, List.findIdx?_eq_none_iff] at h
  intro hmem
  obtain ⟨y, hy, hxy⟩ := List.mem_map.1 hmem
  have hne := h y hy
  rw [hxy, beq_self_eq_true] at hne
  exact Bool.noConfusion hne

theorem Value.eq_of_results {xs vs : List Value} {n : Nat} (h : (ofResults xs).results n = .ok vs)
    (hn : xs.length = n) : vs = xs := by
  rw [← hn, results_ofResults] at h
  exact (Except.ok.inj h).symm

section

variable {w : String → Nat} {call : Callee} {env : Env}

/-- What an operand reads that is linked to an output. -/
theorem Operand.yields_array_of_link {outs : List Ident} {a : Operand} {k : Nat}
    (h : link outs a = some k) {vs : List Value}
    (hvs : (Pattern.names outs).map env.lookup? = vs.map some) {rows : List Value}
    (hk : vs[k]? = some (.array rows)) : Yields w (a.array call env) rows 0 := by
  obtain ⟨x, y, rfl, hy, hxy⟩ := Recipe.link_eq_some h
  have hlookup : env.lookup? x.name = some (.array rows) := by
    have hget : ((Pattern.names outs).map env.lookup?)[k]? = (vs.map some)[k]? := by rw [hvs]
    rw [List.getElem?_map, Pattern.names, List.getElem?_map, hy, List.getElem?_map, hk] at hget
    rw [← hxy]
    exact Option.some.inj hget
  have heval : Yields w ((Exp.var x .dummy).eval call env) (.array rows) 0 := by
    refine .lift ?_
    rw [Env.get, hlookup]
  exact heval.bind (f := fun v => Eval.lift v.toArray) (.lift rfl)

namespace Stage

variable {g : Stage} {outs : List Ident} {v : Value} {vs : List Value} {k : Nat}

/-- A map whose results are bound to its outputs: its operands are aligned, its lambda returns a
result for each row, and each output has the component of these results at its position. -/
theorem reads_map (hu : ∀ fn args, Uniform (call fn args)) {f : Lambda} (hop : g.op = .map f)
    (houts : g.arity = outs.length) (h : Yields w (g.toExp.eval call env) v k)
    (hvs : v.results outs.length = .ok vs)
    (hlookup : (Pattern.names outs).map env.lookup? = vs.map some) :
    ∃ n, Aligned w call env g.operands n
      ∧ (∀ i ∈ List.range n, Eval.Succeeds w (f.apply call env (cells call env g.operands i)))
      ∧ ∀ a k, link outs a = some k → Yields w (a.array call env) ((List.range n).map fun i =>
          (Eval.value (f.apply call env (cells call env g.operands i)))[k]!) 0 := by
  obtain ⟨n, haligned, hsucc, rfl, -⟩ := (yields_map_iff hu hop).1 h
  -- the output is bound to the column of results in its place
  refine ⟨n, haligned, hsucc, fun a k hk => Operand.yields_array_of_link hk hlookup ?_⟩
  rw [Stage.arity, hop] at houts
  obtain ⟨x, y, -, hy, -⟩ := Recipe.link_eq_some hk
  have hlt : k < f.rets.length := by
    rw [show f.rets.length = outs.length from houts]
    exact (List.getElem?_eq_some_iff.1 hy).1
  rw [Value.eq_of_results hvs (by rw [List.length_map, List.length_range]; exact houts),
    List.getElem?_map, List.getElem?_range hlt]
  rfl

/-- A filter whose results are bound to its outputs: its operands are aligned, its predicate decides
about each row, and each output has the cells of its operand at the rows that are accepted. -/
theorem reads_filter (hu : ∀ fn args, Uniform (call fn args)) {p : Lambda} (hop : g.op = .filter p)
    (houts : g.arity = outs.length) (h : Yields w (g.toExp.eval call env) v k)
    (hvs : v.results outs.length = .ok vs)
    (hlookup : (Pattern.names outs).map env.lookup? = vs.map some) :
    ∃ n, Aligned w call env g.operands n
      ∧ (∀ i ∈ List.range n, Eval.Succeeds w (p.test call env (cells call env g.operands i)))
      ∧ ∀ a k, link outs a = some k → ∃ b, g.operands[k]? = some b
        ∧ Yields w (a.array call env) (((List.range n).filter fun i =>
          (p.test call env (cells call env g.operands i)).value).map (b.cell call env)) 0 := by
  obtain ⟨n, haligned, hsucc, rfl, -⟩ := (yields_filter_iff hu hop).1 h
  refine ⟨n, haligned, hsucc, fun a k hk => ?_⟩
  rw [Stage.arity, hop] at houts
  obtain ⟨x, y, -, hy, -⟩ := Recipe.link_eq_some hk
  have hlt : k < g.operands.length := by
    rw [show g.operands.length = outs.length from houts]
    exact (List.getElem?_eq_some_iff.1 hy).1
  -- the output is bound to what the filter keeps of the operand in its place
  refine ⟨g.operands[k], List.getElem?_eq_getElem hlt, Operand.yields_array_of_link hk hlookup ?_⟩
  rw [Value.eq_of_results hvs (by rw [List.length_map]; exact houts), List.getElem?_map,
    List.getElem?_eq_getElem hlt]
  rfl

end Stage

end

end ArrayFusion
