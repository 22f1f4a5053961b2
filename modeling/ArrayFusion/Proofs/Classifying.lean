import Mathlib.Data.List.Forall2
import ArrayFusion.Eval.Session
import ArrayFusion.Fusion.Stage
import ArrayFusion.Proofs.Congruences
import ArrayFusion.Proofs.Ends

/-!
# Combinators taken apart and put together

An argument of a combinator spells an operand (`Exp.Spells`), and the operand written out again is
spelled by what was written.  Two expressions that spell one operand differ in spans only, so they
are evaluated alike.  Hence a combinator that was taken apart and put together again is the same one
but for the spans of its arguments: it is taken apart into the same stage, and wherever it is
evaluated it has the same outcome and makes the same calls (`Stage.toExp_restores`).
-/

namespace ArrayFusion

/-! ## Arguments -/

/-- The expression spells the operand, at whatever span. -/
inductive Exp.Spells : Exp → Operand → Prop
  | whole {x : Ident} {s : Span} : Spells (.var x s) (.whole x)
  | row {x : Ident} {is : List Exp} {s : Span} : Spells (.index x is s) (.row x is)
  | transposed {x : Ident} {s s' : Span} : Spells (.unary .transpose (.var x s) s') (.transposed x)
  | range {n : Exp} {s : Span} : Spells (.unary .iota n s) (.range n)

/-- The two expressions are the same but for the spans of their outermost nodes, or of a variable
under a transposition. -/
inductive Exp.Respanned : Exp → Exp → Prop
  | var {x : Ident} {s t : Span} : Respanned (.var x s) (.var x t)
  | index {x : Ident} {is : List Exp} {s t : Span} : Respanned (.index x is s) (.index x is t)
  | transpose {x : Ident} {s s' t t' : Span} :
    Respanned (.unary .transpose (.var x s) s') (.unary .transpose (.var x t) t')
  | iota {n : Exp} {s t : Span} : Respanned (.unary .iota n s) (.unary .iota n t)

section

variable {e e' : Exp} {a : Operand}

/-- An expression spells the operand that is read off it. -/
theorem Operand.spells_of_ofExp? (h : Operand.ofExp? e = some a) : e.Spells a := by
  unfold Operand.ofExp? at h
  split at h <;> try split at h
  all_goals cases h
  · exact .whole
  · exact .row
  · exact .transposed
  · exact .range

/-- The expression of an operand spells it. -/
theorem Operand.spells_toExp (a : Operand) (s : Span) : (a.toExp s).Spells a := by
  cases a with
  | whole x => exact .whole
  | row x is => exact .row
  | transposed x => exact .transposed
  | range n => exact .range

/-- Two expressions that spell one operand are equal up to spans. -/
theorem Exp.Spells.respanned (h : e.Spells a) (h' : e'.Spells a) : e.Respanned e' := by
  cases h with
  | whole => cases h'; exact .var
  | row => cases h'; exact .index
  | transposed => cases h'; exact .transpose
  | range => cases h'; exact .iota

/-- Whether an expression is an operand does not depend on its spans, and neither does which one. -/
theorem Exp.Respanned.ofExp?_eq (h : e.Respanned e') : Operand.ofExp? e = Operand.ofExp? e' := by
  cases h <;> rfl

/-- Expressions that are equal up to spans are evaluated alike. -/
theorem Exp.Respanned.eval_eq {τ : Type} (h : e.Respanned e') (call : CalleeOver τ) (env : Env) :
    e.eval call env = e'.eval call env := by
  cases h <;> rfl

/-- What is read off the expression of an operand is the operand. -/
theorem Operand.ofExp?_toExp (h : Operand.ofExp? e = some a) (s : Span) :
    Operand.ofExp? (a.toExp s) = some a :=
  ((a.spells_toExp s).respanned (spells_of_ofExp? h)).ofExp?_eq.trans h

end

/-! ## Combinators -/

section

variable {op : Combinator} {args : List Exp} {as : List Operand} {certs : Certificates} {s : Span}
    {g : Stage}

/-- The operands of a stage are read off the arguments one by one. -/
theorem Stage.operandOf_eq_ok {e : Exp} {a : Operand} :
    operandOf s e = .ok a ↔ Operand.ofExp? e = some a := by
  rw [operandOf]
  cases Operand.ofExp? e <;> simp

/-- The stage of a combinator has an operand for each argument. -/
theorem Stage.ofExp?_eq_ok (h : Stage.ofExp? (.soac op args certs s) = .ok (some g)) :
    ∃ as, List.Forall₂ (fun e a => Operand.ofExp? e = some a) args as ∧ g = ⟨op, as, certs, s⟩ := by
  obtain ⟨as, has, hg⟩ := Except.bind_eq_ok.1 h
  cases hg
  exact ⟨as, (Except.mapM_eq_ok.1 has).imp fun _ _ => Stage.operandOf_eq_ok.1, rfl⟩

/-- A combinator whose arguments are operands is read as a stage of them. -/
theorem Stage.ofExp?_of_operands (h : List.Forall₂ (fun e a => Operand.ofExp? e = some a) args as) :
    Stage.ofExp? (.soac op args certs s) = .ok (some ⟨op, as, certs, s⟩) := by
  have hargs : args.mapM (operandOf s) = .ok as :=
    Except.mapM_eq_ok.2 (h.imp fun _ _ => operandOf_eq_ok.2)
  rw [Stage.ofExp?, hargs]
  rfl

/-- The operands of a combinator, written out where the combinator stands. -/
theorem Stage.respanned_operands (h : List.Forall₂ (fun e a => Operand.ofExp? e = some a) args as)
    (s : Span) : List.Forall₂ Exp.Respanned args (as.map (·.toExp s)) :=
  List.forall₂_map_right_iff.2 (h.imp fun _ a ha =>
    (Operand.spells_of_ofExp? ha).respanned (a.spells_toExp s))

/-- Each operand is read back from what it is written as. -/
theorem Stage.operands_toExp (h : List.Forall₂ (fun e a => Operand.ofExp? e = some a) args as)
    (s : Span) : List.Forall₂ (fun e a => Operand.ofExp? e = some a) (as.map (·.toExp s)) as := by
  induction h with
  | nil => exact .nil
  | cons ha _ ih => exact .cons (Operand.ofExp?_toExp ha s) ih

/-- The expression of a stage is evaluated like the one it is read off. -/
theorem Stage.eval_ofExp? {τ : Type} {call : CalleeOver τ} {env : Env} {e : Exp}
    (h : Stage.ofExp? e = .ok (some g)) : g.toExp.eval call env = e.eval call env := by
  cases e with
  | soac op args certs s =>
    obtain ⟨as, has, rfl⟩ := Stage.ofExp?_eq_ok h
    have hsame : List.Forall₂ (fun e e' => e'.eval call env = e.eval call env) args
        (as.map (·.toExp s)) :=
      (respanned_operands has s).imp fun _ _ he => (he.eval_eq call env).symm
    rw [Stage.toExp, Exp.eval, Exp.eval, Exp.evalArrays_eq hsame, hsame.length_eq]
  | _ => cases h

end

/-- A combinator that was taken apart and put together again: it is taken apart into the same stage,
it is the same one but for the spans of its arguments, and every program evaluates it alike, with
the same calls. -/
theorem Stage.toExp_restores {e : Exp} {g : Stage} (h : Stage.ofExp? e = .ok (some g)) :
    Stage.ofExp? g.toExp = .ok (some g)
      ∧ (∃ args args', e = .soac g.op args g.certs g.span ∧ g.toExp = .soac g.op args'
        g.certs g.span
        ∧ List.Forall₂ Exp.Respanned args args')
      ∧ ∀ (p : Program) (env : Env) (t : Session), p.evaluate env g.toExp t =
        p.evaluate env e t := by
  have heval : ∀ (p : Program) (env : Env) (t : Session), p.evaluate env g.toExp t =
      p.evaluate env e t := by
    intro p env t
    rw [Program.evaluate, Program.evaluate, Stage.eval_ofExp? h]
  cases e with
  | soac op args certs s =>
    -- the operands are taken from the arguments and put back one by one
    obtain ⟨as, has, rfl⟩ := Stage.ofExp?_eq_ok h
    exact ⟨ofExp?_of_operands (operands_toExp has s),
      ⟨args, _, rfl, rfl, respanned_operands has s⟩, heval⟩
  | _ => cases h

/-- A map over an array, a row, a transposition and a range, which stand on different lines.  Put
together again it has all of them on its own line, and it still calls a function for each of the two
positions. -/
theorem Stage.toExp_restores_fourOperands :
    let xs : Ident := ⟨⟨"xs", 0⟩, .array .int⟩
    let m : Ident := ⟨⟨"m", 1⟩, .array (.array .int)⟩
    let a : Ident := ⟨⟨"a", 2⟩, .int⟩
    let b : Ident := ⟨⟨"b", 3⟩, .int⟩
    let c : Ident := ⟨⟨"c", 4⟩, .array .int⟩
    let i : Ident := ⟨⟨"i", 5⟩, .int⟩
    let plus (d e : Exp) : Exp := .binary .plus d e .int .dummy
    let p : Program := ⟨[⟨"twice", [a], .int, plus (.ofIdent a) (.ofIdent a), .dummy⟩]⟩
    let f : Lambda := ⟨[a, b, c, i],
      plus (.call "twice" [.ofIdent a] .int .dummy) (plus (.ofIdent b) (.ofIdent i)), [.int]⟩
    let e : Exp := .soac (.map f) [.var xs (.point 2 1), .index m [.lit (.int 0) (.point 3 3)]
      (.point 3 1), .unary .transpose (.var m (.point 4 2)) (.point 4 1),
        .unary .iota (.lit (.int 2) (.point 5 2)) (.point 5 1)]
      [] (.point 1 1)
    let g : Stage := ⟨.map f, [.whole xs, .row m [.lit (.int 0) (.point 3 3)], .transposed m,
      .range (.lit (.int 2) (.point 5 2))], [], .point 1 1⟩
    let env := (Env.empty.extend xs.name (.intArray [1, 2])).extend m.name
      (.array [.intArray [5, 6], .intArray [7, 8]])
    Stage.ofExp? e = .ok (some g) ∧ g.toExp ≠ e ∧ Stage.ofExp? g.toExp = .ok (some g)
      ∧ (p.evaluate env g.toExp .new).1 = .ok (.intArray [7, 11])
      ∧ (p.evaluate env g.toExp .new).2.callCount "twice" = 2 := by
  intro xs m a b c i plus p f e g env
  have htaken : Stage.ofExp? e = .ok (some g) := rfl
  obtain ⟨hagain, -, heval⟩ := Stage.toExp_restores htaken
  -- the span of the first argument differs, so the restriction to equality up to spans is needed
  have hspans : g.toExp ≠ e := by
    intro heq
    injection heq with _ hargs
    injection hargs with hfirst
    injection hfirst with _ hspan
    exact absurd hspan (by decide)
  refine ⟨htaken, hspans, hagain, ?_, ?_⟩
  · rw [heval]
    rfl
  · rw [heval]
    rfl

end ArrayFusion
