import Mathlib.Data.List.Infix
import ArrayFusion.Syntax.Occurrence
import ArrayFusion.Syntax.Traverse

/-!
# Walks that record what they meet

The hooks of a visitor may record each node before they walk over its parts.  Whatever the hooks do
besides, such a walk is a list of steps, one after another, which the expression alone determines
(`Exp.steps`): in every monad, `Exp.traverse` takes these steps and then returns the expression
(`Exp.takes_traverse`).

So a walk in which a hook fails takes the steps before the failure and no others, and what it
recorded is a prefix of what it records if nothing fails.  The identifiers that it records as
binders or as uses are those that `Exp.idents` lists, as often, though in another order
(`Exp.record_exact`).
-/

namespace ArrayFusion

namespace Visitor

/-- What a hook is called with. -/
inductive Node where
  | exp (e : Exp)
  | lambda (f : Lambda)
  | pattern (p : Pattern)
  | binder (x : Ident)
  | ident (x : Ident)
  | literal (v : Literal)
  | type (t : Ty)

/-- What a hook does at a node, in this order.  It may fail before each of these. -/
inductive Step where
  | record (n : Node)
  /-- It begins to walk over the parts. -/
  | walk (n : Node)
  /-- It is back from the parts. -/
  | leave (n : Node)

/-- The identifier that a hook for binders or for uses is called with. -/
def Node.ident? : Node → Option Ident
  | .binder x => some x
  | .ident x => some x
  | _ => none

/-- The node that a step records, if it does. -/
def Step.recorded? : Step → Option Node
  | .record n => some n
  | _ => none

/-- The nodes that the steps record. -/
def recorded (ss : List Step) : List Node := ss.filterMap Step.recorded?

/-- The steps at a node with these steps at its parts. -/
def Node.steps (n : Node) (parts : List Step) :
    List Step := .record n :: .walk n :: (parts ++ [.leave n])

section

variable {m : Type → Type} [Monad m] (take : Step → m Unit)

/-- Takes the steps at a node around the walk over its parts. -/
def around {α : Type} (n : Node) (walk : m α) : m α := do
  take (.record n)
  take (.walk n)
  let a ← walk
  take (.leave n)
  return a

/-- The walk over the parts of an identifier. -/
def walkIdent (x : Ident) : m Ident := do return ⟨x.name, ← around take (.type x.ty) (pure x.ty)⟩

/-- The visitor that takes steps at every node and changes nothing. -/
def stepping : Visitor m where
  type t := around take (.type t) (pure t)
  literal v := around take (.literal v) (pure v)
  ident x := around take (.ident x) (walkIdent take x)
  binder x := around take (.binder x) (walkIdent take x)
  pattern p := around take (.pattern p)
  lambda f := around take (.lambda f)
  exp e := around take (.exp e)

end

end Visitor

open Visitor (Node Step stepping around recorded)

/-! ## The steps of a walk -/

/-- A type is visited as a whole. -/
def Ty.steps (t : Ty) : List Step := (Node.type t).steps []

/-- A use is visited with its type. -/
def Ident.steps (x : Ident) : List Step := (Node.ident x).steps x.ty.steps

/-- A binder is visited with its type. -/
def Ident.binderSteps (x : Ident) : List Step := (Node.binder x).steps x.ty.steps

/-- A pattern is visited with its binders, in order. -/
def Pattern.steps (p : Pattern) : List Step := (Node.pattern p).steps (p.flatMap Ident.binderSteps)

mutual

/-- The steps of the walk over an expression. -/
def Exp.steps : Exp → List Step
  | .lit v s => (Node.exp (.lit v s)).steps ((Node.literal v).steps [])
  | .var x s => (Node.exp (.var x s)).steps x.steps
  | .tuple es s => (Node.exp (.tuple es s)).steps (Exp.stepsAll es)
  | .array es t s => (Node.exp (.array es t s)).steps (Exp.stepsAll es ++ t.steps)
  | .binary op a b t s => (Node.exp (.binary op a b t s)).steps (a.steps ++ (b.steps ++ t.steps))
  | .unary op e s => (Node.exp (.unary op e s)).steps e.steps
  | .cond c a b t s => (Node.exp (.cond c a b t s)).steps
    (c.steps ++ (a.steps ++ (b.steps ++ t.steps)))
  | .call f es t s => (Node.exp (.call f es t s)).steps (Exp.stepsAll es ++ t.steps)
  | .letIn p r b s => (Node.exp (.letIn p r b s)).steps (r.steps ++ (Pattern.steps p ++ b.steps))
  | .update x y is e b s => (Node.exp (.update x y is e b s)).steps
      (y.steps ++ (Exp.stepsAll is ++ (e.steps ++ (x.binderSteps ++ b.steps))))
  | .index x is s => (Node.exp (.index x is s)).steps (x.steps ++ Exp.stepsAll is)
  | .replicate n e s => (Node.exp (.replicate n e s)).steps (n.steps ++ e.steps)
  | .loop p is i n b r s => (Node.exp (.loop p is i n b r s)).steps
      (Exp.stepsAll is ++ (n.steps ++ (Pattern.steps p ++ (i.binderSteps ++ (b.steps ++ r.steps)))))
  | .soac op es cs s => (Node.exp (.soac op es cs s)).steps
      (cs.flatMap Ident.steps ++ (op.steps ++ Exp.stepsAll es))

/-- The steps of the walk over a list of expressions. -/
def Exp.stepsAll : List Exp → List Step
  | [] => []
  | e :: es => e.steps ++ Exp.stepsAll es

/-- The steps of the walk over a lambda. -/
def Lambda.steps : Lambda → List Step
  | ⟨ps, b, ts⟩ => (Node.lambda ⟨ps, b, ts⟩).steps
      (ps.flatMap Ident.binderSteps ++ (b.steps ++ ts.flatMap Ty.steps))

/-- The steps of the walk over the lambdas and the neutral elements of a combinator. -/
def Combinator.steps : Combinator → List Step
  | .map f => f.steps
  | .reduce f ne => f.steps ++ Exp.stepsAll ne
  | .scan f ne => f.steps ++ Exp.stepsAll ne
  | .filter p => p.steps
  | .redomap f g ne => f.steps ++ (g.steps ++ Exp.stepsAll ne)

end

section

variable {m : Type → Type} [Monad m] {take : Step → m Unit}

/-- The computation takes the steps, and then it returns the value. -/
def Takes {α : Type} (take : Step → m Unit) (ss : List Step) (a : α) (x : m α) : Prop :=
  x = do
    ss.forM take
    return a

variable [LawfulMonad m]

namespace Takes

variable {α β : Type} {ss ts : List Step} {a : α} {b : β} {x : m α} {f : α → m β}

/-- What is there already takes no steps. -/
theorem pure (a : α) : Takes take [] a (Pure.pure a) := by simp [Takes]

/-- Two walks take the steps of the first one and then those of the second one. -/
theorem bind (hx : Takes take ss a x) (hf : Takes take ts b (f a)) :
    Takes take (ss ++ ts) b (x >>= f) := by
  unfold Takes at *
  rw [hx]
  simp [hf]

/-- What is done last is to put the parts together. -/
theorem last (g : α → β) (hx : Takes take ss a x) :
    Takes take ss (g a) (x >>= fun a => Pure.pure (g a)) := by
  have h := hx.bind (f := fun a => Pure.pure (g a)) (pure (g a))
  rwa [List.append_nil] at h

/-- A node is entered, walked and left. -/
theorem around {n : Node} (hx : Takes take ss a x) :
    Takes take (n.steps ss) a (Visitor.around take n x) := by
  unfold Takes at *
  rw [Visitor.around, hx]
  simp [Node.steps]

/-- The members of a list are walked one by one. -/
theorem each {g : α → List Step} {f : α → m α} (hf : ∀ a, Takes take (g a) a (f a)) (as : List α) :
    Takes take (as.flatMap g) as (Visitor.each f as) := by
  induction as with
  | nil => exact pure []
  | cons a as ih => exact (hf a).bind (ih.last _)

theorem type (t : Ty) : Takes take t.steps t ((stepping take).type t) := (pure t).around

/-- The walk of a use takes the steps of a use. -/
theorem ident (x : Ident) : Takes take x.steps x ((stepping take).ident x) :=
    ((type x.ty).last _).around

/-- The walk of a binder takes the steps of a binder. -/
theorem binder (x : Ident) : Takes take x.binderSteps x ((stepping take).binder x) :=
  ((type x.ty).last _).around

/-- The walk of a pattern takes the steps of a pattern. -/
theorem walkPattern (p : Pattern) : Takes take (Pattern.steps p) p
    ((stepping take).walkPattern p) :=
  (each binder p).around

end Takes

mutual

/-- The walk over an expression takes its steps and changes nothing. -/
theorem Exp.takes_traverse : ∀ e : Exp, Takes take e.steps e (e.traverse (stepping take))
  | .lit v _ => ((Takes.pure v).around.last _).around
  | .var x _ => ((Takes.ident x).last _).around
  | .tuple es _ => ((Exp.takes_traverseAll es).last _).around
  | .array es t _ => ((Exp.takes_traverseAll es).bind ((Takes.type t).last _)).around
  | .binary _ a b t _ => (a.takes_traverse.bind
    (b.takes_traverse.bind ((Takes.type t).last _))).around
  | .unary _ e _ => (e.takes_traverse.last _).around
  | .cond c a b t _ =>
    (c.takes_traverse.bind (a.takes_traverse.bind
    (b.takes_traverse.bind ((Takes.type t).last _)))).around
  | .call _ es t _ => ((Exp.takes_traverseAll es).bind ((Takes.type t).last _)).around
  | .letIn p r b _ =>
    (r.takes_traverse.bind ((Takes.walkPattern p).bind (b.takes_traverse.last _))).around
  | .update x y is e b _ =>
    ((Takes.ident y).bind ((Exp.takes_traverseAll is).bind (e.takes_traverse.bind
      ((Takes.binder x).bind (b.takes_traverse.last _))))).around
  | .index x is _ => ((Takes.ident x).bind ((Exp.takes_traverseAll is).last _)).around
  | .replicate n e _ => (n.takes_traverse.bind (e.takes_traverse.last _)).around
  | .loop p is i n b r _ =>
    ((Exp.takes_traverseAll is).bind (n.takes_traverse.bind ((Takes.walkPattern p).bind
      ((Takes.binder i).bind (b.takes_traverse.bind (r.takes_traverse.last _)))))).around
  | .soac op es cs _ =>
    ((Takes.each Takes.ident cs).bind
    (op.takes_traverse.bind ((Exp.takes_traverseAll es).last _))).around

/-- The walk of a list of expressions takes their steps, one by one. -/
theorem Exp.takes_traverseAll :
    ∀ es : List Exp, Takes take (Exp.stepsAll es) es (Exp.traverseAll (stepping take) es)
  | [] => .pure []
  | e :: es => e.takes_traverse.bind ((Exp.takes_traverseAll es).last _)

/-- The walk of a lambda takes its steps. -/
theorem Lambda.takes_traverse : ∀ f : Lambda, Takes take f.steps f (f.traverse (stepping take))
  | ⟨ps, b, ts⟩ =>
    ((Takes.each Takes.binder ps).bind
    (b.takes_traverse.bind ((Takes.each Takes.type ts).last _))).around

/-- The walk of a combinator takes its steps. -/
theorem Combinator.takes_traverse :
    ∀ op : Combinator, Takes take op.steps op (op.traverse (stepping take))
  | .map f => f.takes_traverse.last _
  | .reduce f ne => f.takes_traverse.bind ((Exp.takes_traverseAll ne).last _)
  | .scan f ne => f.takes_traverse.bind ((Exp.takes_traverseAll ne).last _)
  | .filter p => p.takes_traverse.last _
  | .redomap f g ne =>
    f.takes_traverse.bind (g.takes_traverse.bind ((Exp.takes_traverseAll ne).last _))

end

end

/-! ## The identifiers that a walk records -/

namespace Visitor

/-- The identifiers that the steps record as binders or as uses. -/
def identsIn (ss : List Step) : List Ident := (recorded ss).filterMap Node.ident?

@[simp] theorem identsIn_nil : identsIn [] = [] := rfl

/-- What two lists of steps record, they record one after the other. -/
@[simp] theorem recorded_append (ss ts : List Step) :
    recorded (ss ++ ts) = recorded ss ++ recorded ts :=
  List.filterMap_append

/-- The identifiers of two lists of steps come one after the other. -/
@[simp] theorem identsIn_append (ss ts : List Step) :
    identsIn (ss ++ ts) = identsIn ss ++ identsIn ts := by
  rw [identsIn, recorded_append, List.filterMap_append]
  rfl

/-- Around a node there is at most one identifier more. -/
@[simp] theorem identsIn_steps (n : Node) (ss : List Step) :
    identsIn (n.steps ss) = n.ident?.toList ++ identsIn ss := by
  have h : recorded (n.steps ss) = n :: recorded ss := by
    change n :: recorded (ss ++ [.leave n]) = _
    rw [recorded_append]
    exact congrArg (n :: ·) (List.append_nil _)
  rw [identsIn, h, List.filterMap_cons]
  cases n.ident? <;> rfl

@[simp] theorem identsIn_type (t : Ty) : identsIn t.steps = [] := identsIn_steps _ _

@[simp] theorem identsIn_ident (x : Ident) : identsIn x.steps = [x] := by
  simp [Ident.steps, Node.ident?]

@[simp] theorem identsIn_binder (x : Ident) : identsIn x.binderSteps = [x] := by
  simp [Ident.binderSteps, Node.ident?]

/-- The steps for the members of a list record what the steps for each of them do. -/
theorem identsIn_flatMap {α : Type} (f : α → List Step) (as : List α) :
    identsIn (as.flatMap f) = as.flatMap fun a => identsIn (f a) := by
  induction as with
  | nil => rfl
  | cons a as ih => rw [List.flatMap_cons, identsIn_append, ih, List.flatMap_cons]

/-- There are no identifiers in types. -/
@[simp] theorem identsIn_types (ts : List Ty) : identsIn (ts.flatMap Ty.steps) = [] := by
  simp [identsIn_flatMap]

@[simp] theorem identsIn_idents (xs : List Ident) : identsIn (xs.flatMap Ident.steps) = xs := by
  simp [identsIn_flatMap]

@[simp] theorem identsIn_binders (xs : List Ident) :
    identsIn (xs.flatMap Ident.binderSteps) = xs := by
  simp [identsIn_flatMap]

@[simp] theorem identsIn_pattern (p : Pattern) : identsIn (Pattern.steps p) = p := by
  simp [Pattern.steps, Node.ident?]

end Visitor

open Visitor (identsIn)

-- A walk meets binders between the parts, and `Exp.idents` lists them in front, so that only the numbers of
-- occurrences can be compared.
mutual

/-- The walk over an expression records each identifier as often as it stands in it. -/
theorem Exp.count_steps (x : Ident) : ∀ e : Exp, (identsIn e.steps).count x = e.idents.count x
  | .lit _ _ => by simp [Exp.steps, Exp.idents, Node.ident?]
  | .var _ _ => by simp [Exp.steps, Exp.idents, Node.ident?]
  | .tuple es _ => by simp [Exp.steps, Exp.idents, Node.ident?, Exp.count_stepsAll x es]
  | .array es _ _ => by simp [Exp.steps, Exp.idents, Node.ident?, Exp.count_stepsAll x es]
  | .binary _ a b _ _ => by
    simp [Exp.steps, Exp.idents, Node.ident?, a.count_steps x, b.count_steps x]
  | .unary _ e _ => by simp [Exp.steps, Exp.idents, Node.ident?, e.count_steps x]
  | .cond c a b _ _ => by
    simp [Exp.steps, Exp.idents, Node.ident?, c.count_steps x, a.count_steps x, b.count_steps x]
  | .call _ es _ _ => by simp [Exp.steps, Exp.idents, Node.ident?, Exp.count_stepsAll x es]
  -- from here on code and binders are mixed, and the counts have to be sorted
  | .letIn p r b _ => by
    simp [Exp.steps, Exp.idents, Node.ident?, r.count_steps x, b.count_steps x]
    omega
  | .update y z is e b _ => by
    simp [Exp.steps, Exp.idents, Node.ident?, Exp.count_stepsAll x is, e.count_steps x,
      b.count_steps x, List.count_cons]
    omega
  | .index y is _ => by
    simp [Exp.steps, Exp.idents, Node.ident?, Exp.count_stepsAll x is, List.count_cons]
  | .replicate n e _ => by
    simp [Exp.steps, Exp.idents, Node.ident?, n.count_steps x, e.count_steps x]
  | .loop p is i n b r _ => by
    simp [Exp.steps, Exp.idents, Node.ident?, Exp.count_stepsAll x is, n.count_steps x,
      b.count_steps x, r.count_steps x, List.count_cons]
    omega
  | .soac op es cs _ => by
    simp [Exp.steps, Exp.idents, Node.ident?, op.count_steps x, Exp.count_stepsAll x es]

/-- The steps of a list of expressions have its identifiers, each as often as it stands there. -/
theorem Exp.count_stepsAll (x : Ident) :
    ∀ es : List Exp, (identsIn (Exp.stepsAll es)).count x = (Exp.identsAll es).count x
  | [] => rfl
  | e :: es => by simp [Exp.stepsAll, Exp.identsAll, e.count_steps x, Exp.count_stepsAll x es]

/-- So have those of a lambda. -/
theorem Lambda.count_steps (x : Ident) : ∀ f : Lambda, (identsIn f.steps).count x = f.idents.count x
  | ⟨ps, b, ts⟩ => by simp [Lambda.steps, Lambda.idents, Node.ident?, b.count_steps x]

/-- So have those of a combinator. -/
theorem Combinator.count_steps (x : Ident) :
    ∀ op : Combinator, (identsIn op.steps).count x = op.idents.count x
  | .map f => by simp [Combinator.steps, Combinator.idents, f.count_steps x]
  | .reduce f ne => by
    simp [Combinator.steps, Combinator.idents, f.count_steps x, Exp.count_stepsAll x ne]
  | .scan f ne => by
    simp [Combinator.steps, Combinator.idents, f.count_steps x, Exp.count_stepsAll x ne]
  | .filter p => by simp [Combinator.steps, Combinator.idents, p.count_steps x]
  | .redomap f g ne => by
    simp [Combinator.steps, Combinator.idents, f.count_steps x, g.count_steps x,
      Exp.count_stepsAll x ne]

end

/-! ## Walks in which a hook may fail -/

/-- When a hook fails: before a step, if it gives an error for the steps that were taken so far. -/
abbrev Faults (ε : Type) := List Step → Step → Option ε

namespace Faults

variable {ε : Type} (faults : Faults ε)

/-- Takes a step, unless that fails. -/
def take (s : Step) : ExceptT ε (StateM (List Step)) Unit := do
  let done ← get
  match faults done s with
  | some err => throw err
  | none => set (done ++ [s])

/-- None of the steps fails. -/
def Pass (ss : List Step) : Prop := ∀ done s, done ++ [s] <+: ss → faults done s = none

variable {faults} {ss : List Step} {s : Step}

theorem pass_nil : faults.Pass [] := fun done s h => by simp at h

/-- Steps pass if all but the last one do, and then the last one. -/
theorem pass_concat : faults.Pass (ss ++ [s]) ↔ faults.Pass ss ∧ faults ss s = none := by
  unfold Pass
  simp only [List.prefix_concat_iff]
  constructor
  · exact fun h => ⟨fun done s hdone => h done s (.inr hdone), h ss s (.inl rfl)⟩
  · rintro ⟨hss, hs⟩ done t (heq | hdone)
    · obtain ⟨rfl, ht⟩ := List.append_inj' heq rfl
      cases ht
      exact hs
    · exact hss done t hdone

/-- Either no step fails, or there is a first one that does. -/
theorem pass_or_fails (faults : Faults ε) (ss : List Step) :
    faults.Pass ss
      ∨ ∃ done s rest err, ss = done ++ s :: rest ∧ faults.Pass done
        ∧ faults done s = some err := by
  -- From the end, since whether a step fails depends on all the steps before it.
  induction ss using List.reverseRecOn with
  | nil => exact .inl pass_nil
  | append_singleton ss s ih =>
    rcases ih with hss | ⟨done, t, rest, err, rfl, hdone, ht⟩
    · cases hs : faults ss s with
      | none => exact .inl (pass_concat.2 ⟨hss, hs⟩)
      | some err => exact .inr ⟨ss, s, [], err, rfl, hss, hs⟩
    · exact .inr ⟨done, t, rest ++ [s], err, by simp, hdone, ht⟩

section

variable {α β : Type} {x : ExceptT ε (StateM (List Step)) α}
    {f : α → ExceptT ε (StateM (List Step)) β} {before after : List Step}

/-- What follows runs from the steps that were taken. -/
theorem run_bind_of_ok {a : α} (h : x.run.run before = (.ok a, after)) :
    (x >>= f).run.run before = (f a).run.run after := by
  rw [ExceptT.run_bind, StateT.run_bind, h]
  rfl

/-- Behind a hook that fails, no hook runs. -/
theorem run_bind_of_error {err : ε} (h : x.run.run before = (.error err, after)) :
    (x >>= f).run.run before = (.error err, after) := by
  rw [ExceptT.run_bind, StateT.run_bind, h]
  rfl

end

/-- A step is noted unless its hook fails. -/
theorem run_take (s : Step) (ss : List Step) : (faults.take s).run.run ss
    = match faults ss s with
      | some err => (.error err, ss)
      | none => (.ok (), ss ++ [s]) := by
  change (match faults ss s with | some err => throw err | none => set (ss ++ [s]) :
    ExceptT ε (StateM (List Step)) Unit).run.run ss = _
  cases faults ss s <;> rfl

/-- All steps are taken if none fails. -/
theorem run_of_pass (h : faults.Pass ss) : (forM ss faults.take).run.run [] = (.ok (), ss) := by
  induction ss using List.reverseRecOn with
  | nil => rfl
  | append_singleton ss s ih =>
    obtain ⟨hss, hs⟩ := pass_concat.1 h
    have htake : (faults.take s).run.run ss = (.ok (), ss ++ [s]) := by rw [run_take, hs]
    rw [List.forM_append, run_bind_of_ok (ih hss), List.forM_cons, run_bind_of_ok htake]
    rfl

/-- No step is taken after one that failed. -/
theorem run_of_fails {rest : List Step} {err : ε} (h : faults.Pass ss)
    (hs : faults ss s = some err) :
    (forM (ss ++ s :: rest) faults.take).run.run [] = (.error err, ss) := by
  have htake : (faults.take s).run.run ss = (.error err, ss) := by rw [run_take, hs]
  rw [List.forM_append, run_bind_of_ok (run_of_pass h), List.forM_cons, run_bind_of_error htake]

end Faults

/-- How the walk over an expression ends if its hooks record each node and may fail, and what they
recorded. -/
def Exp.record {ε : Type} (faults : Faults ε) (e : Exp) : Except ε Exp × List Node :=
  let (result, done) := (e.traverse (stepping faults.take)).run.run []
  (result, recorded done)

section

variable {ε : Type} {faults : Faults ε} {e : Exp}

/-- Without a fault all steps are recorded, and the expression is returned. -/
theorem Exp.record_of_pass (h : faults.Pass e.steps) :
    e.record faults = (.ok e, recorded e.steps) := by
  have hrun : (e.traverse (stepping faults.take)).run.run [] = (.ok e, e.steps) := by
    rw [e.takes_traverse, List.forM_eq_forM, Faults.run_bind_of_ok (Faults.run_of_pass h)]
    rfl
  rw [Exp.record, hrun]

/-- With a fault the steps in front of it are recorded, and its error is returned. -/
theorem Exp.record_of_fails {done rest : List Step} {s : Step} {err : ε}
    (hsteps : e.steps = done ++ s :: rest) (h : faults.Pass done) (hs : faults done s = some err) :
    e.record faults = (.error err, recorded done) := by
  have hrun : (e.traverse (stepping faults.take)).run.run [] = (.error err, done) := by
    rw [e.takes_traverse, List.forM_eq_forM, hsteps]
    exact Faults.run_bind_of_error (Faults.run_of_fails h hs)
  rw [Exp.record, hrun]

end

/-- Hooks that record each node before they walk over its parts meet, as binders or as uses, exactly
the identifiers of the expression, each as often as it stands there.  If a hook fails, the walk ends
with the error of the first one that does; what was recorded until then is a prefix of what is
recorded if none fails. -/
theorem Exp.record_exact {ε : Type} (e : Exp) (faults : Faults ε) :
    ∃ nodes, e.record (fun _ _ => (none : Option ε)) = (.ok e, nodes)
      ∧ (nodes.filterMap Node.ident?).Perm e.idents
      ∧ ((faults.Pass e.steps ∧ e.record faults = (.ok e, nodes))
        ∨ ∃ done s err, done ++ [s] <+: e.steps ∧ faults.Pass done ∧ faults done s = some err
          ∧ e.record faults = (.error err, recorded done) ∧ recorded done <+: nodes) := by
  refine ⟨recorded e.steps, Exp.record_of_pass fun _ _ _ => rfl, ?_, ?_⟩
  · exact List.perm_iff_count.2 fun x => e.count_steps x
  · rcases faults.pass_or_fails e.steps with h | ⟨done, s, rest, err, hsteps, h, hs⟩
    · exact .inl ⟨h, Exp.record_of_pass h⟩
    · refine .inr ⟨done, s, err, ⟨rest, by simp [hsteps]⟩, h, hs,
        Exp.record_of_fails hsteps h hs, ?_⟩
      rw [hsteps, Visitor.recorded_append]
      exact List.prefix_append _ _

/-- The right-hand side of a `let` comes before what it binds, and this before the body. -/
example (x y : Ident) : identsIn (Exp.bind [x] (.ofIdent y) (.ofIdent x)).steps = [y, x, x] := rfl

end ArrayFusion
