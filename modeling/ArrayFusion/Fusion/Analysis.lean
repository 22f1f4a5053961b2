import ArrayFusion.Fusion.Composition
import ArrayFusion.Fusion.Decision
import ArrayFusion.Fusion.Emission
import ArrayFusion.Syntax.Occurrence

/-!
# Finding what can be fused

A function is analysed from its end to its beginning.  When a combinator that a `let` binds is met,
all code that could read its results is known.  Either every kernel that reads them can take the
combinator in, and then each of them does, or the combinator becomes a kernel of its own.

A copy of a value `replicate`d to an array is as good as a map over a range, and cheap to compute
twice.  It can be fused even if the array is used elsewhere, and its `let` then stays for the other
uses.
-/

namespace ArrayFusion

/-- What the analysis of a function has used up and decided so far. -/
structure Progress where
  names : NameSupply
  /-- The number of the next kernel. -/
  nextKernel : Nat
  /-- The decisions, in the order in which they were taken. -/
  decisions : List Decision

/-- An analysis: it takes names and kernel ids, takes decisions, and may fail. -/
abbrev Analysis := StateT Progress (Except (Failure Progress))

namespace Analysis

/-- A computation that takes fresh names. -/
def fresh {α : Type} (a : Fresh α) : Analysis α := fun p =>
  match a p.names with
  | .ok (x, names) => .ok (x, { p with names })
  | .error e => .error ⟨e.error, { p with names := e.state }⟩

/-- A computation that neither takes nor decides anything. -/
def lift {α : Type} (a : Except FusionError α) : Analysis α := fun p =>
  match a with
  | .ok x => .ok (x, p)
  | .error e => .error ⟨e, p⟩

/-- A kernel id that was not used before.  Ids have no width: a function would have to hold 2 ^ 32
combinators before that could be noticed. -/
def freshKernelId : Analysis KernelId := fun p =>
  .ok (⟨p.nextKernel⟩, { p with nextKernel := p.nextKernel + 1 })

/-- Notes a decision behind the others. -/
def note (d : Decision) : Analysis Unit := fun p =>
  .ok ((), { p with decisions := p.decisions ++ [d] })

end Analysis

/-- What a stage that is to be fused stands for. -/
inductive Origin where
  /-- A combinator of the program. -/
  | combinator
  /-- A replicated value, whose `let` may stay and which never becomes a kernel. -/
  | replicate
deriving DecidableEq

/-- Replaces the lambdas of a combinator, in order. -/
def Combinator.mapLambdas {m : Type → Type} [Monad m] (f : Lambda → m Lambda) :
    Combinator → m Combinator
  | .map g => do return .map (← f g)
  | .reduce g ne => do return .reduce (← f g) ne
  | .scan g ne => do return .scan (← f g) ne
  | .filter p => do return .filter (← f p)
  | .redomap g h ne => do
    let g ← f g
    return .redomap g (← f h) ne

namespace Registry

/-- A copy of a stage with fresh binders.  Its lambdas are emitted before they are copied, because
the kernels in them are known under their present names only. -/
def copyOf (r : Registry) (g : Stage) : Fresh Stage := do
  let op ← g.op.mapLambdas fun f => do
    let f ← Fresh.lift (r.emitLambda f)
    Fresh.take f.freshen
  return { g with op }

/-- Fuses a stage into each of some kernels, unless there is no recipe for one of them.  Each kernel
behind the first takes a copy. -/
def fuseIntoAll (r : Registry) (g : Stage) (outs : List Ident) (first : Bool) :
    List Kernel → Fresh (Option (List Kernel))
  | [] => return some []
  | k :: ks => do
    let stage ← if first then pure g else r.copyOf g
    match ← (Producer.mk stage outs).fuseInto k with
    | none => return none
    | some k =>
      match ← r.fuseIntoAll g outs false ks with
      | none => return none
      | some ks => return some (k :: ks)

/-- The kernels that read the results of a stage, with the stage fused into them, or why it cannot
be. -/
def tryFuse (r : Registry) (c : Config) (origin : Origin) (p : Pattern) (g : Stage) :
    Fresh (Except Reason (List Kernel)) := do
  let outs := p.names
  if origin = .combinator && outs.any r.isUnfusable then return .error .unfusable
  else
    match r.candidates outs with
    | [] => return .error .noConsumers
    | ids =>
      let ks ← Fresh.lift (ids.mapM fun id => r.kernel id g.span)
      if !ks.all (compatible c g outs) then return .error .incompatible
      else if ks.any fun k => g.reads.any k.inplace.contains then return .error .hazard
      else
        match ← r.fuseIntoAll g p true ks with
        | none => return .error .declined
        | some ks => return .ok ks

/-- Notes that kernels read an operand.  An array that another kernel reads as a whole, too, must
not be fused, as it would be computed twice; nor must one that is read row by row or transposed. -/
def recordOperand (ids : List KernelId) (r : Registry) (a : Operand) : Registry :=
  match a with
  | .whole x =>
    let readers := r.consumersOf x.name
    let recorded := { r with consumers := r.consumers.insert x.name (joined ids readers) }
    -- the readers so far must be among the kernels that read it now
    if readers.all ids.contains then recorded else recorded.forbid [x.name]
  | .transposed x => r.forbid [x.name]
  | .row x _ => r.forbid [x.name]
  | .range _ => r

/-- Notes that kernels read the operands of a stage. -/
def recordOperands (r : Registry) (ids : List KernelId) (g : Stage) : Registry :=
  g.operands.foldl (recordOperand ids) r

/-- Notes that a name is computed by a kernel, and that no kernel reads it any more. -/
def recordFused (origin : Origin) (id : KernelId) (r : Registry) (x : Name) : Registry :=
  -- whatever read it was fused with what computes it
  let r := { r with consumers := r.consumers.erase x }
  if origin = .combinator || !r.isUnfusable x then
    { r with producers := r.producers.insert x id }
  else r

/-- Puts kernels in the place of those with the same ids. -/
def putKernels (r : Registry) (ks : List Kernel) : Registry :=
  { r with kernels := ks.foldl (fun t k => t.insert k.id k) r.kernels }

/-- Notes that a stage was fused into kernels, which are given as they are now. -/
def fused (r : Registry) (origin : Origin) (p : Pattern) (g : Stage) (ks : List Kernel) :
    Registry :=
  let ids := ks.map (·.id)
  let r := match ids with
    | [] => r
    -- the first kernel stands for what was fused into several
    | id :: _ => p.names.foldl (recordFused origin id) r
  recordOperands { r.putKernels ks with succeeded := true } ids g

/-- Notes a new kernel that produces the names of its pattern. -/
def register (r : Registry) (k : Kernel) : Registry :=
  let r := { r with producers := k.pattern.names.foldl (fun t x => t.insert x k.id) r.producers }
  (r.recordOperands [k.id] k.stage).putKernels [k]

end Registry

open Analysis (fresh lift)

/-- The kernel for a combinator that stays. -/
def newKernel (c : Config) (p : Pattern) (g : Stage) : Analysis Kernel := do
  let id ← Analysis.freshKernelId
  -- transposes are pulled when a kernel is made, not when something is fused into it
  let k := Kernel.new id g p
  if c.transposePull then fresh (Fresh.take k.pullTransposes) else return k

/-- Decides about a stage whose results are bound to a pattern. -/
def place (c : Config) (origin : Origin) (p : Pattern) (g : Stage) (r : Registry) :
    Analysis Registry := do
  match ← fresh (r.tryFuse c origin p g) with
  | .ok ks =>
    Analysis.note (.fused p.names g.kind (ks.map (·.id)))
    return r.fused origin p g ks
  | .error reason =>
    match origin with
    -- the binding stays, and is no kernel
    | .replicate =>
      Analysis.note (.kept p.names g.kind none reason)
      return r
    | .combinator =>
      let k ← newKernel c p g
      Analysis.note (.kept p.names g.kind (some k.id) reason)
      return r.register k

/-- Is it a variable or a constant? -/
def Exp.isAtom : Exp → Bool
  | .var _ _ => true
  | .lit _ _ => true
  | _ => false

/-- A replicated atom as a map over a range, if it is what a single array is bound to. -/
def replicateStage (c : Config) (p : Pattern) (count value : Exp) (s : Span) :
    Fresh (Option Stage) := do
  match p with
  | [x] =>
    match c.replicateFusion && value.isAtom, x.ty.row? with
    | true, some row =>
      let i ← Fresh.ident "i" .int
      return some ⟨.map ⟨[i], value, [row]⟩, [.range count], [], s⟩
    | _, _ => return none
  | _ => return none

/-- The arrays among the free variables of a lambda. -/
def Lambda.freeArrays (f : Lambda) : List Name :=
  (f.freeVars.filter (·.isArray)).map (·.name)

mutual

/-- Analyses an expression in front of code that is known already.  If it is what a `let` binds,
`site` is the pattern. -/
def Exp.analyse (c : Config) (site : Option Pattern) (r : Registry) : Exp → Analysis Registry
  | .lit _ _ => return r
  | .var x _ => return if x.isArray then r.forbid [x.name] else r
  | .tuple es _ => Exp.analyseAll c r es
  | .array es _ _ => Exp.analyseAll c r es
  | .binary _ a b _ _ => do
    let r ← b.analyse c none r
    a.analyse c none r
  | .unary _ e _ => e.analyse c none r
  -- each arm is a region of its own, which knows nothing of the code behind
  | .cond e a b _ _ => do
    let yes ← a.analyse c none .empty
    let no ← b.analyse c none .empty
    e.analyse c none (r.mergeRegion (yes.unionBranches no) [])
  | .call _ es _ _ => Exp.analyseAll c r es
  | .letIn p e b _ => do
    let r ← b.analyse c none r
    e.analyse c (some p) r
  | .update x y is e b _ => do
    let r ← b.analyse c none r
    -- the update happens before the kernels behind it, and needs the array to be there
    let r ← e.analyse c none ((r.noteUpdate y.name).forbid [y.name, x.name])
    Exp.analyseAll c r is
  | .index x is _ => Exp.analyseAll c (r.forbid [x.name]) is
  -- offered as a map over a range before its own parts are analysed
  | .replicate n e s => do
    let r ← match site with
      | none => pure r
      | some p =>
        match ← fresh (replicateStage c p n e s) with
        | none => pure r
        | some g => place c .replicate p g r
    let r ← e.analyse c none r
    n.analyse c none r
  -- what the body reads is needed in each round, so it must not be fused into it
  | .loop _ is _ n b e _ => do
    let r ← e.analyse c none r
    let region ← b.analyse c none .empty
    let r ← n.analyse c none (r.mergeRegion region region.consumers.keys)
    Exp.analyseAll c r is
  | .soac op args certs s => do
    match site with
    | none => lift (throw ⟨s, .unboundCombinator⟩)
    | some p =>
      match ← lift (Stage.ofExp? (.soac op args certs s)) with
      | none => return r
      | some g =>
        -- the parts first, so that their kernels are there when the stage is placed
        let r ← op.analyseLambdas c r
        if p.length = g.arity then
          let r ← Exp.analyseOperands c r args
          let r ← op.analyseNeutral c r
          place c .combinator p g r
        else lift (throw ⟨s, .bindingArity g.kind g.arity p.length⟩)

/-- Analyses expressions that are evaluated from left to right. -/
def Exp.analyseAll (c : Config) (r : Registry) : List Exp → Analysis Registry
  | [] => return r
  | e :: es => do
    -- backwards, like everything in the analysis
    let r ← Exp.analyseAll c r es
    e.analyse c none r

/-- Analyses the expressions in the arguments of a combinator, which are operands. -/
def Exp.analyseOperands (c : Config) (r : Registry) : List Exp → Analysis Registry
  | [] => return r
  | e :: es => do
    let r ← Exp.analyseOperands c r es
    match e with
    | .index _ is _ => Exp.analyseAll c r is
    | .unary .iota n _ => n.analyse c none r
    | _ => return r

/-- Analyses the body of a lambda as a region of its own. -/
def Lambda.analyse (c : Config) (r : Registry) : Lambda → Analysis Registry
  | ⟨ps, b, ts⟩ => do
    let region ← b.analyse c none .empty
    return r.mergeRegion region (region.consumers.keys ++ Lambda.freeArrays ⟨ps, b, ts⟩)

/-- Analyses the lambdas of a combinator. -/
def Combinator.analyseLambdas (c : Config) (r : Registry) : Combinator → Analysis Registry
  | .map f => f.analyse c r
  | .reduce f _ => f.analyse c r
  | .scan f _ => f.analyse c r
  | .filter p => p.analyse c r
  | .redomap f g _ => do
    let r ← f.analyse c r
    g.analyse c r

/-- Analyses the neutral elements of a combinator. -/
def Combinator.analyseNeutral (c : Config) (r : Registry) : Combinator → Analysis Registry
  | .map _ => return r
  | .reduce _ ne => Exp.analyseAll c r ne
  | .scan _ ne => Exp.analyseAll c r ne
  | .filter _ => return r
  | .redomap _ _ ne => Exp.analyseAll c r ne

end

/-- Analyses a function. -/
def FunDef.analyse (c : Config) (f : FunDef) : Analysis Registry := do
  let r ← f.body.analyse c none .empty
  lift (r.clean f.span)

end ArrayFusion
