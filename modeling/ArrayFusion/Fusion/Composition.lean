import ArrayFusion.Fusion.Config
import ArrayFusion.Fusion.Kernel

/-!
# Composing a producer with its consumer

A producer computes some outputs that a kernel reads.  Fusing the two gives one stage with the
results of the kernel, in which the outputs are never built.  There are three recipes.

* A map into a map or a fold: the body of the producer comes in front of that of the consumer, and
  binds its results to the parameters that read them.
* A filter into a fold: the predicate guards the step of the fold, and a rejected element leaves the
  accumulators as they are.
* A filter into a filter: the predicate of the producer guards that of the consumer.

A reduction is made a redomap first.  Nothing is fused into a scan, and only maps and filters are
fused into anything.  `compatible` says which pairs have a recipe, and `Producer.fuseInto` follows
it.
-/

namespace ArrayFusion

/-- A computation that takes fresh names and may fail.  The names that it took are gone then. -/
abbrev Fresh := StateT NameSupply (Except (Failure NameSupply))

namespace Fresh

/-- Takes names from the supply. -/
def take {α : Type} (f : NameSupply → α × NameSupply) : Fresh α := fun s => .ok (f s)

/-- A fresh identifier with the given base and type. -/
def ident (base : String) (ty : Ty) : Fresh Ident := take fun s => s.ident base ty

/-- A fresh identifier with the base and the type of `x`. -/
def identLike (x : Ident) : Fresh Ident := take fun s => s.freshIdent x

/-- A computation that takes no names. -/
def lift {α : Type} (a : Except FusionError α) : Fresh α := fun s =>
  match a with
  | .ok x => .ok (x, s)
  | .error e => .error ⟨e, s⟩

end Fresh

/-- A stage that is to be fused, and what its results are bound to. -/
structure Producer where
  stage : Stage
  outputs : List Ident

/-- May a stage with these outputs be fused into the kernel?  A map may if the kernel reads each of
its outputs as a whole and none of them in another way; a filter may if the kernel reads nothing but
its outputs, as a whole. -/
def compatible (c : Config) (producer : Stage) (outs : List Name) (k : Kernel) : Bool :=
  let operands := k.stage.operands
  let reads (x : Name) (a : Operand) : Bool := a.whole?.any (·.name == x)
  let whole (a : Operand) : Bool := outs.any fun x => reads x a
  let touches (a : Operand) : Bool := a.name?.any outs.contains
  match producer.kind, k.stage.kind with
  | .map, .map | .map, .reduce | .map, .redomap =>
    -- a kernel that also needs an output in another way still needs it to be built
    outs.all (fun x => operands.any (reads x)) && operands.all fun a => whole a || !touches a
  | .filter, .filter | .filter, .reduce | .filter, .redomap =>
    -- without operands nothing says how long the arrays are
    c.filterFusion && !operands.isEmpty && operands.all whole
  | _, _ => false

namespace Recipe

/-- The position of the output that an operand reads as a whole. -/
def link (outs : List Ident) (a : Operand) : Option Nat :=
  a.whole?.bind fun x => outs.findIdx? (·.name == x.name)

/-- Fails unless the lambda has so many parameters. -/
def checkParams (role : Role) (f : Lambda) (expected : Nat) : Except FusionError Unit :=
  if f.params.length = expected then .ok ()
  else .error ⟨f.body.span, .parameterCount role f.params.length expected⟩

/-- Gives identifiers the values of others, one after another, around a body. -/
def forward (bindings : List (Ident × Ident)) (body : Exp) : Exp :=
  bindings.foldr (fun (x, source) body => .bind [x] (.ofIdent source) body) body

/-- Parameters with the operands that they range over, without two for one source, and the
parameters that were left out, each with the one that has its values. -/
structure Coalesced where
  kept : List (Ident × Operand)
  forwards : List (Ident × Ident)

/-- Adds a parameter, unless one that is kept already ranges over the same source. -/
def Coalesced.add (l : Coalesced) (e : Ident × Operand) : Coalesced :=
  match l.kept.find? fun kept => kept.2.sameSource e.2 with
  | some kept => { l with forwards := l.forwards ++ [(e.1, kept.1)] }
  | none => { l with kept := l.kept ++ [e] }

/-- Makes one parameter of all those that range over the same source.  The first `acc` parameters
are accumulators, and an operand belongs to each of the others. -/
def dedupOperands (f : Lambda) (operands : List Operand) (acc : Nat) : Lambda × List Operand :=
  let l := ((f.params.drop acc).zip operands).foldl Coalesced.add ⟨[], []⟩
  (⟨f.params.take acc ++ l.kept.map (·.1), forward l.forwards f.body, f.rets⟩, l.kept.map (·.2))

/-- How the parameters of a consumer get their values from a producer in front of it. -/
structure Linking where
  /-- The parameter that each output is bound to, by the position of the output. -/
  binders : List (Nat × Ident)
  /-- Further parameters that read an output, each with the one that it is bound to. -/
  forwards : List (Ident × Ident)
  /-- The parameters that read something else, with their operands. -/
  others : List (Ident × Operand)

/-- Takes a parameter of the consumer into account. -/
def Linking.add (outs : List Ident) (l : Linking) (e : Ident × Operand) : Linking :=
  match link outs e.2 with
  | none => { l with others := l.others ++ [e] }
  | some i =>
    match l.binders.lookup i with
    | none => { l with binders := (i, e.1) :: l.binders }
    | some x => { l with forwards := l.forwards ++ [(e.1, x)] }

/-- The pattern that the results of the producer are bound to: for each output the parameter that
reads it, or a fresh identifier. -/
def Linking.pattern (l : Linking) (outs : List Ident) (rets : List Ty) : Fresh Pattern :=
  (outs.zip rets).zipIdx.mapM fun ((out, ty), i) =>
    match l.binders.lookup i with
    | some x => pure x
    | none => Fresh.ident out.name.base ty

/-- The lambda `c`, whose first `acc` parameters are accumulators, behind the map `p`. -/
def afterMap (p : Lambda) (pOperands : List Operand) (outs : List Ident) (c : Lambda) (acc : Nat)
    (cOperands : List Operand) : Fresh (Lambda × List Operand) := do
  Fresh.lift (checkParams .producer p pOperands.length)
  Fresh.lift (checkParams .consumer c (acc + cOperands.length))
  -- the accumulators get nothing from the producer
  let l := ((c.params.drop acc).zip cOperands).foldl (Linking.add outs) ⟨[], [], []⟩
  let pattern ← l.pattern outs p.rets
  let body := Exp.bind pattern p.body (forward l.forwards c.body)
  return dedupOperands
    ⟨c.params.take acc ++ (p.params ++ l.others.map (·.1)), body, c.rets⟩
    (pOperands ++ l.others.map (·.2)) acc

/-- What a filter ranges over at one position, and the output that it fills from there. -/
structure Source where
  output : Ident
  param : Ident
  operand : Operand

/-- The sources of a filter. -/
def sources (outs params : List Ident) (operands : List Operand) : List Source :=
  (outs.zip (params.zip operands)).map fun (x, q, a) => ⟨x, q, a⟩

/-- The parameters of a consumer that reads nothing but the outputs of a filter, each with the
position and the source of the output that it reads. -/
def readers? (ss : List Source) (params : List Ident) (operands : List Operand) :
    Option (List (Ident × Nat × Source)) :=
  (params.zip operands).mapM fun (q, a) => do
    let i ← link (ss.map (·.output)) a
    return (q, i, ← ss[i]?)

/-- The body `guarded` behind the predicate `p`, and `otherwise` where that does not hold. -/
def guardedBy (p : Lambda) (guarded otherwise : Exp) (ty : Ty) : Fresh Exp := do
  let check ← Fresh.ident "check" .bool
  return .bind [check] p.body (.cond (.ofIdent check) guarded otherwise ty .dummy)

/-- The step `c` of a fold, whose first `acc` parameters are accumulators, behind the filter `p`. -/
def foldAfterFilter (p : Lambda) (pOperands : List Operand) (outs : List Ident) (c : Lambda)
    (acc : Nat) (cOperands : List Operand) : Fresh (Option (Lambda × List Operand)) := do
  Fresh.lift (checkParams .predicate p pOperands.length)
  Fresh.lift (checkParams .consumer c (acc + cOperands.length))
  match readers? (sources outs p.params pOperands) (c.params.drop acc) cOperands with
  | none => return none
  | some readers =>
    let accs := c.params.take acc
    let forwards := readers.map fun (q, _, s) => (q, s.param)
    -- a rejected element gives the accumulators back
    let body ← guardedBy p (forward forwards c.body) (.results (accs.map .ofIdent))
      (.ofResults c.rets)
    return some (dedupOperands ⟨accs ++ p.params, body, c.rets⟩ pOperands acc)

/-- The parameters of the consumer, each with the parameter of the producer that has its value and
the operand that this one ranges over.  A source that is read once more gets a fresh parameter. -/
def readInOrder (seen : List Nat) :
    List (Ident × Nat × Source) → Fresh (List (Ident × Ident × Operand))
  | [] => return []
  | (q, i, s) :: rest => do
    let x ← if seen.contains i then Fresh.identLike s.param else pure s.param
    return (q, x, s.operand) :: (← readInOrder (i :: seen) rest)

/-- The filter `c` behind the filter `p`.  The operands come in the order in which the consumer
reads the outputs, so that its outputs keep their places; behind them come the operands that only
the predicate of the producer needs, with fresh outputs that no one uses. -/
def filterAfterFilter (p : Lambda) (pOperands : List Operand) (outs : List Ident) (c : Lambda)
    (cOperands : List Operand) (cOutputs : List Ident) :
    Fresh (Option (Lambda × List Operand × List Ident)) := do
  Fresh.lift (checkParams .predicate p pOperands.length)
  Fresh.lift (checkParams .predicate c cOperands.length)
  let ss := sources outs p.params pOperands
  match readers? ss c.params cOperands with
  | none => return none
  | some readers =>
    let read ← readInOrder [] readers
    -- the predicate of the producer may look at sources that no output of the consumer comes from
    let unread := (ss.zipIdx.filter fun (_, i) => !readers.any (·.2.1 == i)).map (·.1)
    let unused ← unread.mapM fun s => Fresh.identLike s.output
    let forwards := read.map fun (q, x, _) => (q, x)
    -- a rejected element is rejected by the whole filter
    let body ← guardedBy p (forward forwards c.body) (.lit (.bool false) .dummy) .bool
    return some
      (⟨read.map (·.2.1) ++ unread.map (·.param), body, [.bool]⟩,
        read.map (·.2.2) ++ unread.map (·.operand), cOutputs ++ unused)

end Recipe

namespace Producer

/-- The names of the outputs. -/
def names (p : Producer) : List Name := p.outputs.map (·.name)

/-- Fails unless there is an output for each result. -/
def checkOutputs (p : Producer) : Except FusionError Unit :=
  if p.stage.arity = p.outputs.length then .ok ()
  else .error ⟨p.stage.span, .bindingArity p.stage.kind p.stage.arity p.outputs.length⟩

open Recipe in
/-- The combinator, the operands and the outputs of the consumer `c` with the outputs `outs` behind
the producer, if there is a recipe for the two. -/
def compose (p : Producer) (c : Stage) (outs : List Ident) :
    Fresh (Option (Combinator × List Operand × List Ident)) := do
  match p.stage.op, c.op with
  | .map f, .map g =>
    let (g, operands) ← afterMap f p.stage.operands p.outputs g 0 c.operands
    return some (.map g, operands, outs)
  | .map f, .redomap outer g ne =>
    let (g, operands) ← afterMap f p.stage.operands p.outputs g ne.length c.operands
    return some (.redomap outer g ne, operands, outs)
  | .filter f, .filter g =>
    match ← filterAfterFilter f p.stage.operands p.outputs g c.operands outs with
    | some (g, operands, outs) => return some (.filter g, operands, outs)
    | none => return none
  | .filter f, .redomap outer g ne =>
    match ← foldAfterFilter f p.stage.operands p.outputs g ne.length c.operands with
    | some (g, operands) => return some (.redomap outer g ne, operands, outs)
    | none => return none
  | _, _ => return none

/-- The kernel with the producer fused into it, if there is a recipe for the two. -/
def fuseInto (p : Producer) (k : Kernel) : Fresh (Option Kernel) := do
  Fresh.lift p.checkOutputs
  Fresh.lift k.checkArity
  -- a reduction has no recipe of its own
  let c ← Fresh.take k.stage.asRedomap
  match ← p.compose c k.outputs with
  | none => return none
  | some (op, operands, outputs) =>
    let fused := { k with
      stage := ⟨op, operands, Certificates.union p.stage.certs k.stage.certs, k.stage.span⟩
      outputs
      fused := k.fused ++ p.names }
    -- a recipe may add outputs, and must add as many results
    Fresh.lift fused.checkArity
    return some fused

end Producer

end ArrayFusion
