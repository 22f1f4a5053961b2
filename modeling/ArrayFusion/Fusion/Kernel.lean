import ArrayFusion.Fusion.Stage

/-!
# Kernels

A kernel starts as the stage that some `let` binds, and grows by the producers that are fused into
it.  When it is emitted it takes the place of that `let`: its stage is bound to `outputs`, and the
`transforms` compute the names of the `let` from them where the two differ.

`Kernel.pullTransposes` makes such a difference.  A map over transposed arrays whose body is just
another map over the rows computes the transposition of the map over the arrays themselves, so the
kernel reads the arrays directly and transposes its outputs.
-/

namespace ArrayFusion

/-- A transposition behind a kernel: `to` is `from` with its outer dimensions exchanged. -/
structure Transform where
  source : Ident
  target : Ident
deriving DecidableEq

/-- Wraps a body into the `let` that computes the target. -/
def Transform.bind (t : Transform) (body : Exp) : Exp :=
  .bind [t.target] (.unary .transpose (.ofIdent t.source) .dummy) body

/-- A stage with everything that was fused into it. -/
structure Kernel where
  id : KernelId
  stage : Stage
  /-- What the results of the stage are bound to. -/
  outputs : List Ident
  /-- What the `let` binds that the kernel stands for. -/
  pattern : Pattern
  /-- How the names of `pattern` are computed from `outputs` where they differ. -/
  transforms : List Transform
  /-- The names that are no longer computed, because their producers are part of the kernel. -/
  fused : List Name
  /-- The arrays that are updated in place before the kernel runs and after a producer that could be
  fused into it. -/
  inplace : List Name

namespace Kernel

/-- The kernel for a `let` that binds the results of a stage. -/
def new (id : KernelId) (g : Stage) (p : Pattern) : Kernel := ⟨id, g, p, p, [], [], []⟩

/-- Was anything fused into it? -/
def isFused (k : Kernel) : Bool := !k.fused.isEmpty

/-- Does it stand for a `let` that binds exactly these names? -/
def binds (k : Kernel) (xs : List Name) : Bool := k.pattern.names == xs

/-- Fails unless there is an output for each result. -/
def checkArity (k : Kernel) : Except FusionError Unit :=
  if k.outputs.length = k.stage.arity then .ok ()
  else
    .error ⟨k.stage.span, .kernelArity k.id k.outputs.length k.stage.kind k.stage.arity⟩

/-- Wraps a body into its transforms, the last one innermost. -/
def bindTransforms (k : Kernel) (body : Exp) : Exp := k.transforms.foldr Transform.bind body

/-- Notes an update in place before the kernel. -/
def noteUpdate (x : Name) (k : Kernel) : Kernel :=
  if k.inplace.contains x then k else { k with inplace := x :: k.inplace }

end Kernel

/-- Is the expression just a use of the identifier? -/
def Exp.isUseOf (x : Ident) : Exp → Bool
  | .var y _ => y.name == x.name
  | _ => false

/-- Are the expressions just uses of the identifiers, in order? -/
def Exp.areUsesOf (xs : List Ident) (es : List Exp) : Bool :=
  es.length == xs.length && (es.zip xs).all fun (e, x) => e.isUseOf x

/-- Is the expression just the identifiers as results: the only one, or else a tuple of them? -/
def Exp.returns (xs : List Ident) (e : Exp) : Bool :=
  match xs, e with
  | [x], e => e.isUseOf x
  | xs, .tuple es _ => Exp.areUsesOf xs es
  | _, _ => false

/-- A map whose lambda does nothing but map over its own parameters. -/
structure Nest where
  /-- The parameters of the outer lambda. -/
  rows : List Ident
  /-- The lambda of the inner map. -/
  inner : Lambda
  /-- What the results of the inner map are bound to. -/
  results : Pattern
  certs : Certificates
  span : Span
  /-- The types of the results of the outer lambda. -/
  rets : List Ty

/-- A lambda as a nest: its body maps over exactly its parameters, in order, returns the results,
and uses the parameters for nothing else. -/
def Nest.ofLambda? : Lambda → Option Nest
  | ⟨rows, .letIn results (.soac (.map inner) args certs span) returned _, rets⟩ =>
    if Exp.areUsesOf rows args && returned.returns results
        -- a row that the inner lambda reads as a whole cannot be taken apart
        && !inner.freeVars.any (fun x => rows.any (·.name == x.name)) then
      some ⟨rows, inner, results, certs, span, rets⟩
    else none
  | _ => none

/-- Fresh identifiers like those given. -/
def NameSupply.freshIdents (s : NameSupply) : List Ident → List Ident × NameSupply
  | [] => ([], s)
  | x :: xs =>
    let (y, s) := s.freshIdent x
    let (ys, s) := s.freshIdents xs
    (y :: ys, s)

/-- The nest as a lambda whose parameters and results are fresh. -/
def Nest.toLambda (n : Nest) (s : NameSupply) : Lambda × NameSupply :=
  let (rows, s) := s.freshIdents n.rows
  let (results, s) := s.freshIdents n.results
  (⟨rows, .bind results (.soac (.map n.inner) (rows.map .ofIdent) n.certs n.span)
    (.results (results.map .ofIdent)), n.rets⟩, s)

/-- The arrays of operands that are all transposed. -/
def Operand.allTransposed? (as : List Operand) : Option (List Ident) :=
  as.mapM fun
    | .transposed x => some x
    | _ => none

namespace Kernel

/-- Makes a map over transposed arrays read the arrays directly, with transposed outputs, if its
lambda is a nest.  Any other kernel stays. -/
def pullTransposes (k : Kernel) (s : NameSupply) : Kernel × NameSupply :=
  -- once is enough: a second time would transpose the outputs back
  if !k.transforms.isEmpty || k.stage.operands.isEmpty then (k, s)
  else
    match Operand.allTransposed? k.stage.operands, k.stage.op with
    | some arrays, .map f =>
      match Nest.ofLambda? f with
      | some nest =>
        if arrays.length = nest.rows.length then
          let (f, s) := nest.toLambda s
          let (outputs, s) := s.freshIdents k.outputs
          ({ k with
            stage := { k.stage with op := .map f, operands := arrays.map .whole }
            outputs
            transforms := (outputs.zip k.outputs).map fun (x, y) => ⟨x, y⟩ }, s)
        else (k, s)
      | none => (k, s)
    | _, _ => (k, s)

end Kernel

end ArrayFusion
