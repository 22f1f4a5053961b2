import ArrayFusion.Data.Table
import ArrayFusion.Fusion.Kernel

/-!
# The registry

What is known about the code that was analysed so far, from the end of a function backwards: the
kernels, which kernel produces an array, which kernels read it as a whole, which arrays must not be
fused, and which are updated in place.  A region with a scope of its own (a branch, the body of a
loop, a lambda) is analysed with an empty registry, which is then merged into that of the code
behind it.

The lists of names and of kernels are sets: their order and repetitions mean nothing.
-/

namespace ArrayFusion

/-- Have two lists the same members? -/
def sameMembers {α : Type} [BEq α] (xs ys : List α) : Bool :=
  xs.all ys.contains && ys.all xs.contains

/-- The members of both lists. -/
def joined {α : Type} [BEq α] (xs ys : List α) : List α := xs.foldr List.insert ys

/-- What is known about the code that was analysed so far. -/
structure Registry where
  /-- Was any producer fused? -/
  succeeded : Bool
  /-- The kernel that computes an array, or that made computing it superfluous. -/
  producers : Table Name KernelId
  /-- The kernels that read an array as a whole. -/
  consumers : Table Name (List KernelId)
  /-- The names that must not be fused. -/
  unfusable : List Name
  kernels : Table KernelId Kernel
  /-- The arrays updated in place. -/
  updated : List Name

namespace Registry

/-- Nothing is known. -/
def empty : Registry := ⟨false, .empty, .empty, [], .empty, []⟩

instance : Inhabited Registry := ⟨empty⟩

/-- The kernel of an id; it must be there. -/
def kernel (r : Registry) (id : KernelId) (s : Span) : Except FusionError Kernel :=
  match r.kernels.find? id with
  | some k => .ok k
  | none => .error ⟨s, .missingKernel id⟩

/-- The kernel that produces an array. -/
def producerOf (r : Registry) (x : Name) : Option KernelId := r.producers.find? x

/-- The kernels that read an array as a whole. -/
def consumersOf (r : Registry) (x : Name) : List KernelId := (r.consumers.find? x).getD []

/-- Must the name not be fused? -/
def isUnfusable (r : Registry) (x : Name) : Bool := r.unfusable.contains x

/-- The kernels that something was fused into, by id. -/
def fusedKernels (r : Registry) : List Kernel :=
  (r.kernels.values.filter (·.isFused)).mergeSort fun k l => k.id.index ≤ l.id.index

/-- The kernels that read any of the arrays as a whole, in ascending order and each once. -/
def candidates (r : Registry) (xs : List Name) : List KernelId :=
  (xs.flatMap r.consumersOf).eraseDups.mergeSort fun k l => k.index ≤ l.index

/-- Forbids fusing the names. -/
def forbid (r : Registry) (xs : List Name) : Registry :=
  { r with unfusable := joined xs r.unfusable }

/-- Notes an update in place, which happens before every kernel known so far. -/
def noteUpdate (r : Registry) (x : Name) : Registry :=
  { r with
    kernels := r.kernels.mapValues (·.noteUpdate x)
    updated := r.updated.insert x }

/-- What is known about either of two pieces of code. -/
def union (r q : Registry) : Registry where
  succeeded := r.succeeded || q.succeeded
  producers := r.producers.union q.producers
  consumers := r.consumers.unionWith joined q.consumers
  unfusable := joined q.unfusable r.unfusable
  kernels := r.kernels.union q.kernels
  updated := joined q.updated r.updated

/-- The names that two pieces of code know with different kernels behind them, as consumers or as
producer. -/
def conflicts (r q : Registry) : List Name :=
  r.consumers.keys.filter (fun x =>
      match r.consumers.find? x, q.consumers.find? x with
      | some ks, some ls => !sameMembers ks ls
      | _, _ => false)
    ++ r.producers.keys.filter fun x =>
      match r.producerOf x, q.producerOf x with
      | some k, some l => k != l
      | _, _ => false

/-- What is known about the two arms of a conditional.  A name with different kernels behind it in
the two arms is used along both paths, so it must not be fused. -/
def unionBranches (r q : Registry) : Registry := (r.union q).forbid (r.conflicts q)

/-- The names that kernels inside a region and other kernels outside of it read as a whole. -/
def shared (r region : Registry) : List Name :=
  region.consumers.keys.filter fun x =>
    match region.consumers.find? x, r.consumers.find? x with
    | some ks, some ls => !ls.isEmpty && !sameMembers ls ks
    | _, _ => false

/-- Adds what is known about a region to what is known about the code behind it.  The names that
escape from the region must not be fused into it, nor a name that is read as a whole on both sides
of its border.  The updates inside the region happen before every kernel behind it. -/
def mergeRegion (r region : Registry) (escaping : List Name) : Registry :=
  -- first, as the kernels of the region itself are not behind these updates
  let r := region.updated.foldl noteUpdate r
  ((r.union region).forbid escaping).forbid (r.shared region)

/-- Fails if the producer of a name is missing, or if the name is no longer computed and must not be
fused. -/
def checkProducer (r : Registry) (s : Span) (e : Name × KernelId) : Except FusionError Unit := do
  let k ← r.kernel e.2 s
  if !k.pattern.names.contains e.1 && r.isUnfusable e.1 then throw ⟨s, .fusedUnfusable e.1 e.2⟩

/-- Fails if a consumer of a name is missing. -/
def checkConsumers (r : Registry) (s : Span) (e : Name × List KernelId) : Except FusionError Unit :=
  e.2.forM fun id => do
    let _ ← r.kernel id s

/-- Fails if a kernel that is referred to is missing, or if a name that is no longer computed must
not be fused. -/
def check (r : Registry) (s : Span) : Except FusionError Unit := do
  r.producers.entries.forM (r.checkProducer s)
  r.consumers.entries.forM (r.checkConsumers s)

/-- Is the kernel there, with something fused into it? -/
def isAlive (r : Registry) (id : KernelId) : Bool :=
  match r.kernels.find? id with
  | some k => k.isFused
  | none => true

/-- Drops the kernels that nothing was fused into, with all that refers to them. -/
def dropUnfused (r : Registry) : Registry :=
  { r with
    kernels := r.kernels.retain fun _ k => k.isFused
    producers := r.producers.retain fun _ id => r.isAlive id
    -- an array that no kernel is left to read is no longer listed
    consumers := (r.consumers.mapValues fun ids => ids.filter r.isAlive).retain
      fun _ ids => !ids.isEmpty }

/-- The registry that the function is emitted by: without the kernels that nothing was fused into,
and checked. -/
def clean (r : Registry) (s : Span) : Except FusionError Registry := do
  let r := r.dropUnfused
  r.check s
  return r

end Registry

end ArrayFusion
