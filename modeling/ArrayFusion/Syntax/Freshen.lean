import ArrayFusion.Syntax.Traverse

/-!
# Fresh copies of a lambda

Every name of a function is bound once.  A lambda that is put into a second place therefore gets a
new name for each of its parameters and for each name bound in its body, with the same base and the
same type; the names that are free in it stay.
-/

namespace ArrayFusion

/-- The state of a renaming: where new names come from, and the new names given so far, the latest
first. -/
structure Renaming where
  supply : NameSupply
  renamed : List (Name × Name)

/-- Gives a binder a new name, which its uses take from now on. -/
def Renaming.bind (x : Ident) : StateM Renaming Ident := fun r =>
  let (y, supply) := r.supply.freshLike x.name
  (⟨y, x.ty⟩, ⟨supply, (x.name, y) :: r.renamed⟩)

/-- The new name of a use, if its binder was renamed. -/
def Renaming.use (x : Ident) : StateM Renaming Ident := fun r =>
  (match r.renamed.lookup x.name with
    | some y => ⟨y, x.ty⟩
    | none => x, r)

/-- Renames what is bound, and each use of it. -/
def Renaming.visitor : Visitor (StateM Renaming) where
  ident := Renaming.use
  binder := Renaming.bind

/-- A copy of the lambda in which every binder is fresh. -/
def Lambda.freshen (f : Lambda) (s : NameSupply) : Lambda × NameSupply :=
  let (f, r) := (f.traverse Renaming.visitor).run ⟨s, []⟩
  (f, r.supply)

end ArrayFusion
