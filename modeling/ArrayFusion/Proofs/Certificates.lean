import ArrayFusion.Proofs.Parts

/-!
# Certificates

The certificates in an expression are those of the combinators that stand anywhere in it.  Two lists
of certificates are put together by their names, so that no name is lost
(`Certificates.mem_names_union`).
-/

namespace ArrayFusion

namespace Certificates

/-- The names of some certificates. -/
def names (cs : Certificates) : List Name := cs.map (·.name)

/-- Inserting a certificate adds its name. -/
theorem mem_names_insert {cs : Certificates} {c : Ident} {x : Name} :
    x ∈ (cs.insert c).names ↔ x ∈ cs.names ∨ x = c.name := by
  unfold insert names
  split
  · rename_i h
    refine (or_iff_left_of_imp ?_).symm
    rintro rfl
    obtain ⟨d, hd, heq⟩ := List.any_eq_true.1 h
    exact beq_iff_eq.1 heq ▸ List.mem_map_of_mem hd
  · simp

/-- The union of certificates has the names of both. -/
theorem mem_names_union {cs ds : Certificates} {x : Name} :
    x ∈ (union cs ds).names ↔ x ∈ cs.names ∨ x ∈ ds.names := by
  unfold union
  induction ds generalizing cs with
  | nil => simp [names]
  | cons d ds ih =>
    rw [List.foldl_cons, ih, mem_names_insert, or_assoc]
    simp [names]

end Certificates

/-- The certificates of the combinator that an expression ends in, if it ends in one. -/
def Exp.certs : Exp → Certificates
  | .soac _ _ cs _ => cs
  | .letIn _ _ b _ => b.certs
  | _ => []

mutual

/-- The certificates of all combinators in an expression. -/
def Exp.certificates : Exp → Certificates
  | .lit _ _ => []
  | .var _ _ => []
  | .tuple es _ => Exp.certificatesAll es
  | .array es _ _ => Exp.certificatesAll es
  | .binary _ a b _ _ => a.certificates ++ b.certificates
  | .unary _ e _ => e.certificates
  | .cond c a b _ _ => c.certificates ++ a.certificates ++ b.certificates
  | .call _ es _ _ => Exp.certificatesAll es
  | .letIn _ r b _ => r.certificates ++ b.certificates
  | .update _ _ is v b _ => Exp.certificatesAll is ++ v.certificates ++ b.certificates
  | .index _ is _ => Exp.certificatesAll is
  | .replicate n v _ => n.certificates ++ v.certificates
  | .loop _ is _ n b r _ =>
    Exp.certificatesAll is ++ n.certificates ++ b.certificates ++ r.certificates
  | .soac op es cs _ => cs ++ op.certificates ++ Exp.certificatesAll es

/-- The certificates of all combinators in a list of expressions. -/
def Exp.certificatesAll : List Exp → Certificates
  | [] => []
  | e :: es => e.certificates ++ Exp.certificatesAll es

/-- The certificates of all combinators in a lambda. -/
def Lambda.certificates : Lambda → Certificates
  | ⟨_, b, _⟩ => b.certificates

/-- The certificates of all combinators in the lambdas and the neutral elements of a combinator. -/
def Combinator.certificates : Combinator → Certificates
  | .map f => f.certificates
  | .reduce f ne => f.certificates ++ Exp.certificatesAll ne
  | .scan f ne => f.certificates ++ Exp.certificatesAll ne
  | .filter p => p.certificates
  | .redomap f g ne => f.certificates ++ g.certificates ++ Exp.certificatesAll ne

end

/-- A certificate is in expressions if it is in one of them. -/
theorem Exp.mem_certificatesAll {c : Ident} {es : List Exp} :
    c ∈ Exp.certificatesAll es ↔ ∃ e ∈ es, c ∈ e.certificates := by
  induction es with
  | nil => simp [Exp.certificatesAll]
  | cons e es ih => rw [Exp.certificatesAll, List.mem_append, ih, List.exists_mem_cons_iff]

/-- The certificates of a lambda are those of its body. -/
theorem Lambda.certificates_eq (f : Lambda) : f.certificates = f.body.certificates := by
  cases f
  rfl

/-- The certificates of a combinator are those of its lambdas and of its neutral elements. -/
theorem Combinator.certificates_eq (op : Combinator) : op.certificates
    = op.lambdas.flatMap Lambda.certificates ++ Exp.certificatesAll op.neutral := by
  cases op <;>
    simp [Combinator.certificates, Combinator.lambdas, Combinator.neutral, Exp.certificatesAll]

/-- The certificates of a part are among those of the expression. -/
theorem Exp.certificates_part (e : Exp) : ∀ q ∈ e.parts, q.2.certificates ⊆ e.certificates := by
  cases e <;>
    simp [Exp.parts, Exp.certificates, List.subset_def, Exp.mem_certificatesAll,
      Combinator.certificates_eq, Lambda.certificates_eq] <;>
    grind

/-- An expression that ends in a combinator has the certificates of that one. -/
theorem Exp.certs_subset : ∀ e : Exp, e.certs ⊆ e.certificates
  | .soac _ _ _ _ =>
    List.Subset.trans (List.subset_append_left _ _) (List.subset_append_left _ _)
  | .letIn _ _ b _ => List.Subset.trans b.certs_subset (List.subset_append_right _ _)
  | .lit .. | .var .. | .tuple .. | .array .. | .binary .. | .unary .. | .cond .. | .call ..
  | .update .. | .index .. | .replicate .. | .loop .. => List.nil_subset _

/-- The certificates of a combinator that a `let` binds are certificates in the expression. -/
theorem Exp.certs_subset_of_lets {e : Exp} {l : Pattern × Exp} (hl : l ∈ e.lets) :
    l.2.certs ⊆ e.certificates :=
  List.Subset.trans l.2.certs_subset (Exp.subset_of_lets Exp.certificates_part hl)

end ArrayFusion
