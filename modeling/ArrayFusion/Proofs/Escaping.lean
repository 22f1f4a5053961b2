import ArrayFusion.Proofs.Choices
import ArrayFusion.Proofs.Parts
import ArrayFusion.Proofs.Indexing

/-!
# Arrays that escape

A producer can be fused away only if every use of its array is seen.  `Exp.escaping` are the names
with a use that no kernel could stand for: any use but that as a whole argument of a combinator that
a `let` binds outside of all lambdas and loop bodies.  The analysis forbids every array that
escapes, and it notes each kernel that reads one that does not (`Exp.forbidden_or_noted`).
-/

namespace ArrayFusion

/-! ## Uses that escape -/

mutual

/-- The free names of an expression with a use other than as a whole argument of a combinator that a
`let` binds outside of all lambdas and loop bodies.  Whether the expression itself is what a `let`
binds is said by `bound`. -/
def Exp.escaping (bound : Bool) : Exp → Set Name
  | .lit _ _ => ∅
  | .var x _ => {x.name}
  | .tuple es _ => Exp.escapingAll es
  | .array es _ _ => Exp.escapingAll es
  | .binary _ a b _ _ => a.escaping false ∪ b.escaping false
  | .unary _ e _ => e.escaping false
  | .cond c a b _ _ => c.escaping false ∪ (a.escaping false ∪ b.escaping false)
  | .call _ es _ _ => Exp.escapingAll es
  | .letIn p r b _ => r.escaping true ∪ b.escaping false \ p.nameSet
  | .update x y is v b _ =>
    {y.name} ∪ (Exp.escapingAll is ∪ (v.escaping false ∪ b.escaping false \ {x.name}))
  | .index x is _ => {x.name} ∪ Exp.escapingAll is
  | .replicate n v _ => n.escaping false ∪ v.escaping false
  | .loop p is i n b r _ =>
    Exp.escapingAll is ∪ (n.escaping false ∪
      (b.free false \ ({i.name} ∪ p.nameSet) ∪ r.escaping false \ p.nameSet))
  | .soac op es _ _ =>
    op.escaping ∪ if bound then Exp.escapingOperands es else Exp.escapingAll es

/-- The names that escape from a list of expressions. -/
def Exp.escapingAll : List Exp → Set Name
  | [] => ∅
  | e :: es => e.escaping false ∪ Exp.escapingAll es

/-- The names that escape from the arguments of a combinator that a `let` binds. -/
def Exp.escapingOperands : List Exp → Set Name
  | [] => ∅
  | e :: es => (match e with
    | .var _ _ => ∅
    | _ => e.escaping false) ∪ Exp.escapingOperands es

/-- The names that escape from the lambdas and the neutral elements of a combinator. -/
def Combinator.escaping : Combinator → Set Name
  | .map f => f.free false
  | .reduce f ne => f.free false ∪ Exp.escapingAll ne
  | .scan f ne => f.free false ∪ Exp.escapingAll ne
  | .filter p => p.free false
  | .redomap f g ne => f.free false ∪ (g.free false ∪ Exp.escapingAll ne)

end

/-- The expressions that an argument of a combinator has to compute by themselves. -/
def Exp.inner : Exp → List Exp
  | .index _ is _ => is
  | .unary .iota n _ => [n]
  | _ => []

/-- The name of the array of which an operand reads something. -/
def Operand.source? : Operand → Option Name
  | .whole x => some x.name
  | .row x _ => some x.name
  | .transposed x => some x.name
  | .range _ => none

/-- What escapes in a list of expressions escapes in a member. -/
theorem Exp.mem_escapingAll_iff {es : List Exp} {x : Name} :
    x ∈ Exp.escapingAll es ↔ ∃ e ∈ es, x ∈ e.escaping false := by
  induction es with
  | nil => simp [Exp.escapingAll]
  | cons e es ih => simp [Exp.escapingAll, ih]

/-- A lambda lets all its free names escape, and a neutral element what escapes in it. -/
theorem Combinator.mem_escaping_iff {op : Combinator} {x : Name} : x ∈ op.escaping ↔
    (∃ f ∈ op.lambdas, x ∈ f.free false) ∨ x ∈ Exp.escapingAll op.neutral := by
  cases op <;>
    simp [Combinator.escaping, Combinator.lambdas, Combinator.neutral, Exp.escapingAll, or_assoc]

section

variable {es : List Exp} {as : List Operand} {x : Name}

/-- What is used in the arguments of a combinator is an array that an operand reads, or it is used
in what the arguments have to compute. -/
theorem Operand.of_mem_free (h : List.Forall₂ (fun e a => Operand.ofExp? e = some a) es as)
    (hx : x ∈ Exp.freeAll false es) :
    (∃ a ∈ as, a.source? = some x) ∨ ∃ e ∈ es, ∃ i ∈ e.inner, x ∈ i.free false := by
  obtain ⟨e, he, hx⟩ := Exp.mem_freeAll_iff.1 hx
  obtain ⟨a, ha, hea⟩ := Recipe.exists_of_forall₂ h.flip he
  have hhead : a.source? = some x ∨ ∃ i ∈ e.inner, x ∈ i.free false := by
    unfold Operand.ofExp? at hea
    split at hea <;> try split at hea
    all_goals cases hea
    · exact .inl (congrArg some (Set.mem_singleton_iff.1 hx).symm)
    · exact hx.imp (fun hx => congrArg some (Set.mem_singleton_iff.1 hx).symm) Exp.mem_freeAll_iff.1
    · exact .inl (congrArg some (Set.mem_singleton_iff.1 hx).symm)
    · exact .inr ⟨_, List.mem_singleton_self _, hx⟩
  exact hhead.imp (fun h => ⟨a, ha, h⟩) fun h => ⟨e, he, h⟩

/-- What escapes from the arguments of a combinator is an array that is not read as a whole, or it
escapes from what the arguments have to compute. -/
theorem Operand.of_mem_escaping (h : List.Forall₂ (fun e a => Operand.ofExp? e = some a) es as)
    (hx : x ∈ Exp.escapingOperands es) : (∃ a ∈ as, a.whole? = none ∧ a.source? = some x)
      ∨ ∃ e ∈ es, ∃ i ∈ e.inner, x ∈ i.escaping false := by
  induction h with
  | nil => exact absurd hx (Set.notMem_empty x)
  | @cons e a es as ha _ ih =>
    rcases hx with hx | hx
    · -- the cases of an operand that is no plain identifier
      have hhead : a.whole? = none ∧ a.source? = some x ∨ ∃ i ∈ e.inner, x ∈ i.escaping false := by
        unfold Operand.ofExp? at ha
        split at ha <;> try split at ha
        all_goals cases ha
        · exact absurd hx (Set.notMem_empty x)
        · exact hx.imp (fun hx => ⟨rfl, congrArg some (Set.mem_singleton_iff.1 hx).symm⟩)
            Exp.mem_escapingAll_iff.1
        · exact .inl ⟨rfl, congrArg some (Set.mem_singleton_iff.1 hx).symm⟩
        · exact .inr ⟨_, List.mem_singleton_self _, hx⟩
      exact hhead.imp (fun h => ⟨a, List.mem_cons_self, h⟩) fun h => ⟨e, List.mem_cons_self, h⟩
    · exact (ih hx).imp (fun ⟨a, ha, h⟩ => ⟨a, List.mem_cons_of_mem _ ha, h⟩)
        fun ⟨e, he, h⟩ => ⟨e, List.mem_cons_of_mem _ he, h⟩

end

/-! ## What registries keep -/

/-- The kernels that a combinator went into, or the one that it became. -/
def Decision.kernels : Decision → List KernelId
  | .fused _ _ into => into
  | .kept _ _ kernel _ => kernel.toList

namespace Registry

variable {r r' q : Registry} {x : Name}

/-- What is known about the uses of a name in `r` is known in `r'`. -/
structure Keeps (x : Name) (r r' : Registry) : Prop where
  unfusable : x ∈ r.unfusable → x ∈ r'.unfusable
  readers : ∀ id ∈ r.consumersOf x, id ∈ r'.consumersOf x

/-- A registry keeps what it has. -/
theorem Keeps.refl (x : Name) (r : Registry) : Keeps x r r := ⟨id, fun _ => id⟩

/-- What is kept twice is kept. -/
theorem Keeps.trans (h : Keeps x r q) (h' : Keeps x q r') : Keeps x r r' :=
  ⟨fun hx => h'.unfusable (h.unfusable hx), fun id hid => h'.readers id (h.readers id hid)⟩

/-- Forbidding further names keeps what was noted. -/
theorem Keeps.forbid (h : Keeps x r r') (xs : List Name) : Keeps x r (r'.forbid xs) :=
  ⟨fun hx => mem_joined.2 (.inr (h.unfusable hx)), h.readers⟩

/-- Noting readers keeps what was noted before. -/
theorem Noted.keeps {ids : List KernelId} {xs : List Name} (h : Noted ids xs r r') : Keeps x r r' :=
  ⟨h.unfusable x, fun id hid => (h.readers x id).2 (.inl hid)⟩

/-- Both registries together keep what the first one has noted. -/
theorem keeps_union_left (r q : Registry) : Keeps x r (r.union q) :=
  ⟨fun hx => mem_joined.2 (.inr hx), fun _ hid => mem_consumersOf_union_iff.2 (.inl hid)⟩

/-- Both registries together keep what the second one has noted. -/
theorem keeps_union_right (r q : Registry) : Keeps x q (r.union q) :=
  ⟨fun hx => mem_joined.2 (.inl hx), fun _ hid => mem_consumersOf_union_iff.2 (.inr hid)⟩

/-- What is known about a region is known behind it. -/
theorem keeps_mergeRegion (r q : Registry) (xs : List Name) : Keeps x q (r.mergeRegion q xs) :=
  ((keeps_union_right _ q).forbid _).forbid _

/-- Two branches together keep what the first one has noted. -/
theorem keeps_unionBranches_left (r q : Registry) : Keeps x r (r.unionBranches q) :=
  (keeps_union_left r q).forbid _

/-- Two branches together keep what the second one has noted. -/
theorem keeps_unionBranches_right (r q : Registry) : Keeps x q (r.unionBranches q) :=
  (keeps_union_right r q).forbid _

/-- An array that an operand does not read as a whole is forbidden. -/
theorem mem_unfusable_recordOperands (ids : List KernelId) {g : Stage} {a : Operand}
    (ha : a ∈ g.operands) (hwhole : a.whole? = none) (hx : a.source? = some x) :
    x ∈ (r.recordOperands ids g).unfusable := by
  obtain ⟨as, bs, hoperands⟩ := List.append_of_mem ha
  have hrest := noted_recordOperands (recordOperand ids (as.foldl (recordOperand ids) r) a) ids
    { g with operands := bs }
  unfold recordOperands at hrest ⊢
  rw [hoperands, List.foldl_append, List.foldl_cons]
  refine hrest.unfusable x ?_
  cases a with
  | whole => cases hwhole
  | range => cases hx
  | row | transposed =>
    cases hx
    exact mem_joined.2 (.inl (List.mem_singleton_self _))

end Registry

/-- Decisions about other names leave what is known about the uses of a name. -/
theorem Decided.keeps {c : Config} {o : Origin} {p : Pattern} {g : Stage} {r r' : Registry}
    {a b : Progress} {d : Decision} {x : Name} (h : Decided c o p g r a d r' b) (hx : x ∉ p.names) :
    Registry.Keeps x r r' := by
  cases h with
  | fused htried =>
    obtain ⟨q, hq, hunfusable, hnoted⟩ := Registry.noted_fused r o p g htried.ne_nil
    exact Registry.Keeps.trans ⟨fun h => hunfusable ▸ h, fun id hid => (hq x id).2 ⟨hx, hid⟩⟩
      hnoted.keeps
  | stays => exact .refl x r
  | @registered _ _ K => exact (Registry.noted_register r K).keeps

/-- A course that decides nothing about a name keeps what was noted of it. -/
theorem Course.keeps {c : Config} {l : Log} {r r' : Registry} {a b : Progress} {x : Name}
    (h : Course c l r a r' b) (hx : ∀ e ∈ l, x ∉ e.1.names) : Registry.Keeps x r r' := by
  induction h with
  | nil | noteUpdate => exact ⟨id, fun _ => id⟩
  | forbid xs => exact (Registry.Keeps.refl x _).forbid xs
  | append _ _ ih ih' =>
    obtain ⟨hl, hl'⟩ := List.forall_mem_append.1 hx
    exact (ih hl).trans (ih' hl')
  | meet xs ys _ _ _ => exact ((Registry.keeps_union_left _ _).forbid xs).forbid ys
  | place _ _ _ _ _ hdecided => exact hdecided.keeps (hx _ (List.mem_singleton_self _))

/-! ## Names that are watched -/

/-- The name must not be fused.  Or else it does not escape, every kernel that a combinator of the
log went into or became is known to read it if the combinator does, and some kernel is if it is used
at all. -/
def Watched (x : Name) (escapes used : Prop) (l : Log) (r : Registry) : Prop :=
  x ∈ r.unfusable ∨ ¬escapes
    ∧ (∀ e ∈ l, x ∈ e.1.reads → ∀ id ∈ e.2.kernels, id ∈ r.consumersOf x)
    ∧ (used → ∃ id, id ∈ r.consumersOf x)

namespace Watched

variable {x : Name} {escapes escapes' used used' : Prop} {l l' : Log} {r r' : Registry}

/-- A name that is watched stays so in a registry that keeps what was noted of it. -/
theorem keeps (h : Watched x escapes used l r) (hr : Registry.Keeps x r r') :
    Watched x escapes used l r' :=
  h.imp hr.unfusable fun ⟨hescapes, hreads, hused⟩ => ⟨hescapes, fun e he hx id hid =>
    hr.readers id (hreads e he hx id hid), fun hu => (hused hu).imp fun id => hr.readers id⟩

/-- A name that is watched in two pieces of code is watched in both together. -/
theorem append (h : Watched x escapes used l r) (h' : Watched x escapes' used' l' r) :
    Watched x (escapes ∨ escapes') (used ∨ used') (l ++ l') r := by
  rcases h with h | ⟨hescapes, hreads, hused⟩
  · exact .inl h
  rcases h' with h' | ⟨hescapes', hreads', hused'⟩
  · exact .inl h'
  exact .inr ⟨not_or.2 ⟨hescapes, hescapes'⟩, List.forall_mem_append.2 ⟨hreads, hreads'⟩,
    fun h => h.elim hused hused'⟩

/-- A name is watched as well if less of it is said. -/
theorem imp (h : Watched x escapes used l r) (hescapes : escapes' → escapes)
    (hused : used' → used) : Watched x escapes' used' l r :=
  h.imp_right fun ⟨h, hreads, h'⟩ => ⟨fun he => h (hescapes he), hreads, fun hu => h' (hused hu)⟩

/-- In a region from which all arrays that are read escape, every use is one that escapes. -/
theorem region (h : Watched x escapes used l r) {q : Registry} {xs : List Name}
    (hxs : r.consumers.keys ⊆ xs) : Watched x used used l (q.mergeRegion r xs) := by
  have hkeeps := Registry.keeps_mergeRegion (x := x) q r xs
  rcases h with h | ⟨-, hreads, hused⟩
  · exact .inl (hkeeps.unfusable h)
  by_cases hu : used
  · obtain ⟨id, hid⟩ := hused hu
    refine .inl (mem_joined.2 (.inr (mem_joined.2 (.inl (hxs (Table.mem_keys_iff.2 ?_))))))
    unfold Registry.consumersOf at hid
    cases hids : r.consumers.find? x with
    | none =>
      rw [hids] at hid
      cases hid
    | some ids => exact ⟨ids, rfl⟩
  · exact .inr ⟨hu, fun e he hx id hid => hkeeps.readers id (hreads e he hx id hid), fun h =>
      absurd h hu⟩

end Watched

/-- An analysis that takes one decision for each choice, none about `x`, and watches `x`. -/
structure Watches (c : Config) (x : Name) (ss : List Choice) (escapes used : Prop)
    (m : Registry → Analysis Registry) : Prop where
  unbound : ∀ s ∈ ss, x ∉ s.names
  result : ∀ (r r' : Registry) (a b : Progress), m r a = .ok (r', b) →
    ∃ l : Log, l.map Prod.fst = ss ∧ Course c l r a r' b ∧ Watched x escapes used l r'

section

variable {c : Config} {x : Name} {ss ss' ss'' : List Choice}
    {m m' m'' : Registry → Analysis Registry} {escapes escapes' escapes'' used used' used'' : Prop}

namespace Watches

/-- What reads no variable. -/
theorem of_follows (h : Follows c ss m) (hss : ∀ s ∈ ss, x ∉ s.names ∧ x ∉ s.reads) :
    Watches c x ss False False m where
  unbound := fun s hs => (hss s hs).1
  result := fun r r' a b h' => by
    obtain ⟨l, rfl, hl⟩ := h r r' a b h'
    exact ⟨l, rfl, hl, .inr ⟨not_false, fun e he hx => absurd hx (hss _ (List.mem_map_of_mem he)).2,
      False.elim⟩⟩

/-- Nothing has to be noted where nothing is used. -/
theorem pure : Watches c x [] False False fun r => return r := .of_follows .pure nofun

/-- Equal steps watch the same. -/
theorem congr (h : Watches c x ss escapes used m) (hss : ss' = ss) (hm : ∀ r, m' r = m r) :
    Watches c x ss' escapes used m' := by rwa [hss, funext hm]

/-- A step watches a name as well if less of it is said. -/
theorem imp (h : Watches c x ss escapes used m) (hescapes : escapes' → escapes)
    (hused : used' → used) : Watches c x ss escapes' used' m where
  unbound := h.unbound
  result := fun r r' a b h' =>
    (h.result r r' a b h').imp fun _ ⟨hss, hl, hw⟩ => ⟨hss, hl, hw.imp hescapes hused⟩

/-- The names are forbidden on the way. -/
theorem forbid (xs : List Name) (f : Registry → Registry)
    (hf : ∀ r a, Course c [] r a (f r) a) (hxs : ∀ r, ∀ y ∈ xs, y ∈ (f r).unfusable) :
    Watches c x [] (x ∈ xs) (x ∈ xs) fun r => return f r where
  unbound := nofun
  result := fun r r' a b h => by
    obtain ⟨rfl, rfl⟩ := State.pure_eq_ok.1 h
    refine ⟨[], rfl, hf r b, ?_⟩
    by_cases hx : x ∈ xs
    · exact .inl (hxs r x hx)
    · exact .inr ⟨hx, nofun, fun h => absurd h hx⟩

/-- Two steps watch a name where each of them does. -/
theorem seq (h : Watches c x ss escapes used m) (h' : Watches c x ss' escapes' used' m') :
    Watches c x (ss ++ ss') (escapes ∨ escapes') (used ∨ used') fun r => m r >>= m' where
  unbound := List.forall_mem_append.2 ⟨h.unbound, h'.unbound⟩
  result := fun r r' a b hrun => by
    obtain ⟨r₁, a₁, h₁, h₂⟩ := State.bind_eq_ok.1 hrun
    obtain ⟨l, rfl, hl, hw⟩ := h.result _ _ _ _ h₁
    obtain ⟨l', rfl, hl', hw'⟩ := h'.result _ _ _ _ h₂
    exact ⟨l ++ l', List.map_append, hl.append hl', (hw.keeps (hl'.keeps fun e he =>
      h'.unbound _ (List.mem_map_of_mem he))).append hw'⟩

/-- A region from which all arrays that are read escape. -/
theorem region (h : Watches c x ss escapes used m) (escaping : Registry → List Name)
    (hkeys : ∀ q, q.consumers.keys ⊆ escaping q) : Watches c x ss used used fun r => do
      let q ← m .empty
      return r.mergeRegion q (escaping q) where
  unbound := h.unbound
  result := fun r r' a b hrun => by
    obtain ⟨q, a₁, h₁, h₂⟩ := State.bind_eq_ok.1 hrun
    obtain ⟨rfl, rfl⟩ := State.pure_eq_ok.1 h₂
    obtain ⟨l, hss, hl, hw⟩ := h.result _ _ _ _ h₁
    exact ⟨l, hss, hl.mergeRegion _, hw.region (hkeys q)⟩

/-- Two regions and what is in front of them watch a name where each of them does. -/
theorem branches (h : Watches c x ss escapes used m) (h' : Watches c x ss' escapes' used' m')
    (h'' : Watches c x ss'' escapes'' used'' m'') :
    Watches c x (ss ++ (ss' ++ ss'')) (escapes ∨ escapes' ∨ escapes'') (used ∨ used' ∨ used'')
      fun r => m .empty >>= fun yes => m' .empty >>= fun no =>
        m'' (r.mergeRegion (yes.unionBranches no) []) where
  unbound := List.forall_mem_append.2
    ⟨h.unbound, List.forall_mem_append.2 ⟨h'.unbound, h''.unbound⟩⟩
  result := fun r r' a b hrun => by
    obtain ⟨yes, a₁, h₁, h₂⟩ := State.bind_eq_ok.1 hrun
    obtain ⟨no, a₂, h₃, h₄⟩ := State.bind_eq_ok.1 h₂
    obtain ⟨l, rfl, hl, hw⟩ := h.result _ _ _ _ h₁
    obtain ⟨l', rfl, hl', hw'⟩ := h'.result _ _ _ _ h₃
    obtain ⟨l'', rfl, hl'', hw''⟩ := h''.result _ _ _ _ h₄
    -- what is noted in a branch is kept when the branches are joined and the code in front is
    -- analysed
    have hmerged := Registry.keeps_mergeRegion (x := x) r (yes.unionBranches no) []
    have hrest := hl''.keeps fun e he => h''.unbound _ (List.mem_map_of_mem he)
    refine ⟨l ++ (l' ++ l''), by simp, ?_, ?_⟩
    · rw [← List.append_assoc]
      exact ((hl.unionBranches hl').mergeRegion []).append hl''
    · exact (hw.keeps (((Registry.keeps_unionBranches_left yes no).trans hmerged).trans
        hrest)).append
        ((hw'.keeps (((Registry.keeps_unionBranches_right yes no).trans hmerged).trans
          hrest)).append hw'')

/-- The operands of a combinator are noted or forbidden when something is decided about it. -/
theorem place (hc : c.transposePull = false) {p : Pattern} {e : Exp} {g : Stage}
    (hg : Stage.ofExp? e = .ok (some g)) (hp : p.length = g.arity) (hx : x ∉ p.names) :
    Watches c x [⟨.combinator, p, e⟩] (∃ a ∈ g.operands, a.whole? = none ∧ a.source? = some x)
      (∃ a ∈ g.operands, a.source? = some x) (ArrayFusion.place c .combinator p g) where
  unbound := List.forall_mem_singleton.2 hx
  result := fun r r' a b hrun => by
    have hstands : (Choice.mk .combinator p e).Stands g := .combinator hg
    obtain ⟨d, hdecisions, hdecided⟩ := decided_of_place hrun
    have hslots : ∀ y ∈ Pattern.names g.op.element.params, y ∈ e.slots := fun _ =>
      Stage.slots_of_ofExp? hg
    refine ⟨[(⟨.combinator, p, e⟩, d)], rfl, .place hstands hp (Nat.le_refl _)
      (fun y hy => .inl (hslots y hy)) hdecisions hdecided, ?_⟩
    -- fused or kept, the kernels of the stage are noted as readers, and other operands forbidden
    have hnoted : d.kernels ≠ [] ∧ ∃ q, Registry.Noted d.kernels g.wholeNames q r'
        ∧ ∀ a ∈ g.operands, a.whole? = none → a.source? = some x → x ∈ r'.unfusable := by
      cases hdecided with
      | fused htried =>
        obtain ⟨q, -, -, hnoted⟩ := Registry.noted_fused r .combinator p g htried.ne_nil
        refine ⟨mt List.map_eq_nil_iff.1 htried.ne_nil, q, hnoted, fun a ha hwhole hx => ?_⟩
        exact Registry.mem_unfusable_recordOperands _ ha hwhole hx
      | stays ho => cases ho
      | @registered _ _ K _ _ _ _ hK =>
        obtain ⟨-, rfl, -⟩ := hK.resolve_right fun h => by rw [hc] at h; cases h.1
        exact ⟨List.cons_ne_nil _ _, r, Registry.noted_register r _, fun a ha hwhole hx =>
          Registry.mem_unfusable_recordOperands _ (g := g) ha hwhole hx⟩
    obtain ⟨hne, q, hnoted, hforbidden⟩ := hnoted
    have hreads : x ∈ g.wholeNames → ∀ id ∈ d.kernels, id ∈ r'.consumersOf x := fun hx id hid =>
      (hnoted.readers x id).2 (.inr ⟨hx, hid⟩)
    -- an array that is read in another way is forbidden
    by_cases hescapes : ∃ a ∈ g.operands, a.whole? = none ∧ a.source? = some x
    · obtain ⟨a, ha, hwhole, hx⟩ := hescapes
      exact .inl (hforbidden a ha hwhole hx)
    refine .inr ⟨hescapes, List.forall_mem_singleton.2 fun hx =>
      hreads (hstands.wholeNames ▸ hx), ?_⟩
    rintro ⟨a, ha, hsource⟩
    -- an array that is read as a whole has the kernel as its reader
    cases a with
    | whole y =>
      obtain ⟨id, hid⟩ := List.exists_mem_of_ne_nil _ hne
      exact ⟨id, hreads (Stage.mem_wholeNames.2 ⟨y, ha, Option.some.inj hsource⟩) id hid⟩
    | _ => exact absurd ⟨_, ha, rfl, hsource⟩ hescapes

/-- A decision about a replicated value uses no array. -/
theorem placeReplicate (site : Option Pattern) (n v : Exp) (s : Span)
    (hsite : ∀ p ∈ site, x ∉ Pattern.names p) :
    Watches c x (replicateChoices c site n v s) False False
      (ArrayFusion.placeReplicate c site n v s) := by
  refine .of_follows (.placeReplicate site n v s) fun t ht => ?_
  unfold replicateChoices at ht
  split at ht
  · split at ht
    · rw [List.mem_singleton.1 ht]
      exact ⟨hsite _ rfl, List.not_mem_nil⟩
    · cases ht
  · cases ht

end Watches

/-- All identifiers of the name in the scope are arrays. -/
def Scope.ArrayAt (Γ : Scope) (x : Name) : Prop := ∀ y ∈ Γ, y.name = x → y.isArray

/-- A name is an array behind parameters with other names. -/
theorem Scope.ArrayAt.enter {Γ : Scope} {p : Pattern} (h : Γ.ArrayAt x) (hx : x ∉ p.names) :
    (Γ.enter p).ArrayAt x := by
  rintro y (hy | hy) hname
  · exact h y hy hname
  · exact absurd (hname ▸ List.mem_map_of_mem hy) hx

/-- The parts of an update in the order of the analysis, which meets what follows the update first. -/
theorem backwards_update {source path value rest bound : Prop}
    (h : source ∨ path ∨ value ∨ rest ∧ bound) : rest ∨ source ∨ value ∨ path := by
  tauto

/-- The parts of a loop in the order of the analysis. -/
theorem backwards_loop {starts limit body rest bound bound' : Prop}
    (h : starts ∨ limit ∨ body ∧ bound ∨ rest ∧ bound') : rest ∨ body ∨ limit ∨ starts := by
  tauto

theorem not_mem_of_append {xs ys : List Name} (h : x ∉ xs ++ ys) : x ∉ xs ∧ x ∉ ys :=
  not_or.1 fun h' => h (List.mem_append.2 h')

mutual

/-- The analysis of an expression watches every array that the expression does not bind. -/
theorem Exp.watches (hc : c.transposePull = false) :
    ∀ (e : Exp) (site : Option Pattern) {Γ : Scope},
    e.Scoped Γ → Γ.ArrayAt x → x ∉ e.binders → (∀ p ∈ site, x ∉ Pattern.names p) →
      Watches c x (e.choices c site) (x ∈ e.escaping site.isSome) (x ∈ e.free false)
        fun r => e.analyse c site r
  | .lit _ _, _, _, _, _, _, _ => .imp .pure id id
  | .var y _, _, _, hs, hΓ, _, _ => by
    by_cases hy : y.isArray
    · exact (Watches.forbid [y.name] (Registry.forbid · _) (fun _ _ => .forbid _)
        fun _ _ hz => mem_joined.2 (.inl hz)).imp List.mem_singleton.2 List.mem_singleton.2
        |>.congr rfl fun r => by rw [Exp.analyse, if_pos hy]
    · exact (Watches.pure.congr rfl fun r => by rw [Exp.analyse, if_neg hy]).imp
        (fun hx => hy (hΓ y hs (Set.mem_singleton_iff.1 hx).symm))
        fun hx => hy (hΓ y hs (Set.mem_singleton_iff.1 hx).symm)
  | .tuple es _, _, _, hs, hΓ, hx, _ | .array es _ _, _, _, hs, hΓ, hx, _
  | .call _ es _ _, _, _, hs, hΓ, hx, _ =>
    (Exp.watchesAll hc es hs hΓ hx).congr rfl fun r => by rw [Exp.analyse]
  | .unary _ e _, _, _, hs, hΓ, hx, _ => (e.watches hc none hs hΓ hx nofun).congr rfl fun r => by
    rw [Exp.analyse]
  | .binary _ a b _ _, _, _, hs, hΓ, hx, _ =>
    have hx := not_mem_of_append hx
    (((b.watches hc none hs.2 hΓ hx.2 nofun).seq (a.watches hc none hs.1 hΓ hx.1 nofun)).congr rfl
      fun r => by rw [Exp.analyse]).imp Or.symm Or.symm
  | .cond e a b _ _, _, _, hs, hΓ, hx, _ =>
    have hx := not_mem_of_append hx
    have hx' := not_mem_of_append hx.1
    (((a.watches hc none hs.2.1 hΓ hx'.2 nofun).branches (b.watches hc none hs.2.2 hΓ hx.2 nofun)
      (e.watches hc none hs.1 hΓ hx'.1 nofun)).congr rfl fun r => by rw [Exp.analyse]).imp
        or_rotate.1 or_rotate.1
  | .letIn p e b _, _, Γ, hs, hΓ, hx, _ =>
    have hx := not_mem_of_append hx
    have hx' := not_mem_of_append hx.1
    (((b.watches hc none hs.2 (hΓ.enter hx'.1) hx.2 nofun).seq
      (e.watches hc (some p) hs.1 hΓ hx'.2 (by simpa using hx'.1))).congr rfl fun r => by
        rw [Exp.analyse]).imp (fun h => h.symm.imp_left And.left) fun h => h.symm.imp_left And.left
  | .update y z is v b _, _, Γ, hs, hΓ, hx, _ =>
    have hy := List.ne_of_not_mem_cons hx
    have hx := not_mem_of_append (List.not_mem_of_not_mem_cons hx)
    have hx' := not_mem_of_append hx.1
    (((b.watches hc none hs.2.2.2 (hΓ.enter (p := [y])
      (List.not_mem_cons_of_ne_of_not_mem hy List.not_mem_nil)) hx.2
      nofun).seq ((Watches.forbid [z.name, y.name]
        (fun r => (r.noteUpdate z.name).forbid [z.name, y.name])
        (fun _ _ => (Course.noteUpdate _).append (.forbid _)) fun _ _ hz =>
          mem_joined.2 (.inl hz)).seq ((v.watches hc none hs.2.2.1 hΓ hx'.2 nofun).seq
            (Exp.watchesAll hc is hs.2.1 hΓ hx'.1)))).congr rfl fun r => by
              simp only [Exp.analyse, pure_bind]).imp
                (fun h => backwards_update (h.imp_left fun hz => List.mem_cons.2 (.inl hz)))
                fun h => backwards_update (h.imp_left fun hz => List.mem_cons.2 (.inl hz))
  | .index y is _, _, _, hs, hΓ, hx, _ =>
    (((Watches.forbid [y.name] (Registry.forbid · _) (fun _ _ => .forbid _)
        fun _ _ hz => mem_joined.2 (.inl hz)).seq (Exp.watchesAll hc is hs.2 hΓ hx)).congr rfl
          fun r => by simp only [Exp.analyse, pure_bind]).imp
            (Or.imp_left List.mem_singleton.2) (Or.imp_left List.mem_singleton.2)
  | .replicate n v s, site, _, hs, hΓ, hx, hsite =>
    have hx := not_mem_of_append hx
    (((Watches.placeReplicate site n v s hsite).seq
      ((v.watches hc none hs.2 hΓ hx.2 nofun).seq (n.watches hc none hs.1 hΓ hx.1 nofun))).congr rfl
        fun r => Exp.analyse_replicate c site r n v s).imp (fun h => .inr h.symm) fun h =>
          .inr h.symm
  | .loop p is i n b e _, _, Γ, hs, hΓ, hx, _ =>
    have hi := List.ne_of_not_mem_cons hx
    have hx := not_mem_of_append (List.not_mem_of_not_mem_cons hx)
    have hx₁ := not_mem_of_append hx.1
    have hx₂ := not_mem_of_append hx₁.1
    have hx₃ := not_mem_of_append hx₂.1
    (((e.watches hc none hs.2.2.2 (hΓ.enter hx₃.1) hx.2 nofun).seq
      (((b.watches hc none hs.2.2.1 (hΓ.enter (p := i :: p)
        (List.not_mem_cons_of_ne_of_not_mem hi hx₃.1)) hx₁.2 nofun).region
          (fun q => q.consumers.keys) fun _ => List.Subset.refl _).seq
            ((n.watches hc none hs.2.1 hΓ hx₂.2 nofun).seq
              (Exp.watchesAll hc is hs.1 hΓ hx₃.2)))).congr rfl fun r => by
                simp only [Exp.analyse, bind_assoc, pure_bind]).imp
                  backwards_loop backwards_loop
  | .soac op args certs s, none, _, hs, hΓ, hx, _ => ⟨nofun, fun _ _ _ _ h => nomatch h⟩
  | .soac op args certs s, some p, Γ, hs, hΓ, hx, hsite => by
    have hx := not_mem_of_append hx
    have hlambdas := Combinator.watchesLambdas hc op hs.2.1 hΓ hx.1
    have hargs := Exp.watchesOperands hc args hs.2.2 hΓ hx.2
    have hneutral := Combinator.watchesNeutral hc op hs.2.1 hΓ hx.1
    refine ⟨fun t ht => ?_, fun r r' a b h => ?_⟩
    · rcases List.mem_append.1 ht with ht | ht
      · exact hlambdas.unbound t ht
      rcases List.mem_append.1 ht with ht | ht
      · exact hargs.unbound t ht
      rcases List.mem_append.1 ht with ht | ht
      · exact hneutral.unbound t ht
      · rw [List.mem_singleton.1 ht]
        exact hsite p rfl
    obtain ⟨g, hg, hp, h⟩ := Exp.analyse_soac_eq_ok h
    obtain ⟨as, has, rfl⟩ := Stage.ofExp?_eq_ok hg
    refine ((hlambdas.seq (hargs.seq (hneutral.seq (.place hc hg hp (hsite p rfl))))).imp
      (fun h => ?_) fun h => ?_).result _ _ _ _ h
    · rcases h with h | h
      · exact (Combinator.mem_escaping_iff.1 h).imp_right fun h => .inr (.inl h)
      · exact .inr ((Operand.of_mem_escaping has h).symm.imp_right .inr)
    · rcases h with h | h | h
      · cases h.1
      · exact (Combinator.mem_free_iff.1 h).imp_right fun h => .inr (.inl h)
      · exact .inr ((Operand.of_mem_free has h).symm.imp_right .inr)

/-- The analysis of a list of expressions watches a name that is an array and not bound in it. -/
theorem Exp.watchesAll (hc : c.transposePull = false) : ∀ (es : List Exp) {Γ : Scope},
    Exp.ScopedAll Γ es → Γ.ArrayAt x → x ∉ Exp.bindersAll es → Watches c x (Exp.choicesAll c es)
      (x ∈ Exp.escapingAll es) (x ∈ Exp.freeAll false es) fun r => Exp.analyseAll c r es
  | [], _, _, _, _ => .imp .pure id id
  | e :: es, _, hs, hΓ, hx =>
    have hx := not_mem_of_append hx
    (((Exp.watchesAll hc es hs.2 hΓ hx.2).seq (e.watches hc none hs.1 hΓ hx.1 nofun)).congr rfl
      fun r => by rw [Exp.analyseAll]).imp Or.symm Or.symm

/-- So does the analysis of what the operands compute. -/
theorem Exp.watchesOperands (hc : c.transposePull = false) : ∀ (es : List Exp) {Γ : Scope},
    Exp.ScopedAll Γ es → Γ.ArrayAt x → x ∉ Exp.bindersAll es →
      Watches c x (Exp.choicesOperands c es)
      (∃ e ∈ es, ∃ i ∈ e.inner, x ∈ i.escaping false) (∃ e ∈ es, ∃ i ∈ e.inner, x ∈ i.free false)
      fun r => Exp.analyseOperands c r es
  | [], _, _, _, _ => .imp .pure (fun ⟨_, he, _⟩ => nomatch he) (fun ⟨_, he, _⟩ => nomatch he)
  | .index y is s :: es, _, hs, hΓ, hx =>
    have hx := not_mem_of_append hx
    (((Exp.watchesOperands hc es hs.2 hΓ hx.2).seq (Exp.watchesAll hc is hs.1.2 hΓ hx.1)).congr rfl
      fun r => by rw [Exp.analyseOperands]).imp
        (fun h => by simpa [Exp.inner, Exp.mem_escapingAll_iff, or_comm] using h)
        fun h => by simpa [Exp.inner, Exp.mem_freeAll_iff, or_comm] using h
  | .unary .iota n s :: es, _, hs, hΓ, hx =>
    have hx := not_mem_of_append hx
    have hn : n.Scoped _ := hs.1
    (((Exp.watchesOperands hc es hs.2 hΓ hx.2).seq (n.watches hc none hn hΓ hx.1 nofun)).congr rfl
      fun r => by rw [Exp.analyseOperands]).imp
        (fun h => by simpa [Exp.inner, or_comm] using h) fun h =>
          by simpa [Exp.inner, or_comm] using h
  | .unary .not _ _ :: es, _, hs, hΓ, hx | .unary .negate _ _ :: es, _, hs, hΓ, hx
  | .unary .size _ _ :: es, _, hs, hΓ, hx | .unary .transpose _ _ :: es, _, hs, hΓ, hx
  | .lit .. :: es, _, hs, hΓ, hx | .var .. :: es, _, hs, hΓ, hx | .tuple .. :: es, _, hs, hΓ, hx
  | .array .. :: es, _, hs, hΓ, hx | .binary .. :: es, _, hs, hΓ, hx | .cond .. :: es, _, hs, hΓ, hx
  | .call .. :: es, _, hs, hΓ, hx | .letIn .. :: es, _, hs, hΓ, hx | .update .. :: es, _, hs, hΓ, hx
  | .replicate .. :: es, _, hs, hΓ, hx | .loop .. :: es, _, hs, hΓ, hx
  | .soac .. :: es, _, hs, hΓ, hx =>
    have hx := not_mem_of_append hx
    (((Exp.watchesOperands hc es hs.2 hΓ hx.2).seq .pure).congr rfl fun r => by
      rw [Exp.analyseOperands]).imp (fun h => by simpa [Exp.inner] using h)
        fun h => by simpa [Exp.inner] using h

/-- So does the analysis of a lambda, where all uses escape. -/
theorem Lambda.watches (hc : c.transposePull = false) : ∀ (f : Lambda) {Γ : Scope}, f.Scoped Γ →
    Γ.ArrayAt x → x ∉ f.binders →
      Watches c x (f.choices c) (x ∈ f.free false) (x ∈ f.free false) fun r => f.analyse c r
  | ⟨ps, b, ts⟩, Γ, hs, hΓ, hx =>
    have hx := not_mem_of_append hx
    (((b.watches hc none hs (hΓ.enter hx.1) hx.2 nofun).region
      (fun q => q.consumers.keys ++ Lambda.freeArrays ⟨ps, b, ts⟩) fun _ =>
        List.subset_append_left _ _).congr
        rfl fun r => by rw [Lambda.analyse]).imp And.left And.left

/-- So does the analysis of the lambdas of a combinator. -/
theorem Combinator.watchesLambdas (hc : c.transposePull = false) : ∀ (op : Combinator) {Γ : Scope},
    op.Scoped Γ → Γ.ArrayAt x → x ∉ op.binders → Watches c x (op.lambdaChoices c)
      (∃ f ∈ op.lambdas, x ∈ f.free false) (∃ f ∈ op.lambdas, x ∈ f.free false)
      fun r => op.analyseLambdas c r
  | .map f, _, hs, hΓ, hx => ((f.watches hc hs hΓ hx).congr rfl fun r => by
      rw [Combinator.analyseLambdas]).imp (by simp [Combinator.lambdas]) (by
        simp [Combinator.lambdas])
  | .reduce f _, _, hs, hΓ, hx => ((f.watches hc hs.1 hΓ (not_mem_of_append hx).1).congr rfl
        fun r => by
      rw [Combinator.analyseLambdas]).imp (by simp [Combinator.lambdas]) (by
        simp [Combinator.lambdas])
  | .scan f _, _, hs, hΓ, hx => ((f.watches hc hs.1 hΓ (not_mem_of_append hx).1).congr rfl
        fun r => by
      rw [Combinator.analyseLambdas]).imp (by simp [Combinator.lambdas]) (by
        simp [Combinator.lambdas])
  | .filter p, _, hs, hΓ, hx => ((p.watches hc hs hΓ hx).congr rfl fun r => by
      rw [Combinator.analyseLambdas]).imp (by simp [Combinator.lambdas]) (by
        simp [Combinator.lambdas])
  | .redomap f g _, _, hs, hΓ, hx =>
    have hx := not_mem_of_append (not_mem_of_append hx).1
    (((f.watches hc hs.1 hΓ hx.1).seq (g.watches hc hs.2.1 hΓ hx.2)).congr rfl fun r => by
      rw [Combinator.analyseLambdas]).imp (by simp [Combinator.lambdas]) (by
        simp [Combinator.lambdas])

/-- So does the analysis of its neutral elements. -/
theorem Combinator.watchesNeutral (hc : c.transposePull = false) : ∀ (op : Combinator) {Γ : Scope},
    op.Scoped Γ → Γ.ArrayAt x → x ∉ op.binders → Watches c x (op.neutralChoices c)
      (x ∈ Exp.escapingAll op.neutral) (x ∈ Exp.freeAll false op.neutral)
      fun r => op.analyseNeutral c r
  | .map _, _, _, _, _ => .imp .pure id id
  | .filter _, _, _, _, _ => .imp .pure id id
  | .reduce _ ne, _, hs, hΓ, hx => (Exp.watchesAll hc ne hs.2 hΓ (not_mem_of_append hx).2).congr rfl
    fun r => by rw [Combinator.analyseNeutral]
  | .scan _ ne, _, hs, hΓ, hx => (Exp.watchesAll hc ne hs.2 hΓ (not_mem_of_append hx).2).congr rfl
    fun r => by rw [Combinator.analyseNeutral]
  | .redomap _ _ ne, _, hs, hΓ, hx =>
    (Exp.watchesAll hc ne hs.2.2 hΓ (not_mem_of_append hx).2).congr rfl fun r => by
      rw [Combinator.analyseNeutral]

end

end

/-! ## The analysis of a part of a function -/

/-- Wherever the analysis of a part of a function starts, each array that is used in the part must
not be fused afterwards, or else all its uses in the part are whole arguments of combinators that
`let`s bind outside of all lambdas and loop bodies of the part, and each kernel that such a
combinator went into or became is noted as a reader of the array. -/
theorem Exp.forbidden_or_noted {c : Config} {f : FunDef} {e : Exp} {x : Ident} {r r' : Registry}
    {a b : Progress} (hf : f.WellScoped) (he : e.Within f) (hc : c.transposePull = false)
    (h : e.analyse c none r a = .ok (r', b)) (hx : x ∈ e.freeVars)
    (harray : x.isArray) :
    x.name ∈ r'.unfusable ∨ x.name ∉ e.escaping false ∧
      (∀ p d, (p, d) ∈ e.lets → d.isSoac = true → ⟨.combinator, p, d⟩ ∈ e.choices c none) ∧
      ∃ l : Log, l.map Prod.fst = e.choices c none ∧ b.decisions = a.decisions ++ l.map Prod.snd ∧
        ∀ t ∈ l, t.2.names = t.1.names ∧
          (x.name ∈ t.1.reads → ∀ id ∈ t.2.kernels, id ∈ r'.consumersOf x.name) := by
  obtain ⟨ps, hdistinct, huses⟩ := hf.within he
  obtain ⟨hps, -, hne⟩ := List.nodup_append.1 hdistinct
  -- the name is free, so it is bound outside of the code
  have hmem : x ∈ ps := by
    rcases e.of_mem_collectFree [] [] huses hx with hx | hx
    · cases hx
    · exact hx.2
  -- it has one type, as no two names in scope are the same
  have harrays : Scope.ArrayAt {y | y ∈ ps} x.name := fun y hy hname => by
    rwa [List.inj_on_of_nodup_map hps hy hmem hname]
  have hunbound : x.name ∉ e.binders := fun hbound => hne _ (List.mem_map_of_mem hmem) _ hbound rfl
  obtain ⟨l, hl, hcourse, hwatched⟩ :=
    (e.watches hc none huses harrays hunbound nofun).result _ _ _ _ h
  exact hwatched.imp_right fun ⟨hescapes, hreads, _⟩ =>
    ⟨hescapes, fun _ _ hd => Exp.mem_choices h hd,
    l, hl, hcourse.decisions, fun t ht => ⟨hcourse.names t ht, hreads t ht⟩⟩

/-- The body of the first `let` reads the array that the `let` binds as a whole, and nothing else
does.  The kernel for the second `let` is noted as a reader. -/
theorem Exp.forbidden_or_noted_negatedTwice : ∃ p e r b, (p, e) ∈ negatedTwice.body.parts
    ∧ e.analyse { Config.default with transposePull := false } none .empty
        ⟨.forFun negatedTwice, 0, []⟩ = .ok (r, b)
    ∧ ⟨⟨"ys", 1⟩, .array .int⟩ ∈ e.freeVars
    ∧ ⟨"ys", 1⟩ ∉ r.unfusable ∧ ⟨"ys", 1⟩ ∉ e.escaping false
    ∧ .kept [⟨"zs", 3⟩] .map (some ⟨0⟩) .unfusable ∈ b.decisions ∧
      ⟨0⟩ ∈ r.consumersOf ⟨"ys", 1⟩ := by
  have hscoped : negatedTwice.WellScoped := ⟨by decide, by
    simp [negatedTwice, Exp.bind, Exp.ofIdent, Exp.Scoped, Exp.ScopedAll, Combinator.Scoped,
      Lambda.Scoped]⟩
  obtain ⟨p, e, hpart, hfree, hreads, hrun⟩ : ∃ p e, (p, e) ∈ negatedTwice.body.parts
      ∧ ⟨⟨"ys", 1⟩, .array .int⟩ ∈ e.freeVars
      ∧ (∀ s ∈ e.choices { Config.default with transposePull := false } none, ⟨"ys", 1⟩ ∈ s.reads)
      ∧ (e.analyse { Config.default with transposePull := false } none .empty
        ⟨.forFun negatedTwice, 0, []⟩).toOption.any (fun q => !q.1.isUnfusable ⟨"ys", 1⟩
          && q.2.decisions.contains (.kept [⟨"zs", 3⟩] .map (some ⟨0⟩) .unfusable)) = true :=
    ⟨_, _, List.mem_cons_of_mem _ List.mem_cons_self,
      by decide +kernel, by decide +kernel, by decide +kernel⟩
  obtain ⟨q, h, hrun⟩ := Except.exists_of_any hrun
  obtain ⟨hrun, hkept⟩ := Bool.and_eq_true_iff.1 hrun
  rw [List.contains_iff_mem] at hkept
  have hnot : ⟨"ys", 1⟩ ∉ q.1.unfusable := fun hmem => by simp [Registry.isUnfusable, hmem] at hrun
  obtain ⟨hescapes, -, l, hl, hdecisions, hnoted⟩ := (Exp.forbidden_or_noted hscoped
    (.single ⟨p, hpart⟩) rfl h hfree rfl).resolve_left hnot
  -- the log has the decision, and the choice that it is about reads the array
  have hlogged : .kept [⟨"zs", 3⟩] .map (some ⟨0⟩) .unfusable ∈ l.map Prod.snd :=
    by rwa [hdecisions] at hkept
  obtain ⟨t, ht, htkept⟩ := List.mem_map.1 hlogged
  have hconsumer := (hnoted t ht).2 (hreads _ (hl ▸ List.mem_map_of_mem ht)) ⟨0⟩
    (by simp [htkept, Decision.kernels])
  exact ⟨p, e, q.1, q.2, hpart, h, hfree, hnot, hescapes, hkept, hconsumer⟩

end ArrayFusion
