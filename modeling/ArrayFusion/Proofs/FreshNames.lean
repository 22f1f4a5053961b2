import Mathlib.Data.List.Nodup
import ArrayFusion.Proofs.Occurrences
import ArrayFusion.Proofs.Parts

/-!
# What a supply for a function hands out

`Ident.StandsAt` lists the positions in which an identifier can stand at one place of the code, and
`Ident.OccursIn` says that it stands in one of them at some place of a function, however deep.  The
tags that `NameSupply.forFun` looks at are those of all these identifiers and of no others
(`Ident.occursIn_iff`).

As long as there are tags, a supply numbers what it hands out without a gap, whatever is asked for
(`NameSupply.answers_tags`).  So a supply for a function that leaves room answers any requests with
different names none of which occurs in the function (`NameSupply.answers_forFun`).
-/

namespace ArrayFusion

variable {x : Ident} {e : Exp} {f : FunDef}

/-! ## Positions -/

/-- The identifier stands in the expression itself, not in one of its parts. -/
inductive Ident.StandsAt (x : Ident) : Exp → Prop
  | used {s : Span} : x.StandsAt (.var x s)
  | bound {p : Pattern} {r b : Exp} {s : Span} : x ∈ p → x.StandsAt (.letIn p r b s)
  | target {y : Ident} {is : List Exp} {v b : Exp} {s : Span} : x.StandsAt (.update x y is v b s)
  | source {y : Ident} {is : List Exp} {v b : Exp} {s : Span} : x.StandsAt (.update y x is v b s)
  | indexed {is : List Exp} {s : Span} : x.StandsAt (.index x is s)
  | merged {p : Pattern} {is : List Exp} {i : Ident} {n b r : Exp} {s : Span} :
    x ∈ p → x.StandsAt (.loop p is i n b r s)
  | counter {p : Pattern} {is : List Exp} {n b r : Exp} {s : Span} :
    x.StandsAt (.loop p is x n b r s)
  | certificate {op : Combinator} {es : List Exp} {cs : Certificates} {s : Span} :
    x ∈ cs → x.StandsAt (.soac op es cs s)
  | parameter {op : Combinator} {es : List Exp} {cs : Certificates} {s : Span} {g : Lambda} :
    g ∈ op.lambdas → x ∈ g.params → x.StandsAt (.soac op es cs s)

/-- The identifier is a parameter of the function or stands at some place in its body. -/
def Ident.OccursIn (x : Ident) (f : FunDef) : Prop :=
  x ∈ f.params ∨ ∃ e : Exp, e.Within f ∧ x.StandsAt e

/-- An identifier occurs in expressions if it occurs in one of them. -/
theorem Exp.mem_identsAll_iff {es : List Exp} : x ∈ Exp.identsAll es ↔ ∃ e ∈ es, x ∈ e.idents := by
  induction es with
  | nil => simp [Exp.identsAll]
  | cons e es ih => rw [Exp.identsAll, List.mem_append, ih, List.exists_mem_cons_iff]

/-- The identifiers of a lambda are its parameters and those of its body. -/
theorem Lambda.idents_eq (g : Lambda) : g.idents = g.params ++ g.body.idents := by
  cases g
  rfl

/-- An identifier occurs in a combinator if it occurs in a lambda or in a neutral element. -/
theorem Combinator.mem_idents_iff {op : Combinator} : x ∈ op.idents
    ↔ (∃ g ∈ op.lambdas, x ∈ g.params ∨ x ∈ g.body.idents) ∨ ∃ e ∈ op.neutral, x ∈ e.idents := by
  cases op <;>
    simp [Combinator.idents, Combinator.lambdas, Combinator.neutral, Lambda.idents_eq,
      Exp.mem_identsAll_iff, or_assoc]

/-- An identifier that stands at a part occurs in it. -/
theorem Ident.StandsAt.mem_idents (h : x.StandsAt e) : x ∈ e.idents := by
  cases h with
  | used | target | source | indexed | counter => simp [Exp.idents]
  | bound h | merged h | certificate h => simp [Exp.idents, h]
  | parameter hg h =>
    have hop : x ∈ Combinator.idents _ := Combinator.mem_idents_iff.2 (.inl ⟨_, hg, .inl h⟩)
    simp [Exp.idents, hop]

/-- The identifiers of a part occur in the expression. -/
theorem Exp.idents_part (e : Exp) : ∀ q ∈ e.parts, q.2.idents ⊆ e.idents := by
  cases e <;>
    simp [Exp.parts, Exp.idents, List.subset_def, Exp.mem_identsAll_iff,
      Combinator.mem_idents_iff] <;>
    grind

/-- What is listed for an expression stands in the expression itself or is listed for one of its
parts. -/
theorem Exp.mem_idents_cases (h : x ∈ e.idents) :
    x.StandsAt e ∨ ∃ q ∈ e.parts, x ∈ q.2.idents := by
  cases e <;>
    simp [Exp.parts, Exp.idents, Exp.mem_identsAll_iff, Combinator.mem_idents_iff] at h ⊢ <;>
    grind [Ident.StandsAt]

/-- Whatever is listed for an expression stands somewhere in it. -/
theorem Exp.exists_standsAt (e : Exp) (h : x ∈ e.idents) : ∃ d, e.Contains d ∧ x.StandsAt d := by
  rcases Exp.mem_idents_cases h with hat | ⟨q, hq, h⟩
  · exact ⟨e, .refl, hat⟩
  · obtain ⟨d, hd, hat⟩ := Exp.exists_standsAt q.2 h
    exact ⟨d, hd.part hq, hat⟩
termination_by sizeOf e
decreasing_by exact e.sizeOf_part q hq

/-- The supply for a function looks at every identifier that occurs in it, and at no others. -/
theorem Ident.occursIn_iff : x.OccursIn f ↔ x ∈ f.params ++ f.body.idents := by
  rw [List.mem_append]
  refine or_congr Iff.rfl ⟨?_, f.body.exists_standsAt⟩
  rintro ⟨e, he, hat⟩
  -- Outwards from the place of `x`: each layer lists what its parts list.
  have hidents := hat.mem_idents
  clear hat
  induction he with
  | refl => exact hidents
  | @tail d e _ hpart ih =>
    obtain ⟨p, hpart⟩ := hpart
    exact ih (Exp.idents_part d _ hpart hidents)

/-- There are more than so many tags of 32 bits behind the largest tag of the function. -/
def FunDef.LeavesRoom (f : FunDef) (n : Nat) : Prop :=
  n < Name.maxTag ∧ ∀ x : Ident, x.OccursIn f → x.name.tag + n < Name.maxTag

/-- A function leaves room if each tag leaves it. -/
theorem FunDef.leavesRoom_iff {n : Nat} : f.LeavesRoom n
    ↔ n < Name.maxTag ∧ ∀ x ∈ f.params ++ f.body.idents, x.name.tag + n < Name.maxTag := by
  simp only [FunDef.LeavesRoom, Ident.occursIn_iff]

instance (n : Nat) : Decidable (f.LeavesRoom n) := decidable_of_iff _ FunDef.leavesRoom_iff.symm

/-! ## Requests -/

namespace NameSupply

/-- What a supply can be asked for. -/
inductive Request where
  | fresh (base : String)
  | freshLike (x : Name)
  | ident (base : String) (ty : Ty)
  | freshIdent (x : Ident)

variable {s : NameSupply} {requests : List Request}

/-- The name that the supply hands out, and the supply without it. -/
def answer (s : NameSupply) : Request → Name × NameSupply
  | .fresh base => s.fresh base
  | .freshLike x => s.freshLike x
  | .ident base ty => ((s.ident base ty).1.name, (s.ident base ty).2)
  | .freshIdent x => ((s.freshIdent x).1.name, (s.freshIdent x).2)

/-- The names that the supply hands out to several requests, one after the other. -/
def answers (s : NameSupply) : List Request → List Name × NameSupply
  | [] => ([], s)
  | q :: qs => ((s.answer q).1 :: ((s.answer q).2.answers qs).1, ((s.answer q).2.answers qs).2)

/-- Any request takes the next tag, and no more than that. -/
theorem answer_tag (s : NameSupply) (q : Request) :
    (s.answer q).1.tag = s.next ∧ (s.answer q).2.count = s.count + 1 := by
  cases q <;> exact ⟨rfl, rfl⟩

/-- Each request is counted once. -/
theorem count_answers (s : NameSupply) (requests : List Request) :
    (s.answers requests).2.count = s.count + requests.length := by
  induction requests generalizing s with
  | nil => rfl
  | cons q qs ih =>
    rw [answers, List.length_cons, ih, (s.answer_tag q).2]
    omega

/-- The names handed out have the next tags of the supply, in order, if there are so many. -/
theorem answers_tags (hroom : (s.answers requests).2.InRange) :
    (s.answers requests).1.map (·.tag) = List.range' s.count requests.length := by
  induction requests generalizing s with
  | nil => rfl
  | cons q qs ih =>
    obtain ⟨htag, hnext⟩ := s.answer_tag q
    have hlt : s.count < (s.answers (q :: qs)).2.count := by
      rw [count_answers, List.length_cons]
      omega
    rw [answers, List.map_cons, List.length_cons, List.range'_succ, htag, hroom.next_eq hlt,
      ih hroom, hnext]

/-- Every request gets a name. -/
theorem length_answers (s : NameSupply) (requests : List Request) :
    (s.answers requests).1.length = requests.length := by
  induction requests generalizing s with
  | nil => rfl
  | cons q qs ih => exact congrArg (· + 1) (ih _)

/-- Without a wrap the answers are different from each other. -/
theorem nodup_answers (hroom : (s.answers requests).2.InRange) : (s.answers requests).1.Nodup := by
  apply List.Nodup.of_map (·.tag)
  rw [answers_tags hroom]
  exact List.nodup_range'

/-- Without a wrap the answers have at least the tag the source has come to. -/
theorem le_tag_of_answers (hroom : (s.answers requests).2.InRange) {y : Name}
    (hy : y ∈ (s.answers requests).1) : s.count ≤ y.tag := by
  have htag : y.tag ∈ List.range' s.count requests.length := by
    rw [← answers_tags hroom]
    exact List.mem_map_of_mem hy
  exact (List.mem_range'_1.1 htag).1

/-- If there is room for so many names, the supply for the function can number them without
overflow. -/
theorem count_forFun_le {n : Nat} (hroom : f.LeavesRoom n) :
    (forFun f).count + n ≤ Name.maxTag := by
  obtain ⟨hn, hroom⟩ := FunDef.leavesRoom_iff.1 hroom
  have hmax : maxTag (f.params ++ f.body.idents) + n < Name.maxTag := by
    rcases maxTag_cases (f.params ++ f.body.idents) with hzero | ⟨x, hx, hmax⟩
    · omega
    · have := hroom x hx
      omega
  change min (maxTag (f.params ++ f.body.idents) + 1) Name.maxTag + n ≤ Name.maxTag
  omega

/-- The supply for a function answers any requests with names that are all different and of which
none occurs in the function, and its counter stays a number of 32 bits. -/
theorem answers_forFun (hroom : f.LeavesRoom requests.length) :
    ((forFun f).answers requests).1.length = requests.length
      ∧ ((forFun f).answers requests).1.Nodup
      ∧ (∀ y ∈ ((forFun f).answers requests).1, ∀ x : Ident, x.OccursIn f → y ≠ x.name)
      ∧ ((forFun f).answers requests).2.count ≤ Name.maxTag := by
  -- each request takes one tag, and there is room for all
  have hend : ((forFun f).answers requests).2.count ≤ Name.maxTag := by
    rw [count_answers]
    exact count_forFun_le hroom
  have hrange : ((forFun f).answers requests).2.InRange := Nat.le_trans hend (Nat.sub_le _ _)
  refine ⟨length_answers _ _, nodup_answers hrange, ?_, hend⟩
  rintro y hy x hx rfl
  have htags : ∀ z ∈ f.params ++ f.body.idents, z.name.tag < Name.maxTag := by
    intro z hz
    have := hroom.2 z (Ident.occursIn_iff.2 hz)
    omega
  -- the source starts above all tags of the function
  have hbelow := lt_forFun htags (Ident.occursIn_iff.1 hx)
  have habove := le_tag_of_answers hrange hy
  omega

end NameSupply

/-- Copies an array number by number and negates the copy, with an identifier in every position
there is. -/
def copiedAndNegated : FunDef :=
  let number (base : String) (tag : Nat) : Ident := ⟨⟨base, tag⟩, .int⟩
  let array (base : String) (tag : Nat) : Ident := ⟨⟨base, tag⟩, .array .int⟩
  let cert : Ident := ⟨⟨"c", 2⟩, .bool⟩
  let negate : Lambda := ⟨[number "x" 8], .unary .negate (.ofIdent (number "x" 8)) .dummy, [.int]⟩
  ⟨"f", [array "xs" 0, number "n" 1, cert], .array .int,
    .loop [array "ys" 3] [.replicate (.ofIdent (number "n" 1)) (.lit (.int 0) .dummy) .dummy]
      (number "i" 4) (.ofIdent (number "n" 1))
      (.update (array "zs" 5) (array "ys" 3) [.ofIdent (number "i" 4)]
        (.index (array "xs" 0) [.ofIdent (number "i" 4)] .dummy) (.ofIdent (array "zs" 5)) .dummy)
      (.bind [array "ws" 6] (.soac (.map negate) [.ofIdent (array "ys" 3)] [cert] .dummy)
        (.ofIdent (array "ws" 6))) .dummy, .dummy⟩

theorem NameSupply.answers_forFun_copiedAndNegated :
    let requests : List Request :=
      [.fresh "zs", .freshLike ⟨"x", 8⟩, .ident "i" .int, .freshIdent ⟨⟨"c", 2⟩, .bool⟩]
    copiedAndNegated.LeavesRoom requests.length
      ∧ ((forFun copiedAndNegated).answers requests).1.length = 4
      ∧ ((forFun copiedAndNegated).answers requests).1.Nodup
      ∧ (∀ y ∈ ((forFun copiedAndNegated).answers requests).1, ∀ x : Ident,
        x.OccursIn copiedAndNegated → y ≠ x.name)
      ∧ ((forFun copiedAndNegated).answers requests).2.count ≤ Name.maxTag := by
  have hroom : copiedAndNegated.LeavesRoom 4 := by decide
  exact ⟨hroom, answers_forFun hroom⟩

end ArrayFusion
