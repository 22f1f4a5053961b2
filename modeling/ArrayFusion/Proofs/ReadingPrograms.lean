import ArrayFusion.Proofs.ReadingJson
import ArrayFusion.Syntax.Decoding

/-!
# Programs are read back from JSON

What `Program.toJson` writes is what `Program.ofJson?` accepts, and it is read as the program that
was written (`Program.ofJson?_toJson`).  Both walk over the same syntax, so this is a matter of the
leaves: the literals, the identifiers and the spans.  A `LeafTest` picks some of them, and a program
all of whose leaves pass is read back if such leaves are.

Leaves are read back that are no floats and whose numbers have 32 bits, which is all the room that a
tag or a position has.  What is written for them is exact (`Program.isExact_toJson`), so that it
makes no difference whether the value itself is read or a text of it.
-/

namespace ArrayFusion

open Json (record? onlyField?)

/-! ## Leaves -/

/-- A test for the leaves of a program: its literals, its identifiers and its spans. -/
structure LeafTest where
  literal : Literal → Bool := fun _ => true
  ident : Ident → Bool := fun _ => true
  span : Span → Bool := fun _ => true

mutual

/-- Do all leaves of the expression pass the test? -/
def Exp.every (t : LeafTest) : Exp → Bool
  | .lit v s => t.literal v && t.span s
  | .var x s => t.ident x && t.span s
  | .tuple es s => Exp.everyAll t es && t.span s
  | .array es _ s => Exp.everyAll t es && t.span s
  | .binary _ a b _ s => a.every t && b.every t && t.span s
  | .unary _ e s => e.every t && t.span s
  | .cond c a b _ s => c.every t && a.every t && b.every t && t.span s
  | .call _ es _ s => Exp.everyAll t es && t.span s
  | .letIn p r b s => p.all t.ident && r.every t && b.every t && t.span s
  | .update x y is v b s =>
    t.ident x && t.ident y && Exp.everyAll t is && v.every t && b.every t && t.span s
  | .index x is s => t.ident x && Exp.everyAll t is && t.span s
  | .replicate n v s => n.every t && v.every t && t.span s
  | .loop p is i n b r s =>
    p.all t.ident && Exp.everyAll t is && t.ident i && n.every t && b.every t && r.every t
      && t.span s
  | .soac op es cs s => op.every t && Exp.everyAll t es && cs.all t.ident && t.span s

/-- Do all leaves of the expressions pass the test? -/
def Exp.everyAll (t : LeafTest) : List Exp → Bool
  | [] => true
  | e :: es => e.every t && Exp.everyAll t es

/-- Do all leaves of the lambda pass the test? -/
def Lambda.every (t : LeafTest) : Lambda → Bool
  | ⟨ps, b, _⟩ => ps.all t.ident && b.every t

/-- Do all leaves of the combinator pass the test? -/
def Combinator.every (t : LeafTest) : Combinator → Bool
  | .map f => f.every t
  | .reduce f ne => f.every t && Exp.everyAll t ne
  | .scan f ne => f.every t && Exp.everyAll t ne
  | .filter p => p.every t
  | .redomap f g ne => f.every t && g.every t && Exp.everyAll t ne

end

/-- Do all leaves of the function pass the test? -/
def FunDef.every (t : LeafTest) (f : FunDef) : Bool :=
  f.params.all t.ident && f.body.every t && t.span f.span

/-- Do all leaves of the program pass the test? -/
def Program.every (t : LeafTest) (p : Program) : Bool := p.funs.all (·.every t)

namespace LeafTest

/-- No literal is a float. -/
def realFree : LeafTest where
  literal
    | .real _ => false
    | _ => true

/-- The numbers in names and positions have 32 bits. -/
def machineSized : LeafTest where
  ident x := x.name.tag < UInt32.size
  span s := s.start.line < UInt32.size && s.start.column < UInt32.size && s.stop.line < UInt32.size
    && s.stop.column < UInt32.size

/-- Both tests are passed. -/
def and (t u : LeafTest) : LeafTest :=
  ⟨fun v => t.literal v && u.literal v, fun x => t.ident x && u.ident x,
    fun s => t.span s && u.span s⟩

/-- Leaves that pass are read back from what is written for them. -/
structure Faithful (t : LeafTest) : Prop where
  literal : ∀ v, t.literal v = true → Literal.ofJson? v.toJson = some v
  ident : ∀ x, t.ident x = true → Ident.ofJson? x.toJson = some x
  span : ∀ s, t.span s = true → Span.ofJson? s.toJson = some s

end LeafTest

section

variable (t u : LeafTest)

/-- All members pass two tests if they pass one and they pass the other. -/
theorem LeafTest.all_and {α : Type} (p q : α → Bool) (xs : List α) :
    xs.all (fun x => p x && q x) = (xs.all p && xs.all q) := by
  induction xs with
  | nil => rfl
  | cons x xs ih =>
    rw [List.all_cons, List.all_cons, List.all_cons, ih]
    ac_rfl

@[simp] theorem LeafTest.and_literal (v : Literal) :
    (t.and u).literal v = (t.literal v && u.literal v) := rfl

@[simp] theorem LeafTest.and_ident (x : Ident) :
    (t.and u).ident x = (t.ident x && u.ident x) := rfl

@[simp] theorem LeafTest.and_span (s : Span) : (t.and u).span s = (t.span s && u.span s) := rfl

theorem LeafTest.all_ident_and (xs : List Ident) :
    xs.all (t.and u).ident = (xs.all t.ident && xs.all u.ident) :=
  LeafTest.all_and t.ident u.ident xs

mutual

/-- Two tests are passed together if each of them is. -/
theorem Exp.every_and : ∀ e : Exp, e.every (t.and u) = (e.every t && e.every u)
  | .lit _ _ | .var _ _ => by
    simp only [Exp.every, LeafTest.and_literal, LeafTest.and_ident, LeafTest.and_span]
    ac_rfl
  | .tuple es _ | .array es _ _ | .call _ es _ _ => by
    simp only [Exp.every, Exp.everyAll_and es, LeafTest.and_span]
    ac_rfl
  | .unary _ e _ => by
    simp only [Exp.every, Exp.every_and e, LeafTest.and_span]
    ac_rfl
  | .binary _ a b _ _ | .replicate a b _ => by
    simp only [Exp.every, Exp.every_and a, Exp.every_and b, LeafTest.and_span]
    ac_rfl
  | .cond c a b _ _ => by
    simp only [Exp.every, Exp.every_and c, Exp.every_and a, Exp.every_and b, LeafTest.and_span]
    ac_rfl
  | .letIn p r b _ => by
    simp only [Exp.every, LeafTest.all_ident_and, LeafTest.and_span, Exp.every_and r,
      Exp.every_and b]
    ac_rfl
  | .update _ _ is v b _ => by
    simp only [Exp.every, Exp.everyAll_and is, Exp.every_and v, Exp.every_and b,
      LeafTest.and_ident, LeafTest.and_span]
    ac_rfl
  | .index _ is _ => by
    simp only [Exp.every, Exp.everyAll_and is, LeafTest.and_ident, LeafTest.and_span]
    ac_rfl
  | .loop p is _ n b r _ => by
    simp only [Exp.every, LeafTest.all_ident_and, LeafTest.and_ident, LeafTest.and_span,
      Exp.everyAll_and is, Exp.every_and n,
      Exp.every_and b, Exp.every_and r]
    ac_rfl
  | .soac op es cs _ => by
    simp only [Exp.every, LeafTest.all_ident_and, LeafTest.and_span, Combinator.every_and op,
      Exp.everyAll_and es]
    ac_rfl

/-- Two tests pass together on a list of expressions if each of them passes. -/
theorem Exp.everyAll_and : ∀ es : List Exp,
    Exp.everyAll (t.and u) es = (Exp.everyAll t es && Exp.everyAll u es)
  | [] => rfl
  | e :: es => by
    simp only [Exp.everyAll, Exp.every_and e, Exp.everyAll_and es]
    ac_rfl

/-- Two tests pass together on a lambda if each of them passes. -/
theorem Lambda.every_and : ∀ f : Lambda, f.every (t.and u) = (f.every t && f.every u)
  | ⟨ps, b, _⟩ => by
    simp only [Lambda.every, LeafTest.all_ident_and, Exp.every_and b]
    ac_rfl

/-- Two tests pass together on a combinator if each of them passes. -/
theorem Combinator.every_and : ∀ op : Combinator, op.every (t.and u) = (op.every t && op.every u)
  | .map f | .filter f => Lambda.every_and f
  | .reduce f ne | .scan f ne => by
    simp only [Combinator.every, Lambda.every_and f, Exp.everyAll_and ne]
    ac_rfl
  | .redomap f g ne => by
    simp only [Combinator.every, Lambda.every_and f, Lambda.every_and g, Exp.everyAll_and ne]
    ac_rfl

end

/-- Two tests pass together on a function if each of them passes. -/
theorem FunDef.every_and (f : FunDef) : f.every (t.and u) = (f.every t && f.every u) := by
  simp only [FunDef.every, LeafTest.all_ident_and, LeafTest.and_span, Exp.every_and]
  ac_rfl

/-- Two tests pass together on a program if each of them passes. -/
theorem Program.every_and (p : Program) : p.every (t.and u) = (p.every t && p.every u) := by
  rw [Program.every, funext (FunDef.every_and t u), LeafTest.all_and]
  rfl

end

/-! ## Records -/

namespace Json

/-- A number of 32 bits is read back. -/
theorem nat32?_int {n : Nat} (h : n < UInt32.size) : (Json.int n).nat32? = some n := by
  have hn : (0 : Int) ≤ n ∧ (n : Int) < UInt32.size := ⟨Int.natCast_nonneg n, Int.ofNat_lt.2 h⟩
  simp only [nat32?, natBelow?, hn.1, hn.2, decide_true, Bool.and_self, if_true,
    Int.toNat_natCast]

/-- A number of 64 bits is read back. -/
theorem int64?_toInt (n : Int64) : (Json.int n.toInt).int64? = some n := by
  rw [int64?, decide_eq_true n.minValue_le_toInt, decide_eq_true n.toInt_le, Int64.ofInt_toInt]
  rfl

/-- What is written and read member by member is read back. -/
theorem mapM_map_eq_some {α β γ : Type} {f : α → β} {g : β → Option γ} {h : α → γ} {xs : List α}
    (hx : ∀ x ∈ xs, g (f x) = some (h x)) : (xs.map f).mapM g = some (xs.map h) := by
  induction xs with
  | nil => rfl
  | cons x xs ih =>
    obtain ⟨hx, hxs⟩ := List.forall_mem_cons.1 hx
    rw [List.map_cons, List.mapM_cons, hx, ih hxs]
    rfl

/-- A list is read back if its members are. -/
theorem list?_ofList {α : Type} {f : α → Json} {g : Json → Option α} {xs : List α}
    (h : ∀ x ∈ xs, g (f x) = some x) : (ofList f xs).list? g = some xs := by
  have hxs := mapM_map_eq_some (h := id) h
  rwa [List.map_id] at hxs

/-- A field of a record without repeated keys is found by its key. -/
theorem onlyField?_of_mem {fields : List (String × Json)} (hnodup : (fields.map (·.1)).Nodup)
    {f : String × Json} (hf : f ∈ fields) : onlyField? f.1 fields = some f.2 := by
  induction fields with
  | nil => cases hf
  | cons f' fields ih =>
    obtain ⟨hnotin, hnodup⟩ := List.nodup_cons.1 hnodup
    rw [onlyField?]
    rcases List.mem_cons.1 hf with rfl | hf
    · have hany : fields.any (·.1 == f.1) = false := by
        rw [List.any_eq_false]
        exact fun f' hf' heq => hnotin (List.mem_map.2 ⟨f', hf', eq_of_beq heq⟩)
      rw [hany, beq_self_eq_true]
      rfl
    · have hne : f'.1 ≠ f.1 := fun heq => hnotin (List.mem_map.2 ⟨f, hf, heq.symm⟩)
      rw [if_neg fun heq => hne (eq_of_beq heq)]
      exact ih hnodup hf

/-- A record whose fields have different names is taken apart into their values. -/
theorem record?_obj (fields : List (String × Json)) (hnodup : (fields.map (·.1)).Nodup) :
    (obj fields).record? (fields.map (·.1)) = some (fields.map (·.2)) :=
  mapM_map_eq_some fun _ hf => onlyField?_of_mem hnodup hf

end Json

/-- A position is read from its two fields. -/
theorem Pos.ofJson?_eq_some {j line column : Json} {l c : Nat}
    (h : j.record? ["line", "column"] = some [line, column]) (hl : line.nat32? = some l)
    (hc : column.nat32? = some c) : Pos.ofJson? j = some ⟨l, c⟩ := by
  rw [Pos.ofJson?, h]
  simp only [Option.bind_eq_bind, Option.bind_some, hl, hc]
  rfl

/-- A position is read back if its numbers have 32 bits. -/
theorem Pos.ofJson?_toJson {p : Pos} (hl : p.line < UInt32.size) (hc : p.column < UInt32.size) :
    Pos.ofJson? p.toJson = some p :=
  Pos.ofJson?_eq_some (Json.record?_obj [("line", .int p.line), ("column", .int p.column)]
    (by simp)) (Json.nat32?_int hl) (Json.nat32?_int hc)

/-- A span is read from its two positions. -/
theorem Span.ofJson?_eq_some {j start stop : Json} {p q : Pos}
    (h : j.record? ["start", "end"] = some [start, stop]) (hp : Pos.ofJson? start = some p)
    (hq : Pos.ofJson? stop = some q) : Span.ofJson? j = some ⟨p, q⟩ := by
  rw [Span.ofJson?, h]
  simp only [Option.bind_eq_bind, Option.bind_some, hp, hq]
  rfl

/-- A span is read back if its numbers have 32 bits. -/
theorem Span.ofJson?_toJson {s : Span} (h : LeafTest.machineSized.span s = true) :
    Span.ofJson? s.toJson = some s := by
  simp only [LeafTest.machineSized, Bool.and_eq_true, decide_eq_true_eq] at h
  obtain ⟨⟨⟨hsl, hsc⟩, htl⟩, htc⟩ := h
  exact Span.ofJson?_eq_some
    (Json.record?_obj [("start", s.start.toJson), ("end", s.stop.toJson)] (by simp))
    (Pos.ofJson?_toJson hsl hsc) (Pos.ofJson?_toJson htl htc)

/-- A name is read from its base and its tag. -/
theorem Name.ofJson?_eq_some {j base tag : Json} {x : Name}
    (h : j.record? ["base", "tag"] = some [base, tag]) (hb : base.str? = some x.base)
    (ht : tag.nat32? = some x.tag) : Name.ofJson? j = some x := by
  rw [Name.ofJson?, h]
  simp only [Option.bind_eq_bind, Option.bind_some, hb, ht]
  rfl

/-- A name is read back if its tag has 32 bits. -/
theorem Name.ofJson?_toJson {x : Name} (h : x.tag < UInt32.size) :
    Name.ofJson? x.toJson = some x :=
  Name.ofJson?_eq_some (Json.record?_obj [("base", .str x.base), ("tag", .int x.tag)] (by simp)) rfl
    (Json.nat32?_int h)

mutual

/-- Types are read back. -/
theorem Ty.ofJson?_toJson : ∀ t : Ty, Ty.ofJson? t.toJson = some t
  | .int | .real | .bool | .char => rfl
  | .tuple ts => by
    change (Ty.ofJsonAll? (Ty.toJsonAll ts)).map Ty.tuple = _
    rw [Ty.ofJsonAll?_toJsonAll ts]
    rfl
  | .array t => by
    change (Ty.ofJson? t.toJson).map Ty.array = _
    rw [Ty.ofJson?_toJson t]
    rfl

theorem Ty.ofJsonAll?_toJsonAll : ∀ ts : List Ty, Ty.ofJsonAll? (Ty.toJsonAll ts) = some ts
  | [] => rfl
  | t :: ts => by
    change (do return (← Ty.ofJson? t.toJson) :: (← Ty.ofJsonAll? (Ty.toJsonAll ts))) = _
    rw [Ty.ofJson?_toJson t, Ty.ofJsonAll?_toJsonAll ts]
    rfl

end

/-- An identifier is read from its name and its type. -/
theorem Ident.ofJson?_eq_some {j name ty : Json} {x : Ident}
    (h : j.record? ["name", "ty"] = some [name, ty]) (hx : Name.ofJson? name = some x.name)
    (ht : Ty.ofJson? ty = some x.ty) : Ident.ofJson? j = some x := by
  rw [Ident.ofJson?, h]
  simp only [Option.bind_eq_bind, Option.bind_some, hx, ht]
  rfl

/-- An identifier is read back if its tag has 32 bits. -/
theorem Ident.ofJson?_toJson {x : Ident} (h : LeafTest.machineSized.ident x = true) :
    Ident.ofJson? x.toJson = some x :=
  Ident.ofJson?_eq_some
    (Json.record?_obj [("name", x.name.toJson), ("ty", x.ty.toJson)] (by simp))
    (Name.ofJson?_toJson (of_decide_eq_true h)) (Ty.ofJson?_toJson x.ty)

/-- A literal is read back unless it is a real number. -/
theorem Literal.ofJson?_toJson {v : Literal} (h : LeafTest.realFree.literal v = true) :
    Literal.ofJson? v.toJson = some v := by
  cases v with
  | int n =>
    change ((Json.int n.toInt).int64?).map Literal.int = _
    rw [Json.int64?_toInt]
    rfl
  | real => cases h
  | bool b => simp [Literal.toJson, Literal.ofJson?, Json.tagged, Json.bool?]
  | char c => simp [Literal.toJson, Literal.ofJson?, Json.tagged, Json.char?]

/-- A binary operator is read back from its tag. -/
theorem BinaryOp.ofJson?_tag (op : BinaryOp) : BinaryOp.ofJson? (.str op.tag) = some op := by
  cases op <;> rfl

/-! ## Expressions -/

/-- An expression is read by its tag. -/
theorem Exp.ofJson?_tagged {form : ArgumentForm} {tag : String} {t : Exp.Tag}
    (h : Exp.Tag.ofString? tag = some t) (payload : Json) :
    Exp.ofJson? form (.tagged tag payload) = Exp.ofPayload? form t payload := by
  rw [Json.tagged, Exp.ofJson?, h]

/-- The field of a key is found and read if the keys are different. -/
theorem fieldBy?_of_mem {α : Type} {f : Json → Option α} {key : String} {j : Json} {x : α}
    {fields : List (String × Json)} (hnodup : (fields.map (·.1)).Nodup) (hj : (key, j) ∈ fields)
    (hx : f j = some x) : fieldBy? f key fields = some x := by
  rw [fieldBy?, Json.onlyField?_of_mem hnodup hj]
  exact hx

/-- An expression in a field is found and read in one walk over the fields. -/
theorem Exp.field?_eq (form : ArgumentForm) (key : String) (fields : List (String × Json)) :
    Exp.field? form key fields = fieldBy? (Exp.ofJson? form) key fields := by
  induction fields with
  | nil => rfl
  | cons f fields ih =>
    rw [Exp.field?, ih, fieldBy?, fieldBy?, onlyField?]
    split
    · split <;> rfl
    · rfl

/-- So is a list of expressions in a field. -/
theorem Exp.listField?_eq (form : ArgumentForm) (key : String) (fields : List (String × Json)) :
    Exp.listField? form key fields = fieldBy? (Exp.list? form) key fields := by
  induction fields with
  | nil => rfl
  | cons f fields ih =>
    rw [Exp.listField?, ih, fieldBy?, fieldBy?, onlyField?]
    split
    · split <;> rfl
    · rfl

/-- The tag of a unary operator is recognized. -/
theorem Exp.Tag.ofString?_unary (op : UnaryOp) :
    Exp.Tag.ofString? op.tag = some (.unary op) := by
  cases op <;> rfl

/-- The tag of a combinator is recognized. -/
theorem Exp.Tag.ofString?_soac (kind : Combinator.Kind) :
    Exp.Tag.ofString? kind.tag = some (.soac kind) := by
  cases kind <;> rfl

/-- Leaves without real numbers and with numbers that fit are read back. -/
theorem LeafTest.faithful_and : (LeafTest.realFree.and .machineSized).Faithful where
  literal _ h := Literal.ofJson?_toJson (Bool.and_eq_true_iff.1 h).1
  ident x h := Ident.ofJson?_toJson (x := x) h
  span s h := Span.ofJson?_toJson (s := s) h

section

variable {t : LeafTest}

/-- A list of identifiers is read back if each of them is. -/
theorem Ident.list?_listToJson (ht : t.Faithful) {xs : List Ident} (h : xs.all t.ident = true) :
    Ident.list? (Ident.listToJson xs) = some xs :=
  Json.list?_ofList fun x hx => ht.ident x (List.all_eq_true.1 h x hx)

/-- A pattern is read back if its identifiers are. -/
theorem Pattern.ofJson?_toJson (ht : t.Faithful) {p : Pattern} (h : p.all t.ident = true) :
    Pattern.ofJson? (Pattern.toJson p) = some p := by
  have hrecord : (Pattern.toJson p).record? ["idents"] = some [Ident.listToJson p] :=
    Json.record?_obj [("idents", Ident.listToJson p)] (by simp)
  rw [Pattern.ofJson?, hrecord]
  simp only [Option.bind_eq_bind, Option.bind_some, Ident.list?_listToJson ht h]

mutual

/-- An expression is read back from what is written for it if its leaves are. -/
theorem Exp.ofJson?_toJson (ht : t.Faithful) (form : ArgumentForm) : ∀ e : Exp,
    e.every t = true → Exp.ofJson? form e.toJson = some e
  | .lit v s, h => by
    simp only [Exp.every, Bool.and_eq_true] at h
    rw [Exp.toJson, Exp.ofJson?_tagged (t := .lit) rfl, Exp.ofPayload?]
    simp only [Option.bind_eq_bind, Option.bind_some, ht.literal v h.1, ht.span s h.2]
    rfl
  | .var x s, h => by
    simp only [Exp.every, Bool.and_eq_true] at h
    rw [Exp.toJson, Exp.ofJson?_tagged (t := .var) rfl, Exp.ofPayload?]
    simp only [Option.bind_eq_bind, Option.bind_some, ht.ident x h.1, ht.span s h.2]
    rfl
  | .tuple es s, h => by
    simp only [Exp.every, Bool.and_eq_true] at h
    rw [Exp.toJson, Exp.ofJson?_tagged (t := .tuple) rfl, Exp.ofPayload?]
    simp only [Option.bind_eq_bind, Option.bind_some, Exp.list?_toJsonAll ht form es h.1,
      ht.span s h.2]
    rfl
  | .array es t s, h => by
    simp only [Exp.every, Bool.and_eq_true] at h
    rw [Exp.toJson, Exp.ofJson?_tagged (t := .array) rfl, Exp.ofPayload?]
    simp only [Option.bind_eq_bind, Option.bind_some, Exp.list?_toJsonAll ht form es h.1,
      Ty.ofJson?_toJson, ht.span s h.2]
    rfl
  | .binary op a b t s, h => by
    simp only [Exp.every, Bool.and_eq_true] at h
    obtain ⟨⟨ha, hb⟩, hs⟩ := h
    rw [Exp.toJson, Exp.ofJson?_tagged (t := .binary) rfl, Exp.ofPayload?]
    simp only [Option.bind_eq_bind, Option.bind_some, BinaryOp.ofJson?_tag,
      Exp.ofJson?_toJson ht form a ha,
      Exp.ofJson?_toJson ht form b hb, Ty.ofJson?_toJson, ht.span s hs]
    rfl
  | .unary op e s, h => by
    simp only [Exp.every, Bool.and_eq_true] at h
    rw [Exp.toJson, Exp.ofJson?_tagged (Exp.Tag.ofString?_unary op), Exp.ofPayload?]
    simp only [Option.bind_eq_bind, Option.bind_some, Exp.ofJson?_toJson ht form e h.1,
      ht.span s h.2]
    rfl
  | .cond c a b t s, h => by
    simp only [Exp.every, Bool.and_eq_true] at h
    obtain ⟨⟨⟨hc, ha⟩, hb⟩, hs⟩ := h
    rw [Exp.toJson, Exp.ofJson?_tagged (t := .cond) rfl, Exp.ofPayload?]
    simp only [Option.bind_eq_bind, Option.bind_some, Exp.ofJson?_toJson ht form c hc,
      Exp.ofJson?_toJson ht form a ha, Exp.ofJson?_toJson ht form b hb, Ty.ofJson?_toJson,
      ht.span s hs]
    rfl
  | .call f es t s, h => by
    simp only [Exp.every, Bool.and_eq_true] at h
    rw [Exp.toJson, Exp.ofJson?_tagged (t := .call) rfl, Exp.ofPayload?]
    simp only [Option.bind_eq_bind, Option.bind_some, Json.str?, Exp.list?_toJsonAll ht form es h.1,
      Ty.ofJson?_toJson, ht.span s h.2]
    rfl
  | .letIn p r b s, h => by
    simp only [Exp.every, Bool.and_eq_true] at h
    obtain ⟨⟨⟨hp, hr⟩, hb⟩, hs⟩ := h
    rw [Exp.toJson, Exp.ofJson?_tagged (t := .letIn) rfl, Exp.ofPayload?]
    simp only [Option.bind_eq_bind, Option.bind_some, Pattern.ofJson?_toJson ht hp,
      Exp.ofJson?_toJson ht form r hr, Exp.ofJson?_toJson ht form b hb, ht.span s hs]
    rfl
  | .update x y is v b s, h => by
    simp only [Exp.every, Bool.and_eq_true] at h
    obtain ⟨⟨⟨⟨⟨hx, hy⟩, his⟩, hv⟩, hb⟩, hs⟩ := h
    rw [Exp.toJson, Exp.ofJson?_tagged (t := Exp.Tag.update) rfl, Exp.ofPayload?]
    generalize hfields : [("dest", x.toJson), ("src", y.toJson),
      ("idxs", Json.arr (Exp.toJsonAll is)), ("value", v.toJson), ("body", b.toJson),
      ("span", s.toJson)] = fields
    have hnodup : (fields.map (·.1)).Nodup := by simp [← hfields]
    have hdest : fieldBy? Ident.ofJson? "dest" fields = some x :=
      fieldBy?_of_mem hnodup (by simp [← hfields]) (ht.ident x hx)
    have hsrc : fieldBy? Ident.ofJson? "src" fields = some y :=
      fieldBy?_of_mem hnodup (by simp [← hfields]) (ht.ident y hy)
    have hidxs : fieldBy? (Exp.list? form) "idxs" fields = some is :=
      fieldBy?_of_mem hnodup (by simp [← hfields]) (Exp.list?_toJsonAll ht form is his)
    have hvalue : fieldBy? (Exp.ofJson? form) "value" fields = some v :=
      fieldBy?_of_mem hnodup (by simp [← hfields]) (Exp.ofJson?_toJson ht form v hv)
    have hbody : fieldBy? (Exp.ofJson? form) "body" fields = some b :=
      fieldBy?_of_mem hnodup (by simp [← hfields]) (Exp.ofJson?_toJson ht form b hb)
    have hspan : fieldBy? Span.ofJson? "span" fields = some s :=
      fieldBy?_of_mem hnodup (by simp [← hfields]) (ht.span s hs)
    simp only [Option.bind_eq_bind, Option.bind_some, Exp.field?_eq, Exp.listField?_eq, hdest, hsrc,
      hidxs, hvalue, hbody, hspan]
    rfl
  | .index x is s, h => by
    simp only [Exp.every, Bool.and_eq_true] at h
    obtain ⟨⟨hx, his⟩, hs⟩ := h
    rw [Exp.toJson, Exp.ofJson?_tagged (t := .index) rfl, Exp.ofPayload?]
    simp only [Option.bind_eq_bind, Option.bind_some, ht.ident x hx,
      Exp.list?_toJsonAll ht form is his, ht.span s hs]
    rfl
  | .replicate n v s, h => by
    simp only [Exp.every, Bool.and_eq_true] at h
    obtain ⟨⟨hn, hv⟩, hs⟩ := h
    rw [Exp.toJson, Exp.ofJson?_tagged (t := .replicate) rfl, Exp.ofPayload?]
    simp only [Option.bind_eq_bind, Option.bind_some, Exp.ofJson?_toJson ht form n hn,
      Exp.ofJson?_toJson ht form v hv, ht.span s hs]
    rfl
  | .loop p is i n b r s, h => by
    simp only [Exp.every, Bool.and_eq_true] at h
    obtain ⟨⟨⟨⟨⟨⟨hp, his⟩, hi⟩, hn⟩, hb⟩, hr⟩, hs⟩ := h
    rw [Exp.toJson, Exp.ofJson?_tagged (t := .loop) rfl, Exp.ofPayload?]
    generalize hfields : [("merge", Pattern.toJson p), ("init", Json.arr (Exp.toJsonAll is)),
      ("ivar", i.toJson), ("bound", n.toJson), ("body", b.toJson), ("rest", r.toJson),
      ("span", s.toJson)] = fields
    have hnodup : (fields.map (·.1)).Nodup := by simp [← hfields]
    have hmerge : fieldBy? Pattern.ofJson? "merge" fields = some p :=
      fieldBy?_of_mem hnodup (by simp [← hfields]) (Pattern.ofJson?_toJson ht hp)
    have hinit : fieldBy? (Exp.list? form) "init" fields = some is :=
      fieldBy?_of_mem hnodup (by simp [← hfields]) (Exp.list?_toJsonAll ht form is his)
    have hivar : fieldBy? Ident.ofJson? "ivar" fields = some i :=
      fieldBy?_of_mem hnodup (by simp [← hfields]) (ht.ident i hi)
    have hbound : fieldBy? (Exp.ofJson? form) "bound" fields = some n :=
      fieldBy?_of_mem hnodup (by simp [← hfields]) (Exp.ofJson?_toJson ht form n hn)
    have hbody : fieldBy? (Exp.ofJson? form) "body" fields = some b :=
      fieldBy?_of_mem hnodup (by simp [← hfields]) (Exp.ofJson?_toJson ht form b hb)
    have hrest : fieldBy? (Exp.ofJson? form) "rest" fields = some r :=
      fieldBy?_of_mem hnodup (by simp [← hfields]) (Exp.ofJson?_toJson ht form r hr)
    have hspan : fieldBy? Span.ofJson? "span" fields = some s :=
      fieldBy?_of_mem hnodup (by simp [← hfields]) (ht.span s hs)
    simp only [Option.bind_eq_bind, Option.bind_some, Exp.field?_eq, Exp.listField?_eq, hmerge,
      hinit, hivar, hbound, hbody, hrest, hspan]
    rfl
  | .soac op es cs s, h => by
    simp only [Exp.every, Bool.and_eq_true] at h
    obtain ⟨⟨⟨hop, hes⟩, hcs⟩, hs⟩ := h
    have hargs := Exp.list?_toJsonAll ht form es hes
    have hcerts := Ident.list?_listToJson ht hcs
    have hspan := ht.span s hs
    rw [Exp.toJson, Exp.ofJson?_tagged (Exp.Tag.ofString?_soac op.kind)]
    cases op with
    | map f =>
      have hf := Lambda.ofJson?_toJson ht form f hop
      rw [Combinator.toJsonParts, Combinator.kind, List.singleton_append, Exp.ofPayload?]
      simp only [Option.bind_eq_bind, Option.bind_some, hf, hargs, hcerts, hspan]
      rfl
    | filter f =>
      have hf := Lambda.ofJson?_toJson ht form f hop
      rw [Combinator.toJsonParts, Combinator.kind, List.singleton_append, Exp.ofPayload?]
      simp only [Option.bind_eq_bind, Option.bind_some, hf, hargs, hcerts, hspan]
      rfl
    | reduce f ne =>
      obtain ⟨hf, hne⟩ := Bool.and_eq_true_iff.1 hop
      rw [Combinator.toJsonParts, Combinator.kind, List.cons_append, List.singleton_append,
        Exp.ofPayload?]
      simp only [Option.bind_eq_bind, Option.bind_some, Lambda.ofJson?_toJson ht form f hf,
        Exp.list?_toJsonAll ht form ne hne, hargs, hcerts, hspan]
      rfl
    | scan f ne =>
      obtain ⟨hf, hne⟩ := Bool.and_eq_true_iff.1 hop
      rw [Combinator.toJsonParts, Combinator.kind, List.cons_append, List.singleton_append,
        Exp.ofPayload?]
      simp only [Option.bind_eq_bind, Option.bind_some, Lambda.ofJson?_toJson ht form f hf,
        Exp.list?_toJsonAll ht form ne hne, hargs, hcerts, hspan]
      rfl
    | redomap f g ne =>
      simp only [Combinator.every, Bool.and_eq_true] at hop
      obtain ⟨⟨hf, hg⟩, hne⟩ := hop
      rw [Combinator.toJsonParts, Combinator.kind, List.cons_append, List.cons_append,
        List.singleton_append, Exp.ofPayload?]
      simp only [Option.bind_eq_bind, Option.bind_some, Lambda.ofJson?_toJson ht form f hf,
        Lambda.ofJson?_toJson ht form g hg, Exp.list?_toJsonAll ht form ne hne, hargs,
        hcerts, hspan]
      rfl

/-- A list of expressions is read back if their leaves are. -/
theorem Exp.list?_toJsonAll (ht : t.Faithful) (form : ArgumentForm) : ∀ es : List Exp,
    Exp.everyAll t es = true → Exp.list? form (.arr (Exp.toJsonAll es)) = some es
  | [], _ => rfl
  | e :: es, h => by
    obtain ⟨he, hes⟩ := Bool.and_eq_true_iff.1 h
    have ih := Exp.list?_toJsonAll ht form es hes
    rw [Exp.list?] at ih
    rw [Exp.toJsonAll, Exp.list?, Exp.ofJsonAll?, Exp.ofJson?_toJson ht form e he, ih]
    rfl

/-- A lambda is read back if its leaves are. -/
theorem Lambda.ofJson?_toJson (ht : t.Faithful) (form : ArgumentForm) : ∀ f : Lambda,
    f.every t = true → Lambda.ofJson? form f.toJson = some f
  | ⟨ps, b, ts⟩, h => by
    obtain ⟨hps, hb⟩ := Bool.and_eq_true_iff.1 h
    rw [Lambda.toJson, Lambda.ofJson?]
    generalize hfields : [("params", Ident.listToJson ps), ("body", b.toJson),
      ("ret_types", Json.arr (Ty.toJsonAll ts))] = fields
    -- a field is found by its name, as no two fields have the same
    have hnodup : (fields.map (·.1)).Nodup := by simp [← hfields]
    have hparams : fieldBy? Ident.list? "params" fields = some ps :=
      fieldBy?_of_mem hnodup (by simp [← hfields]) (Ident.list?_listToJson ht hps)
    have hbody : fieldBy? (Exp.ofJson? form) "body" fields = some b :=
      fieldBy?_of_mem hnodup (by simp [← hfields]) (Exp.ofJson?_toJson ht form b hb)
    have hts : Ty.components? (.arr (Ty.toJsonAll ts)) = some ts := Ty.ofJsonAll?_toJsonAll ts
    have hrets : fieldBy? Ty.components? "ret_types" fields = some ts :=
      fieldBy?_of_mem hnodup (by simp [← hfields]) hts
    simp only [Option.bind_eq_bind, Option.bind_some, Exp.field?_eq, hparams, hbody, hrets]
    rfl

end

/-! ## Functions and programs -/

/-- A function is read from its five fields. -/
theorem FunDef.ofJson?_eq_some {form : ArgumentForm} {j name params ret body span : Json}
    {f : FunDef} (h : j.record? ["name", "params", "ret_type", "body", "span"]
      = some [name, params, ret, body, span]) (hn : name.str? = some f.name)
    (hp : Ident.list? params = some f.params) (hr : Ty.ofJson? ret = some f.ret)
    (hb : Exp.ofJson? form body = some f.body) (hs : Span.ofJson? span = some f.span) :
    FunDef.ofJson? form j = some f := by
  rw [FunDef.ofJson?, h]
  simp only [Option.bind_eq_bind, Option.bind_some, hn, hp, hr, hb, hs]
  rfl

/-- A function is read back if its leaves are. -/
theorem FunDef.ofJson?_toJson (ht : t.Faithful) (form : ArgumentForm) {f : FunDef}
    (h : f.every t = true) : FunDef.ofJson? form f.toJson = some f := by
  simp only [FunDef.every, Bool.and_eq_true] at h
  obtain ⟨⟨hp, hb⟩, hs⟩ := h
  exact FunDef.ofJson?_eq_some
    (Json.record?_obj [("name", .str f.name), ("params", Ident.listToJson f.params),
      ("ret_type", f.ret.toJson), ("body", f.body.toJson), ("span", f.span.toJson)] (by simp)) rfl
    (Ident.list?_listToJson ht hp) (Ty.ofJson?_toJson f.ret) (Exp.ofJson?_toJson ht form f.body hb)
    (ht.span f.span hs)

/-- A program is read back from what is written for it if its leaves are. -/
theorem Program.ofJson?_toJson (ht : t.Faithful) (form : ArgumentForm) {p : Program}
    (h : p.every t = true) : Program.ofJson? form p.toJson = some p := by
  have hrecord : p.toJson.record? ["funs"] = some [.ofList FunDef.toJson p.funs] :=
    Json.record?_obj [("funs", .ofList FunDef.toJson p.funs)] (by simp)
  have hfuns : (Json.ofList FunDef.toJson p.funs).list? (FunDef.ofJson? form) = some p.funs :=
    Json.list?_ofList fun f hf => FunDef.ofJson?_toJson ht form (List.all_eq_true.1 h f hf)
  rw [Program.ofJson?, hrecord]
  simp only [Option.bind_eq_bind, Option.bind_some, hfuns]
  rfl

end

/-! ## What is written is exact -/

namespace LeafTest

/-- What is written for leaves that pass is exact. -/
structure Exact (t : LeafTest) : Prop where
  literal : ∀ v, t.literal v = true → v.toJson.isExact = true
  ident : ∀ x, t.ident x = true → x.toJson.isExact = true
  span : ∀ s, t.span s = true → s.toJson.isExact = true

end LeafTest

namespace Json

@[simp] theorem isExact_tagged (tag : String) (j : Json) : (tagged tag j).isExact = j.isExact := by
  rw [tagged, isExact_obj, List.all_cons, List.all_nil, Bool.and_true]

/-- A list is exact if its members are. -/
theorem isExact_ofList {α : Type} {f : α → Json} {xs : List α}
    (h : ∀ x ∈ xs, (f x).isExact = true) : (ofList f xs).isExact = true := by
  rw [ofList, isExact_arr, List.all_map]
  exact List.all_eq_true.2 h

/-- A number of 32 bits is exact. -/
theorem isExact_nat {n : Nat} (h : n < UInt32.size) : (Json.int n).isExact = true := by
  have hsize : UInt32.size < UInt64.size := by decide
  have hmin : Int64.minValue.toInt ≤ 0 := by decide
  rw [isExact, isMachineInt, Bool.and_eq_true, decide_eq_true_eq, decide_eq_true_eq]
  omega

/-- A number of 64 bits is exact. -/
theorem isExact_int64 (n : Int64) : (Json.int n.toInt).isExact = true := by
  have hmax : Int64.maxValue.toInt < UInt64.size := by decide
  have hlow := n.minValue_le_toInt
  have hhigh := n.toInt_le
  rw [isExact, isMachineInt, Bool.and_eq_true, decide_eq_true_eq, decide_eq_true_eq]
  omega

end Json

mutual

/-- Types are written exactly. -/
theorem Ty.isExact_toJson : ∀ t : Ty, t.toJson.isExact = true
  | .int | .real | .bool | .char => rfl
  | .tuple ts => by
    rw [Ty.toJson, Json.isExact_tagged, Json.isExact_arr]
    exact Ty.all_isExact_toJsonAll ts
  | .array t => by
    rw [Ty.toJson, Json.isExact_tagged]
    exact Ty.isExact_toJson t

theorem Ty.all_isExact_toJsonAll : ∀ ts : List Ty, (Ty.toJsonAll ts).all Json.isExact = true
  | [] => rfl
  | t :: ts => by
    rw [Ty.toJsonAll, List.all_cons, Ty.isExact_toJson t, Ty.all_isExact_toJsonAll ts]
    rfl

end

/-- Leaves without real numbers and with numbers that fit are written exactly. -/
theorem LeafTest.exact_and : (LeafTest.realFree.and .machineSized).Exact where
  literal v h := by
    cases v with
    | int n =>
      change ((Json.int n.toInt).isExact && true) = true
      rw [Json.isExact_int64]
      rfl
    | real => cases h
    | bool | char => rfl
  ident x h := by
    -- a tag is a number of 32 bits, and so are lines and columns
    have hx : x.name.tag < UInt32.size := of_decide_eq_true h
    simp [Ident.toJson, Name.toJson, Json.isExact_obj, Json.isExact_nat hx, Ty.isExact_toJson]
  span s h := by
    have hs : LeafTest.machineSized.span s = true := h
    simp only [LeafTest.machineSized, Bool.and_eq_true, decide_eq_true_eq] at hs
    obtain ⟨⟨⟨hsl, hsc⟩, htl⟩, htc⟩ := hs
    simp [Span.toJson, Pos.toJson, Json.isExact_obj, Json.isExact_nat hsl, Json.isExact_nat hsc,
      Json.isExact_nat htl, Json.isExact_nat htc]

section

variable {t : LeafTest}

theorem Ident.isExact_listToJson (ht : t.Exact) {xs : List Ident} (h : xs.all t.ident = true) :
    (Ident.listToJson xs).isExact = true :=
  Json.isExact_ofList fun x hx => ht.ident x (List.all_eq_true.1 h x hx)

/-- A pattern is written exactly if its identifiers are. -/
theorem Pattern.isExact_toJson (ht : t.Exact) {p : Pattern} (h : p.all t.ident = true) :
    (Pattern.toJson p).isExact = true := by
  simp [Pattern.toJson, Ident.isExact_listToJson ht h]

mutual

/-- What is written for an expression is exact if what is written for its leaves is. -/
theorem Exp.isExact_toJson (ht : t.Exact) : ∀ e : Exp, e.every t = true → e.toJson.isExact = true
  | .lit v s, h => by
    simp only [Exp.every, Bool.and_eq_true] at h
    simp [Exp.toJson, ht.literal v h.1, ht.span s h.2]
  | .var x s, h => by
    simp only [Exp.every, Bool.and_eq_true] at h
    simp [Exp.toJson, ht.ident x h.1, ht.span s h.2]
  | .tuple es s, h => by
    simp only [Exp.every, Bool.and_eq_true] at h
    simp [Exp.toJson, Exp.all_isExact_toJsonAll ht es h.1, ht.span s h.2]
  | .array es t s, h => by
    simp only [Exp.every, Bool.and_eq_true] at h
    simp [Exp.toJson, Exp.all_isExact_toJsonAll ht es h.1, Ty.isExact_toJson, ht.span s h.2]
  | .binary op a b t s, h => by
    simp only [Exp.every, Bool.and_eq_true] at h
    obtain ⟨⟨ha, hb⟩, hs⟩ := h
    simp [Exp.toJson, Exp.isExact_toJson ht a ha, Exp.isExact_toJson ht b hb, Ty.isExact_toJson,
      ht.span s hs]
  | .unary op e s, h => by
    simp only [Exp.every, Bool.and_eq_true] at h
    simp [Exp.toJson, Exp.isExact_toJson ht e h.1, ht.span s h.2]
  | .cond c a b t s, h => by
    simp only [Exp.every, Bool.and_eq_true] at h
    obtain ⟨⟨⟨hc, ha⟩, hb⟩, hs⟩ := h
    simp [Exp.toJson, Exp.isExact_toJson ht c hc, Exp.isExact_toJson ht a ha,
      Exp.isExact_toJson ht b hb, Ty.isExact_toJson, ht.span s hs]
  | .call f es t s, h => by
    simp only [Exp.every, Bool.and_eq_true] at h
    simp [Exp.toJson, Exp.all_isExact_toJsonAll ht es h.1, Ty.isExact_toJson, ht.span s h.2]
  | .letIn p r b s, h => by
    simp only [Exp.every, Bool.and_eq_true] at h
    obtain ⟨⟨⟨hp, hr⟩, hb⟩, hs⟩ := h
    simp [Exp.toJson, Pattern.isExact_toJson ht hp, Exp.isExact_toJson ht r hr,
      Exp.isExact_toJson ht b hb, ht.span s hs]
  | .update x y is v b s, h => by
    simp only [Exp.every, Bool.and_eq_true] at h
    obtain ⟨⟨⟨⟨⟨hx, hy⟩, his⟩, hv⟩, hb⟩, hs⟩ := h
    simp [Exp.toJson, ht.ident x hx, ht.ident y hy, Exp.all_isExact_toJsonAll ht is his,
      Exp.isExact_toJson ht v hv, Exp.isExact_toJson ht b hb, ht.span s hs]
  | .index x is s, h => by
    simp only [Exp.every, Bool.and_eq_true] at h
    obtain ⟨⟨hx, his⟩, hs⟩ := h
    simp [Exp.toJson, ht.ident x hx, Exp.all_isExact_toJsonAll ht is his, ht.span s hs]
  | .replicate n v s, h => by
    simp only [Exp.every, Bool.and_eq_true] at h
    obtain ⟨⟨hn, hv⟩, hs⟩ := h
    simp [Exp.toJson, Exp.isExact_toJson ht n hn, Exp.isExact_toJson ht v hv, ht.span s hs]
  | .loop p is i n b r s, h => by
    simp only [Exp.every, Bool.and_eq_true] at h
    obtain ⟨⟨⟨⟨⟨⟨hp, his⟩, hi⟩, hn⟩, hb⟩, hr⟩, hs⟩ := h
    simp [Exp.toJson, Pattern.isExact_toJson ht hp, Exp.all_isExact_toJsonAll ht is his,
      ht.ident i hi, Exp.isExact_toJson ht n hn, Exp.isExact_toJson ht b hb,
      Exp.isExact_toJson ht r hr, ht.span s hs]
  | .soac op es cs s, h => by
    simp only [Exp.every, Bool.and_eq_true] at h
    obtain ⟨⟨⟨hop, hes⟩, hcs⟩, hs⟩ := h
    simp [Exp.toJson, Combinator.all_isExact_toJsonParts ht op hop,
      Exp.all_isExact_toJsonAll ht es hes, Ident.isExact_listToJson ht hcs, ht.span s hs]

/-- A list of expressions is written exactly if their leaves are. -/
theorem Exp.all_isExact_toJsonAll (ht : t.Exact) : ∀ es : List Exp, Exp.everyAll t es = true →
    (Exp.toJsonAll es).all Json.isExact = true
  | [], _ => rfl
  | e :: es, h => by
    obtain ⟨he, hes⟩ := Bool.and_eq_true_iff.1 h
    rw [Exp.toJsonAll, List.all_cons, Exp.isExact_toJson ht e he,
      Exp.all_isExact_toJsonAll ht es hes]
    rfl

/-- A lambda is written exactly if its leaves are. -/
theorem Lambda.isExact_toJson (ht : t.Exact) : ∀ f : Lambda, f.every t = true →
    f.toJson.isExact = true
  | ⟨ps, b, ts⟩, h => by
    obtain ⟨hps, hb⟩ := Bool.and_eq_true_iff.1 h
    simp [Lambda.toJson, Ident.isExact_listToJson ht hps, Exp.isExact_toJson ht b hb,
      Ty.all_isExact_toJsonAll]

/-- The parts of a combinator are written exactly if their leaves are. -/
theorem Combinator.all_isExact_toJsonParts (ht : t.Exact) : ∀ op : Combinator, op.every t = true →
    op.toJsonParts.all Json.isExact = true
  | .map f, h | .filter f, h => by
    simp [Combinator.toJsonParts, Lambda.isExact_toJson ht f h]
  | .reduce f ne, h | .scan f ne, h => by
    obtain ⟨hf, hne⟩ := Bool.and_eq_true_iff.1 h
    simp [Combinator.toJsonParts, Lambda.isExact_toJson ht f hf,
      Exp.all_isExact_toJsonAll ht ne hne]
  | .redomap f g ne, h => by
    simp only [Combinator.every, Bool.and_eq_true] at h
    obtain ⟨⟨hf, hg⟩, hne⟩ := h
    simp [Combinator.toJsonParts, Lambda.isExact_toJson ht f hf, Lambda.isExact_toJson ht g hg,
      Exp.all_isExact_toJsonAll ht ne hne]

end

/-- A function is written exactly if its leaves are. -/
theorem FunDef.isExact_toJson (ht : t.Exact) {f : FunDef} (h : f.every t = true) :
    f.toJson.isExact = true := by
  simp only [FunDef.every, Bool.and_eq_true] at h
  obtain ⟨⟨hp, hb⟩, hs⟩ := h
  simp [FunDef.toJson, Ident.isExact_listToJson ht hp, Ty.isExact_toJson,
    Exp.isExact_toJson ht f.body hb, ht.span f.span hs]

/-- What is written for a program is exact if what is written for its leaves is. -/
theorem Program.isExact_toJson (ht : t.Exact) {p : Program} (h : p.every t = true) :
    p.toJson.isExact = true := by
  simp [Program.toJson, Json.isExact_ofList fun f hf =>
    FunDef.isExact_toJson ht (List.all_eq_true.1 h f hf)]

end

end ArrayFusion
