import Mathlib.Data.Set.Image
import ArrayFusion.Syntax.Freshen
import ArrayFusion.Proofs.Agreement

/-!
# Fresh copies

A fresh copy of a lambda does what the lambda does: it has the same results or fails in the same
way, calls the same functions as often, and uses the same names of its scope in the same order
(`Lambda.freshen_same`).  It binds nothing but names that the supply handed out for it
(`Lambda.freshen_tidy`).  All this is so as long as the tags suffice: behind the largest tag a fresh
name may be one that is free in the lambda, whose uses the copy then captures
(`Lambda.freshen_captures`).  But capturing is all that can go wrong, and no name becomes free
(`Lambda.freshen_freeVars`).

The renaming is never undone behind the scope of a binder, so it grows by names that are out of
scope where it is used.  This is why everything here is about the names of a scope:
`Renaming.Copies` says what became of a piece of code that keeps to the scope `V`.
-/

namespace ArrayFusion

/-- The names that a supply hands out until it has become another one. -/
def NameSupply.until (s s' : NameSupply) : Set Name :=
  {x | ∃ n, s.count ≤ n ∧ n < s'.count ∧ x.tag = n % UInt32.size}

namespace NameSupply

variable {s₀ s s' s₁ : NameSupply} {x : Name}

/-- What is handed out meanwhile is handed out in a longer time, too. -/
theorem until_subset (h : s₀.count ≤ s.count) (h' : s'.count ≤ s₁.count) :
    s.until s' ⊆ s₀.until s₁ :=
  fun _ ⟨n, hle, hlt, hx⟩ => ⟨n, Nat.le_trans h hle, Nat.lt_of_lt_of_le hlt h', hx⟩

/-- The next name is handed out first. -/
theorem mem_until_of_tag_eq (hx : x.tag = s.next) (hlt : s.count < s'.count) : x ∈ s.until s' :=
  ⟨s.count, Nat.le_refl _, hlt, hx⟩

/-- A tag that was handed out is below the count, even if the tags have begun again. -/
theorem lt_of_mem_until (hx : x ∈ s.until s') : x.tag < s'.count := by
  obtain ⟨n, -, hlt, heq⟩ := hx
  rw [heq]
  exact Nat.lt_of_le_of_lt (Nat.mod_le _ _) hlt

/-- A tag that was handed out is new if there was one. -/
theorem Serves.le_of_mem_until (h : s.Serves s') (hx : x ∈ s.until s') : s.count ≤ x.tag := by
  obtain ⟨n, hle, hlt, heq⟩ := hx
  have hroom : n < UInt32.size := Nat.lt_of_lt_of_le hlt (h (Nat.lt_of_le_of_lt hle hlt))
  rwa [heq, Nat.mod_eq_of_lt hroom]

/-- Without a wrap, what is handed out has at least the tag the source has come to. -/
theorem InRange.le_of_mem_until (h : s'.InRange) (hx : x ∈ s.until s') : s.count ≤ x.tag :=
  (h.serves s).le_of_mem_until hx

end NameSupply

/-- A sequence of two actions passes through the state that the first one leaves. -/
theorem State.bind_eq {σ α β : Type} {x : StateM σ α} {f : α → StateM σ β} {s s' : σ} {b : β} :
    (x >>= f) s = (b, s') ↔ ∃ a s₁, x s = (a, s₁) ∧ f a s₁ = (b, s') := by
  constructor
  · exact fun h => ⟨(x s).1, (x s).2, rfl, h⟩
  · rintro ⟨a, s₁, hx, hf⟩
    change f (x s).1 (x s).2 = (b, s')
    rw [hx]
    exact hf

theorem State.pure_eq {σ α : Type} {a b : α} {s s' : σ} :
    (pure a : StateM σ α) s = (b, s') ↔ b = a ∧ s' = s := by
  constructor
  · intro h
    cases h
    exact ⟨rfl, rfl⟩
  · rintro ⟨rfl, rfl⟩
    rfl

namespace Renaming

/-- What a name has become. -/
def rename (q : Renaming) (x : Name) : Name := (q.renamed.lookup x).getD x

/-- The names of a scope have tags that were handed out before. -/
def Below (q : Renaming) (V : Set Name) : Prop := ∀ x ∈ V, (q.rename x).tag < q.supply.count

/-- The second environment gives to what the names of a scope have become what the first one gives
to the names.  A name that has no value has not been renamed, as the error tells its name. -/
def Renamed (q : Renaming) (V : Set Name) (env env' : Env) : Prop :=
  ∀ x ∈ V, env'.get (q.rename x) = env.get x

/-- Of the names of a scope, what the bound ones have become is bound by the second list, and the
others have not been renamed.  With `room` they are not bound by it either. -/
def Hides (q : Renaming) (room : Prop) (V : Set Name) (bound bound' : List Name) : Prop :=
  ∀ x ∈ V, if x ∈ bound then q.rename x ∈ bound' else q.rename x = x ∧ (room → x ∉ bound')

/-- The renaming has grown, and not by names of the scope. -/
structure Grows (q q' : Renaming) (V : Set Name) : Prop where
  supply : q.supply.count ≤ q'.supply.count
  keeps : ∀ x ∈ V, q'.rename x = q.rename x

/-- The renaming has grown by a walk over code of the scope `V`.  If there was room for its names,
then what came out keeps to the renamed scope, by `tidy`, and is the same in environments that give
the same values to it, by `same`.  How its free variables below binders that hide the same names
compare, with room and without, says `free`. -/
structure Copies (q q' : Renaming) (V : Set Name) (tidy : Set Name → Set Name → Prop)
    (same : Env → Env → Prop) (free : Prop → List Name → List Name → Prop) : Prop where
  grows : q.Grows q' V
  tidy : q'.supply.InRange → ∀ B, q.supply.until q'.supply ⊆ B → tidy B (q.rename '' V)
  same : q'.supply.InRange → ∀ env env', q.Renamed V env env' → same env env'
  free : ∀ room : Prop, (room → q'.supply.InRange) →
    ∀ bound bound', q.Hides room V bound bound' → free room bound bound'

variable {q q' q₁ q₂ : Renaming} {V W : Set Name} {room : Prop}

/-- A use is renamed and leaves the renaming as it is. -/
theorem use_eq {x y : Ident} (h : use x q = (y, q')) : y = ⟨q.rename x.name, x.ty⟩ ∧ q' = q := by
  cases h
  refine ⟨?_, rfl⟩
  rw [rename]
  cases q.renamed.lookup x.name <;> rfl

/-- Every renaming grows to itself. -/
theorem Grows.refl (q : Renaming) (V : Set Name) : q.Grows q V := ⟨Nat.le_refl _, fun _ _ => rfl⟩

/-- A renaming that grows twice grows. -/
theorem Grows.trans (h : q.Grows q₁ V) (h' : q₁.Grows q₂ V) : q.Grows q₂ V :=
  ⟨Nat.le_trans h.supply h'.supply, fun x hx => (h'.keeps x hx).trans (h.keeps x hx)⟩

/-- A renaming that grows in a scope grows in every smaller one. -/
theorem Grows.mono (h : q.Grows q' W) (hVW : V ⊆ W) : q.Grows q' V :=
  ⟨h.supply, fun x hx => h.keeps x (hVW hx)⟩

/-- The tags in scope stay below those to come. -/
theorem Grows.below (h : q.Grows q' V) (hb : q.Below V) : q'.Below V := by
  intro x hx
  rw [h.keeps x hx]
  exact Nat.lt_of_lt_of_le (hb x hx) h.supply

/-- The names in scope are renamed as before. -/
theorem Grows.image_eq (h : q.Grows q' V) : q'.rename '' V = q.rename '' V :=
  Set.image_congr h.keeps

/-- Environments that agree up to a renaming agree up to what it grows to. -/
theorem Grows.renamed (h : q.Grows q' V) {env env' : Env} (hr : q.Renamed V env env') :
    q'.Renamed V env env' := by
  intro x hx
  rw [h.keeps x hx]
  exact hr x hx

/-- If the source does not wrap until later, then it has not yet wrapped. -/
theorem Grows.inRange (h : q.Grows q' V) (hroom : q'.supply.InRange) : q.supply.InRange :=
  hroom.of_le h.supply

/-- Bound names stay hidden while the renaming grows. -/
theorem Grows.hides (h : q.Grows q' V) {bound bound' : List Name}
    (hh : q.Hides room V bound bound') : q'.Hides room V bound bound' := by
  intro x hx
  rw [h.keeps x hx]
  exact hh x hx

/-! ## Binders -/

/-- The renaming has grown by the binders of a pattern.  If there was room for them, they are
distinct. -/
structure Binds (q q' : Renaming) (V : Set Name) (p p' : Pattern) : Prop where
  grows : q.Grows q' V
  below : q'.Below (V ∪ p.nameSet)
  names : p'.names = p.names.map q'.rename
  nodup : q'.supply.InRange → p'.names.Nodup
  handedOut : ∀ x ∈ p'.names, x ∈ q.supply.until q'.supply

/-- A binder renames its own name, and no other. -/
theorem rename_bind {x y : Ident} (h : bind x q = (y, q')) (z : Name) :
    q'.rename z = if z = x.name then y.name else q.rename z := by
  cases h
  by_cases hz : z = x.name
  · simp [rename, hz]
  · simp [rename, hz, List.lookup_cons, beq_eq_false_iff_ne.2 hz]

/-- A pattern of different names that are new in scope is bound to as many fresh names. -/
theorem binds_each (hV : q.Below V) {p p' : Pattern} (hp : p.names.Nodup)
    (hnew : ∀ x ∈ p.names, x ∉ V) (h : Visitor.each bind p q = (p', q')) :
    q.Binds q' V p p' := by
  induction p generalizing q V p' with
  | nil =>
    cases h
    refine ⟨.refl _ _, ?_, rfl, fun _ => List.nodup_nil, nofun⟩
    rintro x (hx | hx)
    · exact hV x hx
    · cases hx
  | cons x p ih =>
    obtain ⟨y, q₁, hy, h⟩ := State.bind_eq.1 h
    obtain ⟨p₁, q₂, hp₁, h⟩ := State.bind_eq.1 h
    obtain ⟨rfl, rfl⟩ := State.pure_eq.1 h
    obtain ⟨hxp, hp⟩ := List.nodup_cons.1 hp
    -- the first name gets the tag that the source has come to
    have htag : y.name.tag = q.supply.next ∧ q₁.supply.count = q.supply.count + 1 := by
      cases hy
      exact ⟨rfl, rfl⟩
    have hnext := q.supply.next_le
    have hrename := rename_bind hy
    have hx : x.name ∉ V := hnew _ List.mem_cons_self
    -- names in scope keep their renaming
    have hkeeps : ∀ z ∈ V, q₁.rename z = q.rename z := fun z hz => by
      rw [hrename, if_neg]
      rintro rfl
      exact hx hz
    -- the fresh name is above all that were in scope, and below those that follow
    have hbelow : q₁.Below (V ∪ {x.name}) := by
      rintro z (hz | rfl)
      · rw [hkeeps z hz, htag.2]
        exact Nat.lt_succ_of_lt (hV z hz)
      · rw [hrename, if_pos rfl, htag.1, htag.2]
        exact Nat.lt_succ_of_le hnext
    have hb := ih hbelow hp (fun z hz => by
      rintro (hv | rfl)
      · exact hnew z (List.mem_cons_of_mem _ hz) hv
      · exact hxp hz) hp₁
    -- the binders behind it are different, so the renaming of the first one stays
    have hyx : q'.rename x.name = y.name := by
      rw [hb.grows.keeps _ (.inr rfl), hrename, if_pos rfl]
    have hle := hb.grows.supply
    -- without a wrap the later names have larger tags than the first one
    refine ⟨⟨by omega, fun z hz => ?_⟩, ?_, ?_, fun hroom => ?_, ?_⟩
    · rw [hb.grows.keeps z (.inl hz), hkeeps z hz]
    · refine fun z hz => hb.below z ?_
      rcases hz with hz | hz
      · exact .inl (.inl hz)
      · rcases List.mem_cons.1 hz with rfl | hz
        · exact .inl (.inr rfl)
        · exact .inr hz
    · rw [Pattern.names, List.map_cons, Pattern.names, List.map_cons, List.map_cons, hyx]
      exact congrArg _ hb.names
    · refine List.nodup_cons.2 ⟨fun hmem => ?_, hb.nodup hroom⟩
      have hlow : q₁.supply.count ≤ y.name.tag := hroom.le_of_mem_until (hb.handedOut _ hmem)
      have hcount : y.name.tag = q.supply.count := htag.1.trans (hroom.next_eq (by omega))
      omega
    · intro z hz
      rcases List.mem_cons.1 hz with rfl | hz
      · exact NameSupply.mem_until_of_tag_eq htag.1 (by omega)
      · exact NameSupply.until_subset (by omega) (Nat.le_refl _) (hb.handedOut z hz)

namespace Binds

variable {p p' : Pattern}

/-- The copy of a pattern binds as many names. -/
theorem length (h : q.Binds q' V p p') : p'.length = p.length := by
  rw [← p'.length_names, h.names, List.length_map, p.length_names]

/-- The renamed scope behind the pattern is the renamed scope before it with the names of the copy.
-/
theorem image_eq (h : q.Binds q' V p p') :
    q'.rename '' (V ∪ p.nameSet) = q.rename '' V ∪ p'.nameSet := by
  rw [Set.image_union, h.grows.image_eq]
  congr 1
  ext x
  rw [Pattern.mem_nameSet, h.names, List.mem_map]
  rfl

/-- The names of the copy are fresh in the renamed scope if the source does not wrap. -/
theorem fresh (h : q.Binds q' V p p') (hroom : q'.supply.InRange) (hV : q.Below V) {B : Set Name}
    (hB : q.supply.until q'.supply ⊆ B) : FreshIn (q.rename '' V) B p'.names := by
  refine ⟨h.nodup hroom, fun x hx => hB (h.handedOut x hx), ?_⟩
  rintro x hx ⟨y, hy, rfl⟩
  have h₁ := hroom.le_of_mem_until (h.handedOut _ hx)
  have h₂ := hV y hy
  omega

/-- Environments stay equal up to the renaming when the same values are bound to the pattern and to
its copy. -/
theorem renamed (h : q.Binds q' V p p') (hroom : q'.supply.InRange) (hV : q.Below V)
    (hp : p.names.Nodup) {env env' : Env} (hr : q.Renamed V env env')
    {vs : List Value} (hlen : p.length = vs.length) :
    q'.Renamed (V ∪ p.nameSet) (env.extendMany (p.names.zip vs))
      (env'.extendMany (p'.names.zip vs)) := by
  have hlenp : p.names.length = vs.length := by rw [p.length_names, hlen]
  have hlenp' : p'.names.length = vs.length := by rw [p'.length_names, h.length, hlen]
  intro x hx
  -- a name of the pattern is bound to the value at its place, in both environments
  by_cases hxp : x ∈ p.names
  · obtain ⟨i, hi, rfl⟩ := List.getElem_of_mem hxp
    have hi' : i < p'.names.length := by omega
    have hget : q'.rename p.names[i] = p'.names[i] := by
      simp only [h.names, List.getElem_map]
    obtain ⟨v, hvalue⟩ : ∃ v, vs[i]? = some v := ⟨_, List.getElem?_eq_getElem (by omega)⟩
    rw [hget, Env.get, Env.get, Env.lookup?_extendMany_zip (h.nodup hroom) hlenp' hi',
      Env.lookup?_extendMany_zip hp hlenp hi, hvalue]
  · have hxV : x ∈ V := hx.resolve_right hxp
    have hkept := hr x hxV
    rw [Env.get, Env.get] at hkept ⊢
    rw [Env.lookup?_extendMany_of_notMem, Env.lookup?_extendMany_of_notMem, h.grows.keeps x hxV]
    · exact hkept
    · rwa [Env.map_fst_zip hlenp]
    · rw [Env.map_fst_zip hlenp', h.grows.keeps x hxV]
      -- no fresh name is that of an old one
      exact fun hmem => (h.fresh hroom hV (Set.subset_univ _)).new _ hmem ⟨x, hxV, rfl⟩

/-- Bound names stay hidden behind the pattern and its copy. -/
theorem hides (h : q.Binds q' V p p') (hroom : room → q'.supply.InRange) (hV : q.Below V)
    {bound bound' : List Name} (hh : q.Hides room V bound bound') :
    q'.Hides room (V ∪ p.nameSet) (p.names ++ bound) (p'.names ++ bound') := by
  intro x hx
  -- a name of the pattern is bound from now on, and so is what it is renamed to
  by_cases hxp : x ∈ p.names
  · rw [if_pos (List.mem_append_left _ hxp), h.names]
    exact List.mem_append_left _ (List.mem_map_of_mem hxp)
  · have hxV : x ∈ V := hx.resolve_right hxp
    have hkept := hh x hxV
    rw [h.grows.keeps x hxV]
    by_cases hxb : x ∈ bound
    · rw [if_pos hxb] at hkept
      rw [if_pos (List.mem_append_right _ hxb)]
      exact List.mem_append_right _ hkept
    · rw [if_neg hxb] at hkept
      rw [if_neg (List.not_mem_append hxp hxb)]
      -- without a wrap a name that stays is none of the fresh ones
      refine ⟨hkept.1, fun hr => List.not_mem_append (fun hmem => ?_) (hkept.2 hr)⟩
      exact (h.fresh (hroom hr) hV (Set.subset_univ _)).new _ hmem ⟨x, hxV, hkept.1⟩

end Binds

/-! ## Walks one after another -/

variable {T T' : Set Name → Set Name → Prop} {S S' : Env → Env → Prop}
  {F F' : Prop → List Name → List Name → Prop}

/-- Two copies in a row are a copy of both parts. -/
theorem Copies.seq (h : q.Copies q₁ V T S F) (h' : q₁.Copies q₂ V T' S' F') :
    q.Copies q₂ V (fun B V => T B V ∧ T' B V) (fun env env' => S env env' ∧ S' env env')
      fun room bound bound' => F room bound bound' ∧ F' room bound bound' where
  grows := h.grows.trans h'.grows
  tidy := fun hroom B hB => by
    refine ⟨h.tidy (h'.grows.inRange hroom) B
      ((NameSupply.until_subset (Nat.le_refl _) h'.grows.supply).trans hB), ?_⟩
    rw [← h.grows.image_eq]
    exact h'.tidy hroom B ((NameSupply.until_subset h.grows.supply (Nat.le_refl _)).trans hB)
  same := fun hroom env env' hr =>
    ⟨h.same (h'.grows.inRange hroom) env env' hr, h'.same hroom env env' (h.grows.renamed hr)⟩
  free := fun room hroom bound bound' hh =>
    ⟨h.free room (fun hr => h'.grows.inRange (hroom hr)) bound bound' hh,
      h'.free room hroom bound bound' (h.grows.hides hh)⟩

/-- A copy of what implies other properties is a copy with regard to those. -/
theorem Copies.map (h : q.Copies q' V T S F) (hT : ∀ B V, T B V → T' B V)
    (hS : ∀ env env', S env env' → S' env env')
    (hF : ∀ room bound bound', F room bound bound' → F' room bound bound') :
    q.Copies q' V T' S' F' where
  grows := h.grows
  tidy := fun hroom B hB => hT B _ (h.tidy hroom B hB)
  same := fun hroom env env' hr => hS env env' (h.same hroom env env' hr)
  free := fun room hroom bound bound' hh => hF room bound bound' (h.free room hroom bound bound' hh)

/-- The second walk notes no name that the first one does not note, and with `room` the very same
uses. -/
def NotesNoMore (room : Prop) (walk walk' : List Ident → List Ident) : Prop :=
  ∀ free free', (∀ x ∈ Pattern.names free', x ∈ Pattern.names free) ∧ (room → free' = free) →
    (∀ x ∈ Pattern.names (walk' free'), x ∈ Pattern.names (walk free)) ∧
    (room → walk' free' = walk free)

/-- Two collectors that note no more than two others do so in a row. -/
theorem NotesNoMore.trans {f f' g g' : List Ident → List Ident} (hf : NotesNoMore room f f')
    (hg : NotesNoMore room g g') : NotesNoMore room (fun free => g (f free)) fun free =>
    g' (f' free) :=
  fun _ _ h => hg _ _ (hf _ _ h)

/-- A use of a name below binders that hide the same names is noted as the use of what the name has
become. Without room it may be hidden then. -/
theorem Hides.noteUse {bound bound' : List Name} (h : q.Hides room V bound bound') {x : Ident}
    (hx : x.name ∈ V) : NotesNoMore room (fun free => noteUse bound free x)
      fun free => noteUse bound' free ⟨q.rename x.name, x.ty⟩ := by
  have hhides := h _ hx
  intro free free' hfree
  constructor
  · -- what the copy notes is noted by the original, since only bound names are renamed
    intro y hy
    simp only [Pattern.names, mem_noteUse] at hy ⊢
    rcases hy with hy | ⟨hb', rfl⟩
    · exact .inl (hfree.1 y hy)
    · by_cases hb : x.name ∈ bound
      · rw [if_pos hb] at hhides
        exact absurd hhides hb'
      · rw [if_neg hb] at hhides
        exact .inr ⟨hhides.1.symm ▸ hb, hhides.1⟩
  · -- if no fresh name is free in the code, then both note the same
    intro hr
    rw [hfree.2 hr]
    by_cases hb : x.name ∈ bound
    · rw [if_pos hb] at hhides
      simp [ArrayFusion.noteUse, hb, hhides]
    · rw [if_neg hb] at hhides
      rw [hhides.1]
      simp [ArrayFusion.noteUse, hb, hhides.2 hr]

/-- A use becomes a use of what its name has become. -/
theorem copies_use {x y : Ident} (h : use x q = (y, q')) (hx : x.name ∈ V) :
    q.Copies q' V (fun _ V => y.name ∈ V) (fun env env' => env'.get y.name = env.get x.name)
      fun room bound bound' => NotesNoMore room (fun free => ArrayFusion.noteUse bound free x)
        fun free => ArrayFusion.noteUse bound' free y := by
  obtain ⟨rfl, rfl⟩ := use_eq h
  exact ⟨.refl _ _, fun _ _ _ => Set.mem_image_of_mem _ hx, fun _ _ _ hr => hr _ hx,
    fun _ _ _ _ hh => hh.noteUse hx⟩

/-- Code behind a pattern is copied behind the copy of the pattern. -/
theorem Copies.bind {p p' : Pattern} (hb : q.Binds q₁ V p p') (hV : q.Below V)
    (hp : p.names.Nodup) (h : q₁.Copies q₂ (V ∪ p.nameSet) T S F) :
    q.Copies q₂ V (fun B V => FreshIn V B p'.names ∧ T B (V ∪ p'.nameSet))
      (fun env env' => ∀ vs : List Value, p.length = vs.length →
        S (env.extendMany (p.names.zip vs)) (env'.extendMany (p'.names.zip vs)))
      fun room bound bound' => F room (p.names ++ bound) (p'.names ++ bound') where
  grows := hb.grows.trans (h.grows.mono Set.subset_union_left)
  tidy := fun hroom B hB => by
    refine ⟨hb.fresh (h.grows.inRange hroom) hV
      ((NameSupply.until_subset (Nat.le_refl _) h.grows.supply).trans hB), ?_⟩
    rw [← hb.image_eq]
    exact h.tidy hroom B ((NameSupply.until_subset hb.grows.supply (Nat.le_refl _)).trans hB)
  same := fun hroom env env' hr vs hlen =>
    h.same hroom _ _ (hb.renamed (h.grows.inRange hroom) hV hp hr hlen)
  free := fun room hroom bound bound' hh =>
    h.free room hroom _ _ (hb.hides (fun hr => h.grows.inRange (hroom hr)) hV hh)

end Renaming

/-! ## Copies of code -/

section

variable {τ : Type} {c : Bool} {B : Set Name} {call : CalleeOver τ}

open Renaming (copies_use binds_each NotesNoMore)

/-- Types are not renamed. -/
theorem Renaming.each_type (ts : List Ty) (q : Renaming) :
    Visitor.each Renaming.visitor.type ts q = (ts, q) := by
  induction ts with
  | nil => rfl
  | cons t ts ih => exact State.bind_eq.2 ⟨t, q, rfl, State.bind_eq.2 ⟨ts, q, ih, rfl⟩⟩

/-- Uses of names in scope are renamed, and no more of them are noted as free. -/
theorem Renaming.copies_uses {q q' : Renaming} {V : Set Name} : ∀ {cs cs' : List Ident},
    Visitor.each Renaming.visitor.ident cs q = (cs', q') → (c → ∀ x ∈ cs, x.name ∈ V) →
      q' = q ∧ (c → ∀ y ∈ cs', y.name ∈ q.rename '' V)
        ∧ ∀ room bound bound', q.Hides room V bound bound' → c →
          NotesNoMore room (fun free => cs.foldl (noteUse bound) free)
            fun free => cs'.foldl (noteUse bound') free
  | [], _, h, _ => by
    cases h
    exact ⟨rfl, fun _ => nofun, fun _ _ _ _ _ _ _ h => h⟩
  | x :: cs, _, h, hcs => by
    obtain ⟨y, q₁, hy, h⟩ := State.bind_eq.1 h
    obtain ⟨cs', q₂, hcs', h⟩ := State.bind_eq.1 h
    obtain ⟨rfl, rfl⟩ := State.pure_eq.1 h
    obtain ⟨rfl, rfl⟩ := Renaming.use_eq hy
    obtain ⟨rfl, hrest, hfree⟩ :=
      Renaming.copies_uses hcs' fun hc x hx => hcs hc x (List.mem_cons_of_mem _ hx)
    refine ⟨rfl, fun hc => List.forall_mem_cons.2 ⟨?_, hrest hc⟩, fun room bound bound' hh hc => ?_⟩
    · exact Set.mem_image_of_mem _ (hcs hc x List.mem_cons_self)
    · exact (hh.noteUse (hcs hc x List.mem_cons_self)).trans (hfree _ _ _ hh hc)

section

variable {env env' : Env}

/-- What is done behind a pattern is done behind its copy, if it is the same for all results that
fit. -/
theorem Env.lift_bindPattern_eq {α : Type} {p p' : Pattern} {k k' : Env → Evaluation τ α}
    (hlen : p'.length = p.length) (h : ∀ vs : List Value, p.length = vs.length →
      k' (env'.extendMany (p'.names.zip vs)) = k (env.extendMany (p.names.zip vs))) (v : Value) :
    (Eval.lift (env'.bindPattern p' v) >>= k') = (Eval.lift (env.bindPattern p v) >>= k) := by
  rw [Env.lift_bindPattern_bind, Env.lift_bindPattern_bind, hlen]
  exact Eval.lift_bind_congr fun vs hvs => h vs (Value.length_of_results hvs).symm

end

-- The induction is on the syntax.  Each case takes the walk of a node apart into those of its parts; `Copies.seq`
-- and `Copies.bind` put together what these give, and what remains is that a node is evaluated part by part.
mutual

/-- A copy of an expression does what the expression does and has its free variables. -/
theorem Exp.copies : ∀ (e : Exp) {V : Set Name} {q q' : Renaming} {e' : Exp},
    e.traverse Renaming.visitor q = (e', q') → e.Tidy c B V → q.Below V →
    q.Copies q' V (fun B V => e'.Tidy c B V) (fun env env' => e'.eval call env' = e.eval call env)
      fun room bound bound' => c →
        NotesNoMore room (fun free => e.collectFree bound free) fun free =>
          e'.collectFree bound' free
  | .lit v s, V, q, q', e', h, ht, hV => by
    cases h
    exact ⟨.refl _ _, fun _ _ _ => trivial, fun _ _ _ _ => rfl, fun _ _ _ _ _ _ _ _ h => h⟩
  | .var x s, V, q, q', e', h, ht, hV => by
    obtain ⟨y, q₁, hy, h⟩ := State.bind_eq.1 h
    obtain ⟨rfl, rfl⟩ := State.pure_eq.1 h
    refine (copies_use hy ht).map (fun _ _ h => h) (fun env env' h => ?_) fun _ _ _ h _ => h
    rw [Exp.eval, Exp.eval, h]
  | .tuple es s, V, q, q', e', h, ht, hV => by
    obtain ⟨es', q₁, hes, h⟩ := State.bind_eq.1 h
    obtain ⟨rfl, rfl⟩ := State.pure_eq.1 h
    refine (Exp.copiesAll es hes ht hV).map (fun _ _ h => h) (fun _ _ h => ?_) fun _ _ _ h => h
    rw [Exp.eval, Exp.eval, Exp.evalAll_eq h]
  | .array es t s, V, q, q', e', h, ht, hV => by
    obtain ⟨es', q₁, hes, h⟩ := State.bind_eq.1 h
    obtain ⟨t', q₂, ht', h⟩ := State.bind_eq.1 h
    cases ht'
    obtain ⟨rfl, rfl⟩ := State.pure_eq.1 h
    refine (Exp.copiesAll es hes ht hV).map (fun _ _ h => h) (fun _ _ h => ?_) fun _ _ _ h => h
    rw [Exp.eval, Exp.eval, Exp.evalAll_eq h]
  | .binary o a b t s, V, q, q', e', h, ht, hV => by
    obtain ⟨a', q₁, ha, h⟩ := State.bind_eq.1 h
    obtain ⟨b', q₂, hb, h⟩ := State.bind_eq.1 h
    obtain ⟨t', q₃, ht', h⟩ := State.bind_eq.1 h
    cases ht'
    obtain ⟨rfl, rfl⟩ := State.pure_eq.1 h
    have hca := a.copies ha ht.1 hV
    have hcb := b.copies hb ht.2 (hca.grows.below hV)
    refine (hca.seq hcb).map (fun _ _ h => h) (fun _ _ h => ?_) fun _ _ _ h hc => ?_
    · rw [Exp.eval, Exp.eval, h.1, h.2]
    · exact (h.1 hc).trans (h.2 hc)
  | .unary o e s, V, q, q', e', h, ht, hV => by
    obtain ⟨e₁, q₁, he, h⟩ := State.bind_eq.1 h
    obtain ⟨rfl, rfl⟩ := State.pure_eq.1 h
    refine (Exp.copies e he ht hV).map (fun _ _ h => h) (fun _ _ h => ?_) fun _ _ _ h => h
    rw [Exp.eval, Exp.eval, h]
  | .cond e a b t s, V, q, q', e', h, ht, hV => by
    obtain ⟨e₁, q₁, he, h⟩ := State.bind_eq.1 h
    obtain ⟨a', q₂, ha, h⟩ := State.bind_eq.1 h
    obtain ⟨b', q₃, hb, h⟩ := State.bind_eq.1 h
    obtain ⟨t', q₄, ht', h⟩ := State.bind_eq.1 h
    cases ht'
    obtain ⟨rfl, rfl⟩ := State.pure_eq.1 h
    have hce := e.copies he ht.1 hV
    have hVe := hce.grows.below hV
    have hca := a.copies ha ht.2.1 hVe
    have hcb := b.copies hb ht.2.2 (hca.grows.below hVe)
    refine (hce.seq (hca.seq hcb)).map (fun _ _ h => h) (fun _ _ h => ?_) fun _ _ _ h hc => ?_
    · rw [Exp.eval, Exp.eval, h.1, h.2.1, h.2.2]
    · exact (h.1 hc).trans ((h.2.1 hc).trans (h.2.2 hc))
  | .call f es t s, V, q, q', e', h, ht, hV => by
    obtain ⟨es', q₁, hes, h⟩ := State.bind_eq.1 h
    obtain ⟨t', q₂, ht', h⟩ := State.bind_eq.1 h
    cases ht'
    obtain ⟨rfl, rfl⟩ := State.pure_eq.1 h
    refine (Exp.copiesAll es hes ht hV).map (fun _ _ h => h) (fun _ _ h => ?_) fun _ _ _ h => h
    rw [Exp.eval, Exp.eval, Exp.evalAll_eq h]
  | .letIn p r b s, V, q, q', e', h, ht, hV => by
    obtain ⟨r', q₁, hr, h⟩ := State.bind_eq.1 h
    obtain ⟨p', q₂, hp', h⟩ := State.bind_eq.1 h
    obtain ⟨b', q₃, hb, h⟩ := State.bind_eq.1 h
    obtain ⟨rfl, rfl⟩ := State.pure_eq.1 h
    have hcr := r.copies hr ht.1 hV
    have hV₁ := hcr.grows.below hV
    have hbp := binds_each hV₁ ht.2.1.nodup ht.2.1.new hp'
    have hcb := b.copies hb ht.2.2 hbp.below
    refine (hcr.seq (hcb.bind hbp hV₁ ht.2.1.nodup)).map (fun _ _ h => h) (fun env env' h => ?_)
      fun _ _ _ h hc => ?_
    · rw [Exp.eval, Exp.eval, h.1]
      exact congrArg _ (funext (Env.lift_bindPattern_eq hbp.length h.2))
    · exact (h.1 hc).trans (h.2 hc)
  | .update x y is v b s, V, q, q', e', h, ht, hV => by
    obtain ⟨y', q₁, hy, h⟩ := State.bind_eq.1 h
    obtain ⟨is', q₂, his, h⟩ := State.bind_eq.1 h
    obtain ⟨v', q₃, hv, h⟩ := State.bind_eq.1 h
    obtain ⟨x', q₄, hx, h⟩ := State.bind_eq.1 h
    obtain ⟨b', q₅, hb, h⟩ := State.bind_eq.1 h
    obtain ⟨rfl, rfl⟩ := State.pure_eq.1 h
    have hcy := copies_use hy ht.1
    have hV₁ := hcy.grows.below hV
    have hci := Exp.copiesAll is his ht.2.1 hV₁
    have hV₂ := hci.grows.below hV₁
    have hcv := v.copies hv ht.2.2.1 hV₂
    have hV₃ := hcv.grows.below hV₂
    have hbx : q₃.Binds q₄ V [x] [x'] := binds_each hV₃ ht.2.2.2.1.nodup ht.2.2.2.1.new
      (State.bind_eq.2 ⟨x', q₄, hx, rfl⟩)
    have hcb := b.copies hb ht.2.2.2.2 hbx.below
    refine (hcy.seq (hci.seq (hcv.seq (hcb.bind hbx hV₃ ht.2.2.2.1.nodup)))).map (fun _ _ h => h)
      (fun env env' h => ?_) fun room bound bound' h hc => ?_
    · rw [Exp.eval, Exp.eval, h.1, Exp.evalPath_eq h.2.1, h.2.2.1]
      exact congrArg _ (funext fun u => congrArg _ (funext fun path => congrArg _ (funext fun new =>
        congrArg _ (funext fun t => h.2.2.2 [t] rfl))))
    · have hbody : NotesNoMore room (fun free => b.collectFree (x.name :: bound) free)
          fun free => b'.collectFree (x'.name :: bound') free := h.2.2.2 hc
      exact h.1.trans ((h.2.1 hc).trans ((h.2.2.1 hc).trans hbody))
  | .index x is s, V, q, q', e', h, ht, hV => by
    obtain ⟨x', q₁, hx, h⟩ := State.bind_eq.1 h
    obtain ⟨is', q₂, his, h⟩ := State.bind_eq.1 h
    obtain ⟨rfl, rfl⟩ := State.pure_eq.1 h
    have hcx := copies_use hx ht.1
    have hci := Exp.copiesAll is his ht.2 (hcx.grows.below hV)
    refine (hcx.seq hci).map (fun _ _ h => h) (fun _ _ h => ?_) fun _ _ _ h hc => ?_
    · rw [Exp.eval, Exp.eval, h.1]
      exact congrArg _ (funext (Exp.evalIndex_eq h.2))
    · exact h.1.trans (h.2 hc)
  | .replicate n v s, V, q, q', e', h, ht, hV => by
    obtain ⟨n', q₁, hn, h⟩ := State.bind_eq.1 h
    obtain ⟨v', q₂, hv, h⟩ := State.bind_eq.1 h
    obtain ⟨rfl, rfl⟩ := State.pure_eq.1 h
    have hcn := n.copies hn ht.1 hV
    have hcv := v.copies hv ht.2 (hcn.grows.below hV)
    refine (hcn.seq hcv).map (fun _ _ h => h) (fun _ _ h => ?_) fun _ _ _ h hc => ?_
    · rw [Exp.eval, Exp.eval, h.1, h.2]
    · exact (h.1 hc).trans (h.2 hc)
  | .loop p is i n b r s, V, q, q', e', h, ht, hV => by
    obtain ⟨is', q₁, his, h⟩ := State.bind_eq.1 h
    obtain ⟨n', q₂, hn, h⟩ := State.bind_eq.1 h
    obtain ⟨p', q₃, hp', h⟩ := State.bind_eq.1 h
    obtain ⟨i', q₄, hi, h⟩ := State.bind_eq.1 h
    obtain ⟨b', q₅, hb, h⟩ := State.bind_eq.1 h
    obtain ⟨r', q₆, hr, h⟩ := State.bind_eq.1 h
    obtain ⟨rfl, rfl⟩ := State.pure_eq.1 h
    obtain ⟨hti, htn, htp, htb, htr⟩ := ht
    obtain ⟨hfi, hfp, hip⟩ := htp.cons
    rw [← Pattern.union_nameSet_cons] at htb
    have hci := Exp.copiesAll is his hti hV
    have hV₁ := hci.grows.below hV
    have hcn := n.copies hn htn hV₁
    have hV₂ := hcn.grows.below hV₁
    have hbp := binds_each hV₂ hfp.nodup hfp.new hp'
    -- the counter is bound inside of the scope of the merged names
    have hbi : q₃.Binds q₄ (V ∪ p.nameSet) [i] [i'] := binds_each hbp.below hfi.nodup
      (by
        rintro x (_ | ⟨_, ⟨⟩⟩) (hx | hx)
        · exact hfi.new _ List.mem_cons_self hx
        · exact hip hx)
      (State.bind_eq.2 ⟨i', q₄, hi, rfl⟩)
    have hcb := (b.copies hb htb hbi.below).bind hbi hbp.below hfi.nodup
    have hcr := r.copies hr htr (hcb.grows.below hbp.below)
    refine (hci.seq (hcn.seq ((hcb.seq hcr).bind hbp hV₂ hfp.nodup))).map
      (fun B V h => ⟨h.1, h.2.1, ?_, ?_, h.2.2.2.2⟩)
        (fun env env' h => ?_) fun room bound bound' h hc => ?_
    · exact FreshIn.cons_enter h.2.2.1 h.2.2.2.1.1
    · rw [← Pattern.union_nameSet_cons]
      exact h.2.2.2.1.2
    · -- the steps are the same, and so is what is done behind the last one
      obtain ⟨hstart, hcount, hbehind⟩ := h
      have hstep : ∀ (k : Nat) (vs : List Value),
          (do
            let inner ← Eval.lift (env'.bindPattern p' (.ofResults vs))
            let v ← b'.eval call (inner.extend i'.name (.int (Int64.ofNat k)))
            Eval.lift (v.results p'.length))
          = (do
            let inner ← Eval.lift (env.bindPattern p (.ofResults vs))
            let v ← b.eval call (inner.extend i.name (.int (Int64.ofNat k)))
            Eval.lift (v.results p.length)) := fun k vs =>
        Env.lift_bindPattern_eq hbp.length (fun us hus => by
          rw [hbp.length]
          exact congrArg (· >>= _) ((hbehind us hus).1 [.int (Int64.ofNat k)] rfl)) _
      rw [Exp.eval, Exp.eval, Exp.evalAll_eq hstart, hcount]
      simp only [hstep]
      exact congrArg _ (funext fun start => congrArg _ (funext fun v =>
          congrArg _ (funext fun count =>
        congrArg _ (funext fun final =>
          Env.lift_bindPattern_eq hbp.length (fun us hus => (hbehind us hus).2) _))))
    · have hbody : NotesNoMore room (fun free => b.collectFree (i.name :: (p.names ++ bound)) free)
          fun free => b'.collectFree (i'.name :: (p'.names ++ bound')) free := h.2.2.1 hc
      exact (h.1 hc).trans ((h.2.1 hc).trans (hbody.trans (h.2.2.2 hc)))
  | .soac op es cs s, V, q, q', e', h, ht, hV => by
    obtain ⟨cs', q₁, hcs, h⟩ := State.bind_eq.1 h
    obtain ⟨op', q₂, hop, h⟩ := State.bind_eq.1 h
    obtain ⟨es', q₃, hes, h⟩ := State.bind_eq.1 h
    obtain ⟨rfl, rfl⟩ := State.pure_eq.1 h
    obtain ⟨rfl, hcs', hfree⟩ := Renaming.copies_uses hcs ht.1
    have hco := op.copies hop ht.2.1 hV
    have hce := Exp.copiesAll es hes ht.2.2 (hco.grows.below hV)
    have h := hco.seq hce
    refine ⟨h.grows, fun hroom B hB => ⟨hcs', h.tidy hroom B hB⟩, fun hroom env env' hr => ?_,
      fun room hroom bound bound' hh hc => ?_⟩
    · obtain ⟨ho, he⟩ := h.same hroom env env' hr
      rw [Exp.eval, Exp.eval, ← he.length_eq, Exp.evalArrays_eq he, ho]
    · obtain ⟨ho, he⟩ := h.free room hroom bound bound' hh
      exact (hfree _ _ _ hh hc).trans ((ho hc).trans (he hc))
termination_by structural e => e

/-- Tidy expressions are copied. -/
theorem Exp.copiesAll : ∀ (es : List Exp) {V : Set Name} {q q' : Renaming} {es' : List Exp},
    Exp.traverseAll Renaming.visitor es q = (es', q') → Exp.TidyAll c B V es → q.Below V →
    q.Copies q' V (fun B V => Exp.TidyAll c B V es')
      (fun env env' => List.Forall₂ (fun e e' => e'.eval call env' = e.eval call env) es es')
      fun room bound bound' => c →
        NotesNoMore room (fun free => Exp.collectFreeAll bound free es)
          fun free => Exp.collectFreeAll bound' free es'
  | [], V, q, q', es', h, ht, hV => by
    cases h
    exact ⟨.refl _ _, fun _ _ _ => trivial, fun _ _ _ _ => .nil, fun _ _ _ _ _ _ _ _ h => h⟩
  | e :: es, V, q, q', es', h, ht, hV => by
    obtain ⟨e₁, q₁, he, h⟩ := State.bind_eq.1 h
    obtain ⟨es₁, q₂, hes, h⟩ := State.bind_eq.1 h
    obtain ⟨rfl, rfl⟩ := State.pure_eq.1 h
    have hce := e.copies he ht.1 hV
    have hces := Exp.copiesAll es hes ht.2 (hce.grows.below hV)
    refine (hce.seq hces).map (fun _ _ h => h) (fun _ _ h => .cons h.1 h.2) fun _ _ _ h hc => ?_
    exact (h.1 hc).trans (h.2 hc)
termination_by structural e => e

/-- A tidy lambda is copied. -/
theorem Lambda.copies : ∀ (f : Lambda) {V : Set Name} {q q' : Renaming} {f' : Lambda},
    f.traverse Renaming.visitor q = (f', q') → f.Tidy c B V → q.Below V →
    q.Copies q' V (fun B V => f'.Tidy c B V)
      (fun env env' => f'.rets = f.rets ∧ f'.apply call env' = f.apply call env)
      fun room bound bound' => c →
        NotesNoMore room (fun free => f.collectFree bound free) fun free =>
          f'.collectFree bound' free
  | ⟨ps, b, ts⟩, V, q, q', f', h, ht, hV => by
    obtain ⟨ps', q₁, hps, h⟩ := State.bind_eq.1 h
    obtain ⟨b', q₂, hb, h⟩ := State.bind_eq.1 h
    obtain ⟨ts', q₃, hts, h⟩ := State.bind_eq.1 h
    obtain ⟨rfl, rfl⟩ := State.pure_eq.1 h
    obtain ⟨rfl, rfl⟩ := Prod.mk.inj ((Renaming.each_type ts q₂).symm.trans hts)
    -- the parameters are renamed first, and the body behind them
    have hbp := binds_each hV ht.1.nodup ht.1.new hps
    have hcb := Exp.copies b hb ht.2 hbp.below
    refine (hcb.bind hbp hV ht.1.nodup).map (fun _ _ h => h) (fun env env' h =>
      ⟨rfl, funext fun vs => ?_⟩) fun _ _ _ h => h
    rw [Lambda.apply, Lambda.apply, hbp.length]
    split
    · -- with another number of arguments both fail
      rename_i hlen
      rw [h vs hlen]
    · rfl
termination_by structural e => e

/-- A tidy combinator is copied. -/
theorem Combinator.copies : ∀ (o : Combinator) {V : Set Name} {q q' : Renaming} {o' : Combinator},
    o.traverse Renaming.visitor q = (o', q') → o.Tidy c B V → q.Below V →
    q.Copies q' V (fun B V => o'.Tidy c B V)
      (fun env env' => ∀ width rows, o'.eval call env' width rows = o.eval call env width rows)
      fun room bound bound' => c →
        NotesNoMore room (fun free => o.collectFree bound free) fun free =>
          o'.collectFree bound' free
  | .map f, V, q, q', o', h, ht, hV => by
    obtain ⟨f', q₁, hf, h⟩ := State.bind_eq.1 h
    obtain ⟨rfl, rfl⟩ := State.pure_eq.1 h
    refine (Lambda.copies f hf ht hV).map (fun _ _ h => h) (fun _ _ h _ _ => ?_) fun _ _ _ h => h
    rw [Combinator.eval, Combinator.eval, h.1, h.2]
  | .reduce f ne, V, q, q', o', h, ht, hV => by
    obtain ⟨f', q₁, hf, h⟩ := State.bind_eq.1 h
    obtain ⟨ne', q₂, hne, h⟩ := State.bind_eq.1 h
    obtain ⟨rfl, rfl⟩ := State.pure_eq.1 h
    have hcf := f.copies hf ht.1 hV
    have hcn := Exp.copiesAll ne hne ht.2 (hcf.grows.below hV)
    refine (hcf.seq hcn).map (fun _ _ h => h) (fun _ _ h _ _ => ?_) fun _ _ _ h hc => ?_
    · rw [Combinator.eval, Combinator.eval, h.1.2, Exp.evalAll_eq h.2]
    · exact (h.1 hc).trans (h.2 hc)
  | .scan f ne, V, q, q', o', h, ht, hV => by
    obtain ⟨f', q₁, hf, h⟩ := State.bind_eq.1 h
    obtain ⟨ne', q₂, hne, h⟩ := State.bind_eq.1 h
    obtain ⟨rfl, rfl⟩ := State.pure_eq.1 h
    have hcf := f.copies hf ht.1 hV
    have hcn := Exp.copiesAll ne hne ht.2 (hcf.grows.below hV)
    refine (hcf.seq hcn).map (fun _ _ h => h) (fun _ _ h _ _ => ?_) fun _ _ _ h hc => ?_
    · rw [Combinator.eval, Combinator.eval, h.1.2, Exp.evalAll_eq h.2]
    · exact (h.1 hc).trans (h.2 hc)
  | .filter f, V, q, q', o', h, ht, hV => by
    obtain ⟨f', q₁, hf, h⟩ := State.bind_eq.1 h
    obtain ⟨rfl, rfl⟩ := State.pure_eq.1 h
    refine (Lambda.copies f hf ht hV).map (fun _ _ h => h) (fun _ _ h _ _ => ?_) fun _ _ _ h => h
    rw [Combinator.eval, Combinator.eval, h.2]
  | .redomap f g ne, V, q, q', o', h, ht, hV => by
    obtain ⟨f', q₁, hf, h⟩ := State.bind_eq.1 h
    obtain ⟨g', q₂, hg, h⟩ := State.bind_eq.1 h
    obtain ⟨ne', q₃, hne, h⟩ := State.bind_eq.1 h
    obtain ⟨rfl, rfl⟩ := State.pure_eq.1 h
    have hcf := f.copies hf ht.1 hV
    have hV₁ := hcf.grows.below hV
    have hcg := g.copies hg ht.2.1 hV₁
    have hcn := Exp.copiesAll ne hne ht.2.2 (hcg.grows.below hV₁)
    refine (hcf.seq (hcg.seq hcn)).map (fun _ _ h => h) (fun _ _ h _ _ => ?_) fun _ _ _ h hc => ?_
    · rw [Combinator.eval, Combinator.eval, h.2.1.2, Exp.evalAll_eq h.2.2]
    · exact (h.1 hc).trans ((h.2.1 hc).trans (h.2.2 hc))
termination_by structural e => e

end

namespace Lambda

variable {f f' : Lambda} {s s' : NameSupply} {V : Set Name}

/-- A fresh copy is the outcome of a walk from a renaming that changes nothing yet. -/
theorem freshen_copies (call : CalleeOver τ) (h : f.freshen s = (f', s')) (ht : f.Tidy c B V)
    (hV : ∀ x ∈ V, x.tag < s.count) :
    ∃ q' : Renaming, q'.supply = s' ∧
      (Renaming.mk s []).Copies q' V (fun B V => f'.Tidy c B V)
        (fun env env' => f'.rets = f.rets ∧ f'.apply call env' = f.apply call env)
        fun room bound bound' => c →
          NotesNoMore room (fun free => f.collectFree bound free) fun free =>
            f'.collectFree bound' free := by
  obtain ⟨hf, hs⟩ := Prod.mk.inj h
  exact ⟨((f.traverse Renaming.visitor).run ⟨s, []⟩).2, hs,
    f.copies (by rw [← hf]; rfl) ht fun x hx => hV x hx⟩

/-- A fresh copy keeps to the scope and binds names that were handed out for it. -/
theorem freshen_tidy (h : f.freshen s = (f', s')) (hroom : s'.InRange) (ht : f.Tidy c B V)
    (hV : ∀ x ∈ V, x.tag < s.count) :
    s.count ≤ s'.count ∧ f'.Tidy c (s.until s') V ∧ f'.rets = f.rets := by
  obtain ⟨q', rfl, hc⟩ := freshen_copies (Program.call ⟨[]⟩) h ht hV
  refine ⟨hc.grows.supply, ?_, (hc.same hroom .empty .empty fun _ _ => rfl).1⟩
  have htidy := hc.tidy hroom _ subset_rfl
  rwa [show (Renaming.mk s []).rename '' V = V from Set.image_id V] at htidy

/-- A fresh copy does what the lambda does. -/
theorem freshen_apply (h : f.freshen s = (f', s')) (hroom : s'.InRange) (ht : f.Tidy c B V)
    (hV : ∀ x ∈ V, x.tag < s.count) (env : Env) : f'.apply call env = f.apply call env := by
  obtain ⟨q', rfl, hc⟩ := freshen_copies call h ht hV
  exact (hc.same hroom env env fun _ _ => rfl).2

/-- A fresh copy has no free variables but those of the lambda, and with room it has them in their
order. -/
theorem freshen_freeVars (h : f.freshen s = (f', s')) (ht : f.Tidy true B V)
    (hV : ∀ x ∈ V, x.tag < s.count) :
    (∀ x ∈ Pattern.names f'.freeVars, x ∈ Pattern.names f.freeVars)
      ∧ (s'.InRange → f'.freeVars = f.freeVars) := by
  obtain ⟨q', rfl, hc⟩ := freshen_copies (Program.call ⟨[]⟩) h ht hV
  refine hc.free q'.supply.InRange id [] [] (fun x _ => ?_) rfl [] [] ⟨fun _ => id, fun _ => rfl⟩
  rw [if_neg List.not_mem_nil]
  exact ⟨rfl, fun _ => List.not_mem_nil⟩

/-- A lambda whose binders are distinct and not free in it is tidy in the scope of its own free
names. -/
theorem tidy_free (hnodup : f.binders.Nodup) (hfree : ∀ x ∈ f.freeVars, x.name ∉ f.binders) :
    f.Tidy true Set.univ (f.free true) := by
  refine tidy subset_rfl ⟨hnodup, fun _ _ => trivial, fun x hx hv => ?_⟩
  obtain ⟨y, hy, rfl⟩ := List.mem_map.1 (f.mem_freeVars.2 hv)
  exact hfree y hy hx

/-- The free names of a lambda are those of its free variables. -/
theorem tag_lt_of_free {tag : Nat} (htag : ∀ x ∈ f.freeVars, x.name.tag < tag) :
    ∀ x ∈ f.free true, x.tag < tag := by
  intro x hx
  obtain ⟨y, hy, rfl⟩ := List.mem_map.1 (f.mem_freeVars.2 hx)
  exact htag y hy

/-- A fresh copy of a lambda whose binders are distinct and not free in it has the same free
variables in the same order, if there are tags for all its binders.  Applied to the same arguments
it has the same outcome in every session, and leaves the same session behind.  Nothing is asked of
the tags of the binders: a fresh name may well be that of a binder that is replaced. -/
theorem freshen_same (h : f.freshen s = (f', s')) (hroom : s'.InRange) (hnodup : f.binders.Nodup)
    (hfree : ∀ x ∈ f.freeVars, x.name ∉ f.binders) (htag : ∀ x ∈ f.freeVars, x.name.tag < s.count) :
    f'.freeVars = f.freeVars ∧ ∀ (p : Program) (env : Env) (args : List Value) (t : Session),
      p.applyLambda env f' args t = p.applyLambda env f args t := by
  have htidy := tidy_free hnodup hfree
  have hold := tag_lt_of_free htag
  refine ⟨(freshen_freeVars h htidy hold).2 hroom, fun p env args t => ?_⟩
  rw [Program.applyLambda, Program.applyLambda, freshen_apply h hroom htidy hold]

/-- A map with a certificate that calls a function, an update and a loop, in the scope of two free
names. -/
theorem freshen_same_nested :
    let n : Ident := ⟨⟨"n", 0⟩, .int⟩
    let xs : Ident := ⟨⟨"xs", 1⟩, .array .int⟩
    let k : Ident := ⟨⟨"k", 2⟩, .int⟩
    let r : Ident := ⟨⟨"r", 3⟩, .int⟩
    let ys : Ident := ⟨⟨"ys", 4⟩, .array .int⟩
    let zs : Ident := ⟨⟨"zs", 5⟩, .array .int⟩
    let acc : Ident := ⟨⟨"acc", 6⟩, .int⟩
    let i : Ident := ⟨⟨"i", 7⟩, .int⟩
    let add (a b : Exp) : Exp := .binary .plus a b .int .dummy
    let f : Lambda := ⟨[k],
      .letIn [ys] (.soac (.map ⟨[r], add (.call "double" [.ofIdent r] .int .dummy) (.ofIdent k),
          [.int]⟩) [.ofIdent xs] [xs] .dummy)
        (.update zs ys [.lit (.int 0) .dummy] (.ofIdent n)
          (.loop [acc] [.lit (.int 0) .dummy] i (.ofIdent k)
            (add (.ofIdent acc) (.index zs [.ofIdent i] .dummy))
            (add (.ofIdent acc) (.ofIdent n)) .dummy) .dummy) .dummy, [.int]⟩
    let p : Program := ⟨[⟨"double", [k], .int, add (.ofIdent k) (.ofIdent k), .dummy⟩]⟩
    let env : Env := (Env.empty.extend n.name (.int 5)).extend xs.name (.array [.int 1, .int 2])
    let f' := (f.freshen ⟨8⟩).1
    (f.freshen ⟨8⟩).2.InRange ∧ f.binders.Nodup ∧ f.freeVars = [xs, n]
      ∧ f'.params = [⟨⟨"k", 8⟩, .int⟩] ∧ f'.freeVars = [xs, n]
      ∧ (p.applyLambda env f' [.int 2] .new).1 = .ok [.int 16]
      ∧ p.applyLambda env f' [.int 2] .new = p.applyLambda env f [.int 2] .new := by
  intro n xs k r ys zs acc i add f p env f'
  have hnodup : f.binders.Nodup := by decide
  have hvars : f.freeVars = [xs, n] := by decide
  have happly : (p.applyLambda env f [.int 2] .new).1 = .ok [.int 16] := rfl
  have hroom : (f.freshen ⟨8⟩).2.InRange := by decide
  obtain ⟨hfree, hsame⟩ := freshen_same (f := f) (s := ⟨8⟩) rfl hroom hnodup (by decide) (by decide)
  exact ⟨hroom, hnodup, hvars, rfl, hfree.trans hvars, (congrArg Prod.fst (hsame ..)).trans happly,
    hsame ..⟩

/-- Adds a number that is free in it to the successor of its argument. -/
def succPlusFree : Lambda :=
  let p : Ident := ⟨⟨"p", 1⟩, .int⟩
  let x : Ident := ⟨⟨"x", 2⟩, .int⟩
  let add (a b : Exp) : Exp := .binary .plus a b .int .dummy
  ⟨[p], .bind [x] (add (.ofIdent p) (.lit (.int 1) .dummy))
    (add (.ofIdent x) (.ofIdent ⟨⟨"x", 0⟩, .int⟩)), [.int]⟩

/-- A supply with one tag left, which is larger than all tags of the lambda.  The second binder gets
the first tag of all, and with it the name that is free in the lambda. -/
theorem freshen_captures :
    let f := succPlusFree
    let s : NameSupply := ⟨4294967295⟩
    let env : Env := Env.empty.extend ⟨"x", 0⟩ (.int 10)
    f.binders.Nodup ∧ (∀ y ∈ f.freeVars, y.name ∉ f.binders)
      ∧ (∀ y ∈ f.freeVars, y.name.tag < s.next)
      ∧ (∀ y ∈ f.binders, y.tag < s.next) ∧ f.freeVars = [⟨⟨"x", 0⟩, .int⟩]
      ∧ (f.freshen s).1.freeVars = []
      ∧ (Program.applyLambda ⟨[]⟩ env f [.int 1] .new).1 = .ok [.int 12]
      ∧ (Program.applyLambda ⟨[]⟩ env (f.freshen s).1 [.int 1] .new).1 = .ok [.int 4] :=
  ⟨by decide, by decide, by decide, by decide, by decide, by decide, rfl, rfl⟩

end Lambda

end

end ArrayFusion
